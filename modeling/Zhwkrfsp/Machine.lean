import Mathlib.Tactic.Common

/- Machines that take inputs one by one, answer each, and may fault (`none`).
   `Reached` collects the states of the runs whose steps all meet a condition;
   `refines` carries a step-by-step agreement with a faultless machine to
   whole runs. `spent` adds up what the steps of a run cost, and `spent_le` bounds it
   by a potential that pays for every step. -/
namespace Machine

variable {σ τ ι ο : Type}

/-- The answers to a list of inputs and the state after it. -/
def run (step : σ → ι → Option (ο × σ)) : List ι → σ → Option (List ο × σ)
  | [], s => some ([], s)
  | i :: is, s => do
    let (o, s) ← step s i
    let (os, s) ← run step is s
    return (o :: os, s)

/-- The same for a machine that cannot fault. -/
def runs (step : τ → ι → ο × τ) : List ι → τ → List ο × τ
  | [], t => ([], t)
  | i :: is, t =>
    let (o, t) := step t i
    let (os, t) := runs step is t
    (o :: os, t)

/-- The answer at a place of a run is that of one step, from the state before it. -/
theorem runs_getElem? (step : τ → ι → ο × τ) (is : List ι) (t : τ) (p : Nat) :
    (runs step is t).1[p]? = is[p]?.map fun i => (step (runs step (is.take p) t).2 i).1 := by
  induction is generalizing t p with
  | nil => rfl
  | cons i is ih =>
    cases p with
    | zero => rfl
    | succ p => exact ih (step t i).2 p

/-- The states on the runs from `init` each of whose steps meets `ok`. -/
inductive Reached (step : σ → ι → Option (ο × σ)) (ok : σ → ι → Prop) (init : σ) : σ → Prop
  | init : Reached step ok init init
  | step {s s' : σ} {i : ι} {o : ο} :
    Reached step ok init s → ok s i → step s i = some (o, s') → Reached step ok init s'

/-- Every step of the run on these inputs meets `ok`. -/
def Along (step : σ → ι → Option (ο × σ)) (ok : σ → ι → Prop) : List ι → σ → Prop
  | [], _ => True
  | i :: is, s => ok s i ∧
    match step s i with
    | none => True
    | some (_, s') => Along step ok is s'

instance decidableAlong (step : σ → ι → Option (ο × σ)) (ok : σ → ι → Prop)
    [∀ s i, Decidable (ok s i)] : ∀ is s, Decidable (Along step ok is s)
  | [], _ => .isTrue trivial
  | i :: is, s =>
    have : Decidable (match step s i with
      | none => True
      | some (_, s') => Along step ok is s') :=
      match step s i with
      | none => .isTrue trivial
      | some (_, s') => decidableAlong step ok is s'
    inferInstanceAs (Decidable (_ ∧ _))

namespace Reached
variable {step : σ → ι → Option (ο × σ)} {ok : σ → ι → Prop} {init s : σ}

/-- What holds at first and is kept by every step holds in every state reached. -/
theorem invariant {Inv : σ → Prop} (h : Reached step ok init s) (h₀ : Inv init)
    (keeps : ∀ s i o s', Inv s → ok s i → step s i = some (o, s') → Inv s') : Inv s := by
  induction h with
  | init => exact h₀
  | step _ hok e ih => exact keeps _ _ _ _ ih hok e

theorem of_run {is : List ι} {s' : σ} {os : List ο} (h : Reached step ok init s)
    (ha : Along step ok is s) (e : run step is s = some (os, s')) : Reached step ok init s' := by
  induction is generalizing s os with
  | nil =>
    cases e
    exact h
  | cons i is ih =>
    simp only [run, Option.bind_eq_bind, Option.bind_eq_some_iff, Option.pure_def,
      Option.some.injEq, Prod.mk.injEq, Prod.exists] at e
    obtain ⟨o, t, e₁, os', t', e₂, -, rfl⟩ := e
    obtain ⟨hi, ha⟩ := ha
    rw [e₁] at ha
    exact ih (.step h hi e₁) ha e₂

end Reached

/-- A faultless machine that answers as a machine does, state for related state,
    answers its whole runs so. -/
theorem refines {step : σ → ι → Option (ο × σ)} {spec : τ → ι → ο × τ} {R : σ → τ → Prop}
    (sim : ∀ s t i, R s t → ∃ s', step s i = some ((spec t i).1, s') ∧ R s' (spec t i).2)
    (is : List ι) (s : σ) (t : τ) (h : R s t) :
    ∃ s', run step is s = some ((runs spec is t).1, s') ∧ R s' (runs spec is t).2 := by
  induction is generalizing s t with
  | nil => exact ⟨s, rfl, h⟩
  | cons i is ih =>
    obtain ⟨s₁, e₁, h₁⟩ := sim s t i h
    obtain ⟨s₂, e₂, h₂⟩ := ih s₁ _ h₁
    exact ⟨s₂, by simp [run, runs, e₁, e₂], h₂⟩

/-- The same for a machine that agrees only in the steps that meet a condition. -/
theorem refines_along {step : σ → ι → Option (ο × σ)} {spec : τ → ι → ο × τ} {R : σ → τ → Prop}
    {ok : σ → ι → Prop}
    (sim : ∀ s t i, R s t → ok s i → ∃ s', step s i = some ((spec t i).1, s') ∧ R s' (spec t i).2)
    (is : List ι) (s : σ) (t : τ) (h : R s t) (ha : Along step ok is s) :
    ∃ s', run step is s = some ((runs spec is t).1, s') ∧ R s' (runs spec is t).2 := by
  induction is generalizing s t with
  | nil => exact ⟨s, rfl, h⟩
  | cons i is ih =>
    obtain ⟨hi, ha⟩ := ha
    obtain ⟨s₁, e₁, h₁⟩ := sim s t i h hi
    rw [e₁] at ha
    obtain ⟨s₂, e₂, h₂⟩ := ih s₁ _ h₁ ha
    exact ⟨s₂, by simp [run, runs, e₁, e₂], h₂⟩

/-! The cost of a run. -/

/-- What the steps of a run cost, as far as it gets. -/
def spent (step : σ → ι → Option (ο × σ)) (cost : σ → ι → Nat) : List ι → σ → Nat
  | [], _ => 0
  | i :: is, s => cost s i +
    match step s i with
    | none => 0
    | some (_, s') => spent step cost is s'

section
variable {step : σ → ι → Option (ο × σ)} {cost : σ → ι → Nat}

theorem spent_cons {i : ι} {is : List ι} {s s' : σ} {o : ο} (e : step s i = some (o, s')) :
    spent step cost (i :: is) s = cost s i + spent step cost is s' := by
  rw [spent, e]

theorem run_append {is js : List ι} {s s' : σ} {os : List ο} (e : run step is s = some (os, s')) :
    run step (is ++ js) s = (run step js s').map fun r => (os ++ r.1, r.2) := by
  induction is generalizing s os with
  | nil =>
    cases e
    simp
  | cons i is ih =>
    simp only [run, Option.bind_eq_bind, Option.bind_eq_some_iff, Option.pure_def,
      Option.some.injEq, Prod.mk.injEq, Prod.exists] at e
    obtain ⟨o, t, e₁, os', t', e₂, rfl, rfl⟩ := e
    rw [List.cons_append, run, e₁, Option.bind_eq_bind, Option.bind_some]
    dsimp only
    rw [ih e₂]
    cases run step js t' <;> rfl

theorem spent_append {is js : List ι} {s s' : σ} {os : List ο}
    (e : run step is s = some (os, s')) :
    spent step cost (is ++ js) s = spent step cost is s + spent step cost js s' := by
  induction is generalizing s os with
  | nil =>
    cases e
    rw [List.nil_append, spent, Nat.zero_add]
  | cons i is ih =>
    simp only [run, Option.bind_eq_bind, Option.bind_eq_some_iff, Option.pure_def,
      Option.some.injEq, Prod.mk.injEq, Prod.exists] at e
    obtain ⟨o, t, e₁, os', t', e₂, -, rfl⟩ := e
    rw [List.cons_append, spent_cons e₁, spent_cons e₁, ih e₂, Nat.add_assoc]

/-- A potential that grows by at least the cost of every step bounds the cost of a run. -/
theorem spent_le {ok : σ → ι → Prop} {Inv : σ → Prop} {Φ : σ → Nat}
    (pays : ∀ s i o s', Inv s → ok s i → step s i = some (o, s') →
      Inv s' ∧ cost s i + Φ s ≤ Φ s')
    {is : List ι} {s s' : σ} {os : List ο} (h : Inv s) (ha : Along step ok is s)
    (e : run step is s = some (os, s')) : Inv s' ∧ spent step cost is s + Φ s ≤ Φ s' := by
  induction is generalizing s os with
  | nil =>
    cases e
    exact ⟨h, Nat.le_of_eq (Nat.zero_add _)⟩
  | cons i is ih =>
    simp only [run, Option.bind_eq_bind, Option.bind_eq_some_iff, Option.pure_def,
      Option.some.injEq, Prod.mk.injEq, Prod.exists] at e
    obtain ⟨o, t, e₁, os', t', e₂, -, rfl⟩ := e
    obtain ⟨hi, ha⟩ := ha
    rw [e₁] at ha
    obtain ⟨ht, hpay⟩ := pays s i o t h hi e₁
    obtain ⟨hs', hrest⟩ := ih ht ha e₂
    rw [spent_cons e₁]
    exact ⟨hs', by omega⟩

end

end Machine
