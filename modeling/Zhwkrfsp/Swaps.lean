import Mathlib.Data.List.Chain
import Mathlib.Data.List.Sort
import Mathlib.Data.List.TakeWhile

/- Sorting by exchanging neighbours. A sweep looks for the first two neighbours that a
   relation wants exchanged, and starts over after each exchange. So it sinks one element
   after the other into the part before it, as insertion sort does, and ends with
   what that gives, unless an element and the one it has sunk below want to be
   exchanged again: then the two change places for ever. Nothing is assumed of the
   relation. -/
namespace Swaps

/-! A loop that repeats a step until there is none. -/

section
variable {β : Type} (step : β → Option β)

def loop : Nat → β → Option β
  | 0, _ => none
  | turns + 1, b =>
    match step b with
    | none => some b
    | some b => loop turns b

/-- From `b` the loop ends in `c`. -/
def Ends (b c : β) : Prop := ∃ turns, loop step turns b = some c

variable {step} {b b' c : β}

theorem ends_of_none (h : step b = none) : Ends step b c ↔ c = b := by
  constructor
  · rintro ⟨_ | turns, e⟩
    · cases e
    · rw [loop, h] at e
      cases e
      rfl
  · rintro rfl
    exact ⟨1, by rw [loop, h]⟩

theorem ends_of_some (h : step b = some b') : Ends step b c ↔ Ends step b' c := by
  constructor
  · rintro ⟨_ | turns, e⟩
    · cases e
    · rw [loop, h] at e
      exact ⟨turns, e⟩
  · rintro ⟨turns, e⟩
    exact ⟨turns + 1, by rw [loop, h]; exact e⟩

/-- Two steps that lead back. -/
theorem not_ends_of_cycle (h : step b = some b') (h' : step b' = some b) : ¬Ends step b c := by
  rintro ⟨turns, e⟩
  induction turns using Nat.strongRecOn with
  | ind turns ih =>
    rcases turns with _ | _ | turns
    · cases e
    · rw [loop, h] at e
      cases e
    · rw [loop, h] at e
      dsimp only at e
      rw [loop, h'] at e
      exact ih turns (by omega) e

end

/-! Lists in which nothing is left to exchange. -/

section
variable {α : Type}

/-- No two neighbours are to be exchanged. -/
def Stable (R : α → α → Prop) (l : List α) : Prop := l.IsChain fun x y => ¬R x y

namespace Stable
variable {R : α → α → Prop} {l p q : List α} {x y : α}

theorem nil : Stable R ([] : List α) := List.isChain_nil

theorem left (h : Stable R (p ++ q)) : Stable R p := h.left_of_append

theorem right (h : Stable R (p ++ q)) : Stable R q := h.right_of_append

theorem concat (h : Stable R p) (hx : ∀ y ∈ p.getLast?, ¬R y x) : Stable R (p ++ [x]) := by
  apply List.IsChain.append h (List.isChain_singleton x)
  intro y hy z hz
  cases hz
  exact hx y hy

/-- Two stable parts around an element. -/
theorem append_cons (hp : Stable R (p ++ [x])) (hq : Stable R q) (h : ∀ y ∈ q.head?, ¬R x y) :
    Stable R (p ++ x :: q) := by
  rw [List.append_cons]
  apply List.IsChain.append hp hq
  intro z hz y hy
  rw [List.getLast?_concat] at hz
  cases hz
  exact h y hy

end Stable

end

section
variable {α : Type} (R : α → α → Prop) [DecidableRel R]

/-- The list after the first exchange, if there is one. -/
def sweep : List α → Option (List α)
  | x :: y :: l => if R x y then some (y :: x :: l) else (sweep (y :: l)).map (x :: ·)
  | _ => none

/-- Insertion sort from the front: each element sinks below the ones before it as long
    as it is to be exchanged with them. -/
def settle (l : List α) : List α := (l.reverse.insertionSort fun x y => ¬R y x).reverse

variable {R} {l p q : List α} {x y : α}

theorem settle_perm (l : List α) : (settle R l).Perm l := by
  have h := List.perm_insertionSort (fun x y => ¬R y x) l.reverse
  exact (List.reverse_perm _).trans (h.trans (List.reverse_perm l))

@[simp] theorem settle_nil : settle R [] = [] := rfl

@[simp] theorem settle_singleton (x : α) : settle R [x] = [x] := rfl

/-- Where one more element sinks to. -/
theorem settle_concat (l : List α) (x : α) :
    ∃ a b, settle R l = a ++ b ∧ settle R (l ++ [x]) = a ++ x :: b ∧ (∀ y ∈ b, R y x) ∧
      ∀ y ∈ a.getLast?, ¬R y x := by
  have hs : settle R (l ++ [x]) = (List.orderedInsert (fun x y => ¬R y x) x
      (l.reverse.insertionSort fun x y => ¬R y x)).reverse := by
    rw [settle, List.reverse_append, List.reverse_singleton, List.singleton_append,
      List.insertionSort_cons]
  rw [hs, List.orderedInsert_eq_take_drop, settle]
  generalize l.reverse.insertionSort (fun x y => ¬R y x) = s
  refine ⟨(s.dropWhile fun b => ¬¬R b x).reverse, (s.takeWhile fun b => ¬¬R b x).reverse, ?_, ?_,
    fun y hy => ?_, fun y hy => ?_⟩
  · rw [← List.reverse_append, List.takeWhile_append_dropWhile]
  · simp
  · rw [List.mem_reverse] at hy
    simpa using List.mem_takeWhile_imp hy
  · rw [List.getLast?_reverse] at hy
    have h := List.head?_dropWhile_not (fun b => decide ¬¬R b x) s
    rw [Option.mem_def.1 hy] at h
    simpa using h

/-- A sweep passes over a stable part. -/
theorem sweep_append (h : Stable R (p ++ [x])) :
    sweep R (p ++ x :: q) = (sweep R (x :: q)).map (p ++ ·) := by
  induction p with
  | nil => simp
  | cons y p ih =>
    have hp := ih h.tail
    cases p with
    | nil =>
      have hyx : ¬R y x := by simpa [Stable] using h
      rw [List.singleton_append, sweep, if_neg hyx]
      rfl
    | cons z p =>
      have hyz : ¬R y z := by
        simp only [Stable, List.cons_append, List.isChain_cons_cons] at h
        exact h.1
      rw [List.cons_append, List.cons_append, sweep, if_neg hyz, ← List.cons_append, hp,
        Option.map_map]
      rfl

theorem sweep_stable (h : Stable R l) : sweep R l = none := by
  rcases List.eq_nil_or_concat l with rfl | ⟨p, x, rfl⟩
  · rfl
  · rw [List.concat_eq_append] at h ⊢
    rw [sweep_append h]
    rfl

/-- The exchange that a sweep makes. -/
theorem sweep_swap (h : Stable R (p ++ [x])) (hxy : R x y) :
    sweep R (p ++ x :: y :: q) = some (p ++ y :: x :: q) := by
  rw [sweep_append h, sweep, if_pos hxy, Option.map_some]

/-- An element sinks below those it is to be exchanged with. -/
theorem ends_sink {a b : List α} {c : List α} (h : Stable R (a ++ b)) (hb : ∀ y ∈ b, R y x)
    (q : List α) :
    Ends (sweep R) (a ++ b ++ x :: q) c ↔ Ends (sweep R) (a ++ x :: (b ++ q)) c := by
  induction b using List.reverseRecOn generalizing q with
  | nil => rw [List.append_nil, List.nil_append]
  | append_singleton b y ih =>
    rw [← List.append_assoc] at h
    have hy : R y x := hb y (by simp)
    -- the last of them comes first
    have hstep : sweep R (a ++ (b ++ [y]) ++ x :: q) = some (a ++ b ++ x :: y :: q) := by
      rw [← List.append_assoc, List.append_assoc (a ++ b), List.singleton_append]
      exact sweep_swap h hy
    rw [ends_of_some hstep, ih h.left (fun z hz => hb z (by simp [hz])),
      List.append_assoc, List.singleton_append]

/-- What follows a settled part is settled element by element. -/
theorem ends_settle (h : Stable R (settle R p)) (q : List α) {c : List α} :
    Ends (sweep R) (settle R p ++ q) c ↔
      (∀ r, r <+: q → Stable R (settle R (p ++ r))) ∧ c = settle R (p ++ q) := by
  induction q generalizing p with
  | nil =>
    rw [List.append_nil, ends_of_none (sweep_stable h), List.append_nil]
    refine ⟨fun e => ⟨fun r hr => ?_, e⟩, fun e => e.2⟩
    rw [List.prefix_nil.1 hr, List.append_nil]
    exact h
  | cons x q ih =>
    obtain ⟨a, b, e, e', hb, ha⟩ := settle_concat (R := R) p x
    rw [e] at h
    have hsunk : Ends (sweep R) (settle R p ++ x :: q) c ↔
        Ends (sweep R) (settle R (p ++ [x]) ++ q) c := by
      rw [e, e', ends_sink h hb, List.append_assoc, List.cons_append]
    rw [hsunk, List.append_cons p x q]
    by_cases hs : Stable R (settle R (p ++ [x]))
    · -- the induction goes on behind `x`
      rw [ih hs]
      apply and_congr_left
      intro _
      constructor
      · intro hq r hr
        rcases r with _ | ⟨y, r⟩
        · rw [List.append_nil, e]
          exact h
        · obtain ⟨rfl, hr'⟩ := List.cons_prefix_cons.1 hr
          rw [List.append_cons]
          exact hq r hr'
      · intro hq r hr
        have hr := hq (x :: r) (List.cons_prefix_cons.2 ⟨rfl, hr⟩)
        rw [List.append_cons] at hr
        exact hr
    · apply iff_of_false
      · -- the element and the one it has sunk below change places for ever
        have hax : Stable R (a ++ [x]) := h.left.concat ha
        rw [e'] at hs ⊢
        cases b with
        | nil => exact absurd hax hs
        | cons y b =>
          have hay : Stable R (a ++ [y]) := by
            rw [List.append_cons] at h
            exact h.left
          have hxy : R x y := by
            by_contra hxy
            apply hs
            apply hax.append_cons h.right
            intro z hz
            cases hz
            exact hxy
          rw [List.append_assoc, List.cons_append, List.cons_append]
          exact not_ends_of_cycle (sweep_swap hax hxy) (sweep_swap hay (hb y List.mem_cons_self))
      · intro hq
        exact hs (hq.1 [x] (List.cons_prefix_cons.2 ⟨rfl, List.nil_prefix⟩))

/-- Where sweeps end, and that they do. -/
theorem ends_iff {c : List α} :
    Ends (sweep R) l c ↔ (∀ p, p <+: l → Stable R (settle R p)) ∧ c = settle R l := by
  have h := ends_settle (R := R) (p := []) Stable.nil l (c := c)
  simpa using h

/-- Where no two elements are to be exchanged both ways, every part settles. -/
theorem stable_settle (h : l.Pairwise fun x y => ¬R x y ∨ ¬R y x) (hp : p <+: l) :
    Stable R (settle R p) := by
  have hpair := h.sublist hp.sublist
  clear hp
  induction p using List.reverseRecOn with
  | nil => exact Stable.nil
  | append_singleton p x ih =>
    rw [List.pairwise_append] at hpair
    obtain ⟨hpair, -, hx⟩ := hpair
    have hs := ih hpair
    obtain ⟨a, b, e, e', hb, ha⟩ := settle_concat (R := R) p x
    rw [e] at hs
    rw [e']
    apply (hs.left.concat ha).append_cons hs.right
    intro y hy
    have hyb : y ∈ b := List.mem_of_mem_head? hy
    have hyp : y ∈ p := (settle_perm p).subset (e ▸ List.mem_append_right a hyb)
    exact (hx y hyp x List.mem_cons_self).resolve_left (not_not.2 (hb y hyb))

/-- A relation that is symmetric wants every exchange undone: what settles is stable from
    the start. -/
theorem settle_eq_self (hsymm : ∀ x y, R x y → R y x)
    (h : ∀ p, p <+: l → Stable R (settle R p)) (hp : p <+: l) : settle R p = p := by
  induction p using List.reverseRecOn with
  | nil => rfl
  | append_singleton p x ih =>
    have hs := h _ hp
    obtain ⟨a, b, e, e', hb, -⟩ := settle_concat (R := R) p x
    have hself : a ++ b = p := e.symm.trans (ih ((List.prefix_append p [x]).trans hp))
    rw [e'] at hs ⊢
    cases b with
    | nil => rw [← hself, List.append_nil]
    | cons y b =>
      have hxy : ¬R x y := (List.isChain_cons_cons.1 hs.right).1
      exact absurd (hsymm y x (hb y List.mem_cons_self)) hxy

/-- Two elements that are to be exchanged both ways. -/
theorem not_stable_pair (hxy : R x y) (hyx : R y x) : ¬Stable R (settle R [x, y]) := by
  have e : settle R [x, y] = [y, x] := by simp [settle, hxy]
  rw [e]
  intro h
  exact List.isChain_pair.1 h hyx

end

/-! How many exchanges there are. -/

section
variable {β : Type} {step : β → Option β} {count : β → Nat}

/-- A loop whose steps count down to nothing takes as many turns as it counts, and one. -/
theorem loop_eq_none_iff (hsome : ∀ b b', step b = some b' → count b = count b' + 1)
    (hnone : ∀ b, step b = none → count b = 0) (turns : Nat) (b : β) :
    loop step turns b = none ↔ turns ≤ count b := by
  induction turns generalizing b with
  | zero => exact iff_of_true rfl (Nat.zero_le _)
  | succ turns ih =>
    rw [loop]
    cases e : step b with
    | none =>
      rw [hnone b e]
      exact iff_of_false (Option.some_ne_none b) (Nat.not_succ_le_zero turns)
    | some b' =>
      rw [hsome b b' e, Nat.succ_le_succ_iff]
      exact ih b'

/-- What every step keeps, the loop keeps. -/
theorem loop_keeps {γ : Type} {f : β → γ} (hstep : ∀ b b', step b = some b' → f b' = f b)
    {turns : Nat} {b c : β} (e : loop step turns b = some c) : f c = f b := by
  induction turns generalizing b with
  | zero => cases e
  | succ turns ih =>
    rw [loop] at e
    cases es : step b with
    | none =>
      rw [es] at e
      cases e
      rfl
    | some b' =>
      rw [es] at e
      exact (ih e).trans (hstep b b' es)

end

section
variable {α : Type} (R : α → α → Prop) [DecidableRel R]

/-- The pairs of elements that stand the wrong way round. -/
def inversions : List α → Nat
  | [] => 0
  | x :: l => l.countP (fun y => R x y) + inversions l

variable {R} {l l' : List α}

theorem sweep_perm (e : sweep R l = some l') : l'.Perm l := by
  induction l generalizing l' with
  | nil => cases e
  | cons x l ih =>
    cases l with
    | nil => cases e
    | cons y l =>
      rw [sweep] at e
      split at e
      · cases e
        exact List.Perm.swap x y l
      · obtain ⟨m, em, rfl⟩ := Option.map_eq_some_iff.1 e
        exact (ih em).cons x

theorem stable_of_sweep (e : sweep R l = none) : Stable R l := by
  induction l with
  | nil => exact Stable.nil
  | cons x l ih =>
    cases l with
    | nil => exact List.isChain_singleton x
    | cons y l =>
      rw [sweep] at e
      split at e
      · cases e
      · next hxy => exact List.isChain_cons_cons.2 ⟨hxy, ih (Option.map_eq_none_iff.1 e)⟩

/-- An exchange puts one pair right, and no other pair wrong. -/
theorem sweep_inversions (hR : ∀ x y, R x y → ¬R y x) (e : sweep R l = some l') :
    inversions R l = inversions R l' + 1 := by
  induction l generalizing l' with
  | nil => cases e
  | cons x l ih =>
    cases l with
    | nil => cases e
    | cons y l =>
      rw [sweep] at e
      split at e
      · next hxy =>
        cases e
        simp only [inversions, List.countP_cons, hxy, hR x y hxy, decide_true, decide_false,
          if_true, Bool.false_eq_true, if_false]
        omega
      · obtain ⟨m, em, rfl⟩ := Option.map_eq_some_iff.1 e
        calc inversions R (x :: y :: l)
            = (y :: l).countP (fun z => R x z) + inversions R (y :: l) := rfl
          _ = m.countP (fun z => R x z) + (inversions R m + 1) := by
            rw [ih em, (sweep_perm em).countP_eq]
          _ = inversions R (x :: m) + 1 := (Nat.add_assoc ..).symm

/-- A list all of whose pairs are the right way round. -/
theorem inversions_eq_zero (h : l.Pairwise fun x y => ¬R x y) : inversions R l = 0 := by
  induction l with
  | nil => rfl
  | cons x l ih =>
    obtain ⟨hx, hl⟩ := List.pairwise_cons.1 h
    rw [inversions, ih hl, Nat.add_zero, List.countP_eq_zero]
    intro y hy
    simpa using hx y hy

/-- Elements no two of which are to be exchanged keep their order. -/
theorem sweep_filter {p : α → Bool} (hp : ∀ x y, p x → p y → ¬R x y)
    (e : sweep R l = some l') : l'.filter p = l.filter p := by
  induction l generalizing l' with
  | nil => cases e
  | cons x l ih =>
    cases l with
    | nil => cases e
    | cons y l =>
      rw [sweep] at e
      split at e
      · next hxy =>
        cases e
        cases hx : p x with
        | false =>
          rw [List.filter_cons, List.filter_cons, List.filter_cons, List.filter_cons, hx]
          rfl
        | true =>
          have hy : p y = false := by
            by_contra hy
            exact hp x y hx (by simpa using hy) hxy
          rw [List.filter_cons, List.filter_cons, List.filter_cons, List.filter_cons, hx, hy]
          rfl
      · obtain ⟨m, em, rfl⟩ := Option.map_eq_some_iff.1 e
        rw [List.filter_cons, List.filter_cons, ih em]

end

end Swaps
