import Mathlib.Tactic.Ring
import Zhwkrfsp.QVector

/- What a vector costs. The room is at most twice what the elements and one more need,
   and never less than they need (`Roomy`). Elements that are only added are moved to a new
   block a constant number of times each, the room paying for the moves (`pushes_move`).
   But a vector grows to twice the room when it is full, and gives half of it back when
   less than half is in use, so between the two no slack is left: two additions and a
   removal, again and again, move all the elements in every round (`rounds_move`). -/
namespace Zhwkrfsp.QVector
open Wire

/-- There is no room for one element more. -/
def Full (desc : Descriptor) : Prop := desc.allocated < (desc.size + 1) * desc.elemstep

/-- Without its last element, less than half of the room is in use. -/
def Slack (desc : Descriptor) : Prop :=
  2 * ((desc.size - 1) * desc.elemstep) < desc.allocated ∧ desc.allocated.tdiv 2 ≠ 0

instance (desc : Descriptor) : Decidable (Full desc) := inferInstanceAs (Decidable (_ < _))

instance (desc : Descriptor) : Decidable (Slack desc) := inferInstanceAs (Decidable (_ ∧ _))

/-- The bytes that a step copies from the old block to a new one. -/
def moved (s : State) : Op → Nat
  | .pushBack _ => if Full s.desc then s.desc.allocated.toNat else 0
  | .popBack | .erase _ => if Slack s.desc then ((s.desc.size - 1) * s.desc.elemstep).toNat else 0

/-! What a step makes of `size` and `allocated`. -/

theorem of_int {x y : Int} (h : int x = some y) : y = x := by
  unfold int at h
  split at h
  · exact (Option.some.inj h).symm
  · cases h

theorem reserve_room {desc : Descriptor} {d : Option Descriptor} {m : List Bool}
    (e : reserve desc [] = some (d, m)) : m = [] ∧ ∃ desc', d = some desc' ∧
      desc'.size = desc.size ∧ desc'.elemstep = desc.elemstep ∧ desc'.allocated =
        if Full desc then 2 * (desc.allocated + desc.elemstep) else desc.allocated := by
  obtain ⟨n, en, e⟩ := Option.bind_eq_some_iff.1 e
  obtain ⟨needed, e₁, e⟩ := Option.bind_eq_some_iff.1 e
  have hneeded : needed = (desc.size + 1) * desc.elemstep := by rw [of_int e₁, of_int en]
  subst hneeded
  by_cases hf : Full desc
  · have hlt : desc.allocated < (desc.size + 1) * desc.elemstep := hf
    rw [if_pos hlt] at e
    rw [if_pos hf]
    obtain ⟨s, es, e⟩ := Option.bind_eq_some_iff.1 e
    obtain ⟨a, ea, e⟩ := Option.bind_eq_some_iff.1 e
    have ha : a = 2 * (desc.allocated + desc.elemstep) := by rw [of_int ea, of_int es]
    subst ha
    rw [malloc] at e
    cases hc : desc.content with
    | none =>
      simp only [hc] at e
      cases e
      exact ⟨rfl, _, rfl, rfl, rfl, rfl⟩
    | some content =>
      simp only [hc] at e
      obtain ⟨old, -, e⟩ := Option.bind_eq_some_iff.1 e
      obtain ⟨new, -, e⟩ := Option.bind_eq_some_iff.1 e
      cases e
      exact ⟨rfl, _, rfl, rfl, rfl, rfl⟩
  · have hge : ¬desc.allocated < (desc.size + 1) * desc.elemstep := hf
    rw [if_neg hge] at e
    rw [if_neg hf]
    cases e
    exact ⟨rfl, _, rfl, rfl, rfl, rfl⟩

theorem pushBack_room {desc desc' : Descriptor} {x : Bytes} {rc : Int32} {m : List Bool}
    (e : pushBack desc x [] = some (rc, desc', m)) :
    desc'.size = desc.size + 1 ∧ desc'.elemstep = desc.elemstep ∧
      desc'.allocated = if Full desc then 2 * (desc.allocated + desc.elemstep)
        else desc.allocated := by
  obtain ⟨⟨d, m'⟩, ed, e⟩ := Option.bind_eq_some_iff.1 e
  obtain ⟨rfl, d, rfl, hsize, hstep, hroom⟩ := reserve_room ed
  obtain ⟨content, -, e⟩ := Option.bind_eq_some_iff.1 e
  obtain ⟨n, -, e⟩ := Option.bind_eq_some_iff.1 e
  obtain ⟨y, -, e⟩ := Option.bind_eq_some_iff.1 e
  obtain ⟨content', -, e⟩ := Option.bind_eq_some_iff.1 e
  obtain ⟨size, es, e⟩ := Option.bind_eq_some_iff.1 e
  cases e
  refine ⟨?_, hstep, hroom⟩
  show size = _
  rw [of_int es, hsize]

theorem popBack_room {desc desc' : Descriptor} {rc : Int32} {m : List Bool}
    (e : popBack desc [] = some (rc, desc', m)) :
    desc'.size = desc.size - 1 ∧ desc'.elemstep = desc.elemstep ∧
      desc'.allocated = if Slack desc then desc.allocated.tdiv 2 else desc.allocated := by
  obtain ⟨size, es, e⟩ := Option.bind_eq_some_iff.1 e
  obtain ⟨used, eu, e⟩ := Option.bind_eq_some_iff.1 e
  obtain ⟨twice, et, e⟩ := Option.bind_eq_some_iff.1 e
  have hsize := of_int es
  have htwice : twice = 2 * ((desc.size - 1) * desc.elemstep) := by
    rw [of_int et, of_int eu, hsize]
  subst hsize htwice
  by_cases hs : Slack desc
  · have hshrink : 2 * ((desc.size - 1) * desc.elemstep) < desc.allocated ∧
        desc.allocated.tdiv 2 ≠ 0 := hs
    rw [if_pos hshrink, malloc] at e
    rw [if_pos hs]
    obtain ⟨content, -, e⟩ := Option.bind_eq_some_iff.1 e
    obtain ⟨old, -, e⟩ := Option.bind_eq_some_iff.1 e
    obtain ⟨new, -, e⟩ := Option.bind_eq_some_iff.1 e
    cases e
    exact ⟨rfl, rfl, rfl⟩
  · have hkeep : ¬(2 * ((desc.size - 1) * desc.elemstep) < desc.allocated ∧
        desc.allocated.tdiv 2 ≠ 0) := hs
    rw [if_neg hkeep] at e
    rw [if_neg hs]
    cases e
    exact ⟨rfl, rfl, rfl⟩

theorem erase_room {desc desc' : Descriptor} {positional : Iterator} {rc : Int32} {m : List Bool}
    (e : erase desc positional [] = some (rc, desc', m)) :
    desc'.size = desc.size - 1 ∧ desc'.elemstep = desc.elemstep ∧
      desc'.allocated = if Slack desc then desc.allocated.tdiv 2 else desc.allocated := by
  rw [erase, malloc] at e
  obtain ⟨content, -, e⟩ := Option.bind_eq_some_iff.1 e
  obtain ⟨off, -, e⟩ := Option.bind_eq_some_iff.1 e
  obtain ⟨buffer, -, e⟩ := Option.bind_eq_some_iff.1 e
  obtain ⟨⟨i, block⟩, -, e⟩ := Option.bind_eq_some_iff.1 e
  obtain ⟨off', -, e⟩ := Option.bind_eq_some_iff.1 e
  obtain ⟨block', -, e⟩ := Option.bind_eq_some_iff.1 e
  have h := popBack_room e
  exact h

/-- A removal of either kind. -/
theorem removed_room {s s' : State} {op : Op} {rc : Int32} (hm : s.mallocs = [])
    (hop : ∀ x, op ≠ .pushBack x) (e : step s op = some (rc, s')) :
    s'.desc.size = s.desc.size - 1 ∧ s'.desc.elemstep = s.desc.elemstep ∧
      s'.desc.allocated = if Slack s.desc then s.desc.allocated.tdiv 2 else s.desc.allocated := by
  cases op with
  | pushBack x => exact absurd rfl (hop x)
  | popBack =>
    obtain ⟨⟨rc', d, m⟩, e', h⟩ := Option.map_eq_some_iff.1 e
    cases h
    rw [hm] at e'
    exact popBack_room e'
  | erase delta =>
    obtain ⟨i, -, e⟩ := Option.bind_eq_some_iff.1 e
    obtain ⟨⟨rc', d, m⟩, e', h⟩ := Option.bind_eq_some_iff.1 e
    cases h
    rw [hm] at e'
    exact erase_room e'

theorem pushed_room {s s' : State} {x : Bytes} {rc : Int32} (hm : s.mallocs = [])
    (e : step s (.pushBack x) = some (rc, s')) :
    s'.desc.size = s.desc.size + 1 ∧ s'.desc.elemstep = s.desc.elemstep ∧
      s'.desc.allocated = if Full s.desc then 2 * (s.desc.allocated + s.desc.elemstep)
        else s.desc.allocated := by
  obtain ⟨⟨rc', d, m⟩, e', h⟩ := Option.map_eq_some_iff.1 e
  cases h
  rw [hm] at e'
  exact pushBack_room e'

/-! The room. -/

/-- The room is enough for the elements, and for no more than twice one element more. -/
structure Roomy (desc : Descriptor) : Prop where
  elemstep : 0 < desc.elemstep
  size : 0 ≤ desc.size
  enough : desc.size * desc.elemstep ≤ desc.allocated
  twice : desc.allocated ≤ 2 * ((desc.size + 1) * desc.elemstep)

theorem roomy_init {elemsize : Nat} (h : 0 < elemsize) : Roomy (init elemsize).desc where
  elemstep := Int.natCast_pos.2 h
  size := Int.le_refl 0
  enough := by
    show (0 : Int) * elemsize ≤ 0
    exact Int.le_of_eq (Int.zero_mul _)
  twice := by
    show (0 : Int) ≤ 2 * ((0 + 1) * elemsize)
    omega

theorem Roomy.pushed {s s' : State} {x : Bytes} {rc : Int32} (h : Roomy s.desc)
    (hm : s.mallocs = []) (e : QVector.step s (.pushBack x) = some (rc, s')) : Roomy s'.desc := by
  obtain ⟨hsize, hstep, hroom⟩ := pushed_room hm e
  obtain ⟨hpos, hn, henough, htwice⟩ := h
  have hnext : (s.desc.size + 1 + 1) * s.desc.elemstep =
      s.desc.size * s.desc.elemstep + 2 * s.desc.elemstep := by
    rw [Int.add_mul, Int.add_mul, Int.one_mul]
    omega
  have hsucc : (s.desc.size + 1) * s.desc.elemstep =
      s.desc.size * s.desc.elemstep + s.desc.elemstep := by
    rw [Int.add_mul, Int.one_mul]
  have hnonneg : 0 ≤ s.desc.size * s.desc.elemstep := Int.mul_nonneg hn (Int.le_of_lt hpos)
  refine ⟨by rw [hstep]; exact hpos, by omega, ?_, ?_⟩
  · rw [hsize, hstep, hroom, hsucc]
    split
    · omega
    · next hf =>
      unfold Full at hf
      omega
  · rw [hsize, hstep, hroom, hnext]
    split
    · next hf =>
      unfold Full at hf
      omega
    · omega

theorem Roomy.removed {s s' : State} {op : Op} {rc : Int32} (h : Roomy s.desc)
    (hm : s.mallocs = []) (hop : ∀ x, op ≠ .pushBack x) (hpos : 0 < s.desc.size)
    (e : QVector.step s op = some (rc, s')) : Roomy s'.desc := by
  obtain ⟨hsize, hstep, hroom⟩ := removed_room hm hop e
  obtain ⟨hstep', -, henough, htwice⟩ := h
  have hpred : (s.desc.size - 1) * s.desc.elemstep =
      s.desc.size * s.desc.elemstep - s.desc.elemstep := by
    rw [Int.sub_mul, Int.one_mul]
  have hsucc : (s.desc.size + 1) * s.desc.elemstep =
      s.desc.size * s.desc.elemstep + s.desc.elemstep := by
    rw [Int.add_mul, Int.one_mul]
  have hle : 1 * s.desc.elemstep ≤ s.desc.size * s.desc.elemstep :=
    Int.mul_le_mul_of_nonneg_right hpos (Int.le_of_lt hstep')
  have hhalf : s.desc.allocated.tdiv 2 = s.desc.allocated / 2 :=
    Int.tdiv_eq_ediv_of_nonneg (by omega)
  refine ⟨by rw [hstep]; exact hstep', by omega, ?_, ?_⟩
  · rw [hsize, hstep, hroom, hpred]
    split
    · next hs =>
      unfold Slack at hs
      omega
    · omega
  · rw [hsize, hstep, hroom, Int.sub_add_cancel]
    split
    · omega
    · next hs =>
      unfold Slack at hs
      omega

/-- The vector holds `xs`, in a room of the right size. -/
def Housed (elemsize : Nat) (s : State) (xs : List Bytes) : Prop := Rep elemsize s xs ∧ Roomy s.desc

theorem housed_sim {elemsize : Nat} (hsize : 0 < elemsize) (s : State) (xs : List Bytes) (op : Op)
    (hr : Housed elemsize s xs) (hok : Allowed s op) :
    ∃ s', step s op = some ((seqStep xs op).1, s') ∧ Housed elemsize s' (seqStep xs op).2 := by
  obtain ⟨hrep, hroomy⟩ := hr
  obtain ⟨s', e, hrep'⟩ := sim hsize s xs op hrep hok
  refine ⟨s', e, hrep', ?_⟩
  cases op with
  | pushBack x => exact hroomy.pushed hrep.1 e
  | popBack => exact hroomy.removed hrep.1 (by simp) hok e
  | erase delta =>
    have hvalid : isvalid s.desc ⟨delta, s.desc.elemstep⟩ = true := hok
    rw [isvalid, Bool.and_eq_true, decide_eq_true_eq, decide_eq_true_eq] at hvalid
    exact hroomy.removed hrep.1 (by simp) (Int.lt_of_le_of_lt hvalid.2 hvalid.1) e

/-! Additions only. -/

/-- The step adds an element, and may. -/
def Adds (s : State) (op : Op) : Prop := Allowed s op ∧ ∃ x, op = .pushBack x

theorem allowed_push {elemsize : Nat} {s : State} {xs : List Bytes} {x : Bytes}
    (hr : Rep elemsize s xs) (hx : x.length = elemsize)
    (hfit : (xs.length + 1) * elemsize < 2 ^ 29) : Allowed s (.pushBack x) := by
  obtain ⟨-, rest, h⟩ := hr
  refine ⟨by rw [hx, h.elemstep], ?_⟩
  rw [h.size, h.elemstep]
  exact Int.ofNat_lt.2 hfit

/-- Elements that fit can be added one after the other. -/
theorem along_adds {elemsize : Nat} (hsize : 0 < elemsize) {ys : List Bytes}
    (hys : ∀ y ∈ ys, y.length = elemsize) : ∀ {s : State} {xs : List Bytes}, Rep elemsize s xs →
      (xs.length + ys.length) * elemsize < 2 ^ 29 →
      Machine.Along step Adds (ys.map Op.pushBack) s ∧
      ∃ os s', Machine.run step (ys.map Op.pushBack) s = some (os, s') ∧
        Rep elemsize s' (xs ++ ys) := by
  induction ys with
  | nil =>
    intro s xs hr _
    rw [List.append_nil]
    exact ⟨trivial, [], s, rfl, hr⟩
  | cons y ys ih =>
    intro s xs hr hfit
    have hlen : xs.length + (y :: ys).length = (xs ++ [y]).length + ys.length := by
      rw [List.length_append, List.length_cons, List.length_singleton]
      omega
    have hle : (xs.length + 1) * elemsize ≤ (xs.length + (y :: ys).length) * elemsize := by
      apply Nat.mul_le_mul_right
      rw [List.length_cons]
      omega
    have hok := allowed_push hr (hys y List.mem_cons_self) (Nat.lt_of_le_of_lt hle hfit)
    obtain ⟨s₁, e₁, hr₁⟩ := sim hsize s xs _ hr hok
    rw [hlen] at hfit
    obtain ⟨ha, os, s₂, e₂, hr₂⟩ := ih (fun z hz => hys z (List.mem_cons_of_mem _ hz)) hr₁ hfit
    have hlist : xs ++ y :: ys = xs ++ [y] ++ ys := by rw [List.append_assoc]; rfl
    refine ⟨⟨⟨hok, y, rfl⟩, ?_⟩, 0 :: os, s₂, ?_, by rw [hlist]; exact hr₂⟩
    · rw [e₁]
      exact ha
    · rw [List.map_cons, Machine.run, e₁, Option.bind_eq_bind, Option.bind_some]
      dsimp only
      rw [e₂]
      rfl

/-- The room itself pays for what is moved when it grows. -/
theorem adds_pay {elemsize : Nat} (hsize : 0 < elemsize) (s : State) (op : Op) (rc : Int32)
    (s' : State) (hr : ∃ xs, Housed elemsize s xs) (hok : Adds s op)
    (e : step s op = some (rc, s')) : (∃ xs, Housed elemsize s' xs) ∧
      moved s op + s.desc.allocated.toNat ≤ s'.desc.allocated.toNat := by
  obtain ⟨xs, hr⟩ := hr
  obtain ⟨hok, x, rfl⟩ := hok
  obtain ⟨t, et, ht⟩ := housed_sim hsize s xs _ hr hok
  have hts : t = s' := by
    rw [e] at et
    cases et
    rfl
  subst hts
  refine ⟨⟨_, ht⟩, ?_⟩
  obtain ⟨-, -, hgrown⟩ := pushed_room hr.1.1 e
  have hpos := hr.2.elemstep
  rw [moved, hgrown]
  split <;> omega

/-- **Room and additions.** In every state that allowed steps lead to the room is at least
    what the elements need, and at most twice what they and one more need. However many
    elements are added to a new vector, the bytes moved to new blocks are at most twice
    those of the elements and one more. -/
theorem pushes_move {elemsize : Nat} (hsize : 0 < elemsize) :
    (∀ ops : List Op, Machine.Along step Allowed ops (init elemsize) →
      ∃ s, Machine.run step ops (init elemsize) = some ((Machine.runs seqStep ops []).1, s) ∧
        s.desc.size * s.desc.elemstep ≤ s.desc.allocated ∧
        s.desc.allocated ≤ 2 * ((s.desc.size + 1) * s.desc.elemstep)) ∧
    ∀ xs : List Bytes, (∀ x ∈ xs, x.length = elemsize) → xs.length * elemsize < 2 ^ 29 →
      Machine.spent step moved (xs.map Op.pushBack) (init elemsize) ≤
        2 * ((xs.length + 1) * elemsize) := by
  have hinit : Housed elemsize (init elemsize) [] := ⟨rep_init elemsize, roomy_init hsize⟩
  refine ⟨fun ops ha => ?_, fun xs hxs hfit => ?_⟩
  · obtain ⟨s, e, -, hroomy⟩ := Machine.refines_along (housed_sim hsize) ops _ _ hinit ha
    exact ⟨s, e, hroomy.enough, hroomy.twice⟩
  · have hroom : (([] : List Bytes).length + xs.length) * elemsize < 2 ^ 29 := by
      rwa [List.length_nil, Nat.zero_add]
    obtain ⟨ha, os, s, e, hr⟩ := along_adds hsize hxs (rep_init elemsize) hroom
    obtain ⟨⟨ys, ⟨-, rest, hys⟩, hroomy⟩, hspent⟩ :=
      Machine.spent_le (adds_pay hsize) ⟨[], hinit⟩ ha e
    obtain ⟨-, rest', hxs'⟩ := hr
    have htwice := hroomy.twice
    have hall : (s.desc.size + 1) * s.desc.elemstep = ((xs.length + 1) * elemsize : Nat) := by
      rw [hxs'.size, hxs'.elemstep, List.nil_append, Int.natCast_mul]
      rfl
    rw [hall] at htwice
    have hzero : (init (elemsize : Int)).desc.allocated.toNat = 0 := rfl
    rw [hzero, Nat.add_zero] at hspent
    omega

/-- Elements of two bytes: three added, the second erased and the last removed; and five that
    are only added. -/
theorem pushes_move_shorts :
    (∃ s, Machine.run step [.pushBack [1, 2], .pushBack [3, 4], .pushBack [5, 6], .erase 1, .popBack]
        (init (2 : Nat)) = some ([0, 0, 0, 0, 0], s) ∧
      s.desc.size * s.desc.elemstep ≤ s.desc.allocated ∧
      s.desc.allocated ≤ 2 * ((s.desc.size + 1) * s.desc.elemstep)) ∧
    Machine.spent step moved
      [.pushBack [1, 2], .pushBack [3, 4], .pushBack [5, 6], .pushBack [7, 8], .pushBack [9, 10]]
      (init (2 : Nat)) ≤ 24 := by
  obtain ⟨hroom, hadds⟩ := pushes_move (by decide : 0 < 2)
  have hlens : ∀ x ∈ ([[1, 2], [3, 4], [5, 6], [7, 8], [9, 10]] : List Bytes), x.length = 2 := by
    decide
  exact ⟨hroom [.pushBack [1, 2], .pushBack [3, 4], .pushBack [5, 6], .erase 1, .popBack] (by decide),
    hadds _ hlens (by decide)⟩

/-! Two additions and a removal. -/

def round (p : Bytes × Bytes) : List Op := [.pushBack p.1, .pushBack p.2, .popBack]

/-- The vector has `n` elements and room for one more. -/
def Tight (elemsize n : Nat) (s : State) : Prop :=
  (∃ xs, Rep elemsize s xs ∧ xs.length = n) ∧ s.desc.allocated = ((n + 1) * elemsize : Nat)

/-- A round, as its steps are. -/
theorem round_steps {elemsize : Nat} (hsize : 0 < elemsize) {s : State} {xs : List Bytes}
    {p : Bytes × Bytes} (hr : Rep elemsize s xs) (hp : p.1.length = elemsize ∧ p.2.length = elemsize)
    (hfit : (xs.length + 2) * elemsize < 2 ^ 29) :
    ∃ s₁ s₂ s₃, step s (.pushBack p.1) = some (0, s₁) ∧ step s₁ (.pushBack p.2) = some (0, s₂) ∧
      step s₂ .popBack = some (0, s₃) ∧ Rep elemsize s₁ (xs ++ [p.1]) ∧
      Rep elemsize s₂ (xs ++ [p.1] ++ [p.2]) ∧ Rep elemsize s₃ (xs ++ [p.1]) := by
  have hle : (xs.length + 1) * elemsize ≤ (xs.length + 2) * elemsize :=
    Nat.mul_le_mul_right _ (by omega)
  obtain ⟨s₁, e₁, h₁⟩ : ∃ s₁, step s (.pushBack p.1) = some (0, s₁) ∧
      Rep elemsize s₁ (xs ++ [p.1]) :=
    sim hsize s xs _ hr (allowed_push hr hp.1 (by omega))
  have hlen : (xs ++ [p.1]).length + 1 = xs.length + 2 := by
    rw [List.length_append, List.length_singleton]
  obtain ⟨s₂, e₂, h₂⟩ : ∃ s₂, step s₁ (.pushBack p.2) = some (0, s₂) ∧
      Rep elemsize s₂ (xs ++ [p.1] ++ [p.2]) :=
    sim hsize s₁ _ _ h₁ (allowed_push h₁ hp.2 (by rw [hlen]; exact hfit))
  have hpop : Allowed s₂ .popBack := by
    obtain ⟨-, rest, h⟩ := h₂
    show 0 < s₂.desc.size
    rw [h.size, List.length_append, List.length_singleton]
    omega
  obtain ⟨s₃, e₃, h₃⟩ : ∃ s₃, step s₂ .popBack = some (0, s₃) ∧
      Rep elemsize s₃ (xs ++ [p.1] ++ [p.2]).dropLast := sim hsize s₂ _ _ h₂ hpop
  rw [List.dropLast_concat] at h₃
  exact ⟨s₁, s₂, s₃, e₁, e₂, e₃, h₁, h₂, h₃⟩

/-- The first round moves nothing. -/
theorem round_first {elemsize : Nat} (hsize : 0 < elemsize) {p : Bytes × Bytes}
    (hp : p.1.length = elemsize ∧ p.2.length = elemsize) (hfit : 2 * elemsize < 2 ^ 29) :
    ∃ s, Machine.run step (round p) (init elemsize) = some ([0, 0, 0], s) ∧ Tight elemsize 1 s ∧
      Machine.spent step moved (round p) (init elemsize) = 0 := by
  have hstart : Rep elemsize (init elemsize) [] := rep_init elemsize
  obtain ⟨s₁, s₂, s₃, e₁, e₂, e₃, h₁, h₂, h₃⟩ := round_steps hsize hstart hp (by simpa using hfit)
  obtain ⟨n₁, t₁, a₁⟩ := pushed_room rfl e₁
  obtain ⟨n₂, t₂, a₂⟩ := pushed_room h₁.1 e₂
  obtain ⟨-, -, a₃⟩ := removed_room h₂.1 (by simp) e₃
  have hs : (init (elemsize : Int)).desc = ⟨none, 0, elemsize, 0⟩ := rfl
  have hfull : Full (init (elemsize : Int)).desc := by
    unfold Full
    rw [hs]
    dsimp only
    omega
  rw [hs] at n₁ t₁ a₁
  rw [if_pos (hs ▸ hfull)] at a₁
  dsimp only at n₁ t₁ a₁
  have hnot : ¬Full s₁.desc := by
    unfold Full
    rw [n₁, t₁, a₁]
    omega
  rw [if_neg hnot] at a₂
  have hkeep : ¬Slack s₂.desc := by
    unfold Slack
    rw [n₂, n₁, t₂, t₁, a₂, a₁]
    omega
  rw [if_neg hkeep] at a₃
  refine ⟨s₃, ?_, ⟨⟨[p.1], h₃, rfl⟩, ?_⟩, ?_⟩
  · simp [round, Machine.run, e₁, e₂, e₃]
  · rw [a₃, a₂, a₁]
    omega
  · rw [round, Machine.spent_cons e₁, Machine.spent_cons e₂, Machine.spent_cons e₃]
    simp only [moved, hs, if_neg hnot, if_neg hkeep, Machine.spent]
    exact ite_self _

/-- Every later one moves all the elements twice. -/
theorem round_again {elemsize n : Nat} (hsize : 0 < elemsize) {s : State} {p : Bytes × Bytes}
    (h : Tight elemsize n s) (hp : p.1.length = elemsize ∧ p.2.length = elemsize)
    (hfit : (n + 2) * elemsize < 2 ^ 29) :
    ∃ s', Machine.run step (round p) s = some ([0, 0, 0], s') ∧ Tight elemsize (n + 1) s' ∧
      Machine.spent step moved (round p) s = 2 * ((n + 1) * elemsize) := by
  obtain ⟨⟨xs, hr, hlen⟩, ha⟩ := h
  subst hlen
  obtain ⟨s₁, s₂, s₃, e₁, e₂, e₃, h₁, h₂, h₃⟩ := round_steps hsize hr hp hfit
  obtain ⟨n₁, t₁, a₁⟩ := pushed_room hr.1 e₁
  obtain ⟨n₂, t₂, a₂⟩ := pushed_room h₁.1 e₂
  obtain ⟨-, -, a₃⟩ := removed_room h₂.1 (by simp) e₃
  have hsize' : s.desc.size = xs.length := by
    obtain ⟨-, rest, h⟩ := hr
    exact h.size
  have hstep : s.desc.elemstep = elemsize := by
    obtain ⟨-, rest, h⟩ := hr
    exact h.elemstep
  -- what one element more, and two more, need
  have hone : ((xs.length : Int) + 1) * elemsize = ((xs.length + 1) * elemsize : Nat) := by
    rw [Int.natCast_mul]
    rfl
  have htwo : ((xs.length : Int) + 1 + 1) * elemsize =
      ((xs.length + 1) * elemsize : Nat) + elemsize := by
    rw [Int.add_mul _ 1, hone, Int.one_mul]
  have hmore : (xs.length + 2) * elemsize = (xs.length + 1) * elemsize + elemsize :=
    Nat.succ_mul _ _
  have hnot : ¬Full s.desc := by
    unfold Full
    rw [hsize', hstep, ha, hone]
    omega
  rw [if_neg hnot, ha] at a₁
  rw [hsize'] at n₁
  rw [hstep] at t₁
  have hfull : Full s₁.desc := by
    unfold Full
    rw [n₁, t₁, a₁, htwo]
    omega
  rw [if_pos hfull, a₁, t₁] at a₂
  rw [n₁] at n₂
  rw [t₁] at t₂
  have hused : (s₂.desc.size - 1) * s₂.desc.elemstep = ((xs.length + 1) * elemsize : Nat) := by
    rw [n₂, t₂, Int.add_sub_cancel, hone]
  have hhalf : (2 * (((xs.length + 1) * elemsize : Nat) + (elemsize : Int))).tdiv 2 =
      ((xs.length + 1 + 1) * elemsize : Nat) := by
    rw [Int.mul_tdiv_cancel_left _ (by omega), Nat.succ_mul (xs.length + 1), Int.natCast_add]
  have hslack : Slack s₂.desc := by
    unfold Slack
    rw [hused, a₂, hhalf]
    have hpos : 0 < (xs.length + 1 + 1) * elemsize := Nat.mul_pos (Nat.succ_pos _) hsize
    exact ⟨by omega, by exact_mod_cast Nat.ne_of_gt hpos⟩
  rw [if_pos hslack, a₂, hhalf] at a₃
  refine ⟨s₃, ?_, ⟨⟨xs ++ [p.1], h₃, ?_⟩, ?_⟩, ?_⟩
  · simp [round, Machine.run, e₁, e₂, e₃]
  · rw [List.length_append, List.length_singleton]
  · exact a₃
  · rw [round, Machine.spent_cons e₁, Machine.spent_cons e₂, Machine.spent_cons e₃]
    simp only [moved, if_neg hnot, if_pos hfull, if_pos hslack, hused, a₁, Machine.spent]
    omega

/-- `k` rounds from `n` elements move `2 * (n + 1)`, `2 * (n + 2)`, ... of them. -/
theorem rounds_again {elemsize n : Nat} (hsize : 0 < elemsize) {s : State}
    {ps : List (Bytes × Bytes)} (h : Tight elemsize n s)
    (hps : ∀ p ∈ ps, p.1.length = elemsize ∧ p.2.length = elemsize)
    (hfit : (n + ps.length + 1) * elemsize < 2 ^ 29) :
    ∃ os s', Machine.run step (ps.flatMap round) s = some (os, s') ∧
      Tight elemsize (n + ps.length) s' ∧
      Machine.spent step moved (ps.flatMap round) s =
        ps.length * (2 * n + ps.length + 1) * elemsize := by
  induction ps generalizing s n with
  | nil => exact ⟨[], s, rfl, h, by simp [Machine.spent]⟩
  | cons p ps ih =>
    have hnext : n + 1 + ps.length = n + (p :: ps).length := by
      rw [List.length_cons]
      omega
    have hle : (n + 2) * elemsize ≤ (n + (p :: ps).length + 1) * elemsize :=
      Nat.mul_le_mul_right _ (by omega)
    obtain ⟨s₁, e₁, h₁, hspent₁⟩ :=
      round_again hsize h (hps p List.mem_cons_self) (Nat.lt_of_le_of_lt hle hfit)
    obtain ⟨os, s', e', h', hspent⟩ :=
      ih h₁ (fun q hq => hps q (List.mem_cons_of_mem p hq)) (by rwa [hnext])
    refine ⟨[0, 0, 0] ++ os, s', ?_, by rwa [hnext] at h', ?_⟩
    · rw [List.flatMap_cons, Machine.run_append e₁, e']
      rfl
    · rw [List.flatMap_cons, Machine.spent_append e₁, hspent₁, hspent, List.length_cons]
      ring

/-- Two additions and a removal, over and over: the room never stays ahead of the elements,
    and the bytes copied grow with the square of the number of rounds. -/
theorem rounds_move (elemsize : Nat) (hsize : 0 < elemsize) (ps : List (Bytes × Bytes))
    (hne : ps ≠ []) (hps : ∀ p ∈ ps, p.1.length = elemsize ∧ p.2.length = elemsize)
    (hfit : (ps.length + 1) * elemsize < 2 ^ 29) :
    ∃ os s, Machine.run step (ps.flatMap round) (init elemsize) = some (os, s) ∧
      s.desc.size = ps.length ∧
      s.desc.allocated = ((ps.length + 1) * elemsize : Nat) ∧
      Machine.spent step moved (ps.flatMap round) (init elemsize) =
        (ps.length * (ps.length + 1) - 2) * elemsize := by
  obtain ⟨p, qs, rfl⟩ : ∃ p qs, ps = p :: qs := List.exists_cons_of_ne_nil hne
  have hle : 2 * elemsize ≤ ((p :: qs).length + 1) * elemsize :=
    Nat.mul_le_mul_right _ (by rw [List.length_cons]; omega)
  obtain ⟨s₁, e₁, h₁, hspent₁⟩ :=
    round_first hsize (hps p List.mem_cons_self) (Nat.lt_of_le_of_lt hle hfit)
  have hnext : 1 + qs.length = (p :: qs).length := Nat.add_comm 1 qs.length
  obtain ⟨os, s, e, h, hspent⟩ :=
    rounds_again hsize h₁ (fun q hq => hps q (List.mem_cons_of_mem p hq)) (by rwa [hnext])
  rw [hnext] at h
  obtain ⟨⟨xs, ⟨-, rest, hr⟩, hlen⟩, ha⟩ := h
  refine ⟨[0, 0, 0] ++ os, s, ?_, by rw [hr.size, hlen], ha, ?_⟩
  · rw [List.flatMap_cons, Machine.run_append e₁, e]
    rfl
  · have hsquare : (qs.length + 1) * (qs.length + 1 + 1) =
        qs.length * (2 * 1 + qs.length + 1) + 2 := by
      ring
    rw [List.flatMap_cons, Machine.spent_append e₁, hspent₁, hspent, List.length_cons, hsquare,
      Nat.zero_add, Nat.add_sub_cancel]

theorem rounds_move_bytes :
    let ps : List (Bytes × Bytes) := [([1], [2]), ([3], [4]), ([5], [6])]
    ∃ os s, Machine.run step (ps.flatMap round) (init (1 : Nat)) = some (os, s) ∧
      s.desc.size = (ps.length : Nat) ∧ s.desc.allocated = ((ps.length + 1) * 1 : Nat) ∧
      Machine.spent step moved (ps.flatMap round) (init (1 : Nat)) =
        (ps.length * (ps.length + 1) - 2) * 1 :=
  rounds_move 1 (by decide) _ (by decide) (by decide) (by decide)

end Zhwkrfsp.QVector
