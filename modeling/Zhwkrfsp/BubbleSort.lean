import Zhwkrfsp.Comparator
import Zhwkrfsp.QList
import Zhwkrfsp.Swaps

/- The bubble sort of `zhwkre/algorithm/bubble_sort.c`. It exchanges the blocks of the
   first two neighbours for which the comparator is not zero, where `zhwkre/alg.h`
   only says what a positive result means, and starts over; so a comparator that is
   negative for elements in order may undo its own exchanges for ever. The loop
   over the nodes reads `next` of the head before it looks at anything, and an empty
   list has none. `none` is the dereference of NULL, or that the turns are used up. -/
namespace Zhwkrfsp.BubbleSort
open Linked QList Swaps

section
variable {α : Type}

/-- `q__List_swap_elem`: blocks and sizes change places. -/
def swapElem (a b : Nat) (h : Heap (Option α)) : Option (Heap (Option α)) := do
  let ca ← h.cell a
  let cb ← h.cell b
  let h ← h.modify a fun c => { c with data := cb.data }
  h.modify b fun c => { c with data := ca.data }

variable (cmpr : α → α → Int)

/-- The inner loop from the node `it` on, and what it leaves in `FLAG_EXED`. -/
def sweepFrom : Nat → Option Nat → Heap (Option α) → Option (Bool × Heap (Option α))
  | turns + 1, some it, h => do
    let c ← h.cell it
    match c.next with
    | none => return (true, h)
    | some next =>
      let d ← h.cell next
      if cmpr (← c.data) (← d.data) ≠ 0 then
        let h ← swapElem it next h
        return (false, h)
      else
        sweepFrom turns (some next) h
  | _, _, _ => none

def bubbleSort (desc : Descriptor) : Nat → Heap (Option α) → Option (Heap (Option α))
  | 0, _ => none
  | turns + 1, h => do
    let (exed, h) ← sweepFrom cmpr h.brk desc.head h
    if exed then return h
    bubbleSort desc turns h

/-- The test of the inner loop. -/
def Exchanges (x y : α) : Prop := cmpr x y ≠ 0

instance : DecidableRel (Exchanges cmpr) := fun x y => inferInstanceAs (Decidable (cmpr x y ≠ 0))

/-- What `zhwkre/alg.h` says of a comparator, for the order `le`: it is positive exactly
    when its first argument is above the second. -/
structure Documented (le : α → α → Prop) : Prop where
  total : ∀ x y, le x y ∨ le y x
  trans : ∀ x y z, le x y → le y z → le x z
  pos_iff : ∀ x y, 0 < cmpr x y ↔ ¬le x y

/-- The call comes back, with the blocks of the list in ascending order in the same nodes. -/
def Sorts (le : α → α → Prop) (desc : Descriptor) (h : Heap (Option α)) (l : List (Nat × α)) :
    Prop :=
  ∃ turns h' l', bubbleSort cmpr desc turns h = some h' ∧ Stored h' desc l' ∧
    l'.map Prod.fst = l.map Prod.fst ∧ (l'.map Prod.snd).Perm (l.map Prod.snd) ∧
    (l'.map Prod.snd).Pairwise le

variable {cmpr} {h : Heap (Option α)} {desc : Descriptor} {l : List (Nat × α)}

theorem swapElem_spec {l₁ l₂ : List (Nat × α)} {a b : Nat} {x y : α}
    (hs : Stored h desc (l₁ ++ (a, x) :: (b, y) :: l₂)) :
    ∃ h', swapElem a b h = some h' ∧ Stored h' desc (l₁ ++ (a, y) :: (b, x) :: l₂) ∧
      h'.brk = h.brk := by
  have ea := hs.cell
  obtain ⟨h₁, e₁, hs₁, hb₁, -, -⟩ := write_spec y hs
  have hs' := hs
  rw [List.append_cons] at hs' hs₁
  have eb := hs'.cell
  obtain ⟨h₂, e₂, hs₂, hb₂, -, -⟩ := write_spec x hs₁
  refine ⟨h₂, ?_, ?_, hb₂.trans hb₁⟩
  · rw [swapElem, ea, Option.bind_eq_bind, Option.bind_some, eb, Option.bind_eq_bind,
      Option.bind_some, e₁]
    exact e₂
  · rw [← List.append_cons] at hs₂
    exact hs₂

/-- The inner loop makes the exchange that a sweep over the blocks makes. -/
theorem sweepFrom_spec (cmpr : α → α → Int) {turns a : Nat} {x : α} (pre : List (Nat × α))
    (hs : Stored h desc (pre ++ (a, x) :: l)) (hle : l.length < turns) :
    match sweep (Exchanges cmpr) (x :: l.map Prod.snd) with
    | none => sweepFrom cmpr turns (some a) h = some (true, h)
    | some xs => ∃ h' l', sweepFrom cmpr turns (some a) h = some (false, h') ∧
        Stored h' desc (pre ++ l') ∧ l'.map Prod.fst = a :: l.map Prod.fst ∧
        l'.map Prod.snd = xs ∧ h'.brk = h.brk := by
  induction l generalizing turns a x pre with
  | nil =>
    obtain ⟨turns, rfl⟩ := Nat.exists_eq_succ_of_ne_zero (Nat.ne_of_gt hle)
    show sweepFrom cmpr (turns + 1) (some a) h = some (true, h)
    rw [sweepFrom, hs.cell]
    rfl
  | cons b l ih =>
    obtain ⟨b, y⟩ := b
    obtain ⟨turns, rfl⟩ := Nat.exists_eq_succ_of_ne_zero (Nat.ne_of_gt (Nat.zero_lt_of_lt hle))
    have hs' := hs
    rw [List.append_cons] at hs'
    have hstep : sweepFrom cmpr (turns + 1) (some a) h =
        if cmpr x y ≠ 0 then (swapElem a b h).bind fun h => some (false, h)
        else sweepFrom cmpr turns (some b) h := by
      rw [sweepFrom, hs.cell, Option.bind_eq_bind, Option.bind_some]
      simp only [first_cons, hs'.cell, Option.bind_eq_bind, Option.bind_some]
      rfl
    rw [Nat.succ_eq_add_one, hstep, List.map_cons, sweep]
    by_cases hxy : cmpr x y ≠ 0
    · -- the exchange breaks off the pass
      rw [if_pos hxy, if_pos (show Exchanges cmpr x y from hxy)]
      obtain ⟨h', e, hst, hbrk⟩ := swapElem_spec hs
      exact ⟨h', (a, y) :: (b, x) :: l, by rw [e, Option.bind_some], hst, rfl, rfl, hbrk⟩
    · rw [if_neg hxy, if_neg (show ¬Exchanges cmpr x y from hxy)]
      have hrest := ih (pre ++ [(a, x)]) hs' (Nat.lt_of_succ_lt_succ hle)
      cases e : sweep (Exchanges cmpr) (y :: l.map Prod.snd) with
      | none =>
        rw [e] at hrest
        exact hrest
      | some xs =>
        rw [e] at hrest
        obtain ⟨h', l', e', hst, hfst, hsnd, hbrk⟩ := hrest
        refine ⟨h', (a, x) :: l', e', ?_, ?_, ?_, hbrk⟩
        · rw [List.append_cons]
          exact hst
        · rw [List.map_cons, hfst]
          rfl
        · rw [List.map_cons, hsnd]

/-- The whole loop does to the blocks what repeated sweeps do. -/
theorem bubbleSort_spec (cmpr : α → α → Int) (turns : Nat) (hs : Stored h desc l) (hne : l ≠ []) :
    match loop (sweep (Exchanges cmpr)) turns (l.map Prod.snd) with
    | none => bubbleSort cmpr desc turns h = none
    | some xs => ∃ h' l', bubbleSort cmpr desc turns h = some h' ∧ Stored h' desc l' ∧
        l'.map Prod.fst = l.map Prod.fst ∧ l'.map Prod.snd = xs := by
  induction turns generalizing h l with
  | zero => rfl
  | succ turns ih =>
    obtain ⟨⟨a, x⟩, l, rfl⟩ := List.exists_cons_of_ne_nil hne
    have hhead : desc.head = some a := by rw [hs.head, first_cons]
    have hlen : l.length < h.brk := hs.length_le
    have hsweep := sweepFrom_spec cmpr [] hs hlen
    rw [List.map_cons, loop, bubbleSort, hhead]
    cases e : sweep (Exchanges cmpr) (x :: l.map Prod.snd) with
    | none =>
      rw [e] at hsweep
      refine ⟨h, (a, x) :: l, ?_, hs, rfl, rfl⟩
      rw [hsweep]
      rfl
    | some xs =>
      rw [e] at hsweep
      obtain ⟨h₁, l₁, e₁, hs₁, hfst, rfl, -⟩ := hsweep
      have hne₁ : l₁ ≠ [] := by
        rintro rfl
        cases hfst
      have hrest := ih hs₁ hne₁
      rw [e₁, Option.bind_eq_bind, Option.bind_some, List.map_cons, ← hfst]
      exact hrest

/-- With the turns left open. -/
theorem bubbleSort_ends (hs : Stored h desc l) (hne : l ≠ []) {xs : List α}
    (he : Ends (sweep (Exchanges cmpr)) (l.map Prod.snd) xs) :
    ∃ turns h' l', bubbleSort cmpr desc turns h = some h' ∧ Stored h' desc l' ∧
      l'.map Prod.fst = l.map Prod.fst ∧ l'.map Prod.snd = xs := by
  obtain ⟨turns, e⟩ := he
  have hspec := bubbleSort_spec cmpr turns hs hne
  rw [e] at hspec
  exact ⟨turns, hspec⟩

theorem ends_of_bubbleSort (hs : Stored h desc l) (hne : l ≠ []) {turns : Nat}
    {h' : Heap (Option α)} (e : bubbleSort cmpr desc turns h = some h') :
    ∃ xs, Ends (sweep (Exchanges cmpr)) (l.map Prod.snd) xs := by
  have hspec := bubbleSort_spec cmpr turns hs hne
  cases el : loop (sweep (Exchanges cmpr)) turns (l.map Prod.snd) with
  | none =>
    rw [el, e] at hspec
    cases hspec
  | some xs => exact ⟨xs, turns, el⟩

/-- The empty list: the head is dereferenced. -/
theorem bubbleSort_empty (hs : Stored h desc ([] : List (Nat × α))) (turns : Nat) :
    bubbleSort cmpr desc turns h = none := by
  have hhead : desc.head = none := hs.head
  cases turns with
  | zero => rfl
  | succ turns =>
    rw [bubbleSort, hhead]
    cases h.brk <;> rfl

variable {le : α → α → Prop}

/-- Neighbours for which a documented comparator is zero are in order, and so all are. -/
theorem Documented.sorted (hc : Documented cmpr le) {xs : List α}
    (hs : Stable (Exchanges cmpr) xs) : xs.Pairwise le := by
  have : IsTrans α le := ⟨hc.trans⟩
  apply List.IsChain.pairwise
  apply hs.imp
  intro x y hxy
  by_contra hle
  have hpos := (hc.pos_iff x y).2 hle
  have h0 : cmpr x y = 0 := not_not.1 hxy
  omega

theorem sorts_iff (hc : Documented cmpr le) (hs : Stored h desc l) :
    Sorts cmpr le desc h l ↔ l ≠ [] ∧ ∀ p, p <+: l.map Prod.snd →
      Stable (Exchanges cmpr) (settle (Exchanges cmpr) p) := by
  constructor
  · rintro ⟨turns, h', l', e, -⟩
    have hne : l ≠ [] := by
      rintro rfl
      rw [bubbleSort_empty hs] at e
      cases e
    obtain ⟨xs, he⟩ := ends_of_bubbleSort hs hne e
    exact ⟨hne, (ends_iff.1 he).1⟩
  · rintro ⟨hne, hstable⟩
    obtain ⟨turns, h', l', e, hs', hfst, hsnd⟩ :=
      bubbleSort_ends hs hne (ends_iff.2 ⟨hstable, rfl⟩)
    refine ⟨turns, h', l', e, hs', hfst, ?_, ?_⟩
    · rw [hsnd]
      exact settle_perm _
    · rw [hsnd]
      exact hc.sorted (hstable _ List.prefix_rfl)

/-- A three-way comparator, which is zero for equals and for nothing else, sorts only the
    lists in which there is nothing to sort. -/
theorem sorts_threeWay (hc : Documented cmpr le) (h0 : ∀ x y, cmpr x y = 0 ↔ le x y ∧ le y x)
    (hs : Stored h desc l) : Sorts cmpr le desc h l ↔
      l ≠ [] ∧ (l.map Prod.snd).Pairwise fun x y => le x y ∧ le y x := by
  have hne : ∀ x y, ¬Exchanges cmpr x y ↔ le x y ∧ le y x := by
    intro x y
    rw [Exchanges, not_not]
    exact h0 x y
  rw [sorts_iff hc hs]
  apply and_congr_right
  intro _
  constructor
  · intro hsettle
    have hsymm : ∀ x y, Exchanges cmpr x y → Exchanges cmpr y x := by
      intro x y hxy hyx
      have hboth := (h0 y x).1 hyx
      exact hxy ((h0 x y).2 hboth.symm)
    have hstable := hsettle _ List.prefix_rfl
    rw [settle_eq_self hsymm hsettle List.prefix_rfl] at hstable
    have : IsTrans α fun x y => le x y ∧ le y x :=
      ⟨fun x y z hxy hyz => ⟨hc.trans x y z hxy.1 hyz.1, hc.trans z y x hyz.2 hxy.2⟩⟩
    apply List.IsChain.pairwise
    apply hstable.imp
    intro x y
    exact (hne x y).1
  · intro hle p hp
    apply stable_settle _ hp
    apply hle.imp
    intro x y hxy
    exact .inl ((hne x y).2 hxy)

/-! Lists of given blocks, and the theorem. -/

theorem stored_append (hs : Stored h desc l) (hm : h.mallocs = []) (xs : List α) :
    ∃ h' desc' l', Stored h' desc' (l ++ l') ∧ l'.map Prod.snd = xs := by
  induction xs generalizing h desc l with
  | nil => exact ⟨h, desc, [], by rwa [List.append_nil], rfl⟩
  | cons x xs ih =>
    obtain ⟨desc₁, h₁, -, hs₁, -, hm₁, -⟩ := pushBack_spec x hs hm
    obtain ⟨h', desc', l', hs', e⟩ := ih hs₁ hm₁
    rw [← List.append_cons] at hs'
    exact ⟨h', desc', (h.brk, x) :: l', hs', by rw [List.map_cons, e]⟩

/-- Every list of blocks is that of some descriptor. -/
theorem exists_stored (xs : List α) :
    ∃ (h : Heap (Option α)) (desc : Descriptor) (l : List (Nat × α)),
      Stored h desc l ∧ l.map Prod.snd = xs :=
  stored_append (.constructor Heap.empty) rfl xs

/-- A documented comparator. A list is sorted exactly when it is not empty and the insertion
    sort of each of its beginnings, by the comparator's being zero or not, leaves no two
    neighbours for which it is not zero. All lists but the empty one are sorted exactly
    when the comparator is never different from zero both ways. -/
theorem bubble_sorts {cmpr : α → α → Int} {le : α → α → Prop} (hc : Documented cmpr le) :
    (∀ h desc l, Stored h desc l → (Sorts cmpr le desc h l ↔ l ≠ [] ∧
      ∀ p, p <+: l.map Prod.snd → Stable (Exchanges cmpr) (settle (Exchanges cmpr) p))) ∧
    ((∀ h desc l, Stored h desc l → l ≠ [] → Sorts cmpr le desc h l) ↔
      ∀ x y, cmpr x y = 0 ∨ cmpr y x = 0) := by
  refine ⟨fun h desc l hs => sorts_iff hc hs, fun hall x y => ?_, fun hone h desc l hs hne => ?_⟩
  · -- otherwise the list of the two is not sorted
    by_contra hxy
    rw [not_or] at hxy
    obtain ⟨h, desc, l, hs, e⟩ := exists_stored [x, y]
    have hne : l ≠ [] := by
      rintro rfl
      cases e
    have hstable := ((sorts_iff hc hs).1 (hall h desc l hs hne)).2 [x, y]
      ⟨[], by rw [List.append_nil, e]⟩
    exact not_stable_pair hxy.1 hxy.2 hstable
  · refine (sorts_iff hc hs).2 ⟨hne, fun p hp => stable_settle ?_ hp⟩
    apply List.pairwise_of_forall
    intro x y
    exact (hone x y).imp not_not.2 not_not.2

end

/-- Only what `zhwkre/alg.h` asks for: positive above, and otherwise zero. -/
def above (x y : UInt64) : Int := if y < x then 1 else 0

theorem above_documented : Documented above (· ≤ ·) where
  total := UInt64.le_total
  trans _ _ _ := UInt64.le_trans
  pos_iff x y := by
    unfold above
    split <;> simp_all

theorem byValue_documented : Documented byValue (· ≤ ·) where
  total := UInt64.le_total
  trans _ _ _ := UInt64.le_trans
  pos_iff x y := by
    rw [UInt64.le_iff_toNat_le, byValue]
    simp only [UInt64.lt_iff_toNat_lt]
    split_ifs <;> simp <;> omega

theorem bubble_sorts_above :
    ∃ h desc l, Stored h desc l ∧ l.map Prod.snd = [3, 1, 2] ∧
      Sorts above (· ≤ ·) desc h l := by
  obtain ⟨h, desc, l, hs, e⟩ := exists_stored ([3, 1, 2] : List UInt64)
  refine ⟨h, desc, l, hs, e, (bubble_sorts above_documented).2.2 (fun x y => ?_) h desc l hs ?_⟩
  · unfold above
    simp only [UInt64.lt_iff_toNat_lt]
    split_ifs <;> simp
    omega
  · rintro rfl
    cases e

/-- A three-way comparator, one that the header allows, exchanges two elements for ever; and
    an empty list is a dereference of NULL. -/
theorem bubble_sorts_fails : Documented byValue (· ≤ ·) ∧
    (∀ turns, bubbleSort byValue QList.constructor turns Heap.empty = none) ∧
      ∃ h desc l, Stored h desc l ∧ l.map Prod.snd = [1, 2] ∧
        ∀ turns, bubbleSort byValue desc turns h = none := by
  refine ⟨byValue_documented, bubbleSort_empty (.constructor _), ?_⟩
  obtain ⟨h, desc, l, hs, e⟩ := exists_stored ([1, 2] : List UInt64)
  have hne : l ≠ [] := by
    rintro rfl
    cases e
  refine ⟨h, desc, l, hs, e, fun turns => ?_⟩
  by_contra hsome
  obtain ⟨h', e'⟩ := Option.ne_none_iff_exists'.1 hsome
  obtain ⟨xs, he⟩ := ends_of_bubbleSort hs hne e'
  have hstable := (ends_iff.1 he).1 [1, 2] ⟨[], by rw [List.append_nil, e]⟩
  exact not_stable_pair (by decide) (by decide) hstable

end Zhwkrfsp.BubbleSort
