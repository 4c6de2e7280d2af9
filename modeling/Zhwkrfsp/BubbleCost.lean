import Zhwkrfsp.BubbleSort

/- What the bubble sort does with a comparator that is zero whenever its arguments are in
   order. It makes one exchange for each pair of blocks that stand the wrong way round, and
   passes over the list once more than that; the sort is stable (`bubble_turns`). -/
namespace Zhwkrfsp.BubbleSort
open Linked QList Swaps

section
variable {α : Type} {cmpr : α → α → Int} {le : α → α → Prop}

/-- Documented, and zero for elements in order. -/
structure OneSided (cmpr : α → α → Int) (le : α → α → Prop) : Prop extends Documented cmpr le where
  zero : ∀ x y, le x y → cmpr x y = 0

namespace OneSided

theorem exchanges_iff (hc : OneSided cmpr le) (x y : α) : Exchanges cmpr x y ↔ ¬le x y := by
  constructor
  · intro hne hle
    exact hne (hc.zero x y hle)
  · intro hle h0
    have hpos := (hc.pos_iff x y).2 hle
    omega

theorem asymm (hc : OneSided cmpr le) (x y : α) (h : Exchanges cmpr x y) : ¬Exchanges cmpr y x := by
  rw [hc.exchanges_iff, not_not]
  exact (hc.total x y).resolve_left ((hc.exchanges_iff x y).1 h)

/-- Where no neighbours are to be exchanged, no two elements are. -/
theorem no_inversions (hc : OneSided cmpr le) {xs : List α} (hs : Stable (Exchanges cmpr) xs) :
    inversions (Exchanges cmpr) xs = 0 := by
  apply inversions_eq_zero
  apply (hc.toDocumented.sorted hs).imp
  intro x y hle hx
  exact (hc.exchanges_iff x y).1 hx hle

/-- Elements that are equal in the order. -/
def same (cmpr : α → α → Int) (x y : α) : Bool := cmpr x y = 0 && cmpr y x = 0

theorem same_apart (hc : OneSided cmpr le) (x y z : α) (hy : same cmpr x y) (hz : same cmpr x z) :
    ¬Exchanges cmpr y z := by
  have hle : ∀ u v, cmpr u v = 0 → le u v := by
    intro u v h0
    by_contra hno
    exact (hc.exchanges_iff u v).2 hno h0
  simp only [same, Bool.and_eq_true, decide_eq_true_eq] at hy hz
  rw [hc.exchanges_iff, not_not]
  exact hc.trans y x z (hle y x hy.2) (hle x z hz.1)

end OneSided

/-- **Turns.** With such a comparator the sort of a list that is not empty comes back after
    one pass more than there are pairs the wrong way round, and not before. The
    blocks are then in ascending order, in the same nodes, and those that are equal in the order
    stand as they stood. -/
theorem bubble_turns (hc : OneSided cmpr le) {h : Heap (Option α)} {desc : Descriptor}
    {l : List (Nat × α)} (hs : Stored h desc l) (hne : l ≠ []) :
    (∀ turns, bubbleSort cmpr desc turns h = none ↔
      turns ≤ inversions (Exchanges cmpr) (l.map Prod.snd)) ∧
    ∀ turns h', bubbleSort cmpr desc turns h = some h' → ∃ l', Stored h' desc l' ∧
      l'.map Prod.fst = l.map Prod.fst ∧ (l'.map Prod.snd).Perm (l.map Prod.snd) ∧
      (l'.map Prod.snd).Pairwise le ∧
      ∀ x, (l'.map Prod.snd).filter (OneSided.same cmpr x) =
        (l.map Prod.snd).filter (OneSided.same cmpr x) := by
  have hloop : ∀ turns xs, loop (sweep (Exchanges cmpr)) turns xs = none ↔
      turns ≤ inversions (Exchanges cmpr) xs := by
    apply loop_eq_none_iff
    · intro xs xs' e
      exact sweep_inversions hc.asymm e
    · intro xs e
      exact hc.no_inversions (stable_of_sweep e)
  refine ⟨fun turns => ?_, fun turns h' e => ?_⟩
  · rw [← hloop]
    have hspec := bubbleSort_spec cmpr turns hs hne
    cases el : loop (sweep (Exchanges cmpr)) turns (l.map Prod.snd) with
    | none =>
      rw [el] at hspec
      exact iff_of_true hspec rfl
    | some xs =>
      rw [el] at hspec
      obtain ⟨h', l', e, -⟩ := hspec
      rw [e]
      exact iff_of_false (Option.some_ne_none h') (Option.some_ne_none xs)
  · have hspec := bubbleSort_spec cmpr turns hs hne
    cases el : loop (sweep (Exchanges cmpr)) turns (l.map Prod.snd) with
    | none =>
      rw [el, e] at hspec
      cases hspec
    | some xs =>
      rw [el, e] at hspec
      obtain ⟨h'', l', e', hs', hfst, hsnd⟩ := hspec
      cases e'
      -- the sweeps end in what the blocks settle to
      obtain ⟨hstable, hxs⟩ := ends_iff.1 ⟨turns, el⟩
      refine ⟨l', hs', hfst, ?_, ?_, fun x => ?_⟩
      · rw [hsnd, hxs]
        exact settle_perm _
      · rw [hsnd, hxs]
        exact hc.toDocumented.sorted (hstable _ List.prefix_rfl)
      · rw [hsnd]
        apply loop_keeps _ el
        intro ys ys' es
        exact sweep_filter (hc.same_apart x) es

end

/-- Pairs, compared by their first components. -/
def firstAbove (x y : UInt64 × UInt64) : Int := above x.1 y.1

theorem firstAbove_oneSided : OneSided firstAbove fun x y => x.1 ≤ y.1 where
  total x y := above_documented.total x.1 y.1
  trans x y z := above_documented.trans x.1 y.1 z.1
  pos_iff x y := above_documented.pos_iff x.1 y.1
  zero x y h := by
    unfold firstAbove above
    rw [if_neg (UInt64.not_lt.2 h)]

/-- Of the pairs with one first component the earlier ones stay in front. -/
theorem bubble_turns_firsts : ∃ h desc l, Stored h desc l ∧
    l.map Prod.snd = [(2, 0), (1, 0), (2, 1), (1, 1)] ∧
    (∀ turns, bubbleSort firstAbove desc turns h = none ↔ turns ≤ 3) ∧
    ∀ turns h', bubbleSort firstAbove desc turns h = some h' → ∃ l', Stored h' desc l' ∧
      l'.map Prod.fst = l.map Prod.fst ∧ (l'.map Prod.snd).Pairwise (fun x y => x.1 ≤ y.1) ∧
      (l'.map Prod.snd).filter (OneSided.same firstAbove (1, 0)) = [(1, 0), (1, 1)] ∧
      (l'.map Prod.snd).filter (OneSided.same firstAbove (2, 0)) = [(2, 0), (2, 1)] := by
  obtain ⟨h, desc, l, hs, e⟩ :=
    exists_stored ([(2, 0), (1, 0), (2, 1), (1, 1)] : List (UInt64 × UInt64))
  have hne : l ≠ [] := by
    rintro rfl
    cases e
  obtain ⟨hturns, hsorted⟩ := bubble_turns firstAbove_oneSided hs hne
  rw [e] at hturns
  refine ⟨h, desc, l, hs, e, hturns, fun turns h' e' => ?_⟩
  obtain ⟨l', hs', hfst, -, hle, hsame⟩ := hsorted turns h' e'
  rw [e] at hsame
  exact ⟨l', hs', hfst, hle, hsame (1, 0), hsame (2, 0)⟩

end Zhwkrfsp.BubbleSort
