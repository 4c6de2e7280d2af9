import Zhwkrfsp.BTreeValid

/- Splitting a node that has a pair too many. Its children and pairs alternate, with the
   pending pair where its key belongs and the pending child to the left of it
   (`slots`); whichever of the three places that is, the halves and the promoted pair
   read as the node does. -/
namespace Zhwkrfsp.BTree
open Node

section
variable {κ υ : Type}

/-- A row of subtrees with pairs between them, read from left to right. -/
def reads (c : Node κ υ) : List ((κ × υ) × Node κ υ) → List (κ × υ)
  | [] => c.toList
  | (p, d) :: row => c.toList ++ p :: reads d row

variable (comp : κ → κ → Int)

/-- The keys of every subtree of a row lie between the neighbouring keys. -/
def Between (c : Node κ υ) : List ((κ × υ) × Node κ υ) → Prop
  | [] => True
  | (p, d) :: row =>
    (∀ x ∈ c.toList, comp x.1 p.1 < 0) ∧ (∀ x ∈ d.toList, comp p.1 x.1 < 0) ∧ Between d row

/-- The row of a node that waits to be split. -/
def slots (p q e : κ × υ) (c0 c1 c2 xc : Node κ υ) : Node κ υ × List ((κ × υ) × Node κ υ) :=
  if comp e.1 p.1 < 0 then (xc, [(e, c0), (p, c1), (q, c2)])
  else if comp e.1 q.1 < 0 then (c0, [(p, xc), (e, c1), (q, c2)])
  else (c0, [(p, c1), (q, xc), (e, c2)])

/-- A node of depth `n + 1` that waits to be split: its two pairs in order, a pending pair
    with another key, and four subtrees of one depth in between. -/
structure OverFull (n : Nat) (p q e : κ × υ) (c0 c1 c2 xc : Node κ υ) : Prop where
  pairs : comp p.1 q.1 < 0
  first : comp e.1 p.1 ≠ 0
  second : comp e.1 q.1 ≠ 0
  childs : ∀ c ∈ [c0, c1, c2, xc], Shape n c ∧ Ordered comp c
  between : Between comp (slots comp p q e c0 c1 c2 xc).1 (slots comp p q e c0 c1 c2 xc).2

/-- A valid node of depth `n + 1` with one pair, two children and nothing pending. -/
def Half (n : Nat) (t : Node κ υ) : Prop :=
  Shape (n + 1) t ∧ Ordered comp t ∧ ∃ p c0 c1, t = mk (some p) none c0 c1 null none null

variable {comp} {n : Nat} {p q e : κ × υ} {c c0 c1 c2 xc top : Node κ υ}

theorem reads_three (a b m : κ × υ) (d0 d1 d2 : Node κ υ) :
    reads c [(a, d0), (b, d1), (m, d2)] =
      (c.toList ++ a :: d0.toList) ++ b :: (d1.toList ++ m :: d2.toList) := by
  simp [reads]

/-- What lies between is in order, from end to end. -/
theorem sorted_reads (ho : TotalOrder comp) (row : List ((κ × υ) × Node κ υ))
    (hpairs : row.Pairwise fun a b => comp a.1.1 b.1.1 < 0) (hc : Sorted comp c.toList)
    (hrow : ∀ a ∈ row, Sorted comp a.2.toList) (hb : Between comp c row) :
    Sorted comp (reads c row) ∧ ∀ m, (∀ a ∈ row, comp m a.1.1 < 0) →
      (∀ x ∈ c.toList, comp m x.1 < 0) → ∀ x ∈ reads c row, comp m x.1 < 0 := by
  induction row generalizing c with
  | nil => exact ⟨hc, fun m _ hm => hm⟩
  | cons a row ih =>
    obtain ⟨a, d⟩ := a
    rw [List.pairwise_cons] at hpairs
    obtain ⟨hca, had, hb⟩ := hb
    obtain ⟨hsorted, habove⟩ := ih hpairs.2 (hrow (a, d) List.mem_cons_self)
      (fun b hb => hrow b (List.mem_cons_of_mem _ hb)) hb
    have hright : ∀ y ∈ reads d row, comp a.1 y.1 < 0 := habove a.1 hpairs.1 had
    refine ⟨?_, fun m hm hmc x hx => ?_⟩
    · rw [reads, sorted_append_cons]
      exact ⟨hc, hsorted, hca, hright, fun x hx y hy => ho.lt_trans (hca x hx) (hright y hy)⟩
    · rw [reads, List.mem_append, List.mem_cons] at hx
      have hma : comp m a.1 < 0 := hm (a, d) List.mem_cons_self
      rcases hx with hx | rfl | hx
      · exact hmc x hx
      · exact hma
      · exact ho.lt_trans hma (hright x hx)

/-- Two subtrees and a pair that read in order are a half. -/
theorem Half.of_sorted (h0 : Shape n c0) (h1 : Shape n c1)
    (hl : Sorted comp (c0.toList ++ p :: c1.toList)) :
    Half comp n (mk (some p) none c0 c1 null none null) := by
  have hs := Shape.two p h0 h1
  refine ⟨hs, hs.ordered ?_, p, c0, c1, rfl⟩
  rw [toList_two]
  exact hl

/-- The halves of a row in order. -/
theorem halves_of_sorted {a m b : κ × υ} {d0 d1 d2 : Node κ υ} (h : Shape n c) (h0 : Shape n d0)
    (h1 : Shape n d1) (h2 : Shape n d2) (hl : Sorted comp (reads c [(a, d0), (m, d1), (b, d2)])) :
    Half comp n (mk (some a) none c d0 null none null) ∧
      Half comp n (mk (some b) none d1 d2 null none null) := by
  rw [reads_three, sorted_append_cons] at hl
  exact ⟨.of_sorted h h0 hl.1, .of_sorted h1 h2 hl.2.1⟩

/-- **Splitting.** The left half, the promoted pair and the right half read as the node
    did, and both halves are nodes of its depth with one pair. -/
theorem split_up (ho : TotalOrder comp) (h : OverFull comp n p q e c0 c1 c2 xc)
    (htop : top.isNull = false) :
    ∃ topropair toprochild nodesplit,
      splitUp comp (mk (some p) (some q) c0 c1 c2 (some e) xc) top =
        some (topropair, toprochild, nodesplit) ∧
      toprochild.toList ++ topropair :: nodesplit.toList =
        reads (slots comp p q e c0 c1 c2 xc).1 (slots comp p q e c0 c1 c2 xc).2 ∧
      Half comp n toprochild ∧ Half comp n nodesplit := by
  have hs0 := h.childs c0 (by simp)
  have hs1 := h.childs c1 (by simp)
  have hs2 := h.childs c2 (by simp)
  have hsx := h.childs xc (by simp)
  have hbetween := h.between
  have sorted : ∀ {d : Node κ υ}, Shape n d ∧ Ordered comp d → Sorted comp d.toList :=
    fun hd => hd.1.sorted ho hd.2
  have hpq := h.pairs
  by_cases hep : comp e.1 p.1 < 0
  · have heq := ho.lt_trans hep hpq
    rw [slots, if_pos hep] at hbetween ⊢
    refine ⟨_, _, _, splitUp_left htop hep, by simp [reads], ?_⟩
    apply halves_of_sorted hsx.1 hs0.1 hs1.1 hs2.1
    apply (sorted_reads ho _ (by simp [hep, heq, hpq]) (sorted hsx) _ hbetween).1
    simp [sorted hs0, sorted hs1, sorted hs2]
  · have hpe : comp p.1 e.1 < 0 := (ho.lt_or_gt h.first).resolve_left hep
    by_cases heq : comp e.1 q.1 < 0
    · rw [slots, if_neg hep, if_pos heq] at hbetween ⊢
      refine ⟨_, _, _, splitUp_mid htop hep heq, by simp [reads], ?_⟩
      apply halves_of_sorted hs0.1 hsx.1 hs1.1 hs2.1
      apply (sorted_reads ho _ (by simp [hpe, heq, hpq]) (sorted hs0) _ hbetween).1
      simp [sorted hsx, sorted hs1, sorted hs2]
    · have hqe : comp q.1 e.1 < 0 := (ho.lt_or_gt h.second).resolve_left heq
      rw [slots, if_neg hep, if_neg heq] at hbetween ⊢
      refine ⟨_, _, _, splitUp_right htop hep heq, by simp [reads], ?_⟩
      apply halves_of_sorted hs0.1 hs1.1 hsx.1 hs2.1
      apply (sorted_reads ho _ (by simp [hpe, hqe, hpq]) (sorted hs0) _ hbetween).1
      simp [sorted hsx, sorted hs1, sorted hs2]

end

/-- A leaf with one key. -/
def single (k : UInt64) : Node UInt64 UInt64 := mk (some (k, k)) none null null null none null

theorem single_valid (k : UInt64) : Shape 1 (single k) ∧ Ordered byValue (single k) := by
  refine ⟨shape_leaf _, trivial, trivial, trivial, ?_, ?_, ?_⟩
  all_goals simp

theorem split_up_inner : ∃ topropair toprochild nodesplit,
    splitUp byValue (mk (some (20, 20)) (some (40, 40)) (single 10) (single 30) (single 50)
      (some (27, 27)) (single 25)) (single 0) = some (topropair, toprochild, nodesplit) ∧
    toprochild.toList ++ topropair :: nodesplit.toList =
      [(10, 10), (20, 20), (25, 25), (27, 27), (30, 30), (40, 40), (50, 50)] ∧
    Half byValue 1 toprochild ∧ Half byValue 1 nodesplit := by
  have hb : Between byValue (single 10)
      [((20, 20), single 25), ((27, 27), single 30), ((40, 40), single 50)] := by
    simp [Between, single, byValue, Node.toList]
  refine split_up byValue_total ⟨by decide, by decide, by decide, ?_, hb⟩ rfl
  simp [single_valid]

end Zhwkrfsp.BTree
