import Zhwkrfsp.AVLRuns

/- Iteration. `Stored` says that the threads follow the order of the tree; from
   `begin` and `end` they are walked to their ends. -/
namespace Zhwkrfsp.AVLTree
open AVLTree.Tree Linked

section
variable {α : Type}

/-- `move` takes the iterator through the nodes of the list and then to NULL. -/
def Walks (move : Option Nat → Option (Option Nat)) : Option Nat → List Nat → Prop
  | iter, [] => iter = none
  | iter, a :: l => iter = some a ∧ ∃ iter', move iter = some iter' ∧ Walks move iter' l

theorem minNode_eq (t : Tree) : minNode t = t.inorder.head? := by
  induction t with
  | nil => rfl
  | node l a ht r ih _ =>
    cases l with
    | nil => rfl
    | node ll b hb lr =>
      rw [minNode, isNull_node, if_neg (by simp), ih]
      simp

theorem maxNode_eq (t : Tree) : maxNode t = t.inorder.getLast? := by
  induction t with
  | nil => rfl
  | node l a ht r _ ih =>
    cases r with
    | nil => simp [maxNode]
    | node rl b hb rr =>
      rw [maxNode, isNull_node, if_neg (by simp), ih]
      simp [List.getLast?_append, List.getLast?_cons]

theorem walks_next {h : Heap α} {p : Option Nat} {l : List (Nat × α)}
    (hc : Chain h.cell p l none) : Walks (iteratorNext h) (first l none) (l.map Prod.fst) := by
  induction l generalizing p with
  | nil => rfl
  | cons b l ih =>
    obtain ⟨e, hl⟩ := hc
    exact ⟨first_cons _ _ _, first l none, by simp [iteratorNext, e], ih hl⟩

theorem walks_prev {h : Heap α} {n : Option Nat} {l : List (Nat × α)}
    (hc : Chain h.cell none l n) :
    Walks (iteratorPrev h) (last none l) (l.map Prod.fst).reverse := by
  induction l using List.reverseRecOn generalizing n with
  | nil => rfl
  | append_singleton l b ih =>
    rw [List.map_append, List.reverse_append, last_append]
    refine ⟨rfl, last none l, ?_, ih (Chain.append.1 hc).1⟩
    simp [iteratorPrev, hc.mid]

end

variable {α : Type} {comp : α → α → Int} [DecidableEq α]

/-- After any run the threads visit the nodes in the order of the tree and back,
    and the elements they meet are the members, ascending. -/
theorem threads (ho : TotalOrder comp) (ops : List (Op α)) :
    ∃ s, Machine.run (step comp) ops State.init = some ((Machine.runs setStep ops ∅).1, s) ∧
      Walks (iteratorNext s.heap) (begin s.desc) s.desc.root.inorder ∧
      Walks (iteratorPrev s.heap) («end» s.desc) s.desc.root.inorder.reverse ∧
      ∃ xs : List α, s.desc.root.inorder.map (fun a => iteratorDeref s.heap (some a)) =
          xs.map (fun x => some (some x)) ∧
        xs.Pairwise (fun x y => comp x y < 0) ∧
        ∀ x, x ∈ xs ↔ x ∈ (Machine.runs setStep ops ∅).2 := by
  obtain ⟨s, l, e, hr⟩ := Rep.runs ho ops
  refine ⟨s, e, ?_, ?_, l.map Prod.snd, ?_, hr.stored.sorted, fun x => (hr.mem x).symm⟩
  · have := walks_next hr.stored.chain
    rw [begin, minNode_eq, hr.inorder, List.head?_map]
    simpa [first] using this
  · have := walks_prev hr.stored.chain
    rw [«end», maxNode_eq, hr.inorder, List.getLast?_map]
    simpa [last] using this
  · rw [hr.inorder, List.map_map, List.map_map]
    exact List.map_congr_left fun p hp => hr.deref hp

theorem threads_byValue :
    ∃ s, Machine.run (step byValue) [.insert 3, .insert 1, .insert 2, .erase 1] State.init =
        some ([0, 0, 0, 0], s) ∧
      Walks (iteratorNext s.heap) (begin s.desc) s.desc.root.inorder ∧
      ∃ xs : List UInt64, s.desc.root.inorder.map (fun a => iteratorDeref s.heap (some a)) =
          xs.map (fun x => some (some x)) ∧ ∀ x, x ∈ xs ↔ x = 2 ∨ x = 3 := by
  obtain ⟨s, e, hn, -, xs, hd, -, hm⟩ :=
    threads byValue_total [.insert 3, .insert 1, .insert 2, .erase 1]
  have hS : Machine.runs setStep [.insert 3, .insert 1, .insert 2, .erase 1] ∅ =
      ([0, 0, 0, 0], ({2, 3} : Finset UInt64)) := by decide
  rw [hS] at e hm
  exact ⟨s, e, hn, xs, hd, by simpa using hm⟩

end Zhwkrfsp.AVLTree
