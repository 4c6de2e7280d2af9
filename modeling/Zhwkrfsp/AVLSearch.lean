import Zhwkrfsp.AVLShape

/- The search, and `recursive_insert` along it: one equation for each turn, and what the
   insertion does where the search finds the element or does not come back. Nothing
   is assumed of the tree, of its cells or of the comparator. -/
namespace Zhwkrfsp.AVLTree
open AVLTree.Tree Linked

variable {α : Type} {comp : α → α → Int} {elem : α} {h h' : Heap α} {t l r : Tree} {a ht : Nat}
  {c : Cell α}

/-! One turn of the search and of the insertion. -/

theorem search_left (hc : h.cell a = some c) (hlt : comp elem c.data < 0) :
    search comp elem h (node l a ht r) = search comp elem h l := by
  have hne : comp elem c.data ≠ 0 := by omega
  simp [search, hc, hne, hlt]

theorem search_right (hc : h.cell a = some c) (hgt : 0 < comp elem c.data) :
    search comp elem h (node l a ht r) = search comp elem h r := by
  have hne : comp elem c.data ≠ 0 := by omega
  have hng : ¬comp elem c.data < 0 := by omega
  simp [search, hc, hne, hng]

/-- The rest of a call of `recursive_insert` after the call on the left child. -/
def resumeLeft (a ht : Nat) (r : Tree) : Inserted × Heap α → Option (Inserted × Heap α)
  | (ins, h) =>
    if ins.status ≠ 0 then
      some (⟨ins.status, node ins.newroot a ht r, node ins.newroot a ht r⟩, h)
    else
      (leftBalance (mk ins.newroot a r)).map fun newroot => (⟨0, newroot, newroot⟩, h)

def resumeRight (l : Tree) (a ht : Nat) : Inserted × Heap α → Option (Inserted × Heap α)
  | (ins, h) =>
    if ins.status ≠ 0 then
      some (⟨ins.status, node l a ht ins.newroot, node l a ht ins.newroot⟩, h)
    else
      (rightBalance (mk l a ins.newroot)).map fun newroot => (⟨0, newroot, newroot⟩, h)

theorem recursiveInsert_left (hc : h.cell a = some c) (hlt : comp elem c.data < 0)
    (hl : l.isNull = false) :
    recursiveInsert comp elem (node l a ht r) h =
      (recursiveInsert comp elem l h).bind (resumeLeft a ht r) := by
  have hne : comp elem c.data ≠ 0 := by omega
  rw [recursiveInsert, hc]
  simp only [Option.bind_eq_bind, Option.bind_some, hne, hlt, hl, if_true, if_false]
  apply congrArg (Option.bind (recursiveInsert comp elem l h))
  funext ⟨ins, h₁⟩
  rw [resumeLeft]
  split
  · rfl
  · cases leftBalance (mk ins.newroot a r) <;> rfl

theorem recursiveInsert_right (hc : h.cell a = some c) (hgt : 0 < comp elem c.data)
    (hr : r.isNull = false) :
    recursiveInsert comp elem (node l a ht r) h =
      (recursiveInsert comp elem r h).bind (resumeRight l a ht) := by
  have hne : comp elem c.data ≠ 0 := by omega
  have hng : ¬comp elem c.data < 0 := by omega
  rw [recursiveInsert, hc]
  simp only [Option.bind_eq_bind, Option.bind_some, hne, hng, hr, if_false]
  apply congrArg (Option.bind (recursiveInsert comp elem r h))
  funext ⟨ins, h₁⟩
  rw [resumeRight]
  split
  · rfl
  · cases rightBalance (mk l a ins.newroot) <;> rfl

@[simp] theorem resumeLeft_failed (newroot root : Tree) :
    resumeLeft a ht r (⟨-1, newroot, root⟩, h) =
      some (⟨-1, node newroot a ht r, node newroot a ht r⟩, h) := rfl

@[simp] theorem resumeRight_failed (newroot root : Tree) :
    resumeRight l a ht (⟨-1, newroot, root⟩, h) =
      some (⟨-1, node l a ht newroot, node l a ht newroot⟩, h) := rfl

/-- What the rest of the call can do: hand a failure on, or rebalance. -/
theorem resumeLeft_cases {ins ins' : Inserted}
    (e : resumeLeft a ht r (ins, h) = some (ins', h')) : h' = h ∧
      ((ins.status ≠ 0 ∧ ins'.status = ins.status) ∨ (ins.status = 0 ∧ ins'.status = 0 ∧
        leftBalance (mk ins.newroot a r) = some ins'.newroot)) := by
  rw [resumeLeft] at e
  split at e
  · rename_i hne
    cases e
    exact ⟨rfl, .inl ⟨hne, rfl⟩⟩
  · rename_i h0
    obtain ⟨newroot, eb, e⟩ := Option.map_eq_some_iff.1 e
    cases e
    exact ⟨rfl, .inr ⟨not_not.1 h0, rfl, eb⟩⟩

theorem resumeRight_cases {ins ins' : Inserted}
    (e : resumeRight l a ht (ins, h) = some (ins', h')) : h' = h ∧
      ((ins.status ≠ 0 ∧ ins'.status = ins.status) ∨ (ins.status = 0 ∧ ins'.status = 0 ∧
        rightBalance (mk l a ins.newroot) = some ins'.newroot)) := by
  rw [resumeRight] at e
  split at e
  · rename_i hne
    cases e
    exact ⟨rfl, .inl ⟨hne, rfl⟩⟩
  · rename_i h0
    obtain ⟨newroot, eb, e⟩ := Option.map_eq_some_iff.1 e
    cases e
    exact ⟨rfl, .inr ⟨not_not.1 h0, rfl, eb⟩⟩

theorem isNull_iff : t.isNull = true ↔ t = nil := by
  cases t <;> simp

/-- The search goes on only below a node. -/
theorem isNull_of_search {o : Option (Option Nat)} (e : search comp elem h t = o)
    (ho : o ≠ some none) : t.isNull = false := by
  cases t with
  | nil => exact absurd e.symm ho
  | node => rfl

/-! The leaf, allocated or not. -/

theorem recursiveInsert_hung_left (hc : h.cell a = some c) (hlt : comp elem c.data < 0) {n : Nat}
    {h₁ : Heap α} (hf : newNode h elem = (some n, h₁)) {ins : Inserted}
    (hi : recursiveInsert comp elem (node nil a ht r) h = some (ins, h')) :
    listInsertLeft a n h₁ = some h' ∧
      ins = ⟨0, mk (node nil n 1 nil) a r, mk (node nil n 1 nil) a r⟩ := by
  have hne : comp elem c.data ≠ 0 := by omega
  simp only [recursiveInsert, hc, hne, hlt, hf, isNull_nil, Option.bind_eq_bind, Option.bind_some,
    if_true, if_false] at hi
  obtain ⟨h₂, e, hi⟩ := Option.bind_eq_some_iff.1 hi
  cases hi
  exact ⟨e, rfl⟩

theorem recursiveInsert_hung_right (hc : h.cell a = some c) (hgt : 0 < comp elem c.data) {n : Nat}
    {h₁ : Heap α} (hf : newNode h elem = (some n, h₁)) {ins : Inserted}
    (hi : recursiveInsert comp elem (node l a ht nil) h = some (ins, h')) :
    listInsertRight a n h₁ = some h' ∧
      ins = ⟨0, mk l a (node nil n 1 nil), mk l a (node nil n 1 nil)⟩ := by
  have hne : comp elem c.data ≠ 0 := by omega
  have hng : ¬comp elem c.data < 0 := by omega
  simp only [recursiveInsert, hc, hne, hng, hf, isNull_nil, Option.bind_eq_bind, Option.bind_some,
    if_true, if_false] at hi
  obtain ⟨h₂, e, hi⟩ := Option.bind_eq_some_iff.1 hi
  cases hi
  exact ⟨e, rfl⟩

theorem recursiveInsert_leaf_left (hc : h.cell a = some c) (hlt : comp elem c.data < 0)
    (hf : newNode h elem = (none, h')) :
    recursiveInsert comp elem (node nil a ht r) h = some (⟨-1, nil, node nil a ht r⟩, h') := by
  have hne : comp elem c.data ≠ 0 := by omega
  simp [recursiveInsert, hc, hne, hlt, hf]

theorem recursiveInsert_leaf_right (hc : h.cell a = some c) (hgt : 0 < comp elem c.data)
    (hf : newNode h elem = (none, h')) :
    recursiveInsert comp elem (node l a ht nil) h = some (⟨-1, nil, node l a ht nil⟩, h') := by
  have hne : comp elem c.data ≠ 0 := by omega
  have hng : ¬comp elem c.data < 0 := by omega
  simp [recursiveInsert, hc, hne, hng, hf]

/-! A whole call, by what the search says of the element. -/

/-- Induction along the search. -/
@[elab_as_elim]
theorem searchInduction (comp : α → α → Int) (elem : α) (h : Heap α) {motive : Tree → Prop}
    (nil : motive nil) (gone : ∀ l a ht r, h.cell a = none → motive (node l a ht r))
    (hit : ∀ l a ht r c, h.cell a = some c → comp elem c.data = 0 → motive (node l a ht r))
    (left : ∀ l a ht r c, h.cell a = some c → comp elem c.data < 0 → motive l →
      motive (node l a ht r))
    (right : ∀ l a ht r c, h.cell a = some c → 0 < comp elem c.data → motive r →
      motive (node l a ht r)) (t : Tree) : motive t := by
  induction t with
  | nil => exact nil
  | node l a ht r ihl ihr =>
    cases hc : h.cell a with
    | none => exact gone l a ht r hc
    | some c =>
      rcases Int.lt_trichotomy (comp elem c.data) 0 with hlt | h0 | hgt
      · exact left l a ht r c hc hlt ihl
      · exact hit l a ht r c hc h0
      · exact right l a ht r c hc hgt ihr

/-- The search does not come back: neither does the insertion. -/
theorem recursiveInsert_fault (e : search comp elem h t = none) :
    recursiveInsert comp elem t h = none := by
  induction t using searchInduction comp elem h with
  | nil => rfl
  | gone l a ht r hc => rw [recursiveInsert, hc, Option.bind_eq_bind, Option.bind_none]
  | hit l a ht r c hc h0 => simp [search, hc, h0] at e
  | left l a ht r c hc hlt ih =>
    rw [search_left hc hlt] at e
    rw [recursiveInsert_left hc hlt (isNull_of_search e nofun), ih e, Option.bind_none]
  | right l a ht r c hc hgt ih =>
    rw [search_right hc hgt] at e
    rw [recursiveInsert_right hc hgt (isNull_of_search e nofun), ih e, Option.bind_none]

/-- The element is there: nothing changes. -/
theorem recursiveInsert_found {d : Nat} (e : search comp elem h t = some (some d)) :
    recursiveInsert comp elem t h = some (⟨-1, t, t⟩, h) := by
  induction t using searchInduction comp elem h with
  | nil => cases e
  | gone l a ht r hc => simp [search, hc] at e
  | hit l a ht r c hc h0 => simp [recursiveInsert, hc, h0]
  | left l a ht r c hc hlt ih =>
    rw [search_left hc hlt] at e
    rw [recursiveInsert_left hc hlt (isNull_of_search e nofun), ih e, Option.bind_some,
      resumeLeft_failed]
  | right l a ht r c hc hgt ih =>
    rw [search_right hc hgt] at e
    rw [recursiveInsert_right hc hgt (isNull_of_search e nofun), ih e, Option.bind_some,
      resumeRight_failed]

end Zhwkrfsp.AVLTree
