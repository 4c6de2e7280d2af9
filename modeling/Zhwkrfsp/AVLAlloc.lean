import Zhwkrfsp.AVLFrame

/- Insertion when allocations may fail. A call of `recursive_insert` that cannot allocate
   the leaf returns without writing `*newrootptr`; its caller has NULL there and makes it
   its child before it looks at the status. So the node the leaf was meant for is lost
   with everything below it, unless it is the root, where `qAVLTree__insert` drops the
   result. No tree, comparator or heap is excluded here. -/
namespace Zhwkrfsp.AVLTree
open AVLTree.Tree Linked

section
variable {α : Type} {h h' : Heap α}

/-- The two allocations of a node succeed. -/
def Allocates (h : Heap α) : Prop := ∀ ok ∈ h.mallocs.take 2, ok = true

theorem newNode_eq_none {elem : α} : (newNode h elem).1 = none ↔ ¬Allocates h := by
  obtain ⟨cell, brk, mallocs⟩ := h
  unfold Allocates
  rcases mallocs with _ | ⟨_ | _, _ | ⟨_ | _, rest⟩⟩ <;> simp [newNode, Heap.malloc]

/-- A node that cannot be allocated: the cells are as before. -/
theorem newNode_fails (elem : α) (hf : ¬Allocates h) :
    ∃ h', newNode h elem = (none, h') ∧ h'.cell = h.cell := by
  have hn : (newNode h elem).1 = none := newNode_eq_none.2 hf
  have e : newNode h elem = (none, (newNode h elem).2) := Prod.ext hn rfl
  obtain ⟨-, hcell, -⟩ := (newNode_cases e).resolve_right (by simp)
  exact ⟨_, e, hcell⟩

theorem newNode_ok (elem : α) (ha : Allocates h) : ∃ c h', newNode h elem = (some c, h') := by
  cases e : newNode h elem with
  | mk o h' =>
    cases o with
    | some c => exact ⟨c, h', rfl⟩
    | none => exact absurd ha (newNode_eq_none.1 (by rw [e]))

/-- What is left of a tree when the leaf where the path ends cannot be allocated. -/
def lose : List Bool → Tree → Tree
  | true :: b :: p, node l a ht r => node (lose (b :: p) l) a ht r
  | false :: b :: p, node l a ht r => node l a ht (lose (b :: p) r)
  | _, _ => nil

variable {comp : α → α → Int} {elem : α} {t l r : Tree} {a ht : Nat} {c : Cell α}

/-- Where the search ends at NULL there was at least one turn. -/
theorem path_ne_nil (hn : t.isNull = false) (e : search comp elem h t = some none) :
    ∃ b p, path comp elem h t = b :: p := by
  induction t using searchInduction comp elem h with
  | nil => cases hn
  | gone l a ht r hc => simp [search, hc] at e
  | hit l a ht r c hc h0 => simp [search, hc, h0] at e
  | left l a ht r c hc hlt _ => exact ⟨true, _, path_left hc hlt⟩
  | right l a ht r c hc hgt _ => exact ⟨false, _, path_right hc hgt⟩

/-- The leaf cannot be allocated: the cells stay, and the node it was meant for goes
    unless it is the root of the call. -/
theorem recursiveInsert_lost (hn : t.isNull = false) (e : search comp elem h t = some none)
    (hf : newNode h elem = (none, h')) :
    recursiveInsert comp elem t h = some (⟨-1, lose (path comp elem h t) t,
      if (path comp elem h t).length ≤ 1 then t else lose (path comp elem h t) t⟩, h') := by
  induction t using searchInduction comp elem h with
  | nil => cases hn
  | gone l a ht r hc => simp [search, hc] at e
  | hit l a ht r c hc h0 => simp [search, hc, h0] at e
  | left l a ht r c hc hlt ih =>
    rw [search_left hc hlt] at e
    rw [path_left hc hlt]
    cases hl : l.isNull with
    | true =>
      -- this call writes no `*newrootptr`
      obtain rfl := isNull_iff.1 hl
      exact recursiveInsert_leaf_left hc hlt hf
    | false =>
      obtain ⟨b, p, ep⟩ := path_ne_nil hl e
      rw [recursiveInsert_left hc hlt hl, ih hl e, Option.bind_some, resumeLeft_failed, ep,
        if_neg (by simp), lose]
  | right l a ht r c hc hgt ih =>
    rw [search_right hc hgt] at e
    rw [path_right hc hgt]
    cases hr : r.isNull with
    | true =>
      obtain rfl := isNull_iff.1 hr
      exact recursiveInsert_leaf_right hc hgt hf
    | false =>
      obtain ⟨b, p, ep⟩ := path_ne_nil hr e
      rw [recursiveInsert_right hc hgt hr, ih hr e, Option.bind_some, resumeRight_failed, ep,
        if_neg (by simp), lose]

/-- What is lost is at least one node. -/
theorem lose_length (hn : t.isNull = false) (e : search comp elem h t = some none) :
    (lose (path comp elem h t) t).inorder.length < t.inorder.length := by
  induction t using searchInduction comp elem h with
  | nil => cases hn
  | gone l a ht r hc => simp [search, hc] at e
  | hit l a ht r c hc h0 => simp [search, hc, h0] at e
  | left l a ht r c hc hlt ih =>
    rw [search_left hc hlt] at e
    rw [path_left hc hlt]
    cases hl : l.isNull with
    | true =>
      obtain rfl := isNull_iff.1 hl
      simp [path, lose]
    | false =>
      have ih := ih hl e
      obtain ⟨b, p, ep⟩ := path_ne_nil hl e
      rw [ep] at ih ⊢
      simp only [lose, inorder_node, List.length_append]
      omega
  | right l a ht r c hc hgt ih =>
    rw [search_right hc hgt] at e
    rw [path_right hc hgt]
    cases hr : r.isNull with
    | true =>
      obtain rfl := isNull_iff.1 hr
      simp [path, lose]
    | false =>
      have ih := ih hr e
      obtain ⟨b, p, ep⟩ := path_ne_nil hr e
      rw [ep] at ih ⊢
      simp only [lose, inorder_node, List.length_append, List.length_cons]
      omega

/-- The leaf is allocated: the call does not fail. -/
theorem recursiveInsert_placed (hn : t.isNull = false) (e : search comp elem h t = some none)
    {c : Nat} {h₁ : Heap α} (hf : newNode h elem = (some c, h₁)) {ins : Inserted}
    (hi : recursiveInsert comp elem t h = some (ins, h')) : ins.status = 0 := by
  induction t using searchInduction comp elem h generalizing ins h' with
  | nil => cases hn
  | gone l a ht r hc => simp [search, hc] at e
  | hit l a ht r c hc h0 => simp [search, hc, h0] at e
  | left l a ht r c hc hlt ih =>
    rw [search_left hc hlt] at e
    cases hl : l.isNull with
    | true =>
      obtain rfl := isNull_iff.1 hl
      rw [(recursiveInsert_hung_left hc hlt hf hi).2]
    | false =>
      rw [recursiveInsert_left hc hlt hl] at hi
      obtain ⟨⟨ins₁, h₂⟩, e₁, hi⟩ := Option.bind_eq_some_iff.1 hi
      obtain ⟨-, ⟨hne, -⟩ | ⟨-, h0, -⟩⟩ := resumeLeft_cases hi
      · exact absurd (ih hl e e₁) hne
      · exact h0
  | right l a ht r c hc hgt ih =>
    rw [search_right hc hgt] at e
    cases hr : r.isNull with
    | true =>
      obtain rfl := isNull_iff.1 hr
      rw [(recursiveInsert_hung_right hc hgt hf hi).2]
    | false =>
      rw [recursiveInsert_right hc hgt hr] at hi
      obtain ⟨⟨ins₁, h₂⟩, e₁, hi⟩ := Option.bind_eq_some_iff.1 hi
      obtain ⟨-, ⟨hne, -⟩ | ⟨-, h0, -⟩⟩ := resumeRight_cases hi
      · exact absurd (ih hr e e₁) hne
      · exact h0

/-- Nothing of a tree has changed: size, child pointers and heights, payloads and threads,
    and so what search and iteration find. -/
structure Unchanged (comp : α → α → Int) (s s' : State α) : Prop where
  desc : s'.desc = s.desc
  cell : s'.heap.cell = s.heap.cell
  found : ∀ x, ptrAt comp s'.desc s'.heap x = ptrAt comp s.desc s.heap x
  begin : begin s'.desc = begin s.desc
  «end» : «end» s'.desc = «end» s.desc
  next : ∀ iter, iteratorNext s'.heap iter = iteratorNext s.heap iter
  prev : ∀ iter, iteratorPrev s'.heap iter = iteratorPrev s.heap iter
  deref : ∀ iter, iteratorDeref s'.heap iter = iteratorDeref s.heap iter

theorem search_congr (hcell : h'.cell = h.cell) (x : α) (t : Tree) :
    search comp x h' t = search comp x h t := by
  induction t with
  | nil => rfl
  | node l a ht r ihl ihr => simp only [search, hcell, ihl, ihr]

/-- The descriptor and the cells are all there is to a tree. -/
theorem Unchanged.of_cells {s s' : State α} (hd : s'.desc = s.desc)
    (hcell : s'.heap.cell = s.heap.cell) : Unchanged comp s s' where
  desc := hd
  cell := hcell
  found x := by rw [ptrAt, ptrAt, hd, search_congr hcell]
  begin := by rw [hd]
  «end» := by rw [hd]
  next iter := by unfold iteratorNext; rw [hcell]
  prev iter := by unfold iteratorPrev; rw [hcell]
  deref iter := by
    cases iter with
    | none => rfl
    | some a => rw [iteratorDeref, iteratorDeref, hcell]

/-- An insertion into a tree that is not empty. -/
theorem step_insert {s : State α} (hn : s.desc.root.isNull = false) :
    step comp s (.insert elem) =
      (recursiveInsert comp elem s.desc.root s.heap).map fun (ins, h) =>
        if ins.status ≠ 0 then (-1, ⟨{ s.desc with root := ins.root }, h⟩)
        else (0, ⟨⟨s.desc.size + 1, ins.newroot⟩, h⟩) := by
  simp only [step, insert, hn]
  cases recursiveInsert comp elem s.desc.root s.heap with
  | none => rfl
  | some p =>
    simp only [Bool.false_eq_true, if_false, Option.bind_eq_bind, Option.bind_some, Option.map_some]
    split <;> rfl

/-- In an empty tree a failed call drops what the recursion gives back. -/
theorem insert_empty_unchanged {s s' : State α} (hn : s.desc.root.isNull = true)
    (e : step comp s (.insert elem) = some (-1, s')) : Unchanged comp s s' := by
  have hroot := isNull_iff.1 hn
  by_cases ha : Allocates s.heap
  · obtain ⟨c, h', hf⟩ := newNode_ok elem ha
    simp [step, insert, hn, hf] at e
  · obtain ⟨h', hf, hcell⟩ := newNode_fails elem ha
    simp [step, insert, hn, hf] at e
    subst e
    exact .of_cells (by rw [← hroot]) hcell

/-- The leaf cannot be allocated. -/
theorem insert_unallocated {s : State α} (hn : s.desc.root.isNull = false)
    (es : search comp elem s.heap s.desc.root = some none) (ha : ¬Allocates s.heap) :
    (∀ s', step comp s (.insert elem) = some (-1, s') → Unchanged comp s s') ↔
      (path comp elem s.heap s.desc.root).length ≤ 1 := by
  obtain ⟨h', hf, hcell⟩ := newNode_fails elem ha
  rw [step_insert hn, recursiveInsert_lost hn es hf]
  by_cases hp : (path comp elem s.heap s.desc.root).length ≤ 1
  · -- the root itself would have had the leaf
    apply iff_of_true _ hp
    intro s' e
    rw [if_pos hp] at e
    cases e
    exact .of_cells rfl hcell
  · apply iff_of_false _ hp
    intro hu
    rw [if_neg hp] at hu
    have hroot := congrArg Descriptor.root (hu _ rfl).desc
    have hlt := lose_length hn es
    rw [show lose _ _ = s.desc.root from hroot] at hlt
    exact Nat.lt_irrefl _ hlt

/-- Of whatever tree: a call that returns -1 has changed nothing exactly when the element
    is there, when the allocations do not fail, or when the leaf was meant for an empty
    tree or for the root. -/
theorem failed_insert (comp : α → α → Int) (s : State α) (elem : α) :
    (∀ s', step comp s (.insert elem) = some (-1, s') → Unchanged comp s s') ↔
      (search comp elem s.heap s.desc.root = some none →
        Allocates s.heap ∨ (path comp elem s.heap s.desc.root).length ≤ 1) := by
  cases hn : s.desc.root.isNull with
  | true =>
    have hroot := isNull_iff.1 hn
    apply iff_of_true
    · intro s' e
      exact insert_empty_unchanged hn e
    · intro _
      exact .inr (by simp [hroot, path])
  | false =>
    rcases es : search comp elem s.heap s.desc.root with _ | _ | d
    · -- the search meets a node that is gone
      rw [step_insert hn, recursiveInsert_fault es]
      apply iff_of_true
      · intro s' e
        cases e
      · intro e
        cases e
    · by_cases ha : Allocates s.heap
      · apply iff_of_true
        · intro s' e
          obtain ⟨c, h₁, hf⟩ := newNode_ok elem ha
          rw [step_insert hn] at e
          obtain ⟨⟨ins, h'⟩, hi, e⟩ := Option.map_eq_some_iff.1 e
          simp [recursiveInsert_placed hn es hf hi] at e
        · intro _
          exact .inl ha
      · rw [insert_unallocated hn es ha, or_iff_right ha]
        exact ⟨fun hp _ => hp, fun hp => hp rfl⟩
    · rw [step_insert hn, recursiveInsert_found es]
      apply iff_of_true
      · intro s' e
        cases e
        exact .of_cells rfl rfl
      · intro e
        cases e

end

/-- Of the tree 2, 1 the node 1 is lost when 0 is inserted and nothing can be allocated. -/
theorem failed_insert_loses :
    ∃ s, Machine.run (step byValue) [.insert 2, .insert 1] State.init = some ([0, 0], s) ∧
      (∃ a, ptrAt byValue s.desc s.heap 1 = some (0, some a)) ∧
      ∃ s', step byValue ⟨s.desc, { s.heap with mallocs := [false] }⟩ (.insert 0) = some (-1, s') ∧
        ptrAt byValue s'.desc s'.heap 1 = some (-1, none) ∧ s'.desc.size = 2 :=
  ⟨_, rfl, ⟨_, rfl⟩, _, rfl, rfl, rfl⟩

end Zhwkrfsp.AVLTree
