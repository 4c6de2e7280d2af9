import Zhwkrfsp.AVLSet
import Mathlib.Data.Finset.Card
import Mathlib.Data.List.Nodup

/- Runs of insertions and erasures. Every run agrees with a set: the answers are
   those of `setStep`, search finds exactly the members, and the threads visit
   them in ascending order. The one trace of the machine is the size, an unsigned
   int: `erase` takes a tree whose size wrapped to 0 for an empty one. -/
namespace Zhwkrfsp.AVLTree
open AVLTree.Tree Linked

section
variable {α : Type}

/-- A tree and the heap it lives in. -/
structure State (α : Type) where
  desc : Descriptor
  heap : Heap α

def State.init : State α := ⟨constructor, Heap.empty⟩

/-- `erase` is called with the iterator that `ptr_at` finds. Every iterator to a
    node of the tree is one that `ptr_at` finds (`ptrAt_node`). -/
inductive Op (α : Type) where
  | insert (elem : α)
  | erase (elem : α)

variable (comp : α → α → Int)

def step (s : State α) : Op α → Option (Int32 × State α)
  | .insert elem => do
    let (r, d, h) ← insert comp s.desc s.heap elem
    return (r, ⟨d, h⟩)
  | .erase elem => do
    match ← ptrAt comp s.desc s.heap elem with
    | (_, some iter) =>
      let (r, d, h) ← erase comp s.desc s.heap iter
      return (r, ⟨d, h⟩)
    | (r, none) => return (r, s)

/-- The elements in the order of the tree. -/
def State.elems (s : State α) : List α :=
  s.desc.root.inorder.filterMap fun a => (s.heap.cell a).map Cell.data

/-- A search tree: whatever is left of a node compares below it, whatever is right above. -/
def SearchTree (h : Heap α) : Tree → Prop
  | nil => True
  | node l a _ r => ∃ c, h.cell a = some c ∧ SearchTree h l ∧ SearchTree h r ∧
      (∀ b ∈ l.inorder, ∃ e, h.cell b = some e ∧ comp e.data c.data < 0) ∧
      (∀ b ∈ r.inorder, ∃ e, h.cell b = some e ∧ comp c.data e.data < 0)

/-! What the tree is for. -/

variable [DecidableEq α]

/-- The set that the tree stands for, and the answers: 0 for a change, -1 for none. -/
def setStep (S : Finset α) : Op α → Int32 × Finset α
  | .insert elem => if elem ∈ S then (-1, S) else (0, Insert.insert elem S)
  | .erase elem =>
    if elem ∈ S ∧ S.card % 2 ^ 32 ≠ 0 then (0, S.erase elem) else (-1, S)

/-- A tree whose nodes are the cells of `l`, and the set of its elements. -/
structure Rep (s : State α) (l : List (Nat × α)) (S : Finset α) : Prop where
  exact : s.desc.root.Exact
  inorder : s.desc.root.inorder = l.map Prod.fst
  stored : Stored comp s.heap l
  size : s.desc.size = UInt32.ofNat S.card
  card : S.card = l.length
  mem : ∀ x, x ∈ S ↔ x ∈ l.map Prod.snd

end

section
variable {α : Type} {comp : α → α → Int} {s : State α} {l : List (Nat × α)} {S : Finset α}

namespace Rep

theorem init : Rep comp (State.init : State α) [] ∅ :=
  ⟨trivial, rfl, ⟨trivial, .nil, .nil, nofun, rfl⟩, rfl, rfl, by simp⟩

theorem whole (hr : Rep comp s l S) : Stored comp s.heap ([] ++ l ++ []) := by
  simpa using hr.stored

theorem size_eq_zero (hr : Rep comp s l S) : s.desc.size = 0 ↔ S.card % 2 ^ 32 = 0 := by
  rw [hr.size, ← UInt32.toNat_inj]
  simp

theorem node (hr : Rep comp s l S) {x : α} (hx : x ∈ S) : ∃ a, (a, x) ∈ l := by
  obtain ⟨⟨a, _⟩, ha, rfl⟩ := List.mem_map.1 ((hr.mem x).1 hx)
  exact ⟨a, ha⟩

variable (ho : TotalOrder comp)
include ho

theorem ptrAt_mem (hr : Rep comp s l S) {a : Nat} {x : α} (h : (a, x) ∈ l) :
    ptrAt comp s.desc s.heap x = some (0, some a) := by
  simp [ptrAt, search_mem ho hr.inorder hr.whole h]

theorem ptrAt_not_mem (hr : Rep comp s l S) {x : α} (h : x ∉ S) :
    ptrAt comp s.desc s.heap x = some (-1, none) := by
  rw [hr.mem] at h
  simp [ptrAt, search_not_mem ho hr.inorder hr.whole h]

theorem insert_mem (hr : Rep comp s l S) {x : α} (h : x ∈ S) :
    step comp s (.insert x) = some (-1, s) := by
  have hx := (hr.mem x).1 h
  have hn : s.desc.root.isNull = false := not_null hr.inorder hx
  simp [step, insert, hn, recursiveInsert_present ho hr.inorder hr.whole hx]

theorem erase_not_mem (hr : Rep comp s l S) {x : α} (h : x ∉ S) :
    step comp s (.erase x) = some (-1, s) := by
  simp [step, ptrAt_not_mem ho hr h]

/-- The size of a tree of `2 ^ 32` elements reads 0, and `erase` gives up. -/
theorem erase_wrapped (hr : Rep comp s l S) {x : α} (hx : x ∈ S) (h : S.card % 2 ^ 32 = 0) :
    step comp s (.erase x) = some (-1, s) := by
  obtain ⟨a, ha⟩ := hr.node hx
  simp [step, ptrAt_mem ho hr ha, erase, hr.size_eq_zero.2 h]

variable [DecidableEq α]

theorem insert_not_mem (hr : Rep comp s l S) {x : α} (h : x ∉ S) :
    ∃ s' l', step comp s (.insert x) = some (0, s') ∧ Rep comp s' l' (Insert.insert x S) ∧
      (∀ a ∈ l'.map Prod.fst, a = s.heap.brk ∨ a ∈ l.map Prod.fst) ∧
      place s.heap.brk (path comp x s.heap s.desc.root) s.desc.root = some s'.desc.root := by
  have hx := mt (hr.mem x).2 h
  cases hn : s.desc.root.isNull with
  | true =>
    have hl := inorder_eq_nil hr.inorder hn
    subst hl
    have hroot : s.desc.root = nil := by
      cases e : s.desc.root with
      | nil => rfl
      | node => simp [e] at hn
    have hS : S = ∅ := Finset.card_eq_zero.1 hr.card
    have hs' : Stored comp (s.heap.new x).2 [(s.heap.brk, x)] := by
      have hs : Stored comp s.heap ([] ++ []) := hr.stored
      exact hs.splice nofun nofun (Function.update_idem _ _ _).symm rfl hr.stored.mallocs
    refine ⟨⟨⟨1, .node nil s.heap.brk 1 nil⟩, (s.heap.new x).2⟩, [(s.heap.brk, x)], ?_, ?_, ?_, ?_⟩
    · simp [step, insert, hn, hr.stored.newNode_eq]
    · exact ⟨⟨trivial, trivial, rfl⟩, rfl, hs', by simp [hS], by simp [hS], by simp [hS]⟩
    · exact fun a ha => .inl (List.mem_singleton.1 ha)
    · rw [hroot]
      rfl
  | false =>
    obtain ⟨t', h', l₁, l₂, e, ep, -, hx', rfl, hi', hs'⟩ :=
      recursiveInsert_absent ho hr.exact hn hr.inorder hr.whole hx nofun nofun
    refine ⟨⟨⟨s.desc.size + 1, t'⟩, h'⟩, l₁ ++ (s.heap.brk, x) :: l₂, ?_, ?_, ?_, ep⟩
    · simp [step, insert, hn, e]
    · refine ⟨hx', hi', by simpa using hs', ?_, ?_, fun y => ?_⟩
      · rw [hr.size, Finset.card_insert_of_notMem h, UInt32.ofNat_add]
        rfl
      · rw [Finset.card_insert_of_notMem h, hr.card]
        simp
        omega
      · rw [Finset.mem_insert, hr.mem]
        simp
        tauto
    · intro a ha
      rw [List.map_append, List.map_cons, List.mem_append, List.mem_cons] at ha
      rw [List.map_append, List.mem_append]
      tauto

theorem erase_mem (hr : Rep comp s l S) {x : α} (h : x ∈ S) (hsize : S.card % 2 ^ 32 ≠ 0) :
    ∃ s' l', step comp s (.erase x) = some (0, s') ∧ Rep comp s' l' (S.erase x) ∧
      (∀ a ∈ l'.map Prod.fst, a ∈ l.map Prod.fst) ∧
      dropAt (path comp x s.heap s.desc.root) s.desc.root = some s'.desc.root := by
  obtain ⟨a, ha⟩ := hr.node h
  obtain ⟨t', h', l₁, l₂, l', e, ed, hx', rfl, hi', hsnd, hsub, hs'⟩ :=
    recursiveDelete_spec ho hr.exact hr.inorder hr.whole ha
  refine ⟨⟨⟨s.desc.size - 1, t'⟩, h'⟩, l', ?_, ?_, fun b hb => hsub.subset hb, ed⟩
  · simp [step, ptrAt_mem ho hr ha, erase, mt hr.size_eq_zero.1 hsize, e]
  · have hlen : l'.length = (l₁ ++ l₂).length := by
      simpa using congrArg List.length hsnd
    have hpos := Finset.card_pos.2 ⟨x, h⟩
    refine ⟨hx', hi', by simpa using hs', ?_, ?_, fun y => ?_⟩
    · rw [hr.size, Finset.card_erase_of_mem h, UInt32.ofNat_sub hpos]
      rfl
    · rw [Finset.card_erase_of_mem h, hr.card, hlen]
      simp
    · have hnx : x ∉ (l₁ ++ l₂).map Prod.snd := by
        intro hm
        rw [List.map_append, List.mem_append] at hm
        rcases hm with hm | hm
        · exact ho.ne_of_lt (hr.stored.lt_left hm) rfl
        · exact ho.ne_of_lt (hr.stored.lt_right hm) rfl
      have hy : y ∈ S ↔ y = x ∨ y ∈ (l₁ ++ l₂).map Prod.snd := by
        rw [hr.mem]
        simp
        tauto
      rw [Finset.mem_erase, hy, hsnd]
      constructor
      · rintro ⟨hne, rfl | hm⟩
        · exact absurd rfl hne
        · exact hm
      · intro hm
        exact ⟨fun e => hnx (e ▸ hm), .inr hm⟩

/-- One call answers as the set does; a new node has the next address. -/
theorem sim (hr : Rep comp s l S) (op : Op α) :
    ∃ s' l', step comp s op = some ((setStep S op).1, s') ∧ Rep comp s' l' (setStep S op).2 ∧
      ∀ a ∈ l'.map Prod.fst, a = s.heap.brk ∨ a ∈ l.map Prod.fst := by
  cases op with
  | insert x =>
    by_cases h : x ∈ S
    · exact ⟨s, l, by simp [setStep, h, hr.insert_mem ho h], by simpa [setStep, h] using hr,
        fun a ha => .inr ha⟩
    · obtain ⟨s', l', e, hr', ha, -⟩ := hr.insert_not_mem ho h
      exact ⟨s', l', by simp [setStep, h, e], by simpa [setStep, h] using hr', ha⟩
  | erase x =>
    by_cases h : x ∈ S
    · by_cases hc : S.card % 2 ^ 32 = 0
      · have : ¬(x ∈ S ∧ S.card % 2 ^ 32 ≠ 0) := fun h' => h'.2 hc
        exact ⟨s, l, by rw [setStep, if_neg this, hr.erase_wrapped ho h hc],
          by rwa [setStep, if_neg this], fun a ha => .inr ha⟩
      · obtain ⟨s', l', e, hr', ha, -⟩ := hr.erase_mem ho h hc
        have : x ∈ S ∧ S.card % 2 ^ 32 ≠ 0 := ⟨h, hc⟩
        exact ⟨s', l', by rw [setStep, if_pos this, e], by rwa [setStep, if_pos this],
          fun a h' => .inr (ha a h')⟩
    · have : ¬(x ∈ S ∧ S.card % 2 ^ 32 ≠ 0) := fun h' => h h'.1
      exact ⟨s, l, by rw [setStep, if_neg this, hr.erase_not_mem ho h],
        by rwa [setStep, if_neg this], fun a ha => .inr ha⟩

/-- A run answers as the set does, and ends in a tree that stands for it. -/
theorem runs (ops : List (Op α)) :
    ∃ s l, Machine.run (step comp) ops State.init = some ((Machine.runs setStep ops ∅).1, s) ∧
      Rep comp s l (Machine.runs setStep ops ∅).2 := by
  obtain ⟨s, e, l, hr⟩ := Machine.refines (R := fun s S => ∃ l, Rep comp s l S)
    (fun s S op ⟨l, hr⟩ => by
      obtain ⟨s', l', e, hr', -⟩ := hr.sim ho op
      exact ⟨s', e, l', hr'⟩)
    ops State.init ∅ ⟨[], Rep.init⟩
  exact ⟨s, l, e, hr⟩

omit ho [DecidableEq α] in
theorem elems (hr : Rep comp s l S) : s.elems = l.map Prod.snd := by
  have key : ∀ l' : List (Nat × α), (∀ p ∈ l', p ∈ l) →
      (l'.map Prod.fst).filterMap (fun a => (s.heap.cell a).map Cell.data) = l'.map Prod.snd := by
    intro l' hl'
    induction l' with
    | nil => rfl
    | cons p l' ih =>
      obtain ⟨q, r, e⟩ := hr.stored.chain.cell (hl' p (by simp))
      simp [e, ih fun q hq => hl' q (by simp [hq])]
  rw [State.elems, hr.inorder, key l fun _ h => h]

omit ho [DecidableEq α] in
theorem deref (hr : Rep comp s l S) {a : Nat} {x : α} (h : (a, x) ∈ l) :
    iteratorDeref s.heap (some a) = some (some x) := by
  obtain ⟨q, r, e⟩ := hr.stored.chain.cell h
  simp [iteratorDeref, e]

omit [DecidableEq α] in
/-- Every node of the tree is the one that `ptr_at` finds for its element. -/
theorem ptrAt_node (hr : Rep comp s l S) {a : Nat} (ha : a ∈ s.desc.root.inorder) :
    ∃ x, iteratorDeref s.heap (some a) = some (some x) ∧
      ptrAt comp s.desc s.heap x = some (0, some a) := by
  rw [hr.inorder] at ha
  obtain ⟨⟨a, x⟩, h, rfl⟩ := List.mem_map.1 ha
  exact ⟨x, hr.deref h, hr.ptrAt_mem ho h⟩

end Rep

/-- Ascending elements in the order of the tree make it a search tree. -/
theorem Stored.searchTree {t : Tree} {h : Heap α} {l pre post : List (Nat × α)}
    (hi : t.inorder = l.map Prod.fst) (hs : Stored comp h (pre ++ l ++ post)) :
    SearchTree comp h t := by
  induction t generalizing l pre post with
  | nil => trivial
  | node lt a ht rt ihl ihr =>
    obtain ⟨ll, y, lr, rfl, hl, hr⟩ := split_inorder hi
    have hs₁ : Stored comp h ((pre ++ ll) ++ (a, y) :: (lr ++ post)) := by simpa using hs
    have hs₂ : Stored comp h ((pre ++ ll ++ [(a, y)]) ++ lr ++ post) := by simpa using hs
    refine ⟨_, hs₁.cell, ihl hl hs₁, ihr hr hs₂, fun b hb => ?_, fun b hb => ?_⟩
    · rw [hl] at hb
      obtain ⟨⟨b, z⟩, hz, rfl⟩ := List.mem_map.1 hb
      obtain ⟨q, r, e⟩ := hs.chain.cell (a := b) (x := z) (by simp [hz])
      exact ⟨_, e, hs₁.lt_left (by simpa using .inr ⟨b, hz⟩)⟩
    · rw [hr] at hb
      obtain ⟨⟨b, z⟩, hz, rfl⟩ := List.mem_map.1 hb
      obtain ⟨q, r, e⟩ := hs.chain.cell (a := b) (x := z) (by simp [hz])
      exact ⟨_, e, hs₁.lt_right (by simpa using .inl ⟨b, hz⟩)⟩

/-- The ordered set: answers, search tree, members, search and size after any run. -/
theorem set_refinement [DecidableEq α] (ho : TotalOrder comp) (ops : List (Op α)) :
    ∃ s, Machine.run (step comp) ops State.init = some ((Machine.runs setStep ops ∅).1, s) ∧
      SearchTree comp s.heap s.desc.root ∧ s.elems.Nodup ∧
      (∀ x, x ∈ s.elems ↔ x ∈ (Machine.runs setStep ops ∅).2) ∧
      (∀ x ∈ (Machine.runs setStep ops ∅).2, ∃ a, ptrAt comp s.desc s.heap x = some (0, some a) ∧
        a ∈ s.desc.root.inorder ∧ iteratorDeref s.heap (some a) = some (some x)) ∧
      (∀ x ∉ (Machine.runs setStep ops ∅).2, ptrAt comp s.desc s.heap x = some (-1, none)) ∧
      s.desc.size = UInt32.ofNat (Machine.runs setStep ops ∅).2.card := by
  obtain ⟨s, l, e, hr⟩ := Rep.runs ho ops
  refine ⟨s, e, hr.whole.searchTree hr.inorder, ?_, ?_, ?_, ?_, hr.size⟩
  · rw [hr.elems]
    exact hr.stored.sorted.imp fun h => ho.ne_of_lt h
  · intro x
    rw [hr.elems, hr.mem]
  · intro x hx
    obtain ⟨a, ha⟩ := hr.node hx
    refine ⟨a, hr.ptrAt_mem ho ha, ?_, hr.deref ha⟩
    rw [hr.inorder]
    exact List.mem_map_of_mem ha
  · exact fun x hx => hr.ptrAt_not_mem ho hx

end

/-- An element that is there already, and one that is there no more. -/
theorem set_refinement_byValue :
    ∃ s, Machine.run (step byValue) [.insert 3, .insert 1, .insert 3, .erase 3, .erase 3]
        State.init = some ([0, 0, -1, 0, -1], s) ∧
      (∀ x, x ∈ s.elems ↔ x = 1) ∧ s.desc.size = 1 := by
  obtain ⟨s, e, -, -, hm, -, -, hsize⟩ := set_refinement byValue_total
    [.insert 3, .insert 1, .insert 3, .erase 3, .erase 3]
  have hS : Machine.runs setStep [.insert 3, .insert 1, .insert 3, .erase 3, .erase 3] ∅ =
      ([0, 0, -1, 0, -1], ({1} : Finset UInt64)) := by decide
  rw [hS] at e hm hsize
  exact ⟨s, e, by simpa using hm, by simpa using hsize⟩

/-! The size wraps: a run of `2 ^ 32` insertions. -/

/-- The insertion of the elements of a list that has no duplicates and none in the set. -/
theorem runs_insert {α : Type} [DecidableEq α] (xs : List α) (S : Finset α) (hx : xs.Nodup)
    (hS : ∀ x ∈ xs, x ∉ S) :
    (Machine.runs setStep (xs.map .insert) S).1 = xs.map (fun _ => 0) ∧
      (Machine.runs setStep (xs.map .insert) S).2.card = S.card + xs.length ∧
      ∀ x, x ∈ (Machine.runs setStep (xs.map .insert) S).2 ↔ x ∈ S ∨ x ∈ xs := by
  induction xs generalizing S with
  | nil => simp [Machine.runs]
  | cons x xs ih =>
    rw [List.nodup_cons] at hx
    have hxS := hS x (by simp)
    have hS' : ∀ y ∈ xs, y ∉ Insert.insert x S := by
      intro y hy
      rw [Finset.mem_insert]
      rintro (rfl | h)
      · exact hx.1 hy
      · exact hS y (by simp [hy]) h
    obtain ⟨e, ec, em⟩ := ih (Insert.insert x S) hx.2 hS'
    simp only [List.map_cons, Machine.runs, setStep, hxS, if_false, e, ec, em,
      Finset.card_insert_of_notMem hxS, Finset.mem_insert, List.length_cons, List.mem_cons]
    refine ⟨trivial, by omega, fun y => ?_⟩
    tauto

/-- The elements 0, 1, …, n - 1. -/
def ascending (n : Nat) : List UInt64 := (List.range n).map UInt64.ofNat

theorem ascending_nodup {n : Nat} (hn : n ≤ 2 ^ 64) : (ascending n).Nodup := by
  refine List.Nodup.map_on (fun a ha b hb e => ?_) List.nodup_range
  rw [List.mem_range] at ha hb
  have := congrArg UInt64.toNat e
  rwa [UInt64.toNat_ofNat_of_lt' (Nat.lt_of_lt_of_le ha hn),
    UInt64.toNat_ofNat_of_lt' (Nat.lt_of_lt_of_le hb hn)] at this

/-- Once the number of elements is a multiple of `2 ^ 32`, the size reads 0 and the
    element 0 is found but not erased. -/
theorem ascending_wraps {n : Nat} (h0 : 0 < n) (hn : n ≤ 2 ^ 64) (hw : n % 2 ^ 32 = 0) :
    ∃ s a, Machine.run (step byValue) ((ascending n).map .insert) State.init =
        some ((ascending n).map fun _ => 0, s) ∧
      s.elems.length = n ∧ s.desc.size = 0 ∧
      ptrAt byValue s.desc s.heap 0 = some (0, some a) ∧
      erase byValue s.desc s.heap a = some (-1, s.desc, s.heap) := by
  obtain ⟨eo, ec, em⟩ := runs_insert (ascending n) ∅ (ascending_nodup hn) (by simp)
  obtain ⟨s, l, e, hr⟩ := Rep.runs byValue_total ((ascending n).map .insert)
  have hcard : l.length = n := by
    rw [← hr.card, ec]
    simp [ascending]
  have hsize : s.desc.size = 0 := by
    rw [hr.size_eq_zero, hr.card, hcard, hw]
  have hmem : (0 : UInt64) ∈ ascending n := List.mem_map.2 ⟨0, List.mem_range.2 h0, rfl⟩
  obtain ⟨a, ha⟩ := hr.node ((em 0).2 (.inr hmem))
  refine ⟨s, a, by rw [e, eo], ?_, hsize, hr.ptrAt_mem byValue_total ha, by rw [erase, if_pos hsize]⟩
  rw [hr.elems, List.length_map, hcard]

/-- `2 ^ 32` insertions leave a tree of size 0 whose element 0 cannot be erased. -/
theorem set_refinement_fails :
    ∃ s a, Machine.run (step byValue) ((ascending (2 ^ 32)).map .insert) State.init =
        some ((ascending (2 ^ 32)).map fun _ => 0, s) ∧
      s.elems.length = 2 ^ 32 ∧ s.desc.size = 0 ∧
      ptrAt byValue s.desc s.heap 0 = some (0, some a) ∧
      erase byValue s.desc s.heap a = some (-1, s.desc, s.heap) :=
  ascending_wraps (by omega) (by omega) rfl

end Zhwkrfsp.AVLTree
