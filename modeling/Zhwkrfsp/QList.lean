import Zhwkrfsp.Chain

/- The doubly linked list of `zhwkre/containers/list.c`, as far as the hash map uses
   it. The payload of a cell is the block behind `data`, NULL between the two
   allocations of a push; the links are those of `struct q__List`. A list of
   addresses with their blocks that a descriptor stands for is `Stored`; each
   function has one specification, which says what becomes of that list and that
   no cell outside it changes. `none` is the dereference of NULL or of a freed
   cell, and a loop that goes round for more turns than there are cells. -/
namespace Zhwkrfsp.QList
open Linked

/-- `qListDescriptor`. -/
structure Descriptor where
  head : Option Nat
  tail : Option Nat
  size : UInt32
  deriving DecidableEq

/-- `qList_constructor`. -/
def constructor : Descriptor := ⟨none, none, 0⟩

section
variable {α : Type}

/-- `q__List_push_back`. -/
def pushBack (desc : Descriptor) (target : α) (h : Heap (Option α)) :
    Option (Int32 × Descriptor × Heap (Option α)) :=
  match desc.tail with
  | none =>
    match h.malloc with
    | (false, h) => some (-1, { desc with head := none }, h)
    | (true, h) =>
      let (a, h) := h.new none
      match h.malloc with
      | (false, h) => some (-1, ⟨some a, some a, desc.size⟩, h)
      | (true, h) => do
        let h ← h.modify a fun c => { c with data := some target }
        return (0, ⟨some a, some a, desc.size + 1⟩, h)
  | some tail =>
    match h.malloc with
    | (false, h) => do
      let h ← h.modify tail fun c => { c with next := none }
      return (-1, desc, h)
    | (true, h) => do
      let (a, h) := h.new none
      let h ← h.modify tail fun c => { c with next := some a }
      let h ← h.modify a fun c => { c with prev := some tail }
      match h.malloc with
      | (false, h) => return (-1, desc, h)
      | (true, h) =>
        let h ← h.modify a fun c => { c with data := some target }
        return (0, ⟨desc.head, some a, desc.size + 1⟩, h)

/-- `q__List_erase_elem`. It frees the block and not the node; neither can be
    reached any more. -/
def eraseElem (desc : Descriptor) (a : Nat) (h : Heap (Option α)) :
    Option (Descriptor × Heap (Option α)) := do
  let c ← h.cell a
  let h ← h.modifyAt c.prev fun d => { d with next := c.next }
  let h ← h.modifyAt c.next fun d => { d with prev := c.prev }
  let h ← h.free a
  return (⟨if desc.head = some a then c.next else desc.head,
    if desc.tail = some a then c.prev else desc.tail, desc.size - 1⟩, h)

/-- The loop of `q__List_destructor`. -/
def destroyFrom : Nat → Option Nat → Heap (Option α) → Option (Heap (Option α))
  | _, none, h => some h
  | 0, some _, _ => none
  | turns + 1, some iterator, h => do
    let c ← h.cell iterator
    let h ← h.free iterator
    destroyFrom turns c.next h

/-- `q__List_destructor`. -/
def destructor (desc : Descriptor) (h : Heap (Option α)) :
    Option (Descriptor × Heap (Option α)) := do
  let h ← destroyFrom h.brk desc.head h
  return (⟨none, none, 0⟩, h)

/-- A loop over the cells from `iter` on that ends at the first block it takes. -/
def foreachFrom (takes : α → Option Bool) (h : Heap (Option α)) :
    Nat → Option Nat → Option (Option Nat)
  | _, none => some none
  | 0, some _ => none
  | turns + 1, some iter => do
    let c ← h.cell iter
    if ← takes (← c.data) then return some iter
    foreachFrom takes h turns c.next

/-- `qList_foreach`, left at the first block that `takes` takes. -/
def foreach (takes : α → Option Bool) (desc : Descriptor) (h : Heap (Option α)) :
    Option (Option Nat) :=
  foreachFrom takes h h.brk desc.head

/-- The blocks that a loop over all cells sees. -/
def blocksFrom (h : Heap (Option α)) : Nat → Option Nat → List α
  | turns + 1, some iter =>
    match h.cell iter with
    | some ⟨some x, _, next⟩ => x :: blocksFrom h turns next
    | _ => []
  | _, _ => []

def blocks (desc : Descriptor) (h : Heap (Option α)) : List α := blocksFrom h h.brk desc.head

/-- What such a loop finds in a list of addresses with their blocks. -/
def found (takes : α → Option Bool) : List (Nat × α) → Option (Option Nat)
  | [] => some none
  | b :: l => do
    if ← takes b.2 then return some b.1
    found takes l

/-- Blocks as their cells hold them. -/
def boxed (l : List (Nat × α)) : List (Nat × Option α) := l.map fun b => (b.1, some b.2)

/-- `desc` stands for the list `l` of addresses and blocks. -/
structure Stored (h : Heap (Option α)) (desc : Descriptor) (l : List (Nat × α)) : Prop where
  chain : Chain h.cell none (boxed l) none
  nodup : (l.map Prod.fst).Nodup
  fresh : ∀ a ∈ l.map Prod.fst, a < h.brk
  head : desc.head = first l none
  tail : desc.tail = last none l
  size : desc.size = UInt32.ofNat l.length

@[simp] theorem boxed_nil : boxed ([] : List (Nat × α)) = [] := rfl

@[simp] theorem boxed_cons (b : Nat × α) (l : List (Nat × α)) :
    boxed (b :: l) = (b.1, some b.2) :: boxed l := rfl

@[simp] theorem boxed_append (l l' : List (Nat × α)) : boxed (l ++ l') = boxed l ++ boxed l' :=
  List.map_append

@[simp] theorem map_fst_boxed (l : List (Nat × α)) : (boxed l).map Prod.fst = l.map Prod.fst := by
  rw [boxed, List.map_map]
  rfl

@[simp] theorem first_boxed (l : List (Nat × α)) (n : Option Nat) : first (boxed l) n = first l n := by
  cases l <;> rfl

@[simp] theorem last_boxed (p : Option Nat) (l : List (Nat × α)) : last p (boxed l) = last p l := by
  rcases List.eq_nil_or_concat l with rfl | ⟨l, b, rfl⟩
  · rfl
  · rw [List.concat_eq_append, boxed_append, boxed_cons, boxed_nil, last_append, last_append]

theorem mem_addresses_concat {l : List (Nat × α)} {b : Nat × α} {a : Nat} :
    a ∈ (l ++ [b]).map Prod.fst ↔ a ∈ l.map Prod.fst ∨ a = b.1 := by
  rw [List.map_append, List.mem_append, List.map_cons, List.map_nil, List.mem_singleton]

/-! What a stored list looks like. -/

namespace Stored
variable {h h' : Heap (Option α)} {desc : Descriptor} {l l₁ l₂ : List (Nat × α)} {a : Nat} {x : α}

theorem constructor (h : Heap (Option α)) : Stored h constructor ([] : List (Nat × α)) :=
  ⟨trivial, List.nodup_nil, nofun, rfl, rfl, rfl⟩

/-- There are no more cells in a list than were ever handed out. -/
theorem length_le (hs : Stored h desc l) : l.length ≤ h.brk := length_le_of_lt hs.nodup hs.fresh

theorem frame (hs : Stored h desc l) (hcell : ∀ a ∈ l.map Prod.fst, h'.cell a = h.cell a)
    (hbrk : h.brk ≤ h'.brk) : Stored h' desc l where
  chain := hs.chain.frame (by rw [map_fst_boxed]; exact hcell)
  nodup := hs.nodup
  fresh a ha := Nat.lt_of_lt_of_le (hs.fresh a ha) hbrk
  head := hs.head
  tail := hs.tail
  size := hs.size

theorem cell (hs : Stored h desc (l₁ ++ (a, x) :: l₂)) :
    h.cell a = some ⟨some x, last none l₁, first l₂ none⟩ := by
  have hc := hs.chain
  rw [boxed_append, boxed_cons] at hc
  have hm := hc.mid
  rw [last_boxed, first_boxed] at hm
  exact hm

end Stored

/-! The loops. -/

theorem foreachFrom_eq (takes : α → Option Bool) {h : Heap (Option α)} {l : List (Nat × α)} :
    ∀ {p : Option Nat} {turns : Nat}, Chain h.cell p (boxed l) none → l.length ≤ turns →
      foreachFrom takes h turns (first l none) = found takes l := by
  induction l with
  | nil =>
    intro p turns _ _
    cases turns <;> rfl
  | cons b l ih =>
    intro p turns hc hle
    rw [boxed_cons] at hc
    obtain ⟨hb, hl⟩ := hc
    cases turns with
    | zero => exact absurd hle (Nat.not_succ_le_zero _)
    | succ turns =>
      rw [first_boxed] at hb
      have hrest := ih hl (Nat.le_of_succ_le_succ hle)
      rw [first_cons, foreachFrom, found, hb]
      simp only [Option.bind_eq_bind, Option.bind_some, hrest]

theorem foreach_eq {takes : α → Option Bool} {h : Heap (Option α)} {desc : Descriptor}
    {l : List (Nat × α)} (hs : Stored h desc l) : foreach takes desc h = found takes l := by
  rw [foreach, hs.head]
  exact foreachFrom_eq takes hs.chain hs.length_le

theorem blocksFrom_eq {h : Heap (Option α)} {l : List (Nat × α)} :
    ∀ {p : Option Nat} {turns : Nat}, Chain h.cell p (boxed l) none → l.length ≤ turns →
      blocksFrom h turns (first l none) = l.map Prod.snd := by
  induction l with
  | nil =>
    intro p turns _ _
    cases turns <;> rfl
  | cons b l ih =>
    intro p turns hc hle
    rw [boxed_cons] at hc
    obtain ⟨hb, hl⟩ := hc
    cases turns with
    | zero => exact absurd hle (Nat.not_succ_le_zero _)
    | succ turns =>
      rw [first_boxed] at hb
      rw [first_cons, blocksFrom, hb, List.map_cons]
      exact congrArg _ (ih hl (Nat.le_of_succ_le_succ hle))

theorem blocks_eq {h : Heap (Option α)} {desc : Descriptor} {l : List (Nat × α)}
    (hs : Stored h desc l) : blocks desc h = l.map Prod.snd := by
  rw [blocks, hs.head]
  exact blocksFrom_eq hs.chain hs.length_le

/-- A loop that takes nothing visits all cells. -/
theorem found_none (l : List (Nat × α)) : found (fun _ => some false) l = some none := by
  induction l with
  | nil => rfl
  | cons b l ih => exact ih

theorem destroyFrom_spec {l : List (Nat × α)} :
    ∀ {h : Heap (Option α)} {p : Option Nat} {turns : Nat}, Chain h.cell p (boxed l) none →
      (l.map Prod.fst).Nodup → l.length ≤ turns →
      ∃ h', destroyFrom turns (first l none) h = some h' ∧ h'.brk = h.brk ∧
        h'.mallocs = h.mallocs ∧ ∀ b ∉ l.map Prod.fst, h'.cell b = h.cell b := by
  induction l with
  | nil =>
    intro h p turns _ _ _
    refine ⟨h, ?_, rfl, rfl, fun _ _ => rfl⟩
    cases turns <;> rfl
  | cons c l ih =>
    intro h p turns hc nd hle
    rw [boxed_cons] at hc
    obtain ⟨hcell, hl⟩ := hc
    rw [List.map_cons, List.nodup_cons] at nd
    cases turns with
    | zero => exact absurd hle (Nat.not_succ_le_zero _)
    | succ turns =>
      rw [first_boxed] at hcell
      have hfree := Heap.free_some hcell
      -- the rest of the list does not contain the freed cell
      have hne : ∀ b ∈ l.map Prod.fst, b ≠ c.1 := fun b hb e => nd.1 (e ▸ hb)
      have hl' : Chain (Function.update h.cell c.1 none) (some c.1) (boxed l) none :=
        hl.frame fun b hb => Function.update_of_ne (hne b (by simpa using hb)) _ _
      obtain ⟨h', e, hbrk, hm, hframe⟩ :=
        ih (h := { h with cell := Function.update h.cell c.1 none }) hl' nd.2
          (Nat.le_of_succ_le_succ hle)
      refine ⟨h', ?_, hbrk, hm, fun b hb => ?_⟩
      · rw [first_cons, destroyFrom, hcell]
        simp only [Option.bind_eq_bind, Option.bind_some, hfree, e]
      · rw [List.map_cons, List.mem_cons, not_or] at hb
        rw [hframe b hb.2]
        exact Function.update_of_ne hb.1 _ _

theorem destructor_spec {h : Heap (Option α)} {desc : Descriptor} {l : List (Nat × α)}
    (hs : Stored h desc l) :
    ∃ h', destructor desc h = some (QList.constructor, h') ∧ h'.brk = h.brk ∧
      h'.mallocs = h.mallocs ∧ ∀ b ∉ l.map Prod.fst, h'.cell b = h.cell b := by
  obtain ⟨h', e, hrest⟩ := destroyFrom_spec hs.chain hs.nodup hs.length_le
  refine ⟨h', ?_, hrest⟩
  rw [destructor, hs.head, e]
  rfl

/-! What changes a list. -/

/-- The block of one cell overwritten. -/
theorem write_spec {h : Heap (Option α)} {desc : Descriptor} {l₁ l₂ : List (Nat × α)} {a : Nat}
    {x : α} (y : α) (hs : Stored h desc (l₁ ++ (a, x) :: l₂)) :
    ∃ h', (h.modify a fun c => { c with data := some y }) = some h' ∧
      Stored h' desc (l₁ ++ (a, y) :: l₂) ∧ h'.brk = h.brk ∧ h'.mallocs = h.mallocs ∧
      ∀ b ∉ (l₁ ++ (a, x) :: l₂).map Prod.fst, h'.cell b = h.cell b := by
  have hcell := hs.cell
  have hmem : a ∈ (l₁ ++ (a, x) :: l₂).map Prod.fst := by simp
  have hmap : (l₁ ++ (a, y) :: l₂).map Prod.fst = (l₁ ++ (a, x) :: l₂).map Prod.fst := by simp
  refine ⟨_, Heap.modify_some hcell _, ⟨?_, ?_, ?_, ?_, ?_, ?_⟩, rfl, rfl, fun b hb => ?_⟩
  · have hc := hs.chain
    rw [boxed_append, boxed_cons] at hc ⊢
    have hw := hc.write (y := some y) (by
      have nd := hs.nodup
      rw [← map_fst_boxed, boxed_append, boxed_cons] at nd
      exact nd)
    rw [hcell] at hw
    exact hw
  · rw [hmap]
    exact hs.nodup
  · rw [hmap]
    exact hs.fresh
  · rw [hs.head, first_append, first_append, first_cons, first_cons]
  · rw [hs.tail]
    rcases List.eq_nil_or_concat l₂ with rfl | ⟨l, b, rfl⟩
    · rw [last_append, last_append]
    · rw [List.concat_eq_append, ← List.cons_append, ← List.append_assoc, last_append,
        ← List.cons_append, ← List.append_assoc, last_append]
  · rw [hs.size, List.length_append, List.length_append, List.length_cons, List.length_cons]
  · refine Function.update_of_ne ?_ _ _
    rintro rfl
    exact hb hmem

/-- The addresses of a list, one of them taken to the front. -/
theorem addresses_middle (l₁ l₂ : List (Nat × α)) (a : Nat) (x : α) :
    ((l₁ ++ (a, x) :: l₂).map Prod.fst).Perm (a :: (l₁ ++ l₂).map Prod.fst) :=
  List.perm_middle.map Prod.fst

/-- A heap with a new cell between two halves of a list holds the longer list. -/
theorem Stored.splice {h : Heap (Option α)} {desc : Descriptor} {l₁ l₂ : List (Nat × α)}
    (hs : Stored h desc (l₁ ++ l₂)) (desc' : Descriptor) (h' : Heap (Option α)) (x : α)
    (hcell : h'.cell = Function.update
      (setPrev (setNext h.cell (last none l₁) (some h.brk)) (first l₂ none) (some h.brk)) h.brk
      (some ⟨some x, last none l₁, first l₂ none⟩)) (hbrk : h'.brk = h.brk + 1)
    (hhead : desc'.head = first (l₁ ++ (h.brk, x) :: l₂) none)
    (htail : desc'.tail = last none (l₁ ++ (h.brk, x) :: l₂)) (hsize : desc'.size = desc.size + 1) :
    Stored h' desc' (l₁ ++ (h.brk, x) :: l₂) ∧
      ∀ b ∉ (l₁ ++ l₂).map Prod.fst, b ≠ h.brk → h'.cell b = h.cell b := by
  have hnew : h.brk ∉ (l₁ ++ l₂).map Prod.fst := fun hb => Nat.lt_irrefl _ (hs.fresh _ hb)
  have haddr : ∀ a ∈ (l₁ ++ (h.brk, x) :: l₂).map Prod.fst,
      a ∈ (l₁ ++ l₂).map Prod.fst ∨ a = h.brk := by
    intro a ha
    exact (List.mem_cons.1 ((addresses_middle l₁ l₂ h.brk x).mem_iff.1 ha)).symm
  refine ⟨⟨?_, ?_, fun a ha => ?_, hhead, htail, ?_⟩, fun b hb hne => ?_⟩
  · have hc := hs.chain
    have nd := hs.nodup
    rw [boxed_append] at hc
    rw [← map_fst_boxed, boxed_append] at nd
    rw [← map_fst_boxed, boxed_append] at hnew
    have hsplice := hc.splice (x := some x) nd hnew
    rw [last_boxed, first_boxed, ← hcell] at hsplice
    rw [boxed_append]
    exact hsplice
  · exact (addresses_middle l₁ l₂ h.brk x).nodup_iff.2 (List.nodup_cons.2 ⟨hnew, hs.nodup⟩)
  · rw [hbrk]
    rcases haddr a ha with ha | rfl
    · exact Nat.lt_succ_of_lt (hs.fresh a ha)
    · exact Nat.lt_succ_self _
  · have hlen : (l₁ ++ (h.brk, x) :: l₂).length = (l₁ ++ l₂).length + 1 := by simp; omega
    rw [hsize, hs.size, hlen, UInt32.ofNat_add]
    rfl
  · rw [List.map_append, List.mem_append, not_or] at hb
    have hfirst : first l₂ none ≠ some b := fun e => hb.2 (first_mem e nofun)
    have hlast : last none l₁ ≠ some b := fun e => hb.1 (last_mem e nofun)
    rw [hcell, Function.update_of_ne hne, setPrev_of_ne hfirst, setNext_of_ne hlast]

/-- A descriptor that is NULL at one end stands for the empty list. -/
theorem Stored.eq_nil_of_tail {h : Heap (Option α)} {desc : Descriptor} {l : List (Nat × α)}
    (hs : Stored h desc l) (ht : desc.tail = none) : l = [] := by
  rcases List.eq_nil_or_concat l with rfl | ⟨l, b, rfl⟩
  · rfl
  · rw [hs.tail, List.concat_eq_append, last_append] at ht
    cases ht

theorem pushBack_spec {h : Heap (Option α)} {desc : Descriptor} {l : List (Nat × α)} (x : α)
    (hs : Stored h desc l) (hm : h.mallocs = []) :
    ∃ desc' h', pushBack desc x h = some (0, desc', h') ∧
      Stored h' desc' (l ++ [(h.brk, x)]) ∧ h'.brk = h.brk + 1 ∧ h'.mallocs = [] ∧
      ∀ b ∉ l.map Prod.fst, b ≠ h.brk → h'.cell b = h.cell b := by
  have hs' := hs
  rw [← List.append_nil l] at hs'
  have htail : last none (l ++ [(h.brk, x)]) = some h.brk := last_append _ _ _
  cases ht : desc.tail with
  | none =>
    obtain rfl := hs.eq_nil_of_tail ht
    obtain ⟨hst, hframe⟩ := hs'.splice ⟨some h.brk, some h.brk, desc.size + 1⟩
      { h with
        cell := Function.update h.cell h.brk (some ⟨some x, none, none⟩), brk := h.brk + 1 } x
      rfl rfl rfl htail.symm rfl
    refine ⟨_, _, ?_, hst, rfl, hm, hframe⟩
    rw [pushBack, ht]
    simp [Heap.malloc, hm, Heap.new, Heap.modify]
  | some t =>
    rw [hs.tail] at ht
    have htmem : t ∈ l.map Prod.fst := by
      refine last_mem ht fun h => ?_
      cases h
    obtain ⟨c, hc⟩ := hs.chain.live (by rw [map_fst_boxed]; exact htmem)
    have hne : t ≠ h.brk := Nat.ne_of_lt (hs.fresh t htmem)
    have hhead : desc.head = first (l ++ [(h.brk, x)]) none := by
      rw [hs.head, first_append]
      cases l with
      | nil => cases ht
      | cons b l => rfl
    obtain ⟨hst, hframe⟩ := hs'.splice ⟨desc.head, some h.brk, desc.size + 1⟩
      { h with
        cell := Function.update (Function.update h.cell t (some { c with next := some h.brk }))
          h.brk (some ⟨some x, some t, none⟩), brk := h.brk + 1 } x
      (by rw [ht, setNext, hc, Option.map_some]; rfl) rfl hhead htail.symm rfl
    rw [List.append_nil] at hframe
    refine ⟨_, _, ?_, hst, rfl, hm, hframe⟩
    rw [pushBack, hs.tail, ht]
    simp [Heap.malloc, hm, Heap.new, Heap.modify, Function.update_of_ne hne, hc,
      Function.update_of_ne hne.symm, Function.update_comm hne]

section
variable {h : Heap (Option α)} {desc : Descriptor} {l₁ l₂ : List (Nat × α)} {a b : Nat} {x : α}

/-- A cell of a list is none of the others. -/
theorem Stored.notMem (hs : Stored h desc (l₁ ++ (a, x) :: l₂)) : a ∉ (l₁ ++ l₂).map Prod.fst :=
  (List.nodup_cons.1 ((addresses_middle l₁ l₂ a x).nodup_iff.1 hs.nodup)).1

theorem Stored.ne (hs : Stored h desc (l₁ ++ (a, x) :: l₂)) (hb : b ∈ (l₁ ++ l₂).map Prod.fst) :
    b ≠ a := by
  rintro rfl
  exact hs.notMem hb

/-- The ends of a list from which a cell is cut. -/
theorem Stored.head_cut (hs : Stored h desc (l₁ ++ (a, x) :: l₂)) :
    (if desc.head = some a then first l₂ none else desc.head) = first (l₁ ++ l₂) none := by
  rw [hs.head, first_append, first_append, first_cons]
  cases l₁ with
  | nil => exact if_pos rfl
  | cons c l =>
    rw [first_cons, first_cons]
    apply if_neg
    intro e
    exact hs.ne (by simp) (Option.some.inj e)

theorem Stored.tail_cut (hs : Stored h desc (l₁ ++ (a, x) :: l₂)) :
    (if desc.tail = some a then last none l₁ else desc.tail) = last none (l₁ ++ l₂) := by
  rw [hs.tail]
  rcases List.eq_nil_or_concat l₂ with rfl | ⟨l, c, rfl⟩
  · rw [last_append, List.append_nil]
    exact if_pos rfl
  · rw [List.concat_eq_append] at hs ⊢
    rw [← List.cons_append, ← List.append_assoc, last_append, ← List.append_assoc, last_append]
    apply if_neg
    intro e
    exact hs.ne (by simp) (Option.some.inj e)

/-- The cell of a list between two others, cut out and freed. -/
theorem eraseElem_spec (hs : Stored h desc (l₁ ++ (a, x) :: l₂)) :
    ∃ desc' h', eraseElem desc a h = some (desc', h') ∧ Stored h' desc' (l₁ ++ l₂) ∧
      h'.brk = h.brk ∧ h'.mallocs = h.mallocs ∧
      ∀ b ∉ (l₁ ++ (a, x) :: l₂).map Prod.fst, h'.cell b = h.cell b := by
  have hcut := hs.notMem
  rw [List.map_append, List.mem_append, not_or] at hcut
  obtain ⟨ha₁, ha₂⟩ := hcut
  have hkept : ∀ b ∈ (l₁ ++ l₂).map Prod.fst, b ∈ (l₁ ++ (a, x) :: l₂).map Prod.fst :=
    fun b hb => (addresses_middle l₁ l₂ a x).mem_iff.2 (List.mem_cons_of_mem _ hb)
  have hlive : ∀ b ∈ (l₁ ++ l₂).map Prod.fst, ∃ c, h.cell b = some c := by
    intro b hb
    apply hs.chain.live
    rw [map_fst_boxed]
    exact hkept b hb
  rw [List.map_append] at hlive
  -- the neighbours, where there are any, are cells of the list
  have hp : ∀ b, last none l₁ = some b → b ∈ l₁.map Prod.fst := fun b e => last_mem e nofun
  have hn : ∀ b, first l₂ none = some b → b ∈ l₂.map Prod.fst := fun b e => first_mem e nofun
  have hself : setPrev (setNext h.cell (last none l₁) (first l₂ none)) (first l₂ none)
      (last none l₁) a = some ⟨some x, last none l₁, first l₂ none⟩ := by
    rw [setPrev_of_ne fun e => ha₂ (hn a e), setNext_of_ne fun e => ha₁ (hp a e), hs.cell]
  have hchain := hs.chain
  have nd := hs.nodup
  rw [boxed_append, boxed_cons] at hchain
  rw [← map_fst_boxed, boxed_append, boxed_cons] at nd
  have hmid := hchain.cut nd
  rw [last_boxed, first_boxed, ← boxed_append] at hmid
  refine ⟨⟨if desc.head = some a then first l₂ none else desc.head,
    if desc.tail = some a then last none l₁ else desc.tail, desc.size - 1⟩,
    { h with cell := Function.update (setPrev (setNext h.cell (last none l₁) (first l₂ none))
      (first l₂ none) (last none l₁)) a none }, ?_, ⟨?_, ?_, ?_, hs.head_cut, hs.tail_cut, ?_⟩,
    rfl, rfl, ?_⟩
  · rw [eraseElem, hs.cell]
    simp only [Option.bind_eq_bind, Option.bind_some]
    rw [Heap.modifyAt_next fun b e => hlive b (List.mem_append_left _ (hp b e)), Option.bind_some,
      Heap.modifyAt_prev fun b e => setNext_live (hlive b (List.mem_append_right _ (hn b e))) _ _,
      Option.bind_some, Heap.free_some hself]
    rfl
  · apply hmid.frame
    intro b hb
    rw [map_fst_boxed] at hb
    exact Function.update_of_ne (hs.ne hb) _ _
  · exact (List.nodup_cons.1 ((addresses_middle l₁ l₂ a x).nodup_iff.1 hs.nodup)).2
  · exact fun b hb => hs.fresh b (hkept b hb)
  · have hsucc : UInt32.ofNat (l₁.length + (l₂.length + 1)) =
        UInt32.ofNat (l₁.length + l₂.length) + 1 := by
      rw [← Nat.add_assoc, UInt32.ofNat_add]
      rfl
    rw [hs.size, List.length_append, List.length_cons, hsucc, List.length_append]
    exact UInt32.add_sub_cancel _ _
  · intro b hb
    rw [List.map_append, List.map_cons, List.mem_append, List.mem_cons, not_or, not_or] at hb
    obtain ⟨hb₁, hba, hb₂⟩ := hb
    apply (Function.update_of_ne hba _ _).trans
    rw [setPrev_of_ne fun e => hb₂ (hn b e), setNext_of_ne fun e => hb₁ (hp b e)]

end

/-! Lists that share a heap. -/

/-- No two of the lists share a cell. -/
structure Family {ι : Type} (h : Heap (Option α)) (desc : ι → Descriptor)
    (l : ι → List (Nat × α)) : Prop where
  stored : ∀ i, Stored h (desc i) (l i)
  apart : ∀ i j, i ≠ j → ∀ a ∈ (l i).map Prod.fst, a ∉ (l j).map Prod.fst

namespace Family
variable {ι : Type} {h : Heap (Option α)} {desc : ι → Descriptor} {l : ι → List (Nat × α)}

theorem constructor (h : Heap (Option α)) :
    Family h (fun _ : ι => constructor) fun _ => ([] : List (Nat × α)) :=
  ⟨fun _ => .constructor h, fun _ _ _ => nofun⟩

/-- One of the lists replaced by one in its own cells and new ones. -/
theorem replace [DecidableEq ι] {h' : Heap (Option α)} {desc' : Descriptor} {i : ι}
    {l' : List (Nat × α)} (hf : Family h desc l) (hst : Stored h' desc' l')
    (hnew : ∀ a ∈ l'.map Prod.fst, a ∈ (l i).map Prod.fst ∨ h.brk ≤ a)
    (hframe : ∀ b ∉ (l i).map Prod.fst, b < h.brk → h'.cell b = h.cell b)
    (hbrk : h.brk ≤ h'.brk) :
    Family h' (Function.update desc i desc') (Function.update l i l') := by
  -- a cell of another list is none of this one
  have hfar : ∀ j, j ≠ i → ∀ a ∈ (l j).map Prod.fst, a ∉ l'.map Prod.fst := by
    intro j hj a ha hmem
    rcases hnew a hmem with hmem | hmem
    · exact hf.apart j i hj a ha hmem
    · exact absurd ((hf.stored j).fresh a ha) (Nat.not_lt.2 hmem)
  refine ⟨fun j => ?_, apart_update hf.apart hfar⟩
  by_cases hj : j = i
  · subst hj
    rw [Function.update_self, Function.update_self]
    exact hst
  · rw [Function.update_of_ne hj, Function.update_of_ne hj]
    exact (hf.stored j).frame
      (fun a ha => hframe a (hf.apart j i hj a ha) ((hf.stored j).fresh a ha)) hbrk

/-- A push to one of the lists. -/
theorem pushBack [DecidableEq ι] (hf : Family h desc l) (hm : h.mallocs = []) (i : ι) (x : α) :
    ∃ desc' h', QList.pushBack (desc i) x h = some (0, desc', h') ∧
      Family h' (Function.update desc i desc') (Function.update l i (l i ++ [(h.brk, x)])) ∧
      h'.brk = h.brk + 1 ∧ h'.mallocs = [] ∧
      ∀ b, (∀ j, b ∉ (l j).map Prod.fst) → b ≠ h.brk → h'.cell b = h.cell b := by
  obtain ⟨desc', h', e, hst, hbrk, hm', hframe⟩ := pushBack_spec x (hf.stored i) hm
  refine ⟨desc', h', e, hf.replace hst (fun a ha => ?_)
    (fun b hb hlt => hframe b hb (Nat.ne_of_lt hlt)) (hbrk ▸ Nat.le_succ _), hbrk, hm',
    fun b hb hne => hframe b (hb i) hne⟩
  exact (mem_addresses_concat.1 ha).imp_right fun e => Nat.le_of_eq e.symm

end Family

end

end Zhwkrfsp.QList
