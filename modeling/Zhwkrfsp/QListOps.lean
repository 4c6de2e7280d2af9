import Mathlib.Data.List.Induction
import Zhwkrfsp.QList

/- The rest of `zhwkre/containers/list.c`: a push at the front, the two pops and the
   copy, each with what it makes of a stored list; and walks along the links. A pop
   does to a stored list what `q__List_erase_elem` does to its first or last node. -/
namespace Zhwkrfsp.QList
open Linked

section
variable {α : Type}

/-- `q__List_new`. -/
def listNew (h : Heap (Option α)) : Option Nat × Heap (Option α) :=
  match h.malloc with
  | (false, h) => (none, h)
  | (true, h) =>
    let (a, h) := h.new none
    (some a, h)

/-- `q__List_push_front`. -/
def pushFront (desc : Descriptor) (target : α) (h : Heap (Option α)) :
    Option (Int32 × Descriptor × Heap (Option α)) :=
  match desc.tail with
  -- the code for the empty list is that of `q__List_push_back`
  | none => pushBack desc target h
  | some _ => do
    let (front, h) := listNew h
    let head ← desc.head
    let h ← h.modify head fun c => { c with prev := front }
    -- `desc->head` is compared with NULL here, not `desc->head->prev`
    let a ← front
    let h ← h.modify a fun c => { c with next := some head }
    match h.malloc with
    | (false, h) => return (-1, desc, h)
    | (true, h) =>
      let h ← h.modify a fun c => { c with data := some target }
      return (0, ⟨some a, desc.tail, desc.size + 1⟩, h)

/-- `q__List_pop_back`. -/
def popBack (desc : Descriptor) (h : Heap (Option α)) :
    Option (Int32 × Descriptor × Heap (Option α)) :=
  match desc.tail with
  | none => some (-1, desc, h)
  | some tail =>
    if desc.tail = desc.head then do
      let h ← h.free tail
      return (0, ⟨none, none, desc.size - 1⟩, h)
    else do
      let c ← h.cell tail
      let tail ← c.prev
      let d ← h.cell tail
      -- the old last node, as the new one points to it
      let h ← h.free (← d.next)
      let h ← h.modify tail fun c => { c with next := none }
      return (0, ⟨desc.head, some tail, desc.size - 1⟩, h)

/-- `q__List_pop_front`. -/
def popFront (desc : Descriptor) (h : Heap (Option α)) :
    Option (Int32 × Descriptor × Heap (Option α)) :=
  match desc.head with
  | none => some (-1, desc, h)
  | some head =>
    if desc.tail = desc.head then do
      let h ← h.free head
      return (0, ⟨none, none, desc.size - 1⟩, h)
    else do
      let c ← h.cell head
      let head ← c.next
      let d ← h.cell head
      let h ← h.free (← d.prev)
      let h ← h.modify head fun c => { c with prev := none }
      return (0, ⟨some head, desc.tail, desc.size - 1⟩, h)

/-- The loop of `q__List_copy`. It does not look at what the pushes return. -/
def copyFrom : Nat → Option Nat → Descriptor → Heap (Option α) →
    Option (Descriptor × Heap (Option α))
  | _, none, rdesc, h => some (rdesc, h)
  | 0, some _, _, _ => none
  | turns + 1, some iter, rdesc, h => do
    let c ← h.cell iter
    let (_, rdesc, h) ← pushBack rdesc (← c.data) h
    let c ← h.cell iter
    copyFrom turns c.next rdesc h

/-- `q__List_copy`. -/
def copy (desc : Descriptor) (h : Heap (Option α)) : Option (Descriptor × Heap (Option α)) :=
  copyFrom h.brk desc.head constructor h

/-- The iterator after `k` moves along a link, or NULL when there are fewer. -/
def iteratorAt (link : Cell α → Option Nat) (h : Heap α) : Nat → Option Nat → Option (Option Nat)
  | _, none => some none
  | 0, some iter => some (some iter)
  | k + 1, some iter => do
    let c ← h.cell iter
    iteratorAt link h k (link c)

/-- The nodes from an iterator on along a link. -/
def visits (link : Cell α → Option Nat) (h : Heap α) : Nat → Option Nat → Option (List Nat)
  | _, none => some []
  | 0, some _ => none
  | turns + 1, some iter => do
    let c ← h.cell iter
    return iter :: (← visits link h turns (link c))

/-! Walks. -/

theorem iteratorAt_next {h : Heap α} {p : Option Nat} {l : List (Nat × α)} (k : Nat)
    (hc : Chain h.cell p l none) :
    iteratorAt Cell.next h k (first l none) = some (first (l.drop k) none) := by
  induction l generalizing p k with
  | nil =>
    rw [List.drop_nil, first_nil]
    cases k <;> rfl
  | cons b l ih =>
    obtain ⟨e, hl⟩ := hc
    cases k with
    | zero => rfl
    | succ k =>
      rw [first_cons, iteratorAt, e, List.drop_succ_cons]
      exact ih k hl

theorem visits_next {h : Heap α} {p : Option Nat} {l : List (Nat × α)} {turns : Nat}
    (hc : Chain h.cell p l none) (hle : l.length ≤ turns) :
    visits Cell.next h turns (first l none) = some (l.map Prod.fst) := by
  induction l generalizing p turns with
  | nil => cases turns <;> rfl
  | cons b l ih =>
    obtain ⟨e, hl⟩ := hc
    obtain ⟨turns, rfl⟩ := Nat.exists_eq_succ_of_ne_zero (Nat.ne_of_gt (Nat.zero_lt_of_lt hle))
    rw [first_cons, visits, e, Option.bind_eq_bind, Option.bind_some,
      ih hl (Nat.le_of_succ_le_succ hle)]
    rfl

theorem visits_prev {h : Heap α} {n : Option Nat} {l : List (Nat × α)} {turns : Nat}
    (hc : Chain h.cell none l n) (hle : l.length ≤ turns) :
    visits Cell.prev h turns (last none l) = some (l.map Prod.fst).reverse := by
  induction l using List.reverseRecOn generalizing n turns with
  | nil => cases turns <;> rfl
  | append_singleton l b ih =>
    rw [List.length_append, List.length_singleton] at hle
    obtain ⟨turns, rfl⟩ := Nat.exists_eq_succ_of_ne_zero (Nat.ne_of_gt (Nat.zero_lt_of_lt hle))
    rw [last_append, visits, hc.mid, Option.bind_eq_bind, Option.bind_some,
      ih (Chain.append.1 hc).1 (Nat.le_of_succ_le_succ hle), List.map_append, List.reverse_append]
    rfl

/-! The operations on stored lists. -/

section
variable {h : Heap (Option α)} {desc : Descriptor} {l l₁ l₂ : List (Nat × α)} {a b : Nat} {x y : α}

/-- The two ends are one node, or both NULL. -/
theorem Stored.tail_eq_head (hs : Stored h desc l) : desc.tail = desc.head ↔ l.length ≤ 1 := by
  rw [hs.tail, hs.head]
  cases l with
  | nil => simp
  | cons c l =>
    rcases List.eq_nil_or_concat l with rfl | ⟨l, b, rfl⟩
    · simp [last]
    · rw [List.concat_eq_append] at hs ⊢
      have hs' : Stored h desc ((c :: l) ++ (b.1, b.2) :: []) := hs
      have hne : c.1 ≠ b.1 := hs'.ne (by simp)
      rw [← List.cons_append, last_append]
      simp [hne.symm]

/-- `q__List_pop_back` is the erasure of the last node. -/
theorem popBack_eq (hs : Stored h desc (l ++ [(a, x)])) :
    popBack desc h = (eraseElem desc a h).map fun r => (0, r) := by
  have htail : desc.tail = some a := by rw [hs.tail, last_append]
  have hone := hs.tail_eq_head
  have hcell := hs.cell
  rw [first_nil] at hcell
  rcases List.eq_nil_or_concat l with rfl | ⟨l, ⟨b, y⟩, rfl⟩
  · have heq := hone.2 (Nat.le_refl 1)
    rw [popBack, eraseElem, ← heq, htail, hcell]
    simp [Heap.modifyAt, Heap.free, hcell]
  · rw [List.concat_eq_append] at hs hcell hone
    have hba : b ≠ a := hs.ne (by simp)
    have hne : desc.head ≠ some a := fun e => by simpa using hone.1 (htail.trans e.symm)
    have hs' := hs
    rw [List.append_assoc, List.singleton_append] at hs'
    have hprev := hs'.cell
    rw [first_cons] at hprev
    rw [last_append] at hcell
    rw [popBack, eraseElem, htail, hcell]
    simp [hne.symm, hne, hcell, hprev, Heap.modifyAt, Heap.modify, Heap.free,
      Function.update_of_ne hba, Function.update_of_ne hba.symm, Function.update_comm hba]

/-- `q__List_pop_front` is the erasure of the first node. -/
theorem popFront_eq (hs : Stored h desc ((a, x) :: l)) :
    popFront desc h = (eraseElem desc a h).map fun r => (0, r) := by
  have hhead : desc.head = some a := by rw [hs.head, first_cons]
  have hone := hs.tail_eq_head
  have hfront : Stored h desc ([] ++ (a, x) :: l) := hs
  have hcell := hfront.cell
  rw [last_nil] at hcell
  cases l with
  | nil =>
    have heq := hone.2 (Nat.le_refl 1)
    rw [popFront, eraseElem, heq, hhead, hcell]
    simp [Heap.modifyAt, Heap.free, hcell]
  | cons c l =>
    obtain ⟨b, y⟩ := c
    have hba : b ≠ a := hfront.ne (by simp)
    have hne : desc.tail ≠ some a := fun e => by simpa using hone.1 (e.trans hhead.symm)
    have hsecond : Stored h desc ([(a, x)] ++ (b, y) :: l) := hs
    have hnext := hsecond.cell
    rw [last_cons, last_nil] at hnext
    rw [first_cons] at hcell
    rw [popFront, eraseElem, hhead, hcell]
    simp [hne, hcell, hnext, Heap.modifyAt, Heap.modify, Heap.free, Function.update_of_ne hba,
      Function.update_of_ne hba.symm, Function.update_comm hba]

theorem popBack_nil (hs : Stored h desc []) : popBack desc h = some (-1, desc, h) := by
  rw [popBack, hs.tail, last_nil]

theorem popFront_nil (hs : Stored h desc []) : popFront desc h = some (-1, desc, h) := by
  rw [popFront, hs.head, first_nil]

theorem pushFront_spec (x : α) (hs : Stored h desc l) (hm : h.mallocs = []) :
    ∃ desc' h', pushFront desc x h = some (0, desc', h') ∧ Stored h' desc' ((h.brk, x) :: l) ∧
      h'.brk = h.brk + 1 ∧ h'.mallocs = [] ∧
      ∀ b ∉ l.map Prod.fst, b ≠ h.brk → h'.cell b = h.cell b := by
  cases ht : desc.tail with
  | none =>
    obtain rfl := hs.eq_nil_of_tail ht
    obtain ⟨desc', h', e, hrest⟩ := pushBack_spec x hs hm
    refine ⟨desc', h', ?_, hrest⟩
    rw [pushFront, ht]
    exact e
  | some t =>
    cases l with
    | nil =>
      rw [hs.tail, last_nil] at ht
      cases ht
    | cons c l =>
      obtain ⟨a, y⟩ := c
      have hhead : desc.head = some a := by rw [hs.head, first_cons]
      have hfront : Stored h desc ([] ++ (a, y) :: l) := hs
      have hcell := hfront.cell
      have hne : a ≠ h.brk := Nat.ne_of_lt (hs.fresh a (by simp))
      obtain ⟨hst, hframe⟩ := hfront.splice ⟨some h.brk, desc.tail, desc.size + 1⟩
        { h with
          cell := Function.update (Function.update h.cell a
            (some ⟨some y, some h.brk, first l none⟩)) h.brk (some ⟨some x, none, some a⟩),
          brk := h.brk + 1 } x
        (by simp [setNext, setPrev, hcell]) rfl rfl
        (by rw [hs.tail, List.nil_append, last_cons _ (h.brk, x), last_cons, last_cons]) rfl
      refine ⟨_, _, ?_, hst, rfl, hm, hframe⟩
      rw [pushFront, ht, hhead]
      simp [listNew, Heap.malloc, hm, Heap.new, Heap.modify, Function.update_of_ne hne, hcell,
        Function.update_of_ne hne.symm, Function.update_comm hne]

/-- The loop of the copy: the nodes it makes are new and hold the blocks of those it
    goes through, which stay as they are. -/
theorem copyFrom_spec {p : Option Nat} {turns : Nat} {rdesc : Descriptor} {r : List (Nat × α)}
    (hr : Stored h rdesc r) (hm : h.mallocs = []) (hc : Chain h.cell p (boxed l) none)
    (hl : ∀ a ∈ l.map Prod.fst, a ∉ r.map Prod.fst ∧ a < h.brk) (hle : l.length ≤ turns) :
    ∃ rdesc' h' r', copyFrom turns (first l none) rdesc h = some (rdesc', h') ∧
      Stored h' rdesc' (r ++ r') ∧ r'.map Prod.snd = l.map Prod.snd ∧
      (∀ a ∈ r'.map Prod.fst, h.brk ≤ a) ∧ h.brk ≤ h'.brk ∧ h'.mallocs = [] ∧
      ∀ b ∉ r.map Prod.fst, b < h.brk → h'.cell b = h.cell b := by
  induction l generalizing h p turns rdesc r with
  | nil =>
    refine ⟨rdesc, h, [], ?_, ?_, rfl, nofun, Nat.le_refl _, hm, fun _ _ _ => rfl⟩
    · cases turns <;> rfl
    · rw [List.append_nil]
      exact hr
  | cons c l ih =>
    obtain ⟨a, x⟩ := c
    obtain ⟨turns, rfl⟩ := Nat.exists_eq_succ_of_ne_zero (Nat.ne_of_gt (Nat.zero_lt_of_lt hle))
    rw [boxed_cons] at hc
    obtain ⟨hcell, hrest⟩ := hc
    rw [first_boxed] at hcell
    obtain ⟨rdesc₁, h₁, e, hr₁, hbrk, hm₁, hframe⟩ := pushBack_spec x hr hm
    have hgrown : h.brk ≤ h₁.brk := hbrk ▸ Nat.le_succ _
    -- the push leaves what the loop has still to go through
    have hkeep : ∀ b ∈ ((a, x) :: l).map Prod.fst, h₁.cell b = h.cell b :=
      fun b hb => hframe b (hl b hb).1 (Nat.ne_of_lt (hl b hb).2)
    have hl₁ : ∀ b ∈ l.map Prod.fst, b ∉ (r ++ [(h.brk, x)]).map Prod.fst ∧ b < h₁.brk := by
      intro b hb
      obtain ⟨hbr, hlt⟩ := hl b (List.mem_cons_of_mem _ hb)
      rw [mem_addresses_concat, hbrk]
      exact ⟨not_or.2 ⟨hbr, Nat.ne_of_lt hlt⟩, Nat.lt_succ_of_lt hlt⟩
    obtain ⟨rdesc', h', r', e', hst, hsnd, hnew, hbrk', hm', hframe'⟩ := ih hr₁ hm₁
      (hrest.frame fun b hb => hkeep b (List.mem_cons_of_mem _ (by simpa using hb))) hl₁
      (Nat.le_of_succ_le_succ hle)
    refine ⟨rdesc', h', (h.brk, x) :: r', ?_, ?_, ?_, ?_, ?_, hm', ?_⟩
    · rw [first_cons, copyFrom, hcell]
      simp only [Option.bind_eq_bind, Option.bind_some, e, hkeep a List.mem_cons_self, hcell, e']
    · rw [List.append_cons]
      exact hst
    · rw [List.map_cons, List.map_cons, hsnd]
    · intro b hb
      rcases List.mem_cons.1 hb with rfl | hb
      · exact Nat.le_refl _
      · exact Nat.le_trans hgrown (hnew b hb)
    · exact Nat.le_trans hgrown hbrk'
    · intro b hb hlt
      rw [hframe' b (mem_addresses_concat.not.2 (not_or.2 ⟨hb, Nat.ne_of_lt hlt⟩))
        (hbrk ▸ Nat.lt_succ_of_lt hlt), hframe b hb (Nat.ne_of_lt hlt)]

theorem copy_spec (hs : Stored h desc l) (hm : h.mallocs = []) :
    ∃ rdesc h' r, copy desc h = some (rdesc, h') ∧ Stored h' rdesc r ∧
      r.map Prod.snd = l.map Prod.snd ∧ (∀ a ∈ r.map Prod.fst, h.brk ≤ a) ∧ h.brk ≤ h'.brk ∧
      h'.mallocs = [] ∧ ∀ b < h.brk, h'.cell b = h.cell b := by
  obtain ⟨rdesc, h', r, e, hst, hsnd, hnew, hbrk, hm', hframe⟩ :=
    copyFrom_spec (.constructor h) hm hs.chain (fun a ha => ⟨List.not_mem_nil, hs.fresh a ha⟩)
      hs.length_le
  rw [← hs.head] at e
  exact ⟨rdesc, h', r, e, hst, hsnd, hnew, hbrk, hm', fun b hb => hframe b List.not_mem_nil hb⟩

end

end

end Zhwkrfsp.QList
