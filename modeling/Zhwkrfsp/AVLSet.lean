import Zhwkrfsp.AVLSearch
import Zhwkrfsp.Comparator

/- The tree with its heap. `Stored` is what a tree's nodes look like in the heap:
   threaded in the order of the tree, their elements ascending. Insertion splices
   one cell into that sequence, deletion takes one element out of it. -/
namespace Zhwkrfsp.AVLTree
open AVLTree.Tree Linked

variable {α : Type} (comp : α → α → Int)

/-- The cells of `l`, addresses with elements, are threaded in this order, the
    elements ascend, and the allocator will hand out other addresses. -/
structure Stored (h : Heap α) (l : List (Nat × α)) : Prop where
  chain : Chain h.cell none l none
  nodup : (l.map Prod.fst).Nodup
  sorted : (l.map Prod.snd).Pairwise fun x y => comp x y < 0
  fresh : ∀ a ∈ l.map Prod.fst, a < h.brk
  mallocs : h.mallocs = []

/-- The turns of the search for `elem`. -/
def path (elem : α) (h : Heap α) : Tree → List Bool
  | nil => []
  | node l a _ r =>
    match h.cell a with
    | none => []
    | some c =>
      if comp elem c.data = 0 then []
      else if comp elem c.data < 0 then true :: path elem h l
      else false :: path elem h r

variable {comp} in
theorem path_left {elem : α} {h : Heap α} {l r : Tree} {a ht : Nat} {c : Cell α}
    (hc : h.cell a = some c) (hlt : comp elem c.data < 0) :
    path comp elem h (node l a ht r) = true :: path comp elem h l := by
  have hne : comp elem c.data ≠ 0 := by omega
  simp [path, hc, hne, hlt]

variable {comp} in
theorem path_right {elem : α} {h : Heap α} {l r : Tree} {a ht : Nat} {c : Cell α}
    (hc : h.cell a = some c) (hgt : 0 < comp elem c.data) :
    path comp elem h (node l a ht r) = false :: path comp elem h r := by
  have hne : comp elem c.data ≠ 0 := by omega
  have hng : ¬comp elem c.data < 0 := by omega
  simp [path, hc, hne, hng]

/-! Where the thread functions write: the links of the two neighbours. -/

theorem listInsertLeft_eq {h : Heap α} {a c : Nat} {p n : Cell α} (ha : h.cell a = some p)
    (hc : h.cell c = some n) (hac : a ≠ c)
    (hq : ∀ q, p.prev = some q → q ≠ a ∧ q ≠ c ∧ ∃ cq, h.cell q = some cq) :
    listInsertLeft a c h = some { h with
      cell := Function.update (setPrev (setNext h.cell p.prev (some c)) (some a) (some c)) c
        (some ⟨n.data, p.prev, some a⟩) } := by
  cases e : p.prev with
  | none =>
    simp only [listInsertLeft, ha, e, Heap.modify, hc, setPrev, setNext, Option.bind_eq_bind,
      Option.bind_some, Option.map_some, Function.update_of_ne hac, Option.some.injEq]
    rw [Function.update_comm hac]
  | some q =>
    obtain ⟨hqa, hqc, cq, hcq⟩ := hq q e
    simp only [listInsertLeft, ha, e, Heap.modify, hcq, hc, setPrev, setNext, Option.bind_eq_bind,
      Option.bind_some, Option.map_some, Function.update_of_ne hac, Function.update_of_ne hqa.symm,
      Function.update_of_ne hqc.symm, Option.some.injEq]
    rw [Function.update_comm hac]

theorem listInsertRight_eq {h : Heap α} {a c : Nat} {p n : Cell α} (ha : h.cell a = some p)
    (hc : h.cell c = some n) (hac : a ≠ c)
    (hq : ∀ q, p.next = some q → q ≠ a ∧ q ≠ c ∧ ∃ cq, h.cell q = some cq) :
    listInsertRight a c h = some { h with
      cell := Function.update (setPrev (setNext h.cell (some a) (some c)) p.next (some c)) c
        (some ⟨n.data, some a, p.next⟩) } := by
  cases e : p.next with
  | none =>
    simp only [listInsertRight, ha, e, Heap.modify, hc, setPrev, setNext, Option.bind_eq_bind,
      Option.bind_some, Option.map_some, Function.update_of_ne hac, Option.some.injEq]
    rw [Function.update_comm hac]
  | some q =>
    obtain ⟨hqa, hqc, cq, hcq⟩ := hq q e
    simp only [listInsertRight, ha, e, Heap.modify, hcq, hc, setPrev, setNext, Option.bind_eq_bind,
      Option.bind_some, Option.map_some, Function.update_of_ne hac, Function.update_of_ne hqa.symm,
      Function.update_of_ne hqa, Function.update_of_ne hqc.symm, Option.some.injEq]
    rw [Function.update_comm hac.symm, Function.update_comm hqa]

theorem listRemove_eq {h : Heap α} {a : Nat} {e : Cell α} (ha : h.cell a = some e)
    (hp : ∀ p, e.prev = some p → ∃ c, h.cell p = some c)
    (hn : ∀ n, e.next = some n → (∃ c, h.cell n = some c) ∧ e.prev ≠ some n) :
    listRemove a h = some { h with cell := setPrev (setNext h.cell e.prev e.next) e.next e.prev } := by
  cases ep : e.prev with
  | none =>
    cases en : e.next with
    | none => simp [listRemove, ha, ep, en, setPrev, setNext]
    | some n =>
      obtain ⟨⟨cn, hcn⟩, -⟩ := hn n en
      simp [listRemove, ha, ep, en, setPrev, setNext, Heap.modify, hcn]
  | some p =>
    obtain ⟨cp, hcp⟩ := hp p ep
    cases en : e.next with
    | none => simp [listRemove, ha, ep, en, setPrev, setNext, Heap.modify, hcp]
    | some n =>
      obtain ⟨⟨cn, hcn⟩, hne⟩ := hn n en
      have hne : n ≠ p := fun e => hne (by rw [ep, e])
      simp [listRemove, ha, ep, en, setPrev, setNext, Heap.modify, hcn, hcp, hne]

theorem swap_eq {h : Heap α} {a b : Nat} {ca cb : Cell α} (ha : h.cell a = some ca)
    (hb : h.cell b = some cb) (hne : a ≠ b) :
    swap a b h = some { h with
      cell := Function.update (Function.update h.cell a (some { ca with data := cb.data })) b
        (some { cb with data := ca.data }) } := by
  simp [swap, ha, hb, Heap.modify, Function.update_of_ne hne.symm]

/-- A node unlinked and freed. -/
theorem unlink {h : Heap α} {l₁ l₂ : List (Nat × α)} {c : Nat} {x : α}
    (hc : Chain h.cell none (l₁ ++ (c, x) :: l₂) none)
    (nd : ((l₁ ++ (c, x) :: l₂).map Prod.fst).Nodup) :
    ∃ h₁ h₂, listRemove c h = some h₁ ∧ h₁.free c = some h₂ ∧ h₂.brk = h.brk ∧
      h₂.mallocs = h.mallocs ∧ Chain h₂.cell none (l₁ ++ l₂) none := by
  have hlive : ∀ b ∈ (l₁ ++ l₂).map Prod.fst, b ≠ c ∧ ∃ e, h.cell b = some e := by
    intro b hb
    have e : ((l₁ ++ (c, x) :: l₂).map Prod.fst).Perm (c :: (l₁ ++ l₂).map Prod.fst) := by simp
    refine ⟨fun e' => ?_, hc.live (e.mem_iff.2 (List.mem_cons_of_mem _ hb))⟩
    exact (List.nodup_cons.1 (e.nodup_iff.1 nd)).1 (e' ▸ hb)
  have hp : ∀ p, last none l₁ = some p → p ∈ l₁.map Prod.fst := fun p e => last_mem e nofun
  have hn : ∀ n, first l₂ none = some n → n ∈ l₂.map Prod.fst := fun n e => first_mem e nofun
  have e := listRemove_eq hc.mid (fun p ep => (hlive p (by simp_all)).2) fun n en => by
    refine ⟨(hlive n (by simp_all)).2, fun ep => ?_⟩
    rw [List.map_append, List.nodup_append, List.map_cons] at nd
    exact nd.2.2 n (hp n ep) n (List.mem_cons_of_mem _ (hn n en)) rfl
  have hself : setPrev (setNext h.cell (last none l₁) (first l₂ none)) (first l₂ none)
      (last none l₁) c = some ⟨x, last none l₁, first l₂ none⟩ := by
    rw [setPrev_of_ne fun e => (hlive c (by simp_all)).1 rfl,
      setNext_of_ne fun e => (hlive c (by simp_all)).1 rfl, hc.mid]
  exact ⟨_, _, e, Heap.free_some hself, rfl, rfl,
    (hc.cut nd).frame fun b hb => Function.update_of_ne (hlive b hb).1 _ _⟩

variable {comp}

theorem split_inorder {lt rt : Tree} {a ht : Nat} {l : List (Nat × α)}
    (h : (node lt a ht rt).inorder = l.map Prod.fst) :
    ∃ ll x lr, l = ll ++ (a, x) :: lr ∧ lt.inorder = ll.map Prod.fst ∧
      rt.inorder = lr.map Prod.fst := by
  obtain ⟨ll, rest, rfl, el, e⟩ := List.map_eq_append_iff.1 h.symm
  obtain ⟨⟨_, x⟩, lr, rfl, rfl, er⟩ := List.map_eq_cons_iff.1 e
  exact ⟨ll, x, lr, rfl, el.symm, er.symm⟩

theorem inorder_eq_nil {t : Tree} {l : List (Nat × α)} (h : t.inorder = l.map Prod.fst)
    (ht : t.isNull = true) : l = [] := by
  cases t with
  | nil => simpa using h.symm
  | node => cases ht

namespace Stored
variable {h : Heap α} {l₁ l₂ pre post : List (Nat × α)} {a : Nat} {x y : α}

theorem cell (hs : Stored comp h (l₁ ++ (a, x) :: l₂)) :
    h.cell a = some ⟨x, last none l₁, first l₂ none⟩ := hs.chain.mid

theorem lt_right (hs : Stored comp h (l₁ ++ (a, x) :: l₂)) (hy : y ∈ l₂.map Prod.snd) :
    comp x y < 0 := by
  have := hs.sorted
  rw [List.map_append, List.map_cons, List.pairwise_append] at this
  exact List.rel_of_pairwise_cons this.2.1 hy

theorem lt_left (hs : Stored comp h (l₁ ++ (a, x) :: l₂)) (hy : y ∈ l₁.map Prod.snd) :
    comp y x < 0 := by
  have := hs.sorted
  rw [List.map_append, List.map_cons, List.pairwise_append] at this
  exact this.2.2 y hy x (by simp)

/-- A fresh cell spliced in where its element belongs. -/
theorem splice (hs : Stored comp h (l₁ ++ l₂)) (hl : ∀ y ∈ l₁.map Prod.snd, comp y x < 0)
    (hr : ∀ y ∈ l₂.map Prod.snd, comp x y < 0) {h' : Heap α}
    (hcell : h'.cell = Function.update
      (setPrev (setNext (h.new x).2.cell (last none l₁) (some h.brk)) (first l₂ none) (some h.brk))
      h.brk (some ⟨x, last none l₁, first l₂ none⟩))
    (hbrk : h'.brk = h.brk + 1) (hm : h'.mallocs = []) :
    Stored comp h' (l₁ ++ (h.brk, x) :: l₂) := by
  have hc : h.brk ∉ (l₁ ++ l₂).map Prod.fst := fun hc => Nat.lt_irrefl _ (hs.fresh _ hc)
  refine ⟨?_, ?_, ?_, ?_, hm⟩
  · apply (hs.chain.splice hs.nodup hc).frame
    intro b _
    rw [hcell]
    by_cases e : b = h.brk
    · rw [e, Function.update_self, Function.update_self]
    · rw [Function.update_of_ne e, Function.update_of_ne e]
      exact setPrev_congr (setNext_congr (Function.update_of_ne e _ _) _ _) _ _
  · have e : ((l₁ ++ (h.brk, x) :: l₂).map Prod.fst).Perm (h.brk :: (l₁ ++ l₂).map Prod.fst) := by
      simp
    exact e.nodup_iff.2 (List.nodup_cons.2 ⟨hc, hs.nodup⟩)
  · have := hs.sorted
    rw [List.map_append, List.pairwise_append] at this
    rw [List.map_append, List.map_cons, List.pairwise_append, List.pairwise_cons]
    refine ⟨this.1, ⟨hr, this.2.1⟩, fun y hy z hz => ?_⟩
    rcases List.mem_cons.1 hz with rfl | hz
    · exact hl y hy
    · exact this.2.2 y hy z hz
  · intro b hb
    rw [hbrk]
    have : b = h.brk ∨ b ∈ (l₁ ++ l₂).map Prod.fst := by
      simp only [List.map_append, List.map_cons, List.mem_append, List.mem_cons] at hb ⊢
      tauto
    rcases this with rfl | hb
    · omega
    · have := hs.fresh b hb
      omega

theorem newNode_eq (hs : Stored comp h l₁) : newNode h x = (some h.brk, (h.new x).2) := by
  simp [newNode, Heap.malloc_true hs.mallocs, Heap.new]

theorem ne_brk (hs : Stored comp h l₁) {b : Nat} (hb : b ∈ l₁.map Prod.fst) : b ≠ h.brk :=
  Nat.ne_of_lt (hs.fresh b hb)

/-- Any live cell is still there after an allocation. -/
theorem new_cell (hs : Stored comp h l₁) {b : Nat} (hb : b ∈ l₁.map Prod.fst) :
    (h.new x).2.cell b = h.cell b := Function.update_of_ne (hs.ne_brk hb) _ _

theorem new_prev (hs : Stored comp h (l₁ ++ (a, y) :: l₂)) (q : Nat) (hq : last none l₁ = some q) :
    q ≠ a ∧ q ≠ h.brk ∧ ∃ c, (h.new x).2.cell q = some c := by
  have hq := last_mem hq nofun
  have hmem : q ∈ (l₁ ++ (a, y) :: l₂).map Prod.fst := by simp_all
  have nd := hs.nodup
  rw [List.map_append, List.nodup_append] at nd
  refine ⟨nd.2.2 q hq a (by simp), hs.ne_brk hmem, ?_⟩
  rw [hs.new_cell hmem]
  exact hs.chain.live hmem

theorem new_next (hs : Stored comp h (l₁ ++ (a, y) :: l₂)) (q : Nat) (hq : first l₂ none = some q) :
    q ≠ a ∧ q ≠ h.brk ∧ ∃ c, (h.new x).2.cell q = some c := by
  have hq := first_mem hq nofun
  have hmem : q ∈ (l₁ ++ (a, y) :: l₂).map Prod.fst := by simp_all
  have nd := hs.nodup
  rw [List.map_append, List.nodup_append, List.map_cons, List.nodup_cons] at nd
  refine ⟨fun e => nd.2.1.1 (e ▸ hq), hs.ne_brk hmem, ?_⟩
  rw [hs.new_cell hmem]
  exact hs.chain.live hmem

/-- `list_insert_left` of a new node next to `a`. -/
theorem insertLeft (hs : Stored comp h (l₁ ++ (a, y) :: l₂))
    (hl : ∀ z ∈ l₁.map Prod.snd, comp z x < 0)
    (hr : ∀ z ∈ ((a, y) :: l₂).map Prod.snd, comp x z < 0) :
    ∃ h', listInsertLeft a h.brk (h.new x).2 = some h' ∧ h'.brk = h.brk + 1 ∧
      Stored comp h' (l₁ ++ (h.brk, x) :: (a, y) :: l₂) := by
  have ha : a ∈ (l₁ ++ (a, y) :: l₂).map Prod.fst := by simp
  have hcell : (h.new x).2.cell a = some ⟨y, last none l₁, first l₂ none⟩ := by
    rw [hs.new_cell ha, hs.cell]
  exact ⟨_, listInsertLeft_eq hcell (Function.update_self _ _ _) (hs.ne_brk ha) hs.new_prev,
    rfl, hs.splice hl hr rfl rfl hs.mallocs⟩

/-- `list_insert_right` of a new node next to `a`. -/
theorem insertRight (hs : Stored comp h (l₁ ++ (a, y) :: l₂))
    (hl : ∀ z ∈ (l₁ ++ [(a, y)]).map Prod.snd, comp z x < 0)
    (hr : ∀ z ∈ l₂.map Prod.snd, comp x z < 0) :
    ∃ h', listInsertRight a h.brk (h.new x).2 = some h' ∧ h'.brk = h.brk + 1 ∧
      Stored comp h' (l₁ ++ (a, y) :: (h.brk, x) :: l₂) := by
  have ha : a ∈ (l₁ ++ (a, y) :: l₂).map Prod.fst := by simp
  have hcell : (h.new x).2.cell a = some ⟨y, last none l₁, first l₂ none⟩ := by
    rw [hs.new_cell ha, hs.cell]
  have hs' : Stored comp h ((l₁ ++ [(a, y)]) ++ l₂) := by simpa using hs
  refine ⟨_, listInsertRight_eq hcell (Function.update_self _ _ _) (hs.ne_brk ha) hs.new_next,
    rfl, ?_⟩
  rw [List.append_cons]
  refine hs'.splice hl hr ?_ rfl hs.mallocs
  rw [last_append]

/-- A part of the sequence, relinked. -/
theorem shrink (hs : Stored comp h l₁) {h' : Heap α} (hc : Chain h'.cell none l₂ none)
    (hfst : (l₂.map Prod.fst).Sublist (l₁.map Prod.fst))
    (hsnd : (l₂.map Prod.snd).Sublist (l₁.map Prod.snd)) (hbrk : h'.brk = h.brk)
    (hm : h'.mallocs = h.mallocs) : Stored comp h' l₂ :=
  ⟨hc, hs.nodup.sublist hfst, hs.sorted.sublist hsnd,
    fun a ha => hbrk ▸ hs.fresh a (hfst.subset ha), hm.trans hs.mallocs⟩

theorem remove (hs : Stored comp h (l₁ ++ (a, x) :: l₂)) :
    ∃ h₁ h₂, listRemove a h = some h₁ ∧ h₁.free a = some h₂ ∧ Stored comp h₂ (l₁ ++ l₂) := by
  obtain ⟨h₁, h₂, e₁, e₂, hb, hm, hc⟩ := unlink hs.chain hs.nodup
  exact ⟨h₁, h₂, e₁, e₂, hs.shrink hc (by simp) (by simp) hb hm⟩

/-- Neighbours are two nodes. -/
theorem ne_next {a b : Nat} (hs : Stored comp h (l₁ ++ (a, x) :: (b, y) :: l₂)) : a ≠ b := by
  have nd := hs.nodup
  rw [List.map_append, List.nodup_append] at nd
  rintro rfl
  simp at nd

/-- The helpers' end, the node before the iterator's being the one to go. -/
theorem deletePrev {d m : Nat} (hs : Stored comp h (l₁ ++ (m, y) :: (d, x) :: l₂)) :
    ∃ h', deleteHere m d h = some h' ∧ Stored comp h' (l₁ ++ (d, y) :: l₂) := by
  have hmd : m ≠ d := hs.ne_next
  have hs' : Stored comp h ((l₁ ++ [(m, y)]) ++ (d, x) :: l₂) := by simpa using hs
  have hw := hs.chain.write (y := x) hs.nodup
  rw [List.append_cons] at hw
  have nd : (((l₁ ++ [(m, x)]) ++ (d, x) :: l₂).map Prod.fst).Nodup := by simpa using hs.nodup
  have hw := hw.write (y := y) nd
  rw [← List.append_cons, hs.cell, Function.update_of_ne hmd.symm, hs'.cell] at hw
  obtain ⟨h', e, hw', hb', hm'⟩ : ∃ h', swap m d h = some h' ∧
      Chain h'.cell none (l₁ ++ (m, x) :: (d, y) :: l₂) none ∧ h'.brk = h.brk ∧
      h'.mallocs = h.mallocs := ⟨_, swap_eq hs.cell hs'.cell hmd, hw, rfl, rfl⟩
  obtain ⟨h₁, h₂, e₁, e₂, hb, hm, hc⟩ := unlink hw' (by simpa using hs.nodup)
  refine ⟨h₂, ?_, hs.shrink hc (by simp) (by simp) (hb.trans hb') (hm.trans hm')⟩
  simp [deleteHere, e, e₁, e₂]

/-- The helpers' end, the node after the iterator's being the one to go. -/
theorem deleteNext {d m : Nat} (hs : Stored comp h (l₁ ++ (d, x) :: (m, y) :: l₂)) :
    ∃ h', deleteHere m d h = some h' ∧ Stored comp h' (l₁ ++ (d, y) :: l₂) := by
  have hmd : m ≠ d := hs.ne_next.symm
  have hs' : Stored comp h ((l₁ ++ [(d, x)]) ++ (m, y) :: l₂) := by simpa using hs
  have hw := hs'.chain.write (y := x) hs'.nodup
  rw [← List.append_cons] at hw
  have nd : ((l₁ ++ (d, x) :: (m, x) :: l₂).map Prod.fst).Nodup := by simpa using hs.nodup
  have hw := hw.write (y := y) nd
  rw [List.append_cons, hs'.cell, Function.update_of_ne hmd.symm, hs.cell] at hw
  obtain ⟨h', e, hw', hb', hm'⟩ : ∃ h', swap m d h = some h' ∧
      Chain h'.cell none ((l₁ ++ [(d, y)]) ++ (m, x) :: l₂) none ∧ h'.brk = h.brk ∧
      h'.mallocs = h.mallocs := ⟨_, swap_eq hs'.cell hs.cell hmd, hw, rfl, rfl⟩
  obtain ⟨h₁, h₂, e₁, e₂, hb, hm, hc⟩ := unlink hw' (by simpa using hs.nodup)
  rw [← List.append_cons] at hc
  refine ⟨h₂, ?_, hs.shrink hc (by simp) (by simp) (hb.trans hb') (hm.trans hm')⟩
  simp [deleteHere, e, e₁, e₂]

end Stored

/-! Search. -/

section
variable (ho : TotalOrder comp)
include ho

theorem search_mem {t : Tree} {h : Heap α} {l pre post : List (Nat × α)} {d : Nat} {x : α}
    (hi : t.inorder = l.map Prod.fst) (hs : Stored comp h (pre ++ l ++ post)) (hd : (d, x) ∈ l) :
    search comp x h t = some (some d) := by
  induction t generalizing l pre post with
  | nil =>
    have : l = [] := inorder_eq_nil hi rfl
    simp [this] at hd
  | node lt a ht rt ihl ihr =>
    obtain ⟨ll, y, lr, rfl, hl, hr⟩ := split_inorder hi
    have hs₁ : Stored comp h ((pre ++ ll) ++ (a, y) :: (lr ++ post)) := by simpa using hs
    have hs₂ : Stored comp h ((pre ++ ll ++ [(a, y)]) ++ lr ++ post) := by simpa using hs
    rw [List.mem_append, List.mem_cons] at hd
    rcases hd with hd | hd | hd
    · have hxm : x ∈ ll.map Prod.snd := List.mem_map_of_mem hd
      have hlt : comp x y < 0 := hs₁.lt_left (by simp_all)
      rw [search_left hs₁.cell hlt, ihl hl hs₁ hd]
    · cases hd
      simp [search, hs₁.cell, ho.self]
    · have hxm : x ∈ lr.map Prod.snd := List.mem_map_of_mem hd
      have hgt := (ho.neg_iff y x).1 (hs₁.lt_right (by simp_all))
      rw [search_right hs₁.cell hgt, ihr hr hs₂ hd]

theorem search_not_mem {t : Tree} {h : Heap α} {l pre post : List (Nat × α)} {x : α}
    (hi : t.inorder = l.map Prod.fst) (hs : Stored comp h (pre ++ l ++ post))
    (hx : x ∉ l.map Prod.snd) : search comp x h t = some none := by
  induction t generalizing l pre post with
  | nil => rfl
  | node lt a ht rt ihl ihr =>
    obtain ⟨ll, y, lr, rfl, hl, hr⟩ := split_inorder hi
    have hs₁ : Stored comp h ((pre ++ ll) ++ (a, y) :: (lr ++ post)) := by simpa using hs
    have hs₂ : Stored comp h ((pre ++ ll ++ [(a, y)]) ++ lr ++ post) := by simpa using hs
    simp only [List.map_append, List.map_cons, List.mem_append, List.mem_cons, not_or] at hx
    rcases Int.lt_trichotomy (comp x y) 0 with hlt | h0 | hgt
    · rw [search_left hs₁.cell hlt, ihl hl hs₁ hx.1]
    · exact absurd ((ho.eq_iff x y).1 h0) hx.2.1
    · rw [search_right hs₁.cell hgt, ihr hr hs₂ hx.2.2]

end

/-! Insertion into a subtree, whose nodes are the middle of the sequence. -/

theorem not_null {elem : α} {t : Tree} {l : List (Nat × α)} (hi : t.inorder = l.map Prod.fst)
    (hx : elem ∈ l.map Prod.snd) : t.isNull = false := by
  cases t with
  | nil => simp [inorder_eq_nil hi rfl] at hx
  | node => rfl

section
variable (ho : TotalOrder comp) {elem : α}
include ho

theorem recursiveInsert_present {t : Tree} {h : Heap α} {l pre post : List (Nat × α)}
    (hi : t.inorder = l.map Prod.fst) (hs : Stored comp h (pre ++ l ++ post))
    (hx : elem ∈ l.map Prod.snd) :
    recursiveInsert comp elem t h = some (⟨-1, t, t⟩, h) := by
  obtain ⟨⟨d, x⟩, hd, rfl⟩ := List.mem_map.1 hx
  exact recursiveInsert_found (search_mem ho hi hs hd)

/-- An absent element gets a fresh cell where it belongs, and the leaf where its path ends. -/
theorem recursiveInsert_absent {t : Tree} (hx : t.Exact) (hn : t.isNull = false) {h : Heap α}
    {l pre post : List (Nat × α)} (hi : t.inorder = l.map Prod.fst)
    (hs : Stored comp h (pre ++ l ++ post)) (habs : elem ∉ l.map Prod.snd)
    (hpre : ∀ y ∈ pre.map Prod.snd, comp y elem < 0)
    (hpost : ∀ y ∈ post.map Prod.snd, comp elem y < 0) :
    ∃ t' h' l₁ l₂, recursiveInsert comp elem t h = some (⟨0, t', t'⟩, h') ∧
      place h.brk (path comp elem h t) t = some t' ∧ t'.isNull = false ∧ t'.Exact ∧
      l = l₁ ++ l₂ ∧ t'.inorder = (l₁ ++ (h.brk, elem) :: l₂).map Prod.fst ∧
      Stored comp h' (pre ++ (l₁ ++ (h.brk, elem) :: l₂) ++ post) := by
  induction t generalizing l pre post with
  | nil => cases hn
  | node lt a ht rt ihl ihr =>
    obtain ⟨ll, y, lr, rfl, hl, hr⟩ := split_inorder hi
    obtain ⟨hxl, hxr, -⟩ := hx
    have hs₁ : Stored comp h ((pre ++ ll) ++ (a, y) :: (lr ++ post)) := by simpa using hs
    have hs₂ : Stored comp h ((pre ++ ll ++ [(a, y)]) ++ lr ++ post) := by simpa using hs
    simp only [List.map_append, List.map_cons, List.mem_append, List.mem_cons, not_or] at habs
    obtain ⟨habl, hne, habr⟩ := habs
    have hne : comp elem y ≠ 0 := fun e => hne ((ho.eq_iff _ _).1 e)
    rw [recursiveInsert, path, hs₁.cell, Option.bind_eq_bind, Option.bind_some]
    by_cases hlt : comp elem y < 0
    · -- on the left the node and all behind it are larger
      have hpost' : ∀ z ∈ ((a, y) :: lr ++ post).map Prod.snd, comp elem z < 0 := by
        intro z hz
        simp only [List.cons_append, List.map_cons, List.mem_cons] at hz
        rcases hz with rfl | hz
        · exact hlt
        · exact ho.lt_trans hlt (hs₁.lt_right hz)
      simp only [hne, hlt, if_true, if_false, place]
      cases hnl : lt.isNull with
      | true =>
        have hll := inorder_eq_nil hl hnl
        subst hll
        cases lt with
        | node => cases hnl
        | nil =>
          rw [List.append_nil] at hs₁
          obtain ⟨h', e, -, hs'⟩ := hs₁.insertLeft hpre hpost'
          refine ⟨_, h', [], (a, y) :: lr, ?_, place_leaf_left h.brk a rt, rfl, ?_, rfl, ?_, ?_⟩
          · simp [hs.newNode_eq, e]
          · exact mk_exact _ ⟨trivial, trivial, rfl⟩ hxr
          · simp [mk, hr]
          · simpa using hs'
      | false =>
        obtain ⟨t', h', l₁, l₂, e, ep, -, hx', rfl, hi', hs'⟩ :=
          ihl hxl hnl hl hs₁ habl hpre hpost'
        obtain ⟨t'', eb, hn'', hx'', hi''⟩ := leftBalance_spec a hx' hxr
        refine ⟨t'', h', l₁, l₂ ++ (a, y) :: lr, ?_, ?_, hn'', hx'', by simp, ?_, ?_⟩
        · simp [e, eb]
        · simp [ep, eb]
        · simp [hi'', hi', hr]
        · simpa using hs'
    · -- on the right all up to the node are smaller
      have hgt : comp y elem < 0 := (ho.neg_iff _ _).2 (by omega)
      have hpre' : ∀ z ∈ (pre ++ ll ++ [(a, y)]).map Prod.snd, comp z elem < 0 := by
        intro z hz
        rw [List.map_append, List.mem_append] at hz
        rcases hz with hz | hz
        · exact ho.lt_trans (hs₁.lt_left hz) hgt
        · simp at hz
          exact hz ▸ hgt
      simp only [hne, hlt, if_false, place]
      cases hnr : rt.isNull with
      | true =>
        have hlr := inorder_eq_nil hr hnr
        subst hlr
        cases rt with
        | node => cases hnr
        | nil =>
          obtain ⟨h', e, -, hs'⟩ := hs₁.insertRight hpre' hpost
          refine ⟨_, h', ll ++ [(a, y)], [], ?_, place_leaf_right h.brk a lt, rfl, ?_, by simp, ?_, ?_⟩
          · simp [hs.newNode_eq, e]
          · exact mk_exact _ hxl ⟨trivial, trivial, rfl⟩
          · simp [mk, hl]
          · simpa using hs'
      | false =>
        obtain ⟨t', h', l₁, l₂, e, ep, -, hx', rfl, hi', hs'⟩ :=
          ihr hxr hnr hr hs₂ habr hpre' hpost
        obtain ⟨t'', eb, hn'', hx'', hi''⟩ := rightBalance_spec a hxl hx'
        refine ⟨t'', h', ll ++ (a, y) :: l₁, l₂, ?_, ?_, hn'', hx'', by simp, ?_, ?_⟩
        · simp [e, eb]
        · simp [ep, eb]
        · simp [hi'', hi', hl]
        · simpa using hs'

end

/-! Deletion from a subtree. -/

/-- The last node of the subtree goes; its element moves into the node `d` after it. -/
theorem deleteLeftmax_spec {t : Tree} (hx : t.Exact) (hn : t.isNull = false) {h : Heap α}
    {l pre post : List (Nat × α)} {d : Nat} {x : α} (hi : t.inorder = l.map Prod.fst)
    (hs : Stored comp h (pre ++ l ++ (d, x) :: post)) :
    ∃ t' h' l' m y, deleteLeftmax d t h = some (t', h') ∧ dropMax t = some t' ∧ t'.Exact ∧
      l = l' ++ [(m, y)] ∧ t'.inorder = l'.map Prod.fst ∧
      Stored comp h' (pre ++ l' ++ (d, y) :: post) := by
  induction t generalizing l pre with
  | nil => cases hn
  | node lt a ht rt _ ih =>
    obtain ⟨ll, z, lr, rfl, hl, hr⟩ := split_inorder hi
    obtain ⟨hxl, hxr, -⟩ := hx
    rw [deleteLeftmax, dropMax]
    cases hnr : rt.isNull with
    | true =>
      have hlr := inorder_eq_nil hr hnr
      subst hlr
      have hs₁ : Stored comp h ((pre ++ ll) ++ (a, z) :: (d, x) :: post) := by simpa using hs
      obtain ⟨h', e, hs'⟩ := hs₁.deletePrev
      exact ⟨lt, h', ll, a, z, by simp [e], rfl, hxl, rfl, hl, hs'⟩
    | false =>
      have hs₁ : Stored comp h ((pre ++ ll ++ [(a, z)]) ++ lr ++ (d, x) :: post) := by
        simpa using hs
      obtain ⟨t', h', l', m, y, e, ed, hx', rfl, hi', hs'⟩ := ih hxr hnr hr hs₁
      obtain ⟨t'', eb, -, hx'', hi''⟩ := rightBalance_spec a hxl hx'
      refine ⟨t'', h', ll ++ (a, z) :: l', m, y, by simp [e, eb], by simp [ed, eb], hx'', by simp,
        by simp [hi'', hi', hl], ?_⟩
      simpa using hs'

/-- The first node of the subtree goes; its element moves into the node `d` before it. -/
theorem deleteRightmin_spec {t : Tree} (hx : t.Exact) (hn : t.isNull = false) {h : Heap α}
    {l pre post : List (Nat × α)} {d : Nat} {x : α} (hi : t.inorder = l.map Prod.fst)
    (hs : Stored comp h (pre ++ (d, x) :: l ++ post)) :
    ∃ t' h' l' m y, deleteRightmin d t h = some (t', h') ∧ dropMin t = some t' ∧ t'.Exact ∧
      l = (m, y) :: l' ∧ t'.inorder = l'.map Prod.fst ∧
      Stored comp h' (pre ++ (d, y) :: l' ++ post) := by
  induction t generalizing l post with
  | nil => cases hn
  | node lt a ht rt ih _ =>
    obtain ⟨ll, z, lr, rfl, hl, hr⟩ := split_inorder hi
    obtain ⟨hxl, hxr, -⟩ := hx
    rw [deleteRightmin, dropMin]
    cases hnl : lt.isNull with
    | true =>
      have hll := inorder_eq_nil hl hnl
      subst hll
      have hs₁ : Stored comp h (pre ++ (d, x) :: (a, z) :: (lr ++ post)) := by simpa using hs
      obtain ⟨h', e, hs'⟩ := hs₁.deleteNext
      exact ⟨rt, h', lr, a, z, by simp [e], rfl, hxr, rfl, hr, by simpa using hs'⟩
    | false =>
      have hs₁ : Stored comp h (pre ++ (d, x) :: ll ++ ((a, z) :: (lr ++ post))) := by
        simpa using hs
      obtain ⟨t', h', l', m, y, e, ed, hx', rfl, hi', hs'⟩ := ih hxl hnl hl hs₁
      obtain ⟨t'', eb, -, hx'', hi''⟩ := leftBalance_spec a hx' hxr
      refine ⟨t'', h', l' ++ (a, z) :: lr, m, y, by simp [e, eb], by simp [ed, eb], hx'', by simp,
        by simp [hi'', hi', hr], ?_⟩
      simpa using hs'

/-- The element of the iterator's node `d` goes, and one node of the subtree with it. -/
theorem recursiveDelete_spec (ho : TotalOrder comp) {t : Tree} (hx : t.Exact) {h : Heap α}
    {l pre post : List (Nat × α)} {d : Nat} {x : α} (hi : t.inorder = l.map Prod.fst)
    (hs : Stored comp h (pre ++ l ++ post)) (hd : (d, x) ∈ l) :
    ∃ t' h' l₁ l₂ l', recursiveDelete comp d t h = some ((0, t'), h') ∧
      dropAt (path comp x h t) t = some t' ∧ t'.Exact ∧ l = l₁ ++ (d, x) :: l₂ ∧
      t'.inorder = l'.map Prod.fst ∧ l'.map Prod.snd = (l₁ ++ l₂).map Prod.snd ∧
      (l'.map Prod.fst).Sublist (l.map Prod.fst) ∧ Stored comp h' (pre ++ l' ++ post) := by
  obtain ⟨q, r, hcell⟩ := hs.chain.cell (List.mem_append_left post (List.mem_append_right pre hd))
  induction t generalizing l pre post with
  | nil =>
    have : l = [] := inorder_eq_nil hi rfl
    simp [this] at hd
  | node lt a ht rt ihl ihr =>
    obtain ⟨ll, y, lr, rfl, hl, hr⟩ := split_inorder hi
    have hxt := hx
    obtain ⟨hxl, hxr, -⟩ := hx
    have hs₁ : Stored comp h ((pre ++ ll) ++ (a, y) :: (lr ++ post)) := by simpa using hs
    have hs₂ : Stored comp h ((pre ++ ll ++ [(a, y)]) ++ lr ++ post) := by simpa using hs
    rw [recursiveDelete, path, hcell, hs₁.cell, Option.bind_eq_bind, Option.bind_some,
      Option.bind_eq_bind, Option.bind_some]
    rw [List.mem_append, List.mem_cons] at hd
    rcases hd with hd | hd | hd
    · have hxm : x ∈ ll.map Prod.snd := List.mem_map_of_mem hd
      have hlt : comp x y < 0 := hs₁.lt_left (by simp_all)
      have hne : comp x y ≠ 0 := by omega
      obtain ⟨t', h', l₁, l₂, l', e, ed, hx', rfl, hi', hsnd, hsub, hs'⟩ := ihl hxl hl hs₁ hd
      obtain ⟨t'', eb, -, hx'', hi''⟩ := rightBalance_spec a hx' hxr
      refine ⟨t'', h', l₁, l₂ ++ (a, y) :: lr, l' ++ (a, y) :: lr, ?_, ?_, hx'', by simp,
        by simp [hi'', hi', hr], by simp [hsnd], ?_, by simpa using hs'⟩
      · simp [hlt, hne, not_null hl hxm, e, eb]
      · simp [hlt, hne, dropAt, ed, eb]
      · rw [List.map_append, List.map_append]
        exact hsub.append_right _
    · cases hd
      simp only [ho.self, if_true, dropAt]
      by_cases h1 : ht = 1
      · -- a leaf goes itself
        have hnil : lt = nil ∧ rt = nil := by
          have := hxt.2.2
          exact ⟨hxl.eq_nil (by omega), hxr.eq_nil (by omega)⟩
        obtain ⟨rfl, rfl⟩ := hnil
        have hll := inorder_eq_nil hl rfl
        have hlr := inorder_eq_nil hr rfl
        subst hll hlr
        obtain ⟨h₁, h₂, e₁, e₂, hs'⟩ := hs₁.remove
        exact ⟨nil, h₂, [], [], [], by simp [h1, e₁, e₂], by simp [h1], trivial, rfl, rfl, rfl,
          List.nil_sublist _, by simpa using hs'⟩
      · simp only [h1, if_false]
        by_cases hb : 0 < (node lt d ht rt).blfactor
        · -- the first node on the right goes, and its element moves into `d`
          have hnr : rt.isNull = false := by
            cases rt with
            | nil =>
              simp at hb
              omega
            | node => rfl
          have hs₃ : Stored comp h ((pre ++ ll) ++ (d, x) :: lr ++ post) := by simpa using hs
          obtain ⟨t', h', l', m, z, e, ed, hx', rfl, hi', hs'⟩ :=
            deleteRightmin_spec hxr hnr hr hs₃
          obtain ⟨t'', eb, -, hx'', hi''⟩ := rightBalance_spec d hxl hx'
          refine ⟨t'', h', ll, (m, z) :: l', ll ++ (d, z) :: l', ?_, ?_, hx'', rfl,
            by simp [hi'', hi', hl], by simp, by simp, by simpa using hs'⟩
          · simp only [hb, if_true, e, Option.bind_eq_bind, Option.bind_some, eb]
            rfl
          · simp only [hb, if_true, ed, Option.bind_eq_bind, Option.bind_some, eb]
        · -- the last node on the left goes; there is one, since the right is no higher
          have hnl : lt.isNull = false := by
            cases lt with
            | nil =>
              have := hxt.2.2
              simp at hb this
              omega
            | node => rfl
          obtain ⟨t', h', l', m, z, e, ed, hx', rfl, hi', hs'⟩ :=
            deleteLeftmax_spec hxl hnl hl hs₁
          obtain ⟨t'', eb, -, hx'', hi''⟩ := leftBalance_spec d hx' hxr
          refine ⟨t'', h', l' ++ [(m, z)], lr, l' ++ (d, z) :: lr, ?_, ?_, hx'', by simp,
            by simp [hi'', hi', hr], by simp, by simp, by simpa using hs'⟩
          · simp only [hb, if_false, e, Option.bind_eq_bind, Option.bind_some, eb]
            rfl
          · simp only [hb, if_false, ed, Option.bind_eq_bind, Option.bind_some, eb]
    · have hxm : x ∈ lr.map Prod.snd := List.mem_map_of_mem hd
      have hgt := (ho.neg_iff y x).1 (hs₁.lt_right (by simp_all))
      have hne : comp x y ≠ 0 := by omega
      have hng : ¬comp x y < 0 := by omega
      obtain ⟨t', h', l₁, l₂, l', e, ed, hx', rfl, hi', hsnd, hsub, hs'⟩ := ihr hxr hr hs₂ hd
      obtain ⟨t'', eb, -, hx'', hi''⟩ := leftBalance_spec a hxl hx'
      refine ⟨t'', h', ll ++ (a, y) :: l₁, l₂, ll ++ (a, y) :: l', ?_, ?_, hx'', by simp,
        by simp [hi'', hi', hl], by simp [hsnd], ?_, by simpa using hs'⟩
      · simp [hng, hne, not_null hr hxm, e, eb]
      · simp [hng, hne, dropAt, ed, eb]
      · rw [List.map_append, List.map_append, List.map_cons, List.map_cons]
        exact (hsub.cons_cons a).append_left _

end Zhwkrfsp.AVLTree
