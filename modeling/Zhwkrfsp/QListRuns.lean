import Mathlib.Algebra.Group.Nat.Defs
import Zhwkrfsp.BubbleSort
import Zhwkrfsp.Machine
import Zhwkrfsp.QListOps

/- Runs of the list functions on any number of lists in one heap. A client takes the
   nodes it erases and exchanges from an iterator that it moves forward from
   `qList_begin`, and passes them on only when the iterator is valid. Every run
   answers as one on sequences does, with pops of an empty list and iterators that
   are not valid answered by -1; the nodes met forward are those met backward; and no
   two lists share a node, a copy and its original among them. -/
namespace Zhwkrfsp.QList
open Linked BubbleSort

variable {ι α : Type} [DecidableEq ι]

/-- The lists, and the heap they share. -/
structure World (ι α : Type) where
  desc : ι → Descriptor
  heap : Heap (Option α)

/-- A call on one of the lists. A node is the `k`-th of a list. -/
inductive Op (ι α : Type)
  | pushBack (target : α)
  | pushFront (target : α)
  | popBack
  | popFront
  | eraseElem (k : Nat)
  | swapElem (k : Nat) (j : ι) (m : Nat)
  | copy (j : ι)
  | destructor

namespace World

def init (mallocs : List Bool) : World ι α := ⟨fun _ => constructor, { Heap.empty with mallocs }⟩

/-- One of the lists and the heap replaced. -/
def put (w : World ι α) (i : ι) (desc : Descriptor) (heap : Heap (Option α)) : World ι α :=
  ⟨Function.update w.desc i desc, heap⟩

/-- The iterator that was moved forward `k` times from the beginning of a list. -/
def node (w : World ι α) (i : ι) (k : Nat) : Option (Option Nat) :=
  iteratorAt Cell.next w.heap k (w.desc i).head

/-- The nodes met forward from `head`. -/
def forward (w : World ι α) (i : ι) : Option (List Nat) :=
  visits Cell.next w.heap w.heap.brk (w.desc i).head

/-- The nodes met backward from `tail`. -/
def backward (w : World ι α) (i : ι) : Option (List Nat) :=
  visits Cell.prev w.heap w.heap.brk (w.desc i).tail

end World

/-- A call. It answers what the function returns, 0 for a copy, and -1 when an
    iterator is not valid. -/
def step (w : World ι α) : ι × Op ι α → Option (Int32 × World ι α)
  | (i, .pushBack target) => do
    let (rtv, desc, heap) ← pushBack (w.desc i) target w.heap
    return (rtv, w.put i desc heap)
  | (i, .pushFront target) => do
    let (rtv, desc, heap) ← pushFront (w.desc i) target w.heap
    return (rtv, w.put i desc heap)
  | (i, .popBack) => do
    let (rtv, desc, heap) ← popBack (w.desc i) w.heap
    return (rtv, w.put i desc heap)
  | (i, .popFront) => do
    let (rtv, desc, heap) ← popFront (w.desc i) w.heap
    return (rtv, w.put i desc heap)
  | (i, .eraseElem k) => do
    match ← w.node i k with
    | some a =>
      let (desc, heap) ← eraseElem (w.desc i) a w.heap
      return (0, w.put i desc heap)
    | none => return (-1, w)
  | (i, .swapElem k j m) => do
    match ← w.node i k, ← w.node j m with
    | some a, some b =>
      let heap ← swapElem a b w.heap
      return (0, { w with heap })
    | _, _ => return (-1, w)
  | (i, .copy j) => do
    let (desc, heap) ← copy (w.desc j) w.heap
    return (0, w.put i desc heap)
  | (i, .destructor) => do
    let (desc, heap) ← destructor (w.desc i) w.heap
    return (0, w.put i desc heap)

/-- The same on sequences. -/
def listsStep (S : ι → List α) : ι × Op ι α → Int32 × (ι → List α)
  | (i, .pushBack target) => (0, Function.update S i (S i ++ [target]))
  | (i, .pushFront target) => (0, Function.update S i (target :: S i))
  | (i, .popBack) => if S i = [] then (-1, S) else (0, Function.update S i (S i).dropLast)
  | (i, .popFront) => if S i = [] then (-1, S) else (0, Function.update S i (S i).tail)
  | (i, .eraseElem k) =>
    if k < (S i).length then (0, Function.update S i ((S i).eraseIdx k)) else (-1, S)
  | (i, .swapElem k j m) =>
    match (S i)[k]?, (S j)[m]? with
    | some x, some y =>
      let S := Function.update S i ((S i).set k y)
      (0, Function.update S j ((S j).set m x))
    | _, _ => (-1, S)
  | (i, .copy j) => (0, Function.update S i (S j))
  | (i, .destructor) => (0, Function.update S i [])

@[simp] theorem World.put_self (w : World ι α) (i : ι) : w.put i (w.desc i) w.heap = w := by
  rw [World.put, Function.update_eq_self]

omit [DecidableEq ι] in
theorem split_at {l : List α} {k : Nat} {c : α} (hk : l[k]? = some c) :
    l = l.take k ++ c :: l.drop (k + 1) := by
  obtain ⟨hlt, hget⟩ := List.getElem?_eq_some_iff.1 hk
  rw [← hget, ← List.drop_eq_getElem_cons hlt, List.take_append_drop]

/-- The nodes and blocks of the lists, which hold the sequences `S`. -/
structure Rep (w : World ι α) (nodes : ι → List (Nat × α)) (S : ι → List α) : Prop where
  family : Family w.heap w.desc nodes
  mallocs : w.heap.mallocs = []
  data : ∀ i, (nodes i).map Prod.snd = S i

namespace Rep
variable {w : World ι α} {nodes : ι → List (Nat × α)} {S : ι → List α}

omit [DecidableEq ι] in
theorem init : Rep (World.init [] : World ι α) (fun _ => []) fun _ => [] :=
  ⟨.constructor _, rfl, fun _ => rfl⟩

theorem put {i : ι} {desc' : Descriptor} {h' : Heap (Option α)} {l' : List (Nat × α)} {xs : List α}
    (hr : Rep w nodes S) (hst : Stored h' desc' l')
    (hnew : ∀ a ∈ l'.map Prod.fst, a ∈ (nodes i).map Prod.fst ∨ w.heap.brk ≤ a)
    (hframe : ∀ b ∉ (nodes i).map Prod.fst, b < w.heap.brk → h'.cell b = w.heap.cell b)
    (hbrk : w.heap.brk ≤ h'.brk) (hm : h'.mallocs = []) (hxs : l'.map Prod.snd = xs) :
    Rep (w.put i desc' h') (Function.update nodes i l') (Function.update S i xs) := by
  refine ⟨hr.family.replace hst hnew hframe hbrk, hm, fun j => ?_⟩
  by_cases hj : j = i
  · subst hj
    rw [Function.update_self, Function.update_self]
    exact hxs
  · rw [Function.update_of_ne hj, Function.update_of_ne hj]
    exact hr.data j

omit [DecidableEq ι] in
theorem getElem? (hr : Rep w nodes S) (i : ι) (k : Nat) : (S i)[k]? = (nodes i)[k]?.map Prod.snd := by
  rw [← hr.data, List.getElem?_map]

omit [DecidableEq ι] in
/-- The iterator meets the nodes in the order of the list. -/
theorem node (hr : Rep w nodes S) (i : ι) (k : Nat) :
    w.node i k = some ((nodes i)[k]?.map Prod.fst) := by
  have hs := hr.family.stored i
  rw [World.node, hs.head, ← first_boxed, iteratorAt_next k hs.chain, first, Option.or_none,
    List.head?_drop, boxed, List.getElem?_map, Option.map_map]
  rfl

/-- An erasure of the node between two parts of a list. -/
theorem erase {i : ι} {l₁ l₂ : List (Nat × α)} {a : Nat} {x : α} (hr : Rep w nodes S)
    (hl : nodes i = l₁ ++ (a, x) :: l₂) :
    ∃ desc' h', eraseElem (w.desc i) a w.heap = some (desc', h') ∧
      Rep (w.put i desc' h') (Function.update nodes i (l₁ ++ l₂))
        (Function.update S i ((l₁ ++ l₂).map Prod.snd)) := by
  have hs := hr.family.stored i
  rw [hl] at hs
  obtain ⟨desc', h', e, hst, hbrk, hm, hframe⟩ := eraseElem_spec hs
  refine ⟨desc', h', e, hr.put hst (fun b hb => .inl ?_) (fun b hb _ => hframe b (hl ▸ hb))
    (Nat.le_of_eq hbrk.symm) (hm.trans hr.mallocs) rfl⟩
  rw [hl, List.map_append, List.map_cons]
  rw [List.map_append] at hb
  exact (List.mem_append.1 hb).elim (List.mem_append_left _)
    fun hb => List.mem_append_right _ (List.mem_cons_of_mem _ hb)

/-- The block of a node overwritten. -/
theorem write {i : ι} {k a : Nat} {x : α} (y : α) (hr : Rep w nodes S)
    (hk : (nodes i)[k]? = some (a, x)) :
    ∃ h', (w.heap.modify a fun c => { c with data := some y }) = some h' ∧
      Rep { w with heap := h' } (Function.update nodes i ((nodes i).set k (a, y)))
        (Function.update S i ((S i).set k y)) := by
  have hsplit := split_at hk
  have hset : (nodes i).set k (a, y) = (nodes i).take k ++ (a, y) :: (nodes i).drop (k + 1) := by
    rw [List.set_eq_take_append_cons_drop, if_pos (List.getElem?_eq_some_iff.1 hk).1]
  have hs := hr.family.stored i
  rw [hsplit] at hs
  obtain ⟨h', e, hst, hbrk, hm, hframe⟩ := write_spec y hs
  rw [← hsplit] at hframe
  rw [← hset] at hst
  have haddr : ((nodes i).set k (a, y)).map Prod.fst = (nodes i).map Prod.fst := by
    calc ((nodes i).set k (a, y)).map Prod.fst
        = ((nodes i).take k ++ (a, x) :: (nodes i).drop (k + 1)).map Prod.fst := by
          rw [hset, List.map_append, List.map_append, List.map_cons, List.map_cons]
      _ = (nodes i).map Prod.fst := by rw [← hsplit]
  have hxs : ((nodes i).set k (a, y)).map Prod.snd = (S i).set k y := by
    rw [List.map_set, hr.data]
  have hput := hr.put (i := i) hst (fun b hb => .inl (haddr ▸ hb)) (fun b hb _ => hframe b hb)
    (Nat.le_of_eq hbrk.symm) (hm.trans hr.mallocs) hxs
  rw [World.put, Function.update_eq_self] at hput
  exact ⟨h', e, hput⟩

/-- Blocks exchanged. It may be one node twice, or nodes of different lists. -/
theorem swap {i j : ι} {k m a b : Nat} {x y : α} (hr : Rep w nodes S)
    (hk : (nodes i)[k]? = some (a, x)) (hm : (nodes j)[m]? = some (b, y)) :
    ∃ h', swapElem a b w.heap = some h' ∧ ∃ nodes', Rep { w with heap := h' } nodes'
      (Function.update (Function.update S i ((S i).set k y)) j
        (((Function.update S i ((S i).set k y)) j).set m x)) := by
  have ha : ∃ p n, w.heap.cell a = some ⟨some x, p, n⟩ := by
    have hs := hr.family.stored i
    rw [split_at hk] at hs
    exact ⟨_, _, hs.cell⟩
  have hb : ∃ p n, w.heap.cell b = some ⟨some y, p, n⟩ := by
    have hs := hr.family.stored j
    rw [split_at hm] at hs
    exact ⟨_, _, hs.cell⟩
  obtain ⟨h₁, e₁, hr₁⟩ := hr.write y hk
  have hm₁ : ∃ z, ((Function.update nodes i ((nodes i).set k (a, y))) j)[m]? = some (b, z) := by
    by_cases hj : j = i
    · subst hj
      rw [Function.update_self, List.getElem?_set]
      by_cases hkm : k = m
      · subst hkm
        rw [hk] at hm
        cases hm
        exact ⟨x, by rw [if_pos rfl, if_pos (List.getElem?_eq_some_iff.1 hk).1]⟩
      · exact ⟨y, by rw [if_neg hkm, hm]⟩
    · rw [Function.update_of_ne hj]
      exact ⟨y, hm⟩
  obtain ⟨z, hz⟩ := hm₁
  obtain ⟨h₂, e₂, hr₂⟩ := hr₁.write x hz
  obtain ⟨p, n, ha⟩ := ha
  obtain ⟨p', n', hb⟩ := hb
  refine ⟨h₂, ?_, _, hr₂⟩
  simp only [swapElem, ha, hb, Option.bind_eq_bind, Option.bind_some, e₁, e₂]

/-- A pop of an empty list. -/
theorem pop_nil {i : ι} (hr : Rep w nodes S) (hS : S i = []) :
    QList.step w (i, .popBack) = some (-1, w) ∧ QList.step w (i, .popFront) = some (-1, w) := by
  have hs := hr.family.stored i
  rw [← hr.data, List.map_eq_nil_iff] at hS
  rw [hS] at hs
  rw [QList.step, QList.step, popBack_nil hs, popFront_nil hs]
  exact ⟨congrArg (fun w => some (-1, w)) (w.put_self i), congrArg (fun w => some (-1, w))
    (w.put_self i)⟩

/-- One call. -/
theorem step (hr : Rep w nodes S) (op : ι × Op ι α) :
    ∃ w', QList.step w op = some ((listsStep S op).1, w') ∧
      ∃ nodes', Rep w' nodes' (listsStep S op).2 := by
  obtain ⟨i, op⟩ := op
  have hs := hr.family.stored i
  cases op with
  | pushBack x =>
    obtain ⟨desc', h', e, hst, hbrk, hm, hframe⟩ := pushBack_spec x hs hr.mallocs
    refine ⟨_, by rw [QList.step, e]; rfl, _, hr.put (i := i) hst (fun a ha => ?_)
      (fun b hb hlt => hframe b hb (Nat.ne_of_lt hlt)) (hbrk ▸ Nat.le_succ _) hm ?_⟩
    · exact (mem_addresses_concat.1 ha).imp_right fun e => Nat.le_of_eq e.symm
    · rw [List.map_append, hr.data]
      rfl
  | pushFront x =>
    obtain ⟨desc', h', e, hst, hbrk, hm, hframe⟩ := pushFront_spec x hs hr.mallocs
    refine ⟨_, by rw [QList.step, e]; rfl, _, hr.put (i := i) hst (fun a ha => ?_)
      (fun b hb hlt => hframe b hb (Nat.ne_of_lt hlt)) (hbrk ▸ Nat.le_succ _) hm ?_⟩
    · exact (List.mem_cons.1 ha).symm.imp_right fun e => Nat.le_of_eq e.symm
    · rw [List.map_cons, hr.data]
  | popBack =>
    rcases List.eq_nil_or_concat (nodes i) with hl | ⟨l, ⟨a, x⟩, hl⟩
    · have hS : S i = [] := by rw [← hr.data, hl, List.map_nil]
      rw [listsStep, if_pos hS]
      exact ⟨w, (hr.pop_nil hS).1, nodes, hr⟩
    · rw [List.concat_eq_append] at hl
      have hS : S i = l.map Prod.snd ++ [x] := by rw [← hr.data, hl, List.map_append]; rfl
      rw [hl] at hs
      obtain ⟨desc', h', e, hr'⟩ := hr.erase hl
      rw [listsStep, if_neg (by rw [hS]; simp), QList.step, popBack_eq hs, e]
      rw [List.append_nil] at hr'
      have hlast : (S i).dropLast = l.map Prod.snd := by rw [hS, List.dropLast_concat]
      rw [hlast]
      exact ⟨_, rfl, _, hr'⟩
  | popFront =>
    cases hl : nodes i with
    | nil =>
      have hS : S i = [] := by rw [← hr.data, hl, List.map_nil]
      rw [listsStep, if_pos hS]
      exact ⟨w, (hr.pop_nil hS).2, nodes, hr⟩
    | cons c l =>
      obtain ⟨a, x⟩ := c
      have hS : S i = x :: l.map Prod.snd := by rw [← hr.data, hl, List.map_cons]
      rw [hl] at hs
      have hfront : nodes i = [] ++ (a, x) :: l := hl
      obtain ⟨desc', h', e, hr'⟩ := hr.erase hfront
      rw [listsStep, if_neg (by rw [hS]; simp), QList.step, popFront_eq hs, e]
      have htail : (S i).tail = l.map Prod.snd := by rw [hS, List.tail_cons]
      rw [htail]
      exact ⟨_, rfl, _, hr'⟩
  | eraseElem k =>
    have hlen : (S i).length = (nodes i).length := by rw [← hr.data, List.length_map]
    rw [listsStep, QList.step, hr.node, hlen]
    cases hk : (nodes i)[k]? with
    | none =>
      rw [if_neg (Nat.not_lt.2 (List.getElem?_eq_none_iff.1 hk))]
      exact ⟨w, rfl, nodes, hr⟩
    | some c =>
      obtain ⟨a, x⟩ := c
      obtain ⟨desc', h', e, hr'⟩ := hr.erase (split_at hk)
      have hidx : (S i).eraseIdx k =
          ((nodes i).take k ++ (nodes i).drop (k + 1)).map Prod.snd := by
        rw [← hr.data, List.eraseIdx_map, List.eraseIdx_eq_take_drop_succ]
      rw [if_pos (List.getElem?_eq_some_iff.1 hk).1, hidx]
      refine ⟨w.put i desc' h', ?_, _, hr'⟩
      simp only [Option.map_some, Option.bind_eq_bind, Option.bind_some, e]
      rfl
  | swapElem k j m =>
    rw [listsStep, QList.step, hr.node, hr.node, hr.getElem?, hr.getElem?]
    cases hk : (nodes i)[k]? with
    | none => exact ⟨w, rfl, nodes, hr⟩
    | some c =>
      cases hm : (nodes j)[m]? with
      | none => exact ⟨w, rfl, nodes, hr⟩
      | some d =>
        obtain ⟨a, x⟩ := c
        obtain ⟨b, y⟩ := d
        obtain ⟨h', e, hr'⟩ := hr.swap hk hm
        refine ⟨{ w with heap := h' }, ?_, hr'⟩
        simp only [Option.map_some, Option.bind_eq_bind, Option.bind_some, e]
        rfl
  | copy j =>
    obtain ⟨rdesc, h', r, e, hst, hsnd, hnew, hbrk, hm, hframe⟩ :=
      copy_spec (hr.family.stored j) hr.mallocs
    refine ⟨_, by rw [QList.step, e]; rfl, _, hr.put (i := i) hst (fun a ha => .inr (hnew a ha))
      (fun b _ hlt => hframe b hlt) hbrk hm (hsnd.trans (hr.data j))⟩
  | destructor =>
    obtain ⟨h', e, hbrk, hm, hframe⟩ := destructor_spec hs
    refine ⟨_, by rw [QList.step, e]; rfl, _, hr.put (i := i) (.constructor h') nofun
      (fun b hb _ => hframe b hb) (Nat.le_of_eq hbrk.symm) (hm.trans hr.mallocs) rfl⟩

omit [DecidableEq ι] in
/-- What can be seen of the lists. -/
theorem seen (hr : Rep w nodes S) (i : ι) :
    w.forward i = some ((nodes i).map Prod.fst) ∧
      w.backward i = some ((nodes i).map Prod.fst).reverse ∧
      ((w.desc i).head = none ↔ S i = []) ∧ ((w.desc i).tail = none ↔ S i = []) ∧
      blocks (w.desc i) w.heap = S i ∧ (w.desc i).size = UInt32.ofNat (S i).length := by
  have hs := hr.family.stored i
  have hlen : (boxed (nodes i)).length ≤ w.heap.brk := by
    rw [boxed, List.length_map]
    exact hs.length_le
  have hnil : S i = [] ↔ nodes i = [] := by rw [← hr.data, List.map_eq_nil_iff]
  refine ⟨?_, ?_, ?_, ?_, ?_, ?_⟩
  · rw [World.forward, hs.head, ← first_boxed, visits_next hs.chain hlen, map_fst_boxed]
  · rw [World.backward, hs.tail, ← last_boxed, visits_prev hs.chain hlen, map_fst_boxed]
  · rw [hs.head, hnil, first, Option.or_none, Option.map_eq_none_iff, List.head?_eq_none_iff]
  · rw [hs.tail, hnil, last, Option.or_none, Option.map_eq_none_iff, List.getLast?_eq_none_iff]
  · rw [blocks_eq hs, hr.data]
  · rw [hs.size, ← hr.data, List.length_map]

theorem runs (ops : List (ι × Op ι α)) :
    ∃ w nodes, Machine.run QList.step ops (World.init [] : World ι α) =
        some ((Machine.runs listsStep ops fun _ => []).1, w) ∧
      Rep w nodes (Machine.runs listsStep ops fun _ => []).2 := by
  obtain ⟨w, e, nodes, hr⟩ := Machine.refines
    (R := fun w S => ∃ nodes, Rep w nodes S) (fun w S op ⟨nodes, hr⟩ => hr.step op) ops
    (World.init []) (fun _ => []) ⟨_, init⟩
  exact ⟨w, nodes, e, hr⟩

end Rep

/-- The lists of any run are those the calls denote, read from either end. -/
theorem list_representation (ops : List (ι × Op ι α)) :
    ∃ (w : World ι α) (S : ι → List α) (nodes : ι → List Nat),
      Machine.run step ops (World.init []) =
        some ((Machine.runs listsStep ops fun _ => []).1, w) ∧
      S = (Machine.runs listsStep ops fun _ => []).2 ∧
      (∀ i, w.forward i = some (nodes i) ∧ w.backward i = some (nodes i).reverse ∧
        (nodes i).Nodup ∧ ((w.desc i).head = none ↔ S i = []) ∧
        ((w.desc i).tail = none ↔ S i = []) ∧ blocks (w.desc i) w.heap = S i ∧
        (nodes i).length = (S i).length ∧ (w.desc i).size = UInt32.ofNat (S i).length ∧
        (S i = [] → step w (i, .popBack) = some (-1, w) ∧ step w (i, .popFront) = some (-1, w))) ∧
      ∀ i j, i ≠ j → ∀ a ∈ nodes i, a ∉ nodes j := by
  obtain ⟨w, nodes, e, hr⟩ := Rep.runs ops
  refine ⟨w, _, fun i => (nodes i).map Prod.fst, e, rfl, fun i => ?_, hr.family.apart⟩
  obtain ⟨hf, hb, hh, ht, hblocks, hsize⟩ := hr.seen i
  refine ⟨hf, hb, (hr.family.stored i).nodup, hh, ht, hblocks, ?_, hsize, hr.pop_nil⟩
  rw [← hr.data, List.length_map, List.length_map]

/-- `n` pushes of one block. -/
theorem runs_pushBack (i : ι) (x : α) (n : Nat) (S : ι → List α) :
    Machine.runs listsStep (List.replicate n (i, .pushBack x)) S =
      (List.replicate n 0, Function.update S i (S i ++ List.replicate n x)) := by
  induction n generalizing S with
  | zero => simp [Machine.runs]
  | succ n ih =>
    simp [Machine.runs, listsStep, ih, List.replicate_succ]

/-- A list of `n` nodes, when `n` reads 0 as an unsigned int. -/
theorem pushes_size {n : Nat} (hn : n % 2 ^ 32 = 0) :
    ∃ (w : World Unit Unit) (nodes : List Nat),
      Machine.run step (List.replicate n ((), .pushBack ())) (World.init []) =
        some (List.replicate n 0, w) ∧
      w.forward () = some nodes ∧ nodes.length = n ∧ (w.desc ()).size = 0 := by
  obtain ⟨w, nodes, e, hr⟩ := Rep.runs (List.replicate n ((), Op.pushBack ()))
  rw [runs_pushBack] at e hr
  obtain ⟨hf, -, -, -, -, hsize⟩ := hr.seen ()
  have hlen := congrArg List.length (hr.data ())
  simp only [Function.update_self, List.nil_append, List.length_map, List.length_replicate]
    at hsize hlen
  refine ⟨w, _, e, hf, by rw [List.length_map, hlen], ?_⟩
  rw [hsize, ← UInt32.toNat_inj]
  exact hn

/-- A list of `2 ^ 32` nodes has size 0. -/
theorem list_representation_fails :
    ∃ (w : World Unit Unit) (nodes : List Nat),
      Machine.run step (List.replicate (2 ^ 32) ((), .pushBack ())) (World.init []) =
        some (List.replicate (2 ^ 32) 0, w) ∧
      w.forward () = some nodes ∧ nodes.length = 2 ^ 32 ∧ (w.desc ()).size = 0 :=
  pushes_size rfl

end Zhwkrfsp.QList
