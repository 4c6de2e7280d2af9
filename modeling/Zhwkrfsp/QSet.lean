import Zhwkrfsp.AVLFrame
import Zhwkrfsp.AVLThreads

/- The sets of `zhwkre/containers/set.c`. A set is an AVL tree; the operations on two
   sets follow the threads of one, search the other and insert into a third, all in
   one heap. Sets that share a heap without sharing a node are a `Family`: a step on
   one keeps it and leaves the others' cells alone. The results have exactly the
   members they should, and the sizes are the numbers of members as unsigned ints; so
   `isequal`, which compares sizes and then looks for one inclusion, is right for sets
   of fewer than 2^32 members. -/
namespace Zhwkrfsp.QSet
open AVLTree Linked

/-- Sets that share a heap. -/
structure World (ι α : Type) where
  set : ι → Descriptor
  heap : Heap α

section
variable {ι α : Type} (comp : α → α → Int)

/-! The functions of `set.c` that hand over to `AVLTree.c`. -/

def constructor : Descriptor := AVLTree.constructor

def ptrAt (desc : Descriptor) (h : Heap α) (elem : α) : Option (Int32 × Option Nat) :=
  AVLTree.ptrAt comp desc h elem

def insert (desc : Descriptor) (h : Heap α) (elem : α) : Option (Int32 × Descriptor × Heap α) :=
  AVLTree.insert comp desc h elem

def erase (desc : Descriptor) (h : Heap α) (elem : Nat) : Option (Int32 × Descriptor × Heap α) :=
  AVLTree.erase comp desc h elem

def begin (desc : Descriptor) : Option Nat := AVLTree.begin desc

def iteratorNext (h : Heap α) (iter : Option Nat) : Option (Option Nat) :=
  AVLTree.iteratorNext h iter

/-! The loops. -/

/-- `qSet__insert`, its status not looked at, under a condition. -/
def insertIf (keep : Bool) (desc : Descriptor) (h : Heap α) (elem : α) :
    Option (Descriptor × Heap α) :=
  if keep then (insert comp desc h elem).map Prod.snd else some (desc, h)

/-- Insert into `desc` the elements from `iter` on that `keep` keeps. -/
def insertFrom (keep : α → Heap α → Option Bool) :
    Nat → Option Nat → Descriptor → Heap α → Option (Descriptor × Heap α)
  | _, none, desc, h => some (desc, h)
  | 0, some _, _, _ => none
  | turns + 1, some iter, desc, h => do
    let node ← h.cell iter
    let (desc, h) ← insertIf comp (← keep node.data h) desc h node.data
    let iter ← iteratorNext h (some iter)
    insertFrom keep turns iter desc h

/-- 0 at the first element from `iter` on that is not in `setb`, 1 after the last. -/
def subsetFrom (setb : Descriptor) (h : Heap α) : Nat → Option Nat → Option Int32
  | _, none => some 1
  | 0, some _ => none
  | turns + 1, some iter => do
    let node ← h.cell iter
    let (rc, _) ← ptrAt comp setb h node.data
    if rc ≠ 0 then return 0
    let iter ← iteratorNext h (some iter)
    subsetFrom setb h turns iter

def union (seta setb : Descriptor) (h : Heap α) : Option (Descriptor × Heap α) := do
  let (desc, h) ← insertFrom comp (fun _ _ => some true) h.brk (begin seta) constructor h
  insertFrom comp (fun _ _ => some true) h.brk (begin setb) desc h

def intersect (seta setb : Descriptor) (h : Heap α) : Option (Descriptor × Heap α) :=
  insertFrom comp (fun elem h => (ptrAt comp setb h elem).map fun r => r.1 = 0) h.brk (begin seta)
    constructor h

def difference (seta setb : Descriptor) (h : Heap α) : Option (Descriptor × Heap α) :=
  insertFrom comp (fun elem h => (ptrAt comp setb h elem).map fun r => r.1 ≠ 0) h.brk (begin seta)
    constructor h

def issubset (seta setb : Descriptor) (h : Heap α) : Option Int32 :=
  subsetFrom comp setb h h.brk (begin seta)

def isequal (seta setb : Descriptor) (h : Heap α) : Option Int32 :=
  if seta.size ≠ setb.size then some 0 else subsetFrom comp setb h h.brk (begin seta)

/-! Sets under construction, and what they stand for. -/

variable [DecidableEq ι]

def World.init : World ι α := ⟨fun _ => constructor, Heap.empty⟩

/-- An insertion into one of the sets, or an erasure of the iterator that `ptr_at`
    finds in it. -/
def step (w : World ι α) (op : ι × Op α) : Option (Int32 × World ι α) := do
  let (rc, s) ← AVLTree.step comp ⟨w.set op.1, w.heap⟩ op.2
  return (rc, ⟨Function.update w.set op.1 s.desc, s.heap⟩)

def setsStep [DecidableEq α] (S : ι → Finset α) (op : ι × Op α) : Int32 × (ι → Finset α) :=
  ((setStep (S op.1) op.2).1, Function.update S op.1 (setStep (S op.1) op.2).2)

end

section
variable {ι α : Type} (comp : α → α → Int)

/-- The sets of `w` stand for `S`, and no two of them share a node. -/
structure Family (w : World ι α) (nodes : ι → List (Nat × α)) (S : ι → Finset α) : Prop where
  rep : ∀ i, Rep comp ⟨w.set i, w.heap⟩ (nodes i) (S i)
  apart : ∀ i j, i ≠ j → ∀ a ∈ (nodes i).map Prod.fst, a ∉ (nodes j).map Prod.fst

/-- What a set operation leaves: a set with the members `T`, and the cells of all
    other sets as they were. -/
structure Result (w : World ι α) (T : Finset α) (r : Descriptor × Heap α) : Prop where
  members : ∀ x, x ∈ State.elems ⟨r.1, r.2⟩ ↔ x ∈ T
  nodup : (State.elems ⟨r.1, r.2⟩ : List α).Nodup
  size : r.1.size = UInt32.ofNat T.card
  searchTree : SearchTree comp r.2 r.1.root
  unchanged : ∀ k, ∀ a ∈ (w.set k).root.inorder, r.2.cell a = w.heap.cell a

end

section
variable {ι α : Type} {comp : α → α → Int} {w : World ι α} {nodes : ι → List (Nat × α)}
  {S : ι → Finset α}

theorem Family.init : Family comp (World.init : World ι α) (fun _ => []) (fun _ => ∅) where
  rep _ := Rep.init
  apart _ _ _ := nofun

theorem Family.begin (hf : Family comp w nodes S) (i : ι) :
    QSet.begin (w.set i) = first (nodes i) none := by
  rw [QSet.begin, AVLTree.begin, minNode_eq, (hf.rep i).inorder, first, Option.or_none,
    List.head?_map]

theorem Family.turns (hf : Family comp w nodes S) (i : ι) : (nodes i).length ≤ w.heap.brk :=
  length_le_of_lt (hf.rep i).stored.nodup (hf.rep i).stored.fresh

/-! A set under construction beside the sets of `w`. -/

/-- The heap is now `h`, and the new set, at `none`, is `desc`. -/
def beside (w : World ι α) (desc : Descriptor) (h : Heap α) : World (Option ι) α :=
  ⟨fun o => o.elim desc w.set, h⟩

variable (comp w nodes S) in
structure Beside (desc : Descriptor) (h : Heap α) (T : Finset α) : Prop where
  family : ∃ l, Family comp (beside w desc h) (fun o => o.elim l nodes) fun o => o.elim T S
  unchanged : ∀ k, ∀ a ∈ (nodes k).map Prod.fst, h.cell a = w.heap.cell a

variable {desc : Descriptor} {h : Heap α} {T : Finset α}

theorem Beside.start (hf : Family comp w nodes S) (i : ι) :
    Beside comp w nodes S constructor w.heap ∅ := by
  refine ⟨⟨[], fun o => ?_, fun j k hjk a ha => ?_⟩, fun k a _ => rfl⟩
  · cases o with
    | none =>
      exact ⟨trivial, rfl, ⟨trivial, .nil, .nil, nofun, (hf.rep i).stored.mallocs⟩, rfl, rfl,
        by simp⟩
    | some k => exact hf.rep k
  · cases j with
    | none => cases ha
    | some j =>
      cases k with
      | none => nofun
      | some k => exact hf.apart j k (fun e => hjk (congrArg some e)) a ha

/-- A cell of one of the sets. -/
theorem Beside.cell (hb : Beside comp w nodes S desc h T) {i : ι} {pre rest : List (Nat × α)}
    {a : Nat} {x : α} (hi : nodes i = pre ++ (a, x) :: rest) :
    h.cell a = some ⟨x, last none pre, first rest none⟩ := by
  obtain ⟨l, hf⟩ := hb.family
  have hc : Chain h.cell none (nodes i) none := (hf.rep (some i)).stored.chain
  rw [hi] at hc
  exact hc.mid

theorem Beside.result (ho : TotalOrder comp) (hf : Family comp w nodes S)
    (hb : Beside comp w nodes S desc h T) : Result comp w T (desc, h) := by
  obtain ⟨l, hd⟩ := hb.family
  have hr : Rep comp ⟨desc, h⟩ l T := hd.rep none
  refine ⟨fun x => ?_, ?_, hr.size, hr.whole.searchTree hr.inorder, fun k a ha => ?_⟩
  · rw [hr.elems, hr.mem]
  · rw [hr.elems]
    exact hr.stored.sorted.imp fun hlt => ho.ne_of_lt hlt
  · rw [(hf.rep k).inorder] at ha
    exact hb.unchanged k a ha

/-- For sets of fewer than `2 ^ 32` members, what `isequal` looks at is equality. -/
theorem eq_iff_of_lt {A B : Finset α} (hA : A.card < 2 ^ 32) (hB : B.card < 2 ^ 32) :
    A.card % 2 ^ 32 = B.card % 2 ^ 32 ∧ A ⊆ B ↔ A = B := by
  rw [Nat.mod_eq_of_lt hA, Nat.mod_eq_of_lt hB]
  constructor
  · intro ⟨hc, hs⟩
    exact Finset.eq_of_subset_of_card_le hs (Nat.le_of_eq hc.symm)
  · rintro rfl
    exact ⟨rfl, Finset.Subset.refl _⟩

variable [DecidableEq α]

theorem Family.elems (hf : Family comp w nodes S) (i : ι) :
    ((nodes i).map Prod.snd).toFinset = S i := by
  ext x
  rw [List.mem_toFinset, (hf.rep i).mem]

theorem Beside.ptrAt (ho : TotalOrder comp) (hb : Beside comp w nodes S desc h T) (j : ι) (x : α) :
    ∃ iter, QSet.ptrAt comp (w.set j) h x = some (if x ∈ S j then 0 else -1, iter) := by
  obtain ⟨l, hf⟩ := hb.family
  have hr : Rep comp ⟨w.set j, h⟩ (nodes j) (S j) := hf.rep (some j)
  by_cases hx : x ∈ S j
  · obtain ⟨a, ha⟩ := hr.node hx
    exact ⟨some a, by rw [if_pos hx]; exact hr.ptrAt_mem ho ha⟩
  · exact ⟨none, by rw [if_neg hx]; exact hr.ptrAt_not_mem ho hx⟩

/-! The two predicates. -/

/-- The inclusion loop, from any node of the thread on. -/
theorem Family.subsetFrom (ho : TotalOrder comp) (hf : Family comp w nodes S) {i : ι} (j : ι)
    {rest : List (Nat × α)} : ∀ {pre : List (Nat × α)} {turns : Nat}, nodes i = pre ++ rest →
      rest.length ≤ turns → QSet.subsetFrom comp (w.set j) w.heap turns (first rest none) =
        some (if ∀ x ∈ rest.map Prod.snd, x ∈ S j then 1 else 0) := by
  have hb := Beside.start hf i
  induction rest with
  | nil =>
    intro pre turns _ _
    cases turns <;> simp [QSet.subsetFrom]
  | cons b rest ih =>
    obtain ⟨a, x⟩ := b
    intro pre turns hi hturns
    obtain ⟨turns, rfl⟩ := Nat.exists_eq_add_of_le' (Nat.lt_of_lt_of_le (Nat.succ_pos _) hturns)
    obtain ⟨iter, e⟩ := hb.ptrAt ho j x
    have hcell : w.heap.cell a = some ⟨x, last none pre, first rest none⟩ := hb.cell hi
    have hnext : iteratorNext w.heap (some a) = some (first rest none) := by
      simp [iteratorNext, AVLTree.iteratorNext, hcell]
    by_cases hx : x ∈ S j
    · rw [if_pos hx] at e
      simp only [first_cons, QSet.subsetFrom, hcell, e, hnext, Option.bind_eq_bind,
        Option.bind_some, ne_eq, not_true_eq_false, if_false, List.map_cons, List.mem_cons,
        forall_eq_or_imp, hx, true_and]
      exact @ih (pre ++ [(a, x)]) turns (by simpa using hi) (Nat.le_of_succ_le_succ hturns)
    · rw [if_neg hx] at e
      simp [QSet.subsetFrom, hcell, e, hx]

theorem Family.included (ho : TotalOrder comp) (hf : Family comp w nodes S) (i j : ι) :
    QSet.subsetFrom comp (w.set j) w.heap w.heap.brk (QSet.begin (w.set i)) =
      some (if S i ⊆ S j then 1 else 0) := by
  have h : (∀ x ∈ (nodes i).map Prod.snd, x ∈ S j) ↔ S i ⊆ S j := by
    rw [← hf.elems i]
    simp [Finset.subset_iff]
  rw [hf.begin, @Family.subsetFrom _ _ _ _ _ _ _ ho hf i j (nodes i) [] w.heap.brk rfl
    (hf.turns i), if_congr h rfl rfl]

/-- The sizes are compared as unsigned ints. -/
theorem Family.isequal (ho : TotalOrder comp) (hf : Family comp w nodes S) (i j : ι) :
    QSet.isequal comp (w.set i) (w.set j) w.heap =
      some (if (S i).card % 2 ^ 32 = (S j).card % 2 ^ 32 ∧ S i ⊆ S j then 1 else 0) := by
  have hsize : (w.set i).size = (w.set j).size ↔ (S i).card % 2 ^ 32 = (S j).card % 2 ^ 32 := by
    rw [(hf.rep i).size, (hf.rep j).size, ← UInt32.toNat_inj]
    simp
  rw [QSet.isequal, hf.included ho]
  by_cases hc : (w.set i).size = (w.set j).size
  · rw [if_neg (not_not.2 hc), if_congr (and_iff_right (hsize.1 hc)) rfl rfl]
  · rw [if_pos hc, if_neg fun h => hc (hsize.2 h.1)]

theorem elim_update {β : Type} [DecidableEq (Option ι)] (f : ι → β) (b b' : β) :
    Function.update (fun o : Option ι => o.elim b f) none b' = fun o => o.elim b' f := by
  funext o
  cases o with
  | none => exact Function.update_self ..
  | some k => exact Function.update_of_ne (by simp) _ _

end

section
variable {ι α : Type} [DecidableEq ι] [DecidableEq α] {comp : α → α → Int}
  {w : World ι α} {nodes : ι → List (Nat × α)} {S : ι → Finset α} {desc : Descriptor} {h : Heap α}
  {T : Finset α}

/-- One step on one set. -/
theorem Family.step (ho : TotalOrder comp) (hf : Family comp w nodes S) (i : ι) (op : Op α) :
    ∃ s l, AVLTree.step comp ⟨w.set i, w.heap⟩ op = some ((setStep (S i) op).1, s) ∧
      Family comp ⟨Function.update w.set i s.desc, s.heap⟩ (Function.update nodes i l)
        (Function.update S i (setStep (S i) op).2) ∧
      ∀ k, k ≠ i → ∀ a ∈ (nodes k).map Prod.fst, s.heap.cell a = w.heap.cell a := by
  obtain ⟨s, l, e, hr, haddr, hcell, hbrk⟩ := (hf.rep i).local_sim ho op
  -- a node of another set is none of this one, and not a new one
  have hfar : ∀ k, k ≠ i → ∀ a ∈ (nodes k).map Prod.fst,
      a ∉ (nodes i).map Prod.fst ∧ a ≠ w.heap.brk := fun k hk a ha =>
    ⟨hf.apart k i hk a ha, Nat.ne_of_lt ((hf.rep k).stored.fresh a ha)⟩
  have hsame : ∀ k, k ≠ i → ∀ a ∈ (nodes k).map Prod.fst, s.heap.cell a = w.heap.cell a :=
    fun k hk a ha => hcell a (hfar k hk a ha).1 (hfar k hk a ha).2
  have hnew : ∀ k, k ≠ i → ∀ a ∈ (nodes k).map Prod.fst, a ∉ l.map Prod.fst := by
    intro k hk a ha hmem
    obtain ⟨hn, hne⟩ := hfar k hk a ha
    exact (haddr a hmem).elim hne hn
  refine ⟨s, l, e, ⟨fun k => ?_, apart_update hf.apart hnew⟩, hsame⟩
  by_cases hk : k = i
  · subst hk
    simp only [Function.update_self]
    exact hr
  · simp only [Function.update_of_ne hk]
    exact (hf.rep k).frame (hsame k hk) hbrk hr.stored.mallocs

/-- After a run of the operations on single sets. -/
theorem Family.runs (ho : TotalOrder comp) (ops : List (ι × Op α)) :
    ∃ w nodes, Machine.run (QSet.step comp) ops World.init =
        some ((Machine.runs setsStep ops fun _ => ∅).1, w) ∧
      Family comp w nodes (Machine.runs setsStep ops fun _ => ∅).2 := by
  have sim : ∀ (w : World ι α) (S : ι → Finset α) (op : ι × Op α),
      (∃ nodes, Family comp w nodes S) →
      ∃ w', QSet.step comp w op = some ((setsStep S op).1, w') ∧
        ∃ nodes, Family comp w' nodes (setsStep S op).2 := by
    intro w S op ⟨nodes, hf⟩
    obtain ⟨s, l, e, hf', -⟩ := hf.step ho op.1 op.2
    exact ⟨_, by simp [QSet.step, e, setsStep], _, hf'⟩
  obtain ⟨w, e, nodes, hf⟩ := Machine.refines sim ops World.init _ ⟨_, Family.init⟩
  exact ⟨w, nodes, e, hf⟩

/-- An insertion adds the element, whether it was there before or not. -/
theorem Beside.insert (ho : TotalOrder comp) (hb : Beside comp w nodes S desc h T) (x : α) :
    ∃ r, (QSet.insert comp desc h x).map Prod.snd = some r ∧
      Beside comp w nodes S r.1 r.2 (Insert.insert x T) := by
  obtain ⟨l, hf⟩ := hb.family
  obtain ⟨s, l', e, hf', hsame⟩ := hf.step ho none (.insert x)
  obtain ⟨⟨rc, r⟩, er, e⟩ := Option.bind_eq_some_iff.1 e
  cases e
  have hT : (setStep T (.insert x)).2 = Insert.insert x T := by
    by_cases hx : x ∈ T
    · rw [setStep, if_pos hx, Finset.insert_eq_of_mem hx]
    · rw [setStep, if_neg hx]
  refine ⟨r, by rw [QSet.insert, show AVLTree.insert comp desc h x = _ from er]; rfl, ⟨l', ?_⟩, ?_⟩
  · simp only [beside, elim_update, Option.elim_none, hT] at hf'
    exact hf'
  · intro k a ha
    rw [← hb.unchanged k a ha]
    exact hsame (some k) (by simp) a ha

theorem Beside.insertIf (ho : TotalOrder comp) (hb : Beside comp w nodes S desc h T) (keep : Bool)
    (x : α) : ∃ r, QSet.insertIf comp keep desc h x = some r ∧
      Beside comp w nodes S r.1 r.2 (if keep then Insert.insert x T else T) := by
  cases keep with
  | false => exact ⟨(desc, h), rfl, hb⟩
  | true => exact hb.insert ho x

/-- The loop, from any node of the thread on. -/
theorem Beside.insertFrom (ho : TotalOrder comp) {keep : α → Heap α → Option Bool} {p : α → Bool}
    (hkeep : ∀ desc h T, Beside comp w nodes S desc h T → ∀ x, keep x h = some (p x)) {i : ι}
    {rest : List (Nat × α)} : ∀ {pre : List (Nat × α)} {turns : Nat} {desc : Descriptor}
      {h : Heap α} {T : Finset α}, nodes i = pre ++ rest → rest.length ≤ turns →
      Beside comp w nodes S desc h T →
      ∃ r, QSet.insertFrom comp keep turns (first rest none) desc h = some r ∧
        Beside comp w nodes S r.1 r.2 (T ∪ (rest.map Prod.snd).toFinset.filter (p ·)) := by
  induction rest with
  | nil =>
    intro pre turns desc h T _ _ hb
    refine ⟨(desc, h), ?_, by simpa using hb⟩
    cases turns <;> rfl
  | cons b rest ih =>
    obtain ⟨a, x⟩ := b
    intro pre turns desc h T hi hturns hb
    obtain ⟨turns, rfl⟩ := Nat.exists_eq_add_of_le' (Nat.lt_of_lt_of_le (Nat.succ_pos _) hturns)
    obtain ⟨⟨desc', h'⟩, e, hb'⟩ := hb.insertIf ho (p x) x
    -- the link to the next node is read after the insertion
    have hcell : h'.cell a = some ⟨x, last none pre, first rest none⟩ := hb'.cell hi
    have hnext : iteratorNext h' (some a) = some (first rest none) := by
      simp [iteratorNext, AVLTree.iteratorNext, hcell]
    obtain ⟨r, er, hr⟩ := @ih (pre ++ [(a, x)]) turns desc' h' _ (by simpa using hi)
      (Nat.le_of_succ_le_succ hturns) hb'
    refine ⟨r, ?_, ?_⟩
    · simp only [first_cons, QSet.insertFrom, hb.cell hi, hkeep _ _ _ hb x, e, hnext, er,
        Option.bind_eq_bind, Option.bind_some]
    · have hT : (if p x then Insert.insert x T else T) ∪
          (rest.map Prod.snd).toFinset.filter (p ·) =
          T ∪ (((a, x) :: rest).map Prod.snd).toFinset.filter (p ·) := by
        ext y
        by_cases hy : y = x
        · subst hy
          cases hp : p y <;> simp [hp]
        · cases p x <;> simp [hy]
      rwa [hT] at hr

/-! The operations on two sets. -/

/-- One loop over the set at `i`. -/
theorem Beside.insertAll (ho : TotalOrder comp) (hf : Family comp w nodes S)
    {keep : α → Heap α → Option Bool} {p : α → Bool}
    (hkeep : ∀ desc h T, Beside comp w nodes S desc h T → ∀ x, keep x h = some (p x)) (i : ι)
    {turns : Nat} (hturns : (nodes i).length ≤ turns) (hb : Beside comp w nodes S desc h T) :
    ∃ r, QSet.insertFrom comp keep turns (QSet.begin (w.set i)) desc h = some r ∧
      Beside comp w nodes S r.1 r.2 (T ∪ (S i).filter (p ·)) := by
  rw [hf.begin, ← hf.elems i]
  exact @Beside.insertFrom _ _ _ _ _ _ _ _ ho keep p hkeep i (nodes i) [] turns desc h T rfl
    hturns hb

theorem Family.union (ho : TotalOrder comp) (hf : Family comp w nodes S) (i j : ι) :
    ∃ r, QSet.union comp (w.set i) (w.set j) w.heap = some r ∧ Result comp w (S i ∪ S j) r := by
  have hall : ∀ desc h T, Beside comp w nodes S desc h T →
      ∀ x : α, (fun _ _ => some true : α → Heap α → Option Bool) x h = some true :=
    fun _ _ _ _ _ => rfl
  obtain ⟨⟨d, h⟩, e, hb⟩ := (Beside.start hf i).insertAll ho hf hall i (hf.turns i)
  -- the first loop only makes the heap larger
  have hturns : (nodes j).length ≤ h.brk := by
    obtain ⟨l, hd⟩ := hb.family
    exact length_le_of_lt (hd.rep (some j)).stored.nodup (hd.rep (some j)).stored.fresh
  obtain ⟨r, e', hr⟩ := hb.insertAll ho hf hall j hturns
  refine ⟨r, ?_, ?_⟩
  · simp only [QSet.union, e, e', Option.bind_eq_bind, Option.bind_some]
  · simpa using hr.result ho hf

theorem Family.intersect (ho : TotalOrder comp) (hf : Family comp w nodes S) (i j : ι) :
    ∃ r, QSet.intersect comp (w.set i) (w.set j) w.heap = some r ∧
      Result comp w (S i ∩ S j) r := by
  have hkeep : ∀ desc h T, Beside comp w nodes S desc h T → ∀ x,
      (fun elem h => (QSet.ptrAt comp (w.set j) h elem).map fun r => decide (r.1 = 0)) x h =
        some (decide (x ∈ S j)) := by
    intro desc h T hb x
    obtain ⟨iter, e⟩ := hb.ptrAt ho j x
    by_cases hx : x ∈ S j <;> simp [e, hx]
  obtain ⟨r, e, hr⟩ := (Beside.start hf i).insertAll ho hf hkeep i (hf.turns i)
  have hT : ∅ ∪ (S i).filter (fun x => decide (x ∈ S j) = true) = S i ∩ S j := by
    ext x
    simp
  rw [hT] at hr
  exact ⟨r, e, hr.result ho hf⟩

theorem Family.difference (ho : TotalOrder comp) (hf : Family comp w nodes S) (i j : ι) :
    ∃ r, QSet.difference comp (w.set i) (w.set j) w.heap = some r ∧
      Result comp w (S i \ S j) r := by
  have hkeep : ∀ desc h T, Beside comp w nodes S desc h T → ∀ x,
      (fun elem h => (QSet.ptrAt comp (w.set j) h elem).map fun r => decide (r.1 ≠ 0)) x h =
        some (decide (x ∉ S j)) := by
    intro desc h T hb x
    obtain ⟨iter, e⟩ := hb.ptrAt ho j x
    by_cases hx : x ∈ S j <;> simp [e, hx]
  obtain ⟨r, e, hr⟩ := (Beside.start hf i).insertAll ho hf hkeep i (hf.turns i)
  have hT : ∅ ∪ (S i).filter (fun x => decide (x ∉ S j) = true) = S i \ S j := by
    ext x
    simp
  rw [hT] at hr
  exact ⟨r, e, hr.result ho hf⟩

/-- The set algebra, on the sets that any run of insertions and erasures leaves. -/
theorem set_algebra (ho : TotalOrder comp) (ops : List (ι × Op α)) :
    ∃ w S, Machine.run (step comp) ops World.init =
        some ((Machine.runs setsStep ops fun _ => ∅).1, w) ∧
      S = (Machine.runs setsStep ops fun _ => ∅).2 ∧
      ∀ i j,
        (∃ r, union comp (w.set i) (w.set j) w.heap = some r ∧ Result comp w (S i ∪ S j) r) ∧
        (∃ r, intersect comp (w.set i) (w.set j) w.heap = some r ∧
          Result comp w (S i ∩ S j) r) ∧
        (∃ r, difference comp (w.set i) (w.set j) w.heap = some r ∧
          Result comp w (S i \ S j) r) ∧
        issubset comp (w.set i) (w.set j) w.heap = some (if S i ⊆ S j then 1 else 0) ∧
        isequal comp (w.set i) (w.set j) w.heap =
          some (if (S i).card % 2 ^ 32 = (S j).card % 2 ^ 32 ∧ S i ⊆ S j then 1 else 0) ∧
        ((S i).card < 2 ^ 32 → (S j).card < 2 ^ 32 →
          isequal comp (w.set i) (w.set j) w.heap = some (if S i = S j then 1 else 0)) := by
  obtain ⟨w, nodes, e, hf⟩ := Family.runs ho ops
  refine ⟨w, _, e, rfl, fun i j => ⟨hf.union ho i j, hf.intersect ho i j, hf.difference ho i j,
    hf.included ho i j, hf.isequal ho i j, fun hi hj => ?_⟩⟩
  rw [hf.isequal ho i j, if_congr (eq_iff_of_lt hi hj) rfl rfl]

end

/-- The sets {1, 3} and {1, 2}. -/
theorem set_algebra_byValue :
    ∃ w : World Bool UInt64,
      Machine.run (step byValue) [(true, .insert 1), (false, .insert 2), (true, .insert 3),
        (true, .insert 2), (false, .insert 1), (true, .erase 2)] World.init =
        some ([0, 0, 0, 0, 0, 0], w) ∧
      (∃ r, union byValue (w.set true) (w.set false) w.heap = some r ∧
        Result byValue w {1, 2, 3} r) ∧
      (∃ r, intersect byValue (w.set true) (w.set false) w.heap = some r ∧
        Result byValue w {1} r) ∧
      (∃ r, difference byValue (w.set true) (w.set false) w.heap = some r ∧
        Result byValue w {3} r) ∧
      issubset byValue (w.set true) (w.set false) w.heap = some 0 ∧
      isequal byValue (w.set true) (w.set false) w.heap = some 0 := by
  obtain ⟨w, S, e, rfl, h⟩ := set_algebra byValue_total
    [(true, .insert 1), (false, .insert 2), (true, .insert 3), (true, .insert 2),
      (false, .insert 1), (true, .erase 2)]
  obtain ⟨hu, hi, hd, hs, -, he⟩ := h true false
  have hS : Machine.runs setsStep [(true, .insert 1), (false, .insert 2), (true, .insert 3),
      (true, .insert 2), (false, .insert 1), (true, .erase 2)] (fun _ : Bool => ∅) =
      ([0, 0, 0, 0, 0, 0], fun b => if b then ({1, 3} : Finset UInt64) else {1, 2}) := by decide
  rw [hS] at e hu hi hd hs he
  refine ⟨w, e, ?_, ?_, ?_, ?_, ?_⟩
  · have hT : ({1, 3} : Finset UInt64) ∪ {1, 2} = {1, 2, 3} := by decide
    rwa [← hT]
  · have hT : ({1, 3} : Finset UInt64) ∩ {1, 2} = {1} := by decide
    rwa [← hT]
  · have hT : ({1, 3} : Finset UInt64) \ {1, 2} = {3} := by decide
    rwa [← hT]
  · exact hs
  · exact he (by decide) (by decide)

/-- A run on one of the sets. -/
theorem runs_single {ι α : Type} [DecidableEq ι] [DecidableEq α] (i : ι) (ops : List (Op α))
    (S : ι → Finset α) : Machine.runs setsStep (ops.map fun op => (i, op)) S =
      ((Machine.runs setStep ops (S i)).1,
        Function.update S i (Machine.runs setStep ops (S i)).2) := by
  induction ops generalizing S with
  | nil => simp [Machine.runs]
  | cons op ops ih => simp [Machine.runs, setsStep, ih]

/-- The empty set and a set of `n` elements, when `n` reads 0 as an unsigned int. -/
theorem ascending_isequal {n : Nat} (h0 : 0 < n) (hn : n ≤ 2 ^ 64) (hw : n % 2 ^ 32 = 0) :
    ∃ w : World Bool UInt64,
      Machine.run (step byValue) (((ascending n).map Op.insert).map fun op => (false, op))
        World.init = some ((ascending n).map fun _ => 0, w) ∧
      isequal byValue (w.set true) (w.set false) w.heap = some 1 ∧
      0 ∉ State.elems ⟨w.set true, w.heap⟩ ∧ 0 ∈ State.elems ⟨w.set false, w.heap⟩ := by
  obtain ⟨eo, ec, em⟩ := runs_insert (ascending n) ∅ (ascending_nodup hn) (by simp)
  obtain ⟨w, nodes, e, hf⟩ := Family.runs byValue_total
    (((ascending n).map Op.insert).map fun op => (false, op))
  rw [runs_single] at e hf
  dsimp only at e hf ec em
  have hcard : (ascending n).length = n := by simp [ascending]
  have hzero : (0 : UInt64) ∈ ascending n := List.mem_map.2 ⟨0, List.mem_range.2 h0, rfl⟩
  have htrue : true ≠ false := by simp
  refine ⟨w, by rw [e, eo], ?_, ?_, ?_⟩
  · rw [hf.isequal byValue_total, Function.update_self, Function.update_of_ne htrue, ec, hcard]
    rw [Finset.card_empty, Nat.zero_add, hw, Nat.zero_mod, if_pos ⟨rfl, Finset.empty_subset _⟩]
  · rw [(hf.rep true).elems, ← (hf.rep true).mem, Function.update_of_ne htrue]
    simp
  · rw [(hf.rep false).elems, ← (hf.rep false).mem, Function.update_self]
    exact (em 0).2 (.inr hzero)

/-- The empty set and a set of `2 ^ 32` elements are equal for `isequal`. -/
theorem set_algebra_fails :
    ∃ w : World Bool UInt64,
      Machine.run (step byValue)
        (((ascending (2 ^ 32)).map Op.insert).map fun op => (false, op)) World.init =
        some ((ascending (2 ^ 32)).map fun _ => 0, w) ∧
      isequal byValue (w.set true) (w.set false) w.heap = some 1 ∧
      0 ∉ State.elems ⟨w.set true, w.heap⟩ ∧ 0 ∈ State.elems ⟨w.set false, w.heap⟩ :=
  ascending_isequal (by omega) (by omega) rfl

end Zhwkrfsp.QSet
