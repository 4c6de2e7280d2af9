import Zhwkrfsp.AVLRuns

/- Trees that share a heap. Insertion and deletion touch only the cells of their own
   tree, its new node included: every function changes cells within a set that the
   links do not leave (`Linked.Within`), and the nodes of a tree are such a set. So a
   step on one tree leaves every other tree as it is (`Rep.frame`, `Rep.local_sim`). -/
namespace Zhwkrfsp.AVLTree
open AVLTree.Tree Linked

section
variable {α : Type} {K : Nat → Prop} {h h' : Heap α}

/-! The threads. -/

theorem listInsertLeft_eq_bind (parent child : Nat) (h : Heap α) :
    listInsertLeft parent child h = (h.cell parent).bind fun p =>
      (h.modifyAt p.prev fun c => { c with next := some child }).bind fun h =>
        (h.modify child fun c => { c with prev := p.prev, next := some parent }).bind fun h =>
          h.modify parent fun c => { c with prev := some child } := by
  refine congrArg _ (funext fun p => ?_)
  cases p.prev <;> rfl

theorem listInsertRight_eq_bind (parent child : Nat) (h : Heap α) :
    listInsertRight parent child h = (h.cell parent).bind fun p =>
      (h.modifyAt p.next fun c => { c with prev := some child }).bind fun h =>
        (h.modify child fun c => { c with next := p.next, prev := some parent }).bind fun h =>
          h.modify parent fun c => { c with next := some child } := by
  refine congrArg _ (funext fun p => ?_)
  cases p.next <;> rfl

theorem listRemove_eq_bind (elem : Nat) (h : Heap α) :
    listRemove elem h = (h.cell elem).bind fun e =>
      (h.modifyAt e.prev fun c => { c with next := e.next }).bind fun h =>
        h.modifyAt e.next fun c => { c with prev := e.prev } := by
  refine congrArg _ (funext fun e => ?_)
  cases e.prev <;> rfl

theorem listInsertLeft_within {parent child : Nat} (hc : Closed K h.cell) (hp : K parent)
    (hn : K child) (e : listInsertLeft parent child h = some h') : Within K h h' := by
  rw [listInsertLeft_eq_bind] at e
  obtain ⟨p, ep, e⟩ := Option.bind_eq_some_iff.1 e
  obtain ⟨h₁, e₁, e⟩ := Option.bind_eq_some_iff.1 e
  obtain ⟨h₂, e₂, e₃⟩ := Option.bind_eq_some_iff.1 e
  obtain ⟨hprev, hnext⟩ := hc parent p hp ep
  have w₁ : Within K h h₁ := by
    refine .modifyAt hc hprev e₁ fun a c ha hcell => ?_
    refine ⟨(hc a c ha hcell).1, fun q hq => ?_⟩
    cases hq
    exact hn
  have w₂ : Within K h₁ h₂ := by
    refine .modify w₁.closed hn e₂ fun c _ => ⟨hprev, fun q hq => ?_⟩
    cases hq
    exact hp
  have w₃ : Within K h₂ h' := by
    refine .modify w₂.closed hp e₃ fun c hcell => ⟨fun q hq => ?_, ?_⟩
    · cases hq
      exact hn
    · exact (w₂.closed parent c hp hcell).2
  exact (w₁.trans w₂).trans w₃

theorem listInsertRight_within {parent child : Nat} (hc : Closed K h.cell) (hp : K parent)
    (hn : K child) (e : listInsertRight parent child h = some h') : Within K h h' := by
  rw [listInsertRight_eq_bind] at e
  obtain ⟨p, ep, e⟩ := Option.bind_eq_some_iff.1 e
  obtain ⟨h₁, e₁, e⟩ := Option.bind_eq_some_iff.1 e
  obtain ⟨h₂, e₂, e₃⟩ := Option.bind_eq_some_iff.1 e
  obtain ⟨hprev, hnext⟩ := hc parent p hp ep
  have w₁ : Within K h h₁ := by
    refine .modifyAt hc hnext e₁ fun a c ha hcell => ?_
    refine ⟨fun q hq => ?_, (hc a c ha hcell).2⟩
    cases hq
    exact hn
  have w₂ : Within K h₁ h₂ := by
    refine .modify w₁.closed hn e₂ fun c _ => ⟨fun q hq => ?_, hnext⟩
    cases hq
    exact hp
  have w₃ : Within K h₂ h' := by
    refine .modify w₂.closed hp e₃ fun c hcell => ⟨?_, fun q hq => ?_⟩
    · exact (w₂.closed parent c hp hcell).1
    · cases hq
      exact hn
  exact (w₁.trans w₂).trans w₃

theorem listRemove_within {elem : Nat} (hc : Closed K h.cell) (he : K elem)
    (e : listRemove elem h = some h') : Within K h h' := by
  rw [listRemove_eq_bind] at e
  obtain ⟨c, ec, e⟩ := Option.bind_eq_some_iff.1 e
  obtain ⟨h₁, e₁, e₂⟩ := Option.bind_eq_some_iff.1 e
  obtain ⟨hprev, hnext⟩ := hc elem c he ec
  have w₁ : Within K h h₁ := by
    exact .modifyAt hc hprev e₁ fun a d ha hcell => ⟨(hc a d ha hcell).1, hnext⟩
  have w₂ : Within K h₁ h' := by
    exact .modifyAt w₁.closed hnext e₂ fun a d ha hcell =>
      ⟨hprev, (w₁.closed a d ha hcell).2⟩
  exact w₁.trans w₂

/-! Deletion. -/

theorem deleteHere_within {root elem : Nat} (hc : Closed K h.cell) (hr : K root) (he : K elem)
    (e : deleteHere root elem h = some h') : Within K h h' := by
  obtain ⟨h₁, e₁, e⟩ := Option.bind_eq_some_iff.1 e
  obtain ⟨h₂, e₂, e₃⟩ := Option.bind_eq_some_iff.1 e
  have w₁ : Within K h h₁ := by
    obtain ⟨ca, ea, e₁⟩ := Option.bind_eq_some_iff.1 e₁
    obtain ⟨cb, eb, e₁⟩ := Option.bind_eq_some_iff.1 e₁
    obtain ⟨h₀, e₀, e₁⟩ := Option.bind_eq_some_iff.1 e₁
    have w₀ : Within K h h₀ := .modify hc hr e₀ fun c hcell => hc root c hr hcell
    exact w₀.trans (.modify w₀.closed he e₁ fun c hcell => w₀.closed elem c he hcell)
  have w₂ := listRemove_within w₁.closed hr e₂
  exact (w₁.trans w₂).trans (.free w₂.closed hr e₃)

theorem deleteLeftmax_within {elem : Nat} (he : K elem) {t t' : Tree} :
    ∀ {h h' : Heap α}, (∀ a ∈ t.inorder, K a) → Closed K h.cell →
      deleteLeftmax elem t h = some (t', h') → Within K h h' := by
  induction t generalizing t' with
  | nil =>
    intro h h' _ _ e
    cases e
  | node l a ht r _ ih =>
    intro h h' ht hc e
    rw [deleteLeftmax] at e
    by_cases hr : r.isNull = true
    · rw [if_neg (by simp [hr])] at e
      obtain ⟨h₁, e₁, e⟩ := Option.bind_eq_some_iff.1 e
      cases e
      exact deleteHere_within hc (ht a (by simp)) he e₁
    · rw [if_pos (by simpa using hr)] at e
      obtain ⟨⟨newroot, h₁⟩, e₁, e⟩ := Option.bind_eq_some_iff.1 e
      obtain ⟨root, -, e⟩ := Option.bind_eq_some_iff.1 e
      cases e
      exact ih (fun b hb => ht b (by simp [hb])) hc e₁

theorem deleteRightmin_within {elem : Nat} (he : K elem) {t t' : Tree} :
    ∀ {h h' : Heap α}, (∀ a ∈ t.inorder, K a) → Closed K h.cell →
      deleteRightmin elem t h = some (t', h') → Within K h h' := by
  induction t generalizing t' with
  | nil =>
    intro h h' _ _ e
    cases e
  | node l a ht r ih _ =>
    intro h h' ht hc e
    rw [deleteRightmin] at e
    by_cases hl : l.isNull = true
    · rw [if_neg (by simp [hl])] at e
      obtain ⟨h₁, e₁, e⟩ := Option.bind_eq_some_iff.1 e
      cases e
      exact deleteHere_within hc (ht a (by simp)) he e₁
    · rw [if_pos (by simpa using hl)] at e
      obtain ⟨⟨newroot, h₁⟩, e₁, e⟩ := Option.bind_eq_some_iff.1 e
      obtain ⟨root, -, e⟩ := Option.bind_eq_some_iff.1 e
      cases e
      exact ih (fun b hb => ht b (by simp [hb])) hc e₁

theorem recursiveDelete_within {comp : α → α → Int} {elem : Nat} (he : K elem) {t t' : Tree}
    {status : Int32} :
    ∀ {h h' : Heap α}, (∀ a ∈ t.inorder, K a) → Closed K h.cell →
      recursiveDelete comp elem t h = some ((status, t'), h') → Within K h h' := by
  induction t generalizing t' status with
  | nil =>
    intro h h' _ _ e
    cases e
  | node l a ht r ihl ihr =>
    intro h h' hK hc e
    have hl : ∀ b ∈ l.inorder, K b := fun b hb => hK b (by simp [hb])
    have hr : ∀ b ∈ r.inorder, K b := fun b hb => hK b (by simp [hb])
    have ha : K a := hK a (by simp)
    obtain ⟨ce, -, e⟩ := Option.bind_eq_some_iff.1 e
    obtain ⟨ca, -, e⟩ := Option.bind_eq_some_iff.1 e
    dsimp only at e
    split at e
    · split at e
      · -- a leaf: it is unlinked and freed
        obtain ⟨h₁, e₁, e⟩ := Option.bind_eq_some_iff.1 e
        obtain ⟨h₂, e₂, e⟩ := Option.bind_eq_some_iff.1 e
        cases e
        have w₁ := listRemove_within hc ha e₁
        exact w₁.trans (.free w₁.closed ha e₂)
      · split at e
        · obtain ⟨⟨newroot, h₁⟩, e₁, e⟩ := Option.bind_eq_some_iff.1 e
          obtain ⟨t₁, -, e⟩ := Option.bind_eq_some_iff.1 e
          cases e
          exact deleteRightmin_within he hr hc e₁
        · obtain ⟨⟨newroot, h₁⟩, e₁, e⟩ := Option.bind_eq_some_iff.1 e
          obtain ⟨t₁, -, e⟩ := Option.bind_eq_some_iff.1 e
          cases e
          exact deleteLeftmax_within he hl hc e₁
    · split at e
      · split at e
        · cases e
          exact .refl hc
        · obtain ⟨⟨⟨st, newroot⟩, h₁⟩, e₁, e⟩ := Option.bind_eq_some_iff.1 e
          have w := ihl hl hc e₁
          dsimp only at e
          split at e
          · cases e
            exact w
          · obtain ⟨t₁, -, e⟩ := Option.bind_eq_some_iff.1 e
            cases e
            exact w
      · split at e
        · cases e
          exact .refl hc
        · obtain ⟨⟨⟨st, newroot⟩, h₁⟩, e₁, e⟩ := Option.bind_eq_some_iff.1 e
          have w := ihr hr hc e₁
          dsimp only at e
          split at e
          · cases e
            exact w
          · obtain ⟨t₁, -, e⟩ := Option.bind_eq_some_iff.1 e
            cases e
            exact w

/-! Insertion. Its one new cell joins the set. -/

/-- A node that was not allocated changes no cell; one that was has the next address. -/
theorem newNode_cases {elem : α} {o : Option Nat} (e : newNode h elem = (o, h')) :
    (o = none ∧ h'.cell = h.cell ∧ h'.brk = h.brk) ∨
      (o = some h.brk ∧ h'.cell = (h.new elem).2.cell ∧ h'.brk = h.brk + 1) := by
  have hm : h.malloc.2.cell = h.cell ∧ h.malloc.2.brk = h.brk := by
    rw [Heap.malloc]
    split <;> exact ⟨rfl, rfl⟩
  have hm' : h.malloc.2.malloc.2.cell = h.cell ∧ h.malloc.2.malloc.2.brk = h.brk := by
    rw [← hm.1, ← hm.2, Heap.malloc]
    split <;> exact ⟨rfl, rfl⟩
  rw [newNode] at e
  split at e
  · rename_i h₁ e₁
    rw [e₁] at hm
    cases e
    exact .inl ⟨rfl, hm⟩
  · rename_i h₁ e₁
    rw [e₁] at hm hm'
    split at e
    · rename_i h₂ e₂
      rw [e₂] at hm'
      cases e
      exact .inl ⟨rfl, hm'⟩
    · rename_i h₂ e₂
      rw [e₂] at hm'
      cases e
      obtain ⟨hcell, hbrk⟩ := hm'
      dsimp only at hcell hbrk
      refine .inr ⟨?_, ?_, ?_⟩
      · exact congrArg some hbrk
      · show Function.update h₂.cell h₂.brk _ = Function.update h.cell h.brk _
        rw [hcell, hbrk]
      · exact congrArg (· + 1) hbrk

theorem newNode_extends {elem : α} (e : newNode h elem = (none, h')) : Extends K h h' := by
  obtain ⟨-, hcell, hbrk⟩ := (newNode_cases e).resolve_right (by simp)
  exact ⟨fun b _ _ => by rw [hcell], Nat.le_of_eq hbrk.symm⟩

theorem recursiveInsert_extends {comp : α → α → Int} {elem : α} {t : Tree} {ins : Inserted}
    (hK : ∀ a ∈ t.inorder, K a) (hc : Closed K h.cell)
    (e : recursiveInsert comp elem t h = some (ins, h')) : Extends K h h' := by
  have hnew := hc.new elem
  induction t using searchInduction comp elem h generalizing ins h' with
  | nil => cases e
  | gone l a ht r hgone => simp [recursiveInsert, hgone] at e
  | hit l a ht r c hcell h0 =>
    simp [recursiveInsert, hcell, h0] at e
    rw [← e.2]
    exact .refl K h
  | left l a ht r c hcell hlt ih =>
    cases hl : l.isNull with
    | true =>
      obtain rfl := isNull_iff.1 hl
      cases hf : newNode h elem with
      | mk o h₁ =>
        cases o with
        | none =>
          rw [recursiveInsert_leaf_left hcell hlt hf] at e
          cases e
          exact newNode_extends hf
        | some n =>
          obtain ⟨hn, hcell₁, hbrk⟩ := (newNode_cases hf).resolve_left (by simp)
          cases hn
          rw [← hcell₁] at hnew
          obtain ⟨e₂, -⟩ := recursiveInsert_hung_left hcell hlt hf e
          exact Extends.of_new hcell₁ hbrk
            (listInsertLeft_within hnew (.inr (hK a (by simp))) (.inl rfl) e₂)
    | false =>
      rw [recursiveInsert_left hcell hlt hl] at e
      obtain ⟨⟨ins₁, h₁⟩, e₁, e⟩ := Option.bind_eq_some_iff.1 e
      rw [(resumeLeft_cases e).1]
      exact ih (fun b hb => hK b (by simp [hb])) e₁
  | right l a ht r c hcell hgt ih =>
    cases hr : r.isNull with
    | true =>
      obtain rfl := isNull_iff.1 hr
      cases hf : newNode h elem with
      | mk o h₁ =>
        cases o with
        | none =>
          rw [recursiveInsert_leaf_right hcell hgt hf] at e
          cases e
          exact newNode_extends hf
        | some n =>
          obtain ⟨hn, hcell₁, hbrk⟩ := (newNode_cases hf).resolve_left (by simp)
          cases hn
          rw [← hcell₁] at hnew
          obtain ⟨e₂, -⟩ := recursiveInsert_hung_right hcell hgt hf e
          exact Extends.of_new hcell₁ hbrk
            (listInsertRight_within hnew (.inr (hK a (by simp))) (.inl rfl) e₂)
    | false =>
      rw [recursiveInsert_right hcell hgt hr] at e
      obtain ⟨⟨ins₁, h₁⟩, e₁, e⟩ := Option.bind_eq_some_iff.1 e
      rw [(resumeRight_cases e).1]
      exact ih (fun b hb => hK b (by simp [hb])) e₁

/-- One call, on a tree whose nodes are in `K`. -/
theorem step_extends {comp : α → α → Int} {s s' : State α} {op : Op α} {rc : Int32}
    (hK : ∀ a ∈ s.desc.root.inorder, K a) (hc : Closed K s.heap.cell)
    (hfound : ∀ x iter rc, ptrAt comp s.desc s.heap x = some (rc, some iter) → K iter)
    (e : step comp s op = some (rc, s')) : Extends K s.heap s'.heap := by
  cases op with
  | insert x =>
    obtain ⟨⟨r, d, h'⟩, e₁, e⟩ := Option.bind_eq_some_iff.1 e
    cases e
    rw [insert] at e₁
    split at e₁
    · split at e₁
      · rename_i h₁ en
        cases e₁
        exact newNode_extends en
      · rename_i c h₁ en
        obtain ⟨-, hcell, hbrk⟩ := (newNode_cases en).resolve_left (by simp)
        cases e₁
        have hclosed := hc.new x
        rw [← hcell] at hclosed
        exact Extends.of_new hcell hbrk (.refl hclosed)
    · obtain ⟨⟨ins, h₁⟩, e₂, e₁⟩ := Option.bind_eq_some_iff.1 e₁
      have g := recursiveInsert_extends hK hc e₂
      dsimp only at e₁
      split at e₁
      · cases e₁
        exact g
      · cases e₁
        exact g
  | erase x =>
    obtain ⟨⟨rc', o⟩, ep, e⟩ := Option.bind_eq_some_iff.1 e
    cases o with
    | none =>
      cases e
      exact .refl K s.heap
    | some iter =>
      obtain ⟨⟨r, d, h'⟩, e₁, e⟩ := Option.bind_eq_some_iff.1 e
      cases e
      rw [erase] at e₁
      split at e₁
      · cases e₁
        exact .refl K s.heap
      · obtain ⟨⟨⟨st, newroot⟩, h₁⟩, e₂, e₁⟩ := Option.bind_eq_some_iff.1 e₁
        have w := recursiveDelete_within (hfound x iter rc' ep) hK hc e₂
        dsimp only at e₁
        split at e₁
        · cases e₁
          exact .of_within w
        · cases e₁
          exact .of_within w

end

/-! Trees that stand for sets. -/

namespace Rep
variable {α : Type} {comp : α → α → Int} {s : State α} {l : List (Nat × α)} {S : Finset α}

/-- A tree whose cells are as before is the tree it was. -/
theorem frame (hr : Rep comp s l S) {h' : Heap α}
    (hcell : ∀ a ∈ l.map Prod.fst, h'.cell a = s.heap.cell a) (hbrk : s.heap.brk ≤ h'.brk)
    (hm : h'.mallocs = []) : Rep comp ⟨s.desc, h'⟩ l S where
  exact := hr.exact
  inorder := hr.inorder
  stored := ⟨hr.stored.chain.frame hcell, hr.stored.nodup, hr.stored.sorted,
    fun a ha => Nat.lt_of_lt_of_le (hr.stored.fresh a ha) hbrk, hm⟩
  size := hr.size
  card := hr.card
  mem := hr.mem

/-- One call answers as the set does, and touches only the tree's own cells. -/
theorem local_sim [DecidableEq α] (ho : TotalOrder comp) (hr : Rep comp s l S) (op : Op α) :
    ∃ s' l', step comp s op = some ((setStep S op).1, s') ∧ Rep comp s' l' (setStep S op).2 ∧
      (∀ a ∈ l'.map Prod.fst, a = s.heap.brk ∨ a ∈ l.map Prod.fst) ∧
      Extends (· ∈ l.map Prod.fst) s.heap s'.heap := by
  obtain ⟨s', l', e, hr', ha⟩ := hr.sim ho op
  refine ⟨s', l', e, hr', ha, step_extends (fun a ha => ?_) hr.stored.chain.closed ?_ e⟩
  · rw [hr.inorder] at ha
    exact ha
  · intro x iter rc ep
    by_cases hx : x ∈ S
    · obtain ⟨a, hmem⟩ := hr.node hx
      rw [hr.ptrAt_mem ho hmem] at ep
      cases ep
      exact List.mem_map_of_mem hmem
    · rw [hr.ptrAt_not_mem ho hx] at ep
      cases ep

end Rep

end Zhwkrfsp.AVLTree
