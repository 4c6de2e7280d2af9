import Zhwkrfsp.AVLAlloc
import Zhwkrfsp.AVLThreads

/- The memory of a tree. Rotations and threads move no element: an insertion stores one
   at the next address, and a deletion empties one address, after it has moved what is
   stored there to the iterator's node. So a tree owns exactly the cells of its nodes,
   and an iterator keeps its element unless its node is that of the erased element or
   the node next to it. The destructor follows the threads and frees each of them. -/
namespace Zhwkrfsp.AVLTree
open AVLTree.Tree Linked

section
variable {α : Type} {h h' : Heap α}

/-- What is stored at `m` is moved to `d`, and `m` is emptied. -/
def moveOut (p : Nat → Option α) (m d : Nat) : Nat → Option α :=
  Function.update (Function.update p d (p m)) m none

theorem moveOut_self (p : Nat → Option α) (m d : Nat) : moveOut p m d m = none :=
  Function.update_self ..

theorem moveOut_target {p : Nat → Option α} {m d : Nat} (h : m ≠ d) : moveOut p m d d = p m := by
  rw [moveOut, Function.update_of_ne h.symm, Function.update_self]

theorem moveOut_other {p : Nat → Option α} {m d a : Nat} (hm : a ≠ m) (hd : a ≠ d) :
    moveOut p m d a = p a := by
  rw [moveOut, Function.update_of_ne hm, Function.update_of_ne hd]

/-! The threads. -/

theorem listInsertLeft_payload {parent child : Nat} (e : listInsertLeft parent child h = some h') :
    h'.payload = h.payload := by
  rw [listInsertLeft_eq_bind] at e
  obtain ⟨p, -, e⟩ := Option.bind_eq_some_iff.1 e
  obtain ⟨h₁, e₁, e⟩ := Option.bind_eq_some_iff.1 e
  obtain ⟨h₂, e₂, e₃⟩ := Option.bind_eq_some_iff.1 e
  have p₁ := Heap.payload_modifyAt e₁ fun _ => rfl
  have p₂ := Heap.payload_modifyAt (o := some child) e₂ fun _ => rfl
  have p₃ := Heap.payload_modifyAt (o := some parent) e₃ fun _ => rfl
  rw [p₃, p₂, p₁]

theorem listInsertRight_payload {parent child : Nat}
    (e : listInsertRight parent child h = some h') : h'.payload = h.payload := by
  rw [listInsertRight_eq_bind] at e
  obtain ⟨p, -, e⟩ := Option.bind_eq_some_iff.1 e
  obtain ⟨h₁, e₁, e⟩ := Option.bind_eq_some_iff.1 e
  obtain ⟨h₂, e₂, e₃⟩ := Option.bind_eq_some_iff.1 e
  have p₁ := Heap.payload_modifyAt e₁ fun _ => rfl
  have p₂ := Heap.payload_modifyAt (o := some child) e₂ fun _ => rfl
  have p₃ := Heap.payload_modifyAt (o := some parent) e₃ fun _ => rfl
  rw [p₃, p₂, p₁]

theorem listRemove_payload {elem : Nat} (e : listRemove elem h = some h') :
    h'.payload = h.payload := by
  rw [listRemove_eq_bind] at e
  obtain ⟨c, -, e⟩ := Option.bind_eq_some_iff.1 e
  obtain ⟨h₁, e₁, e₂⟩ := Option.bind_eq_some_iff.1 e
  have p₁ := Heap.payload_modifyAt e₁ fun _ => rfl
  have p₂ := Heap.payload_modifyAt e₂ fun _ => rfl
  rw [p₂, p₁]

/-! Deletion. -/

theorem swap_payload {a b : Nat} (e : swap a b h = some h') :
    h'.payload = Function.update (Function.update h.payload a (h.payload b)) b (h.payload a) := by
  obtain ⟨ca, ea, e⟩ := Option.bind_eq_some_iff.1 e
  obtain ⟨cb, eb, e⟩ := Option.bind_eq_some_iff.1 e
  obtain ⟨h₁, e₁, e₂⟩ := Option.bind_eq_some_iff.1 e
  obtain ⟨cb', eb', -⟩ := Option.map_eq_some_iff.1 e₂
  have pa : h.payload a = some ca.data := congrArg (Option.map Cell.data) ea
  have pb : h.payload b = some cb.data := congrArg (Option.map Cell.data) eb
  rw [Heap.payload_modify eb' e₂, Heap.payload_modify ea e₁, pa, pb]

theorem deleteHere_payload {root elem : Nat} (e : deleteHere root elem h = some h') :
    h'.payload = moveOut h.payload root elem := by
  obtain ⟨h₁, e₁, e⟩ := Option.bind_eq_some_iff.1 e
  obtain ⟨h₂, e₂, e₃⟩ := Option.bind_eq_some_iff.1 e
  rw [Heap.payload_free e₃, listRemove_payload e₂, swap_payload e₁, moveOut]
  funext b
  by_cases hr : b = root
  · rw [hr, Function.update_self, Function.update_self]
  · rw [Function.update_of_ne hr, Function.update_of_ne hr]
    by_cases he : b = elem
    · rw [he, Function.update_self, Function.update_self]
    · rw [Function.update_of_ne he, Function.update_of_ne he, Function.update_of_ne hr]

theorem deleteLeftmax_payload {elem : Nat} {t t' : Tree} :
    ∀ {h h' : Heap α}, deleteLeftmax elem t h = some (t', h') →
      ∃ m ∈ t.inorder, h'.payload = moveOut h.payload m elem := by
  induction t generalizing t' with
  | nil =>
    intro h h' e
    cases e
  | node l a ht r _ ih =>
    intro h h' e
    rw [deleteLeftmax] at e
    by_cases hr : r.isNull = true
    · rw [if_neg (by simp [hr])] at e
      obtain ⟨h₁, e₁, e⟩ := Option.bind_eq_some_iff.1 e
      cases e
      exact ⟨a, by simp, deleteHere_payload e₁⟩
    · rw [if_pos (by simpa using hr)] at e
      obtain ⟨⟨newroot, h₁⟩, e₁, e⟩ := Option.bind_eq_some_iff.1 e
      obtain ⟨root, -, e⟩ := Option.bind_eq_some_iff.1 e
      cases e
      obtain ⟨m, hm, hp⟩ := ih e₁
      exact ⟨m, by simp [hm], hp⟩

theorem deleteRightmin_payload {elem : Nat} {t t' : Tree} :
    ∀ {h h' : Heap α}, deleteRightmin elem t h = some (t', h') →
      ∃ m ∈ t.inorder, h'.payload = moveOut h.payload m elem := by
  induction t generalizing t' with
  | nil =>
    intro h h' e
    cases e
  | node l a ht r ih _ =>
    intro h h' e
    rw [deleteRightmin] at e
    by_cases hl : l.isNull = true
    · rw [if_neg (by simp [hl])] at e
      obtain ⟨h₁, e₁, e⟩ := Option.bind_eq_some_iff.1 e
      cases e
      exact ⟨a, by simp, deleteHere_payload e₁⟩
    · rw [if_pos (by simpa using hl)] at e
      obtain ⟨⟨newroot, h₁⟩, e₁, e⟩ := Option.bind_eq_some_iff.1 e
      obtain ⟨root, -, e⟩ := Option.bind_eq_some_iff.1 e
      cases e
      obtain ⟨m, hm, hp⟩ := ih e₁
      exact ⟨m, by simp [hm], hp⟩

/-- A deletion that succeeds empties one node of the tree. A leaf is emptied where the
    comparator takes its element for the iterator's, which is `hsame`. -/
theorem recursiveDelete_payload {comp : α → α → Int} {elem : Nat} {t t' : Tree} :
    ∀ {h h' : Heap α}, (∀ a ∈ t.inorder, ∀ c e, h.cell a = some c → h.cell elem = some e →
        comp e.data c.data = 0 → a = elem) →
      recursiveDelete comp elem t h = some ((0, t'), h') →
        ∃ m ∈ t.inorder, h'.payload = moveOut h.payload m elem := by
  induction t generalizing t' with
  | nil =>
    intro h h' _ e
    cases e
  | node l a ht r ihl ihr =>
    intro h h' hsame e
    obtain ⟨ce, ee, e⟩ := Option.bind_eq_some_iff.1 e
    obtain ⟨ca, ea, e⟩ := Option.bind_eq_some_iff.1 e
    dsimp only at e
    split at e
    · next heq =>
      split at e
      · -- a leaf: it is the iterator's node
        obtain ⟨h₁, e₁, e⟩ := Option.bind_eq_some_iff.1 e
        obtain ⟨h₂, e₂, e⟩ := Option.bind_eq_some_iff.1 e
        cases e
        obtain rfl := hsame a (by simp) ca ce ea ee heq
        refine ⟨a, by simp, ?_⟩
        rw [Heap.payload_free e₂, listRemove_payload e₁, moveOut, Function.update_eq_self]
      · split at e
        · obtain ⟨⟨newroot, h₁⟩, e₁, e⟩ := Option.bind_eq_some_iff.1 e
          obtain ⟨t₁, -, e⟩ := Option.bind_eq_some_iff.1 e
          cases e
          obtain ⟨m, hm, hp⟩ := deleteRightmin_payload e₁
          exact ⟨m, by simp [hm], hp⟩
        · obtain ⟨⟨newroot, h₁⟩, e₁, e⟩ := Option.bind_eq_some_iff.1 e
          obtain ⟨t₁, -, e⟩ := Option.bind_eq_some_iff.1 e
          cases e
          obtain ⟨m, hm, hp⟩ := deleteLeftmax_payload e₁
          exact ⟨m, by simp [hm], hp⟩
    · split at e
      · split at e
        · cases e
        · obtain ⟨⟨⟨st, newroot⟩, h₁⟩, e₁, e⟩ := Option.bind_eq_some_iff.1 e
          dsimp only at e
          split at e
          · next hst =>
            cases e
            exact absurd rfl hst
          · next hst =>
            obtain ⟨t₁, -, e⟩ := Option.bind_eq_some_iff.1 e
            cases e
            rw [not_not] at hst
            subst hst
            obtain ⟨m, hm, hp⟩ := ihl (fun b hb => hsame b (by simp [hb])) e₁
            exact ⟨m, by simp [hm], hp⟩
      · split at e
        · cases e
        · obtain ⟨⟨⟨st, newroot⟩, h₁⟩, e₁, e⟩ := Option.bind_eq_some_iff.1 e
          dsimp only at e
          split at e
          · next hst =>
            cases e
            exact absurd rfl hst
          · next hst =>
            obtain ⟨t₁, -, e⟩ := Option.bind_eq_some_iff.1 e
            cases e
            rw [not_not] at hst
            subst hst
            obtain ⟨m, hm, hp⟩ := ihr (fun b hb => hsame b (by simp [hb])) e₁
            exact ⟨m, by simp [hm], hp⟩

/-! Insertion. -/

/-- An insertion that succeeds stores the element in the new node. -/
theorem recursiveInsert_payload {comp : α → α → Int} {elem : α} {t : Tree} {c : Nat}
    {h₁ : Heap α} {ins : Inserted} (hf : newNode h elem = (some c, h₁))
    (e : recursiveInsert comp elem t h = some (ins, h')) (hst : ins.status = 0) :
    h'.payload = h₁.payload := by
  induction t using searchInduction comp elem h generalizing ins h' with
  | nil => cases e
  | gone l a ht r hgone => simp [recursiveInsert, hgone] at e
  | hit l a ht r d hcell h0 =>
    simp [recursiveInsert, hcell, h0] at e
    rw [← e.1] at hst
    cases hst
  | left l a ht r d hcell hlt ih =>
    cases hl : l.isNull with
    | true =>
      obtain rfl := isNull_iff.1 hl
      exact listInsertLeft_payload (recursiveInsert_hung_left hcell hlt hf e).1
    | false =>
      rw [recursiveInsert_left hcell hlt hl] at e
      obtain ⟨⟨ins₁, h₂⟩, e₁, e⟩ := Option.bind_eq_some_iff.1 e
      obtain ⟨rfl, ⟨hne, hs⟩ | ⟨hs, -, -⟩⟩ := resumeLeft_cases e
      · exact absurd (hs.symm.trans hst) hne
      · exact ih e₁ hs
  | right l a ht r d hcell hgt ih =>
    cases hr : r.isNull with
    | true =>
      obtain rfl := isNull_iff.1 hr
      exact listInsertRight_payload (recursiveInsert_hung_right hcell hgt hf e).1
    | false =>
      rw [recursiveInsert_right hcell hgt hr] at e
      obtain ⟨⟨ins₁, h₂⟩, e₁, e⟩ := Option.bind_eq_some_iff.1 e
      obtain ⟨rfl, ⟨hne, hs⟩ | ⟨hs, -, -⟩⟩ := resumeRight_cases e
      · exact absurd (hs.symm.trans hst) hne
      · exact ih e₁ hs

end

/-! One call on a tree that stands for a set. -/

section
variable {α : Type} {comp : α → α → Int} {s s' : State α} {l : List (Nat × α)} {S : Finset α}
  {h : Heap α}

theorem Stored.payload (hs : Stored comp h l) {a : Nat} {x : α} (ha : (a, x) ∈ l) :
    h.payload a = some x := by
  obtain ⟨q, r, e⟩ := hs.chain.cell ha
  rw [Heap.payload, e]
  rfl

/-- A node further on stores a greater element. -/
theorem Stored.ascending (hs : Stored comp h l) : (l.map Prod.fst).Pairwise fun a b =>
    ∀ x y, h.payload a = some x → h.payload b = some y → comp x y < 0 := by
  rw [List.pairwise_map]
  apply (List.pairwise_map.1 hs.sorted).imp_of_mem
  intro p q hp hq hlt x y hx hy
  rw [hs.payload hp] at hx
  rw [hs.payload hq] at hy
  cases hx
  cases hy
  exact hlt

namespace Rep

/-- Nodes that store the same element are the same. -/
theorem payload_inj (ho : TotalOrder comp) (hr : Rep comp s l S) {a b : Nat} {x : α}
    (ha : (a, x) ∈ l) (hb : (b, x) ∈ l) : a = b := by
  have e := hr.ptrAt_mem ho ha
  rw [hr.ptrAt_mem ho hb] at e
  cases e
  rfl

theorem insert_payload (hr : Rep comp s l S) {x : α}
    (e : step comp s (.insert x) = some (0, s')) :
    s'.heap.payload = Function.update s.heap.payload s.heap.brk (some x) := by
  have hf : newNode s.heap x = (some s.heap.brk, (s.heap.new x).2) := hr.stored.newNode_eq
  rw [← Heap.payload_new]
  cases hn : s.desc.root.isNull with
  | true =>
    rw [step, insert, if_pos hn, hf] at e
    cases e
    rfl
  | false =>
    rw [step_insert hn] at e
    obtain ⟨⟨ins, h'⟩, ei, e⟩ := Option.map_eq_some_iff.1 e
    dsimp only at e
    split at e
    · cases e
    · next hst =>
      cases e
      exact recursiveInsert_payload hf ei (not_not.1 hst)

variable (ho : TotalOrder comp) [DecidableEq α]
include ho

/-- The nodes after an insertion: the new one, and those there were. -/
theorem inserted (hr : Rep comp s l S) {x : α} (h : x ∉ S) :
    ∃ s' l', step comp s (.insert x) = some (0, s') ∧ Rep comp s' l' (Insert.insert x S) ∧
      s'.heap.payload = Function.update s.heap.payload s.heap.brk (some x) ∧
      ∀ a, a ∈ l'.map Prod.fst ↔ a = s.heap.brk ∨ a ∈ l.map Prod.fst := by
  obtain ⟨s', l', e, hr', haddr, -⟩ := hr.insert_not_mem ho h
  refine ⟨s', l', e, hr', hr.insert_payload e, fun a => ?_⟩
  -- there is room for no more
  have hsub : l'.map Prod.fst ⊆ s.heap.brk :: l.map Prod.fst := by
    intro b hb
    rcases haddr b hb with rfl | hb
    · exact List.mem_cons_self
    · exact List.mem_cons_of_mem _ hb
  have hlen : (s.heap.brk :: l.map Prod.fst).length ≤ (l'.map Prod.fst).length := by
    rw [List.length_cons, List.length_map, List.length_map, ← hr.card, ← hr'.card,
      Finset.card_insert_of_notMem h]
  have hperm := (List.subperm_of_subset hr'.stored.nodup hsub).perm_of_length_le hlen
  rw [hperm.mem_iff, List.mem_cons]

/-- The nodes after an erasure: all but one, and what that one stored is at the iterator's. -/
theorem erased (hr : Rep comp s l S) {d : Nat} {x : α} (hd : (d, x) ∈ l)
    (hsize : S.card % 2 ^ 32 ≠ 0) :
    ∃ s' l' m, step comp s (.erase x) = some (0, s') ∧ Rep comp s' l' (S.erase x) ∧
      m ∈ l.map Prod.fst ∧ s'.heap.payload = moveOut s.heap.payload m d ∧
      l'.map Prod.fst = (l.map Prod.fst).erase m := by
  have hx : x ∈ S := (hr.mem x).2 (List.mem_map_of_mem hd)
  obtain ⟨s', l', e, hr', -⟩ := hr.erase_mem ho hx hsize
  obtain ⟨t', h', _, _, l'', ed, -, -, -, hi, -, hsub, -⟩ :=
    recursiveDelete_spec ho hr.exact hr.inorder hr.whole hd
  have hs' : s' = ⟨⟨s.desc.size - 1, t'⟩, h'⟩ := by
    have hz := mt hr.size_eq_zero.1 hsize
    have e' : step comp s (.erase x) = some (0, ⟨⟨s.desc.size - 1, t'⟩, h'⟩) := by
      simp [step, hr.ptrAt_mem ho hd, erase, hz, ed]
    rw [e] at e'
    cases e'
    rfl
  have hsame : ∀ a ∈ s.desc.root.inorder, ∀ c e, s.heap.cell a = some c →
      s.heap.cell d = some e → comp e.data c.data = 0 → a = d := by
    intro a ha c e hc he h0
    rw [hr.inorder] at ha
    obtain ⟨⟨a, y⟩, hay, rfl⟩ := List.mem_map.1 ha
    have hy := hr.stored.payload hay
    have hx := hr.stored.payload hd
    rw [Heap.payload, hc] at hy
    rw [Heap.payload, he] at hx
    have hxy : x = y := by
      rw [Option.map_some, Option.some.injEq] at hx hy
      rw [← hx, ← hy]
      exact (ho.eq_iff _ _).1 h0
    subst hxy
    exact hr.payload_inj ho hay hd
  obtain ⟨m, hm, hp⟩ := recursiveDelete_payload hsame ed
  rw [hr.inorder] at hm
  subst hs'
  refine ⟨_, l', m, e, hr', hm, hp, ?_⟩
  have hfst : l'.map Prod.fst = l''.map Prod.fst := hr'.inorder.symm.trans hi
  have hgone : m ∉ l'.map Prod.fst := by
    intro hml
    obtain ⟨⟨m, y⟩, hmy, rfl⟩ := List.mem_map.1 hml
    have hpm := hr'.stored.payload hmy
    rw [show Heap.payload h' = _ from hp, moveOut_self] at hpm
    cases hpm
  rw [← hfst] at hsub
  have hsub' := hsub.erase m
  rw [List.erase_of_not_mem hgone] at hsub'
  apply hsub'.eq_of_length
  rw [List.length_erase_of_mem hm, List.length_map, List.length_map, ← hr.card, ← hr'.card,
    Finset.card_erase_of_mem hx]

end Rep

/-- Moving an element out of a cell that is in use empties that cell, and no other. -/
theorem inUse_moveOut {h h' : Heap α} {m d : Nat} (hp : h'.payload = moveOut h.payload m d)
    (hm : h.InUse m) (hd : h.InUse d) (a : Nat) : h'.InUse a ↔ a ≠ m ∧ h.InUse a := by
  unfold Heap.InUse at hm hd ⊢
  rw [hp]
  by_cases ham : a = m
  · rw [ham, moveOut_self]
    simp
  · by_cases had : a = d
    · rw [had] at ham ⊢
      rw [moveOut_target (Ne.symm ham)]
      exact iff_of_true hm ⟨ham, hd⟩
    · rw [moveOut_other ham had]
      exact (and_iff_right ham).symm

theorem Rep.inUse (hr : Rep comp s l S) {a : Nat} (ha : a ∈ l.map Prod.fst) : s.heap.InUse a := by
  obtain ⟨⟨a, x⟩, hax, rfl⟩ := List.mem_map.1 ha
  rw [Heap.InUse, hr.stored.payload hax]
  rfl

/-! Iterators. -/

theorem iteratorDeref_payload (h : Heap α) (a : Nat) :
    iteratorDeref h (some a) = (h.payload a).map some := by
  simp [iteratorDeref, Heap.payload, Function.comp_def]

/-- The two are the same node, or neighbours. -/
def NextTo (nodes : List Nat) (m d : Nat) : Prop :=
  m = d ∨ ∃ u v, nodes = u ++ m :: d :: v ∨ nodes = u ++ d :: m :: v

/-- If the elements ascend before and after what is at `m` has been moved to `d`, the two
    are neighbours: what is between them would be on the wrong side of it. -/
theorem nextTo_of_moveOut (ho : TotalOrder comp) {nodes : List Nat} {p : Nat → Option α} {m d : Nat}
    (nd : nodes.Nodup) (live : ∀ a ∈ nodes, ∃ x, p a = some x) (hm : m ∈ nodes) (hd : d ∈ nodes)
    (asc : nodes.Pairwise fun a b => ∀ x y, p a = some x → p b = some y → comp x y < 0)
    (asc' : (nodes.erase m).Pairwise fun a b =>
      ∀ x y, moveOut p m d a = some x → moveOut p m d b = some y → comp x y < 0) :
    NextTo nodes m d := by
  by_cases hmd : m = d
  · exact .inl hmd
  refine .inr ?_
  obtain ⟨y, hy⟩ := live m hm
  have htarget : moveOut p m d d = some y := by rw [moveOut_target hmd, hy]
  -- what is between them has an element that is both less and greater
  have hnone : ∀ b ∈ nodes, b ≠ m → b ≠ d →
      ¬((∀ x z, p b = some x → p m = some z → comp x z < 0) ∧
        ∀ x z, moveOut p m d d = some x → moveOut p m d b = some z → comp x z < 0) ∧
      ¬((∀ x z, p m = some x → p b = some z → comp x z < 0) ∧
        ∀ x z, moveOut p m d b = some x → moveOut p m d d = some z → comp x z < 0) := by
    intro b hb hbm hbd
    obtain ⟨x, hx⟩ := live b hb
    have hx' : moveOut p m d b = some x := by rw [moveOut_other hbm hbd, hx]
    refine ⟨fun ⟨h₁, h₂⟩ => ?_, fun ⟨h₁, h₂⟩ => ?_⟩
    · exact ho.ne_of_lt (ho.lt_trans (h₁ x y hx hy) (h₂ y x htarget hx')) rfl
    · exact ho.ne_of_lt (ho.lt_trans (h₁ y x hy hx) (h₂ x y hx' htarget)) rfl
  obtain ⟨u, w, rfl⟩ := List.append_of_mem hm
  have hmu : m ∉ u := fun h => (List.nodup_append.1 nd).2.2 m h m (by simp) rfl
  rw [List.erase_append_right _ hmu, List.erase_cons_head] at asc'
  rcases List.mem_append.1 hd with hdu | hdw
  · -- it is further on
    obtain ⟨z, v, rfl⟩ := List.append_of_mem hdu
    have hv : v = [] := by
      apply List.eq_nil_iff_forall_not_mem.2
      intro b hb
      have hbm : b ≠ m := by
        rintro rfl
        exact hmu (by simp [hb])
      have hbd : b ≠ d := by
        rintro rfl
        have hz := (List.nodup_append.1 (List.nodup_append.1 nd).1).2.1
        exact (List.nodup_cons.1 hz).1 hb
      refine (hnone b (by simp [hb]) hbm hbd).1 ⟨?_, ?_⟩
      · exact (List.pairwise_append.1 asc).2.2 b (by simp [hb]) m (by simp)
      · have hz := (List.pairwise_append.1 (List.pairwise_append.1 asc').1).2.1
        exact (List.pairwise_cons.1 hz).1 b hb
    subst hv
    exact ⟨z, w, .inr (by simp)⟩
  · have hdw : d ∈ w := (List.mem_cons.1 hdw).resolve_left (Ne.symm hmd)
    obtain ⟨v, z, rfl⟩ := List.append_of_mem hdw
    have hv : v = [] := by
      apply List.eq_nil_iff_forall_not_mem.2
      intro b hb
      have hw := List.nodup_cons.1 (List.nodup_append.1 nd).2.1
      have hbm : b ≠ m := by
        rintro rfl
        exact hw.1 (by simp [hb])
      have hbd : b ≠ d := by
        rintro rfl
        exact (List.nodup_append.1 hw.2).2.2 b hb b (by simp) rfl
      refine (hnone b (by simp [hb]) hbm hbd).2 ⟨?_, ?_⟩
      · have hz := (List.pairwise_append.1 asc).2.1
        exact (List.pairwise_cons.1 hz).1 b (by simp [hb])
      · have hz := (List.pairwise_append.1 asc').2.1
        exact (List.pairwise_append.1 hz).2.2 b hb d (by simp)
    subst hv
    exact ⟨u, z, .inl rfl⟩

/-- Where an erasure takes the node from. -/
theorem Rep.erased_nextTo [DecidableEq α] (ho : TotalOrder comp) (hr : Rep comp s l S) {d m : Nat}
    {x : α} {l' : List (Nat × α)} {S' : Finset α} (hd : (d, x) ∈ l) (hm : m ∈ l.map Prod.fst)
    (hr' : Rep comp s' l' S') (hp : s'.heap.payload = moveOut s.heap.payload m d)
    (hl : l'.map Prod.fst = (l.map Prod.fst).erase m) : NextTo (l.map Prod.fst) m d := by
  have hasc := hr'.stored.ascending
  rw [hl, hp] at hasc
  refine nextTo_of_moveOut ho hr.stored.nodup (fun a ha => ?_) hm (List.mem_map_of_mem hd)
    hr.stored.ascending hasc
  obtain ⟨⟨a, y⟩, hay, rfl⟩ := List.mem_map.1 ha
  exact ⟨y, hr.stored.payload hay⟩

/-- **What iterators survive.** An insertion leaves every node with its element. An erasure
    through the iterator `d` frees one node, `d` itself or a neighbour of it; if it is a
    neighbour, `d` has the neighbour's element from then on; and all other nodes keep
    theirs. -/
theorem iterators_survive [DecidableEq α] (ho : TotalOrder comp) (ops : List (Op α)) :
    ∃ s, Machine.run (step comp) ops State.init = some ((Machine.runs setStep ops ∅).1, s) ∧
      (∀ x s', step comp s (.insert x) = some (0, s') → ∀ a ∈ s.desc.root.inorder,
        a ∈ s'.desc.root.inorder ∧
          iteratorDeref s'.heap (some a) = iteratorDeref s.heap (some a)) ∧
      ∀ d x s', d ∈ s.desc.root.inorder → iteratorDeref s.heap (some d) = some (some x) →
        step comp s (.erase x) = some (0, s') →
        ∃ m, NextTo s.desc.root.inorder m d ∧ m ∈ s.desc.root.inorder ∧
          s'.desc.root.inorder = s.desc.root.inorder.erase m ∧
          iteratorDeref s'.heap (some m) = none ∧
          (m ≠ d → iteratorDeref s'.heap (some d) = iteratorDeref s.heap (some m)) ∧
          ∀ a ∈ s.desc.root.inorder, a ≠ m → a ≠ d →
            iteratorDeref s'.heap (some a) = iteratorDeref s.heap (some a) := by
  obtain ⟨s, l, e, hr⟩ := Rep.runs ho ops
  refine ⟨s, e, fun x s' ei a ha => ?_, fun d x s' hd hx ee => ?_⟩
  · have hxS : x ∉ (Machine.runs setStep ops ∅).2 := by
      intro hx
      rw [hr.insert_mem ho hx] at ei
      cases ei
    obtain ⟨s₁, l₁, e₁, hr₁, hp, hmem⟩ := hr.inserted ho hxS
    rw [ei] at e₁
    cases e₁
    rw [hr.inorder] at ha
    rw [hr₁.inorder, iteratorDeref_payload, iteratorDeref_payload, hp,
      Function.update_of_ne (Nat.ne_of_lt (hr.stored.fresh a ha))]
    exact ⟨(hmem a).2 (.inr ha), rfl⟩
  · have hdl : (d, x) ∈ l := by
      rw [hr.inorder] at hd
      obtain ⟨⟨d, y⟩, hdy, rfl⟩ := List.mem_map.1 hd
      rw [iteratorDeref_payload, hr.stored.payload hdy] at hx
      cases hx
      exact hdy
    have hxS : x ∈ (Machine.runs setStep ops ∅).2 := (hr.mem x).2 (List.mem_map_of_mem hdl)
    have hsize : (Machine.runs setStep ops ∅).2.card % 2 ^ 32 ≠ 0 := by
      intro h0
      rw [hr.erase_wrapped ho hxS h0] at ee
      cases ee
    obtain ⟨s₁, l₁, m, e₁, hr₁, hm, hp, hl⟩ := hr.erased ho hdl hsize
    rw [ee] at e₁
    cases e₁
    have hnext := hr.erased_nextTo ho hdl hm hr₁ hp hl
    rw [← hr.inorder] at hnext hm hl
    rw [← hr₁.inorder] at hl
    simp only [iteratorDeref_payload, hp]
    refine ⟨m, hnext, hm, hl, ?_, fun hmd => ?_, fun a _ ham had => ?_⟩
    · rw [moveOut_self]
      rfl
    · rw [moveOut_target hmd]
    · rw [moveOut_other ham had]

/-- The erasure of 2, the root of a tree of three: its node stays, and has the element of the
    node in front of it, which is freed. -/
theorem iterators_survive_byValue :
    ∃ s s' : State UInt64, Machine.run (step byValue) [.insert 2, .insert 1, .insert 3] State.init =
        some ([0, 0, 0], s) ∧ s.desc.root.inorder = [1, 0, 2] ∧
      iteratorDeref s.heap (some 0) = some (some 2) ∧ step byValue s (.erase 2) = some (0, s') ∧
      iteratorDeref s'.heap (some 1) = none ∧
      iteratorDeref s'.heap (some 0) = iteratorDeref s.heap (some 1) ∧
      iteratorDeref s'.heap (some 2) = iteratorDeref s.heap (some 2) := by
  obtain ⟨s, e, -, hers⟩ := iterators_survive byValue_total [.insert 2, .insert 1, .insert 3]
  have hrun : ((Machine.run (step byValue) [.insert 2, .insert 1, .insert 3]
      (State.init : State UInt64)).map fun r =>
        (r.2.desc.root.inorder, iteratorDeref r.2.heap (some 0))) =
      some ([1, 0, 2], some (some 2)) := by decide
  have hend : (((Machine.run (step byValue) [.insert 2, .insert 1, .insert 3]
      (State.init : State UInt64)).bind fun r => step byValue r.2 (.erase 2)).map fun r =>
        (r.1, r.2.desc.root.inorder)) = some (0, [0, 2]) := by decide
  have hanswers : (Machine.runs setStep [.insert 2, .insert 1, .insert 3]
      (∅ : Finset UInt64)).1 = [0, 0, 0] := by decide
  rw [hanswers] at e
  rw [e, Option.map_some, Option.some.injEq, Prod.mk.injEq] at hrun
  obtain ⟨hnodes, hx⟩ := hrun
  rw [e, Option.bind_some] at hend
  obtain ⟨⟨_, s'⟩, ee, hpair⟩ := Option.map_eq_some_iff.1 hend
  obtain ⟨rfl, hleft⟩ := Prod.mk.inj hpair
  obtain ⟨m, -, hm, hl, hfreed, hmoved, hkept⟩ := hers 0 2 s' (by rw [hnodes]; decide) hx ee
  rw [hnodes] at hm hl hkept
  -- of the three nodes it is the first one that is missing
  obtain rfl : m = 1 := by
    rw [hleft] at hl
    simp only [List.mem_cons, List.not_mem_nil, or_false] at hm
    rcases hm with rfl | rfl | rfl
    · rfl
    · exact absurd hl (by decide)
    · exact absurd hl (by decide)
  exact ⟨s, s', e, hnodes, hx, ee, hfreed, hmoved (by decide), hkept 2 (by decide) (by decide)
    (by decide)⟩

/-! The destructor. -/

/-- The loop, from a node of the thread on: the nodes from there on are freed, one each
    round, and nothing else changes. -/
theorem freeFrom_chain : ∀ {l : List (Nat × α)} {p : Option Nat} {rounds : Nat} {h : Heap α},
    Chain h.cell p l none → (l.map Prod.fst).Nodup → l.length ≤ rounds →
    ∃ h', freeFrom rounds (first l none) h = some h' ∧ (∀ a ∈ l.map Prod.fst, h'.cell a = none) ∧
      (∀ a, a ∉ l.map Prod.fst → h'.cell a = h.cell a) ∧ h'.brk = h.brk ∧ h'.mallocs = h.mallocs
  | [], _, rounds, h, _, _, _ => by
    refine ⟨h, ?_, nofun, fun _ _ => rfl, rfl, rfl⟩
    cases rounds <;> rfl
  | (a, x) :: l, p, 0, h, _, _, hlen => absurd hlen (Nat.not_succ_le_zero _)
  | (a, x) :: l, p, rounds + 1, h, ⟨hcell, hc⟩, nd, hlen => by
    rw [List.map_cons, List.nodup_cons] at nd
    have hfree := Heap.free_some hcell
    have hc' : Chain (Function.update h.cell a none) (some a) l none := by
      apply hc.frame
      intro b hb
      apply Function.update_of_ne
      rintro rfl
      exact nd.1 hb
    obtain ⟨h', e, hgone, hkeep, hbrk, hm⟩ := freeFrom_chain
      (h := { h with cell := Function.update h.cell a none }) hc' nd.2 (Nat.le_of_succ_le_succ hlen)
    refine ⟨h', ?_, fun b hb => ?_, fun b hb => ?_, hbrk, hm⟩
    · rw [first_cons, freeFrom, hcell, Option.bind_eq_bind, Option.bind_some, hfree]
      exact e
    · rcases List.mem_cons.1 hb with rfl | hb
      · rw [hkeep _ nd.1]
        exact Function.update_self ..
      · exact hgone b hb
    · rw [List.map_cons, List.mem_cons, not_or] at hb
      rw [hkeep b hb.2]
      exact Function.update_of_ne hb.1 _ _

/-- A tree that stands for a set is freed node by node, and nothing else is touched. -/
theorem Rep.destructor (hr : Rep comp s l S) :
    ∃ h', AVLTree.destructor s.desc s.heap = some (0, constructor, h') ∧
      (∀ a ∈ l.map Prod.fst, h'.cell a = none) ∧
      (∀ a, a ∉ l.map Prod.fst → h'.cell a = s.heap.cell a) ∧ h'.brk = s.heap.brk ∧
      h'.mallocs = s.heap.mallocs := by
  have hlen := length_le_of_lt hr.stored.nodup hr.stored.fresh
  obtain ⟨h', e, hrest⟩ := freeFrom_chain hr.stored.chain hr.stored.nodup hlen
  refine ⟨h', ?_, hrest⟩
  have hmin : minNode s.desc.root = first l none := by
    rw [minNode_eq, hr.inorder, first, Option.or_none, List.head?_map]
  rw [AVLTree.destructor, hmin, e]
  rfl

end

end Zhwkrfsp.AVLTree
