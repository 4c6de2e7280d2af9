import Zhwkrfsp.BTreeValid
import Mathlib.Data.Multiset.Basic
import Mathlib.Algebra.Order.Group.Multiset
import Mathlib.Tactic.Abel

/- Insertion of a new key when allocations may fail. A split allocates a node only after
   the pair has been put into the leaf as pending, and nothing is undone: a node of the
   split chain that cannot be allocated is dereferenced all the same, a new root that
   cannot be leaves the old root pending, or without its left half. So the call is
   atomic exactly when a copy of the key or the value fails, the tree is empty, or the
   split chain gets all the nodes that it needs (`insert_atomic`). -/
namespace Zhwkrfsp.BTree
open Node

/-! Outcomes of allocations. -/

/-- The first `k` allocations succeed. -/
def Succeed (mallocs : List Bool) (k : Nat) : Prop := ∀ b ∈ mallocs.take k, b = true

theorem malloc_cons (ok : Bool) (mallocs : List Bool) : malloc (ok :: mallocs) = (ok, mallocs) :=
  rfl

theorem malloc_eq (mallocs : List Bool) : malloc mallocs = (mallocs.head?.getD true, mallocs.tail) := by
  cases mallocs with
  | nil => rfl
  | cons ok mallocs => rfl

theorem succeed_zero (mallocs : List Bool) : Succeed mallocs 0 := by
  intro b hb
  rw [List.take_zero] at hb
  cases hb

theorem succeed_succ (mallocs : List Bool) (k : Nat) :
    Succeed mallocs (k + 1) ↔ (malloc mallocs).1 = true ∧ Succeed (malloc mallocs).2 k := by
  cases mallocs with
  | nil => simp [Succeed, malloc]
  | cons ok mallocs => simp [Succeed, malloc]

/-- Some allocations, and then others. -/
theorem succeed_add (mallocs : List Bool) (j k : Nat) :
    Succeed mallocs (j + k) ↔ Succeed mallocs j ∧ Succeed (mallocs.drop j) k := by
  rw [Succeed, List.take_add]
  simp only [List.forall_mem_append]
  rfl

theorem malloc_drop (mallocs : List Bool) (k : Nat) :
    (malloc (mallocs.drop k)).2 = mallocs.drop (k + 1) := by
  rw [malloc_eq, List.tail_drop]

section
variable {κ υ : Type} {comp : κ → κ → Int} {n : Nat} {t : Node κ υ} {mallocs : List Bool}

theorem nodeConstructor_ok (h : (malloc mallocs).1 = true) : nodeConstructor mallocs =
    ((mk none none null null null none null : Node κ υ), (malloc mallocs).2) := by
  cases mallocs with
  | nil => rfl
  | cons ok mallocs =>
    obtain rfl : ok = true := h
    rfl

theorem nodeConstructor_fail (h : (malloc mallocs).1 = false) :
    nodeConstructor mallocs = ((null : Node κ υ), (malloc mallocs).2) := by
  cases mallocs with
  | nil => cases h
  | cons ok mallocs =>
    obtain rfl : ok = false := h
    rfl

theorem splitUp_null (t : Node κ υ) : splitUp comp t null = none := by
  cases t with
  | null => rfl
  | mk kv0 kv1 c0 c1 c2 x xc => rfl

/-! The pairs of a tree, whatever their order. -/

def Node.bag (t : Node κ υ) : Multiset (κ × υ) := t.toList

theorem bag_null : (null : Node κ υ).bag = 0 := rfl

theorem bag_two (p : κ × υ) (c0 c1 : Node κ υ) :
    (mk (some p) none c0 c1 null none null).bag = c0.bag + {p} + c1.bag := by
  rw [Node.bag, toList_two, List.append_cons, ← Multiset.coe_add, ← Multiset.coe_add]
  rfl

theorem bag_three (p q : κ × υ) (c0 c1 c2 : Node κ υ) :
    (mk (some p) (some q) c0 c1 c2 none null).bag = c0.bag + {p} + c1.bag + {q} + c2.bag := by
  rw [Node.bag, toList_three, List.append_cons, List.append_cons c1.toList, ← Multiset.coe_add,
    ← Multiset.coe_add, ← Multiset.coe_add, ← Multiset.coe_add]
  show c0.bag + {p} + (c1.bag + {q} + c2.bag) = _
  abel

/-! What an insertion leaves. -/

/-- A tree of depth `n` with these pairs, or a full node of that depth with one more pair
    and child pending. -/
inductive Grown : Nat → Multiset (κ × υ) → Int32 → Node κ υ → Prop
  | done {n : Nat} {xs : Multiset (κ × υ)} {t : Node κ υ} :
    Shape n t → t.bag = xs → Grown n xs 0 t
  | pending {n : Nat} {xs : Multiset (κ × υ)} {c0 c1 c2 xc : Node κ υ} (p q e : κ × υ) :
    Shape n c0 → Shape n c1 → Shape n c2 → Shape n xc →
    c0.bag + {p} + c1.bag + {q} + c2.bag + {e} + xc.bag = xs →
    Grown (n + 1) xs 1 (mk (some p) (some q) c0 c1 c2 (some e) xc)

/-- The halves of a pending node. -/
theorem Grown.split {xs : Multiset (κ × υ)} (h : Grown n xs 1 t) {top : Node κ υ}
    (htop : top.isNull = false) : ∃ m l r, splitUp comp t top = some (m, l, r) ∧
      Shape n l ∧ Shape n r ∧ l.bag + {m} + r.bag = xs := by
  cases h with
  | pending p q e h0 h1 h2 hx hxs =>
    by_cases hp : comp e.1 p.1 < 0
    · refine ⟨_, _, _, splitUp_left htop hp, .two e hx h0, .two q h1 h2, ?_⟩
      rw [bag_two, bag_two, ← hxs]
      abel
    · by_cases hq : comp e.1 q.1 < 0
      · refine ⟨_, _, _, splitUp_mid htop hp hq, .two p h0 hx, .two q h1 h2, ?_⟩
        rw [bag_two, bag_two, ← hxs]
        abel
      · refine ⟨_, _, _, splitUp_right htop hp hq, .two p h0 h1, .two e hx h2, ?_⟩
        rw [bag_two, bag_two, ← hxs]
        abel

/-- A child in its node: a tree with more pairs can be put in its place, and so can the
    halves of one, with the pair between them. -/
structure Slot (n : Nat) (root : Node κ υ) (full : Bool) (i : Nat) (c : Node κ υ) : Prop where
  child : root.child i = some c
  shape : Shape n c
  sub : ∀ x ∈ c.toList, x ∈ root.toList
  set : ∀ (c' : Node κ υ) (extra : Multiset (κ × υ)), Shape n c' → c'.bag = extra + c.bag →
    Grown (n + 1) (extra + root.bag) 0 (root.setChild i c')
  take : ∀ (m : κ × υ) (l r : Node κ υ) (extra : Multiset (κ × υ)), Shape n l → Shape n r →
    l.bag + {m} + r.bag = extra + c.bag →
    ∃ st t', (root.setChild i r).takeSplit m l = (st, t') ∧
      Grown (n + 1) (extra + root.bag) st t' ∧ (st = 1 ↔ full = true)

section
variable {p q : κ × υ} {c0 c1 c2 : Node κ υ}

theorem slot_two_zero (h0 : Shape n c0) (h1 : Shape n c1) :
    Slot n (mk (some p) none c0 c1 null none null) false 0 c0 where
  child := rfl
  shape := h0
  sub x hx := by simp [hx]
  set c' extra hc' hbag := by
    refine .done (.two p hc' h1) ?_
    rw [Node.setChild, bag_two, bag_two, hbag]
    abel
  take m l r extra hl hr hbag := by
    refine ⟨0, _, rfl, .done (.three p m hr hl h1) ?_, by decide⟩
    rw [bag_three, bag_two]
    calc r.bag + {p} + l.bag + {m} + c1.bag = {p} + c1.bag + (l.bag + {m} + r.bag) := by abel
      _ = {p} + c1.bag + (extra + c0.bag) := by rw [hbag]
      _ = extra + (c0.bag + {p} + c1.bag) := by abel

theorem slot_two_one (h0 : Shape n c0) (h1 : Shape n c1) :
    Slot n (mk (some p) none c0 c1 null none null) false 1 c1 where
  child := rfl
  shape := h1
  sub x hx := by simp [hx]
  set c' extra hc' hbag := by
    refine .done (.two p h0 hc') ?_
    rw [Node.setChild, bag_two, bag_two, hbag]
    abel
  take m l r extra hl hr hbag := by
    refine ⟨0, _, rfl, .done (.three p m h0 hl hr) ?_, by decide⟩
    rw [bag_three, bag_two]
    calc c0.bag + {p} + l.bag + {m} + r.bag = c0.bag + {p} + (l.bag + {m} + r.bag) := by abel
      _ = c0.bag + {p} + (extra + c1.bag) := by rw [hbag]
      _ = extra + (c0.bag + {p} + c1.bag) := by abel

theorem slot_three_zero (h0 : Shape n c0) (h1 : Shape n c1) (h2 : Shape n c2) :
    Slot n (mk (some p) (some q) c0 c1 c2 none null) true 0 c0 where
  child := rfl
  shape := h0
  sub x hx := by simp [hx]
  set c' extra hc' hbag := by
    refine .done (.three p q hc' h1 h2) ?_
    rw [Node.setChild, bag_three, bag_three, hbag]
    abel
  take m l r extra hl hr hbag := by
    refine ⟨1, _, rfl, .pending p q m hr h1 h2 hl ?_, by decide⟩
    rw [bag_three]
    calc r.bag + {p} + c1.bag + {q} + c2.bag + {m} + l.bag
        = {p} + c1.bag + {q} + c2.bag + (l.bag + {m} + r.bag) := by abel
      _ = {p} + c1.bag + {q} + c2.bag + (extra + c0.bag) := by rw [hbag]
      _ = extra + (c0.bag + {p} + c1.bag + {q} + c2.bag) := by abel

theorem slot_three_one (h0 : Shape n c0) (h1 : Shape n c1) (h2 : Shape n c2) :
    Slot n (mk (some p) (some q) c0 c1 c2 none null) true 1 c1 where
  child := rfl
  shape := h1
  sub x hx := by simp [hx]
  set c' extra hc' hbag := by
    refine .done (.three p q h0 hc' h2) ?_
    rw [Node.setChild, bag_three, bag_three, hbag]
    abel
  take m l r extra hl hr hbag := by
    refine ⟨1, _, rfl, .pending p q m h0 hr h2 hl ?_, by decide⟩
    rw [bag_three]
    calc c0.bag + {p} + r.bag + {q} + c2.bag + {m} + l.bag
        = c0.bag + {p} + {q} + c2.bag + (l.bag + {m} + r.bag) := by abel
      _ = c0.bag + {p} + {q} + c2.bag + (extra + c1.bag) := by rw [hbag]
      _ = extra + (c0.bag + {p} + c1.bag + {q} + c2.bag) := by abel

theorem slot_three_two (h0 : Shape n c0) (h1 : Shape n c1) (h2 : Shape n c2) :
    Slot n (mk (some p) (some q) c0 c1 c2 none null) true 2 c2 where
  child := rfl
  shape := h2
  sub x hx := by simp [hx]
  set c' extra hc' hbag := by
    refine .done (.three p q h0 h1 hc') ?_
    show (mk (some p) (some q) c0 c1 c' none null).bag = _
    rw [bag_three, bag_three, hbag]
    abel
  take m l r extra hl hr hbag := by
    refine ⟨1, _, rfl, .pending p q m h0 h1 hr hl ?_, by decide⟩
    rw [bag_three]
    calc c0.bag + {p} + c1.bag + {q} + r.bag + {m} + l.bag
        = c0.bag + {p} + c1.bag + {q} + (l.bag + {m} + r.bag) := by abel
      _ = c0.bag + {p} + c1.bag + {q} + (extra + c2.bag) := by rw [hbag]
      _ = extra + (c0.bag + {p} + c1.bag + {q} + c2.bag) := by abel

end

/-- The child that an insertion goes to. -/
theorem Shape.slot_way {p : κ × υ} {kv1 : Option (κ × υ)} {c0 c1 c2 : Node κ υ} (key : κ)
    (hs : Shape (n + 1) (mk (some p) kv1 c0 c1 c2 none null)) :
    ∃ c, Slot n (mk (some p) kv1 c0 c1 c2 none null) kv1.isSome (way comp key (some p) kv1) c := by
  cases hs with
  | two _ h0 h1 =>
    by_cases hlt : comp key p.1 < 0
    · rw [way, if_pos hlt]
      exact ⟨c0, slot_two_zero h0 h1⟩
    · rw [way, if_neg hlt]
      exact ⟨c1, slot_two_one h0 h1⟩
  | three _ q h0 h1 h2 =>
    by_cases hlt : comp key p.1 < 0
    · rw [way, if_pos hlt]
      exact ⟨c0, slot_three_zero h0 h1 h2⟩
    · by_cases hlt' : comp key q.1 < 0
      · rw [way, if_neg hlt, if_pos hlt']
        exact ⟨c1, slot_three_one h0 h1 h2⟩
      · rw [way, if_neg hlt, if_neg hlt']
        exact ⟨c2, slot_three_two h0 h1 h2⟩

/-! The nodes that a split chain needs. -/

variable (comp) in
/-- The nodes that `recursive_insert` allocates for a new key: one for every child on the
    way that splits. -/
def nodesBelow (key : κ) : Node κ υ → Nat
  | null => 0
  | mk kv0 kv1 c0 c1 c2 _ _ =>
    match way comp key kv0 kv1 with
    | 0 => if c0.isNull then 0 else nodesBelow key c0 + (splits comp key c0).toNat
    | 1 => if c1.isNull then 0 else nodesBelow key c1 + (splits comp key c1).toNat
    | _ => if c2.isNull then 0 else nodesBelow key c2 + (splits comp key c2).toNat

variable (comp) in
/-- The nodes of the whole call: two more where the root splits. -/
def nodesNeeded (key : κ) (root : Node κ υ) : Nat :=
  nodesBelow comp key root + if splits comp key root then 2 else 0

section
variable {key : κ} {kv0 kv1 x : Option (κ × υ)} {c c0 c1 c2 xc : Node κ υ}

theorem nodesBelow_child (hc : (mk kv0 kv1 c0 c1 c2 x xc).child (way comp key kv0 kv1) = some c) :
    nodesBelow comp key (mk kv0 kv1 c0 c1 c2 x xc) =
      if c.isNull then 0 else nodesBelow comp key c + (splits comp key c).toNat := by
  rw [nodesBelow]
  rcases child_cases hc with ⟨hw, rfl⟩ | ⟨hw, rfl⟩ | ⟨hw, rfl⟩
  · simp only [hw]
  · simp only [hw]
  · simp only [hw]

theorem splits_child (hc : (mk kv0 kv1 c0 c1 c2 x xc).child (way comp key kv0 kv1) = some c) :
    splits comp key (mk kv0 kv1 c0 c1 c2 x xc) = (kv1.isSome && splits comp key c) := by
  rw [splits]
  rcases child_cases hc with ⟨hw, rfl⟩ | ⟨hw, rfl⟩ | ⟨hw, rfl⟩
  · simp only [hw]
  · simp only [hw]
  · simp only [hw]

end

variable (comp) in
/-- What `recursive_insert` does with a tree of depth `n`: with the nodes that it needs it
    takes the pair in, without them it dereferences NULL. -/
def Outcome (pair : κ × υ) (n : Nat) (t : Node κ υ) : Prop := ∃ st t',
  (∀ mallocs, Succeed mallocs (nodesBelow comp pair.1 t) → recursiveInsert comp pair t mallocs =
    some ((st, t'), mallocs.drop (nodesBelow comp pair.1 t))) ∧
  (∀ mallocs, ¬Succeed mallocs (nodesBelow comp pair.1 t) →
    recursiveInsert comp pair t mallocs = none) ∧
  Grown n ({pair} + t.bag) st t' ∧ (st = 1 ↔ splits comp pair.1 t = true)

/-- A leaf allocates nothing. -/
theorem outcome_leaf {pair p : κ × υ} {kv1 : Option (κ × υ)}
    (ha : Absent comp pair.1 (mk (some p) kv1 null null null none null).toList) :
    Outcome comp pair 1 (mk (some p) kv1 null null null none null) := by
  have hp : comp pair.1 p.1 ≠ 0 := ha p (by simp [Node.toList])
  have hnodes : nodesBelow comp pair.1 (mk (some p) kv1 null null null none null) = 0 := by
    rw [nodesBelow]
    split <;> rfl
  have hsplits : splits comp pair.1 (mk (some p) kv1 null null null none null) = kv1.isSome := by
    rw [splits]
    split <;> simp [splits]
  rw [Outcome, hnodes, hsplits]
  cases kv1 with
  | none =>
    by_cases hpos : 0 < comp pair.1 p.1
    · refine ⟨0, mk (some p) (some pair) null null null none null,
        fun mallocs _ => by simp [recursiveInsert, hp, hpos],
        fun mallocs h => absurd (succeed_zero mallocs) h,
        .done (.three p pair .empty .empty .empty) ?_, by simp⟩
      rw [bag_three, bag_two, bag_null]
      abel
    · refine ⟨0, mk (some pair) (some p) null null null none null,
        fun mallocs _ => by simp [recursiveInsert, hp, hpos],
        fun mallocs h => absurd (succeed_zero mallocs) h,
        .done (.three pair p .empty .empty .empty) ?_, by simp⟩
      rw [bag_three, bag_two, bag_null]
      abel
  | some q =>
    refine ⟨1, mk (some p) (some q) null null null (some pair) null,
      fun mallocs _ => by simp [recursiveInsert],
      fun mallocs h => absurd (succeed_zero mallocs) h,
      .pending p q pair .empty .empty .empty .empty ?_, by simp⟩
    rw [bag_three, bag_null]
    abel

theorem recursiveInsert_outcome {pair : κ × υ} (hs : Shape (n + 1) t)
    (ha : Absent comp pair.1 t.toList) : Outcome comp pair (n + 1) t := by
  induction n generalizing t with
  | zero =>
    obtain ⟨p, kv1, c0, c1, c2, rfl, -, hleaf⟩ := hs.succ_form
    obtain ⟨rfl, rfl, rfl⟩ := hleaf rfl
    exact outcome_leaf ha
  | succ n ih =>
    obtain ⟨p, kv1, c0, c1, c2, rfl, h0, -⟩ := hs.succ_form
    rw [decide_eq_false n.succ_ne_zero] at h0
    have hp : comp pair.1 p.1 ≠ 0 := ha p (by simp [Node.toList])
    have hq : ∀ q ∈ kv1, comp pair.1 q.1 ≠ 0 := by
      rintro q rfl
      exact ha q (by simp [Node.toList])
    obtain ⟨c, hslot⟩ := @Shape.slot_way _ _ comp _ _ _ _ _ _ pair.1 hs
    have hdescend := recursiveInsert_descend h0 hp hq hslot.child
    obtain ⟨st, c', hok, hfail, hgrown, hst⟩ := ih hslot.shape fun x hx => ha x (hslot.sub x hx)
    rw [Outcome, nodesBelow_child hslot.child, splits_child hslot.child, hslot.shape.isNull_succ,
      if_neg Bool.false_ne_true]
    cases hsp : splits comp pair.1 c with
    | false =>
      -- the child takes the pair in
      cases hgrown with
      | pending => exact absurd (hst.1 rfl) (by simp [hsp])
      | done hshape hbag =>
        refine ⟨0, _, fun mallocs h => ?_, fun mallocs h => ?_, hslot.set c' {pair} hshape hbag,
          by simp⟩
        · rw [hdescend, hok mallocs h]
          rfl
        · rw [hdescend, hfail mallocs h]
          rfl
    | true =>
      obtain rfl := hst.2 hsp
      obtain ⟨m, l, r, hsplit, hl, hr, hbag⟩ :=
        @Grown.split _ _ comp _ _ _ hgrown _ (isNull_mk none none null null null none null)
      obtain ⟨st', t', htake, hgrown', hfull⟩ := hslot.take m l r {pair} hl hr hbag
      have hneed : ∀ mallocs, Succeed mallocs (nodesBelow comp pair.1 c + 1) ↔
          Succeed mallocs (nodesBelow comp pair.1 c) ∧
            (malloc (mallocs.drop (nodesBelow comp pair.1 c))).1 = true := fun mallocs => by
        rw [succeed_add, succeed_succ]
        simp [succeed_zero]
      refine ⟨st', t', fun mallocs h => ?_, fun mallocs h => ?_, hgrown', by simpa using hfull⟩
      · obtain ⟨hc, hm⟩ := (hneed mallocs).1 h
        rw [hdescend, hok mallocs hc, Option.bind_some, resume, if_neg (by decide),
          nodeConstructor_ok hm]
        simp [hsplit, htake, malloc_drop]
      · rw [Bool.toNat_true, hneed, not_and] at h
        by_cases hc : Succeed mallocs (nodesBelow comp pair.1 c)
        · -- `split_up` writes to the node that is not there
          have hm : (malloc (mallocs.drop (nodesBelow comp pair.1 c))).1 = false := by
            simpa using h hc
          rw [hdescend, hok mallocs hc, Option.bind_some, resume, if_neg (by decide),
            nodeConstructor_fail hm]
          simp [splitUp_null]
        · rw [hdescend, hfail mallocs hc]
          rfl

/-! The whole call. -/

/-- The pair has been added: nothing is pending, and the tree has the old pairs and it. -/
structure Added (pair : κ × υ) (desc desc' : Descriptor κ υ) : Prop where
  shape : ∃ n, Shape n desc'.root
  pairs : desc'.root.toList.Perm (pair :: desc.root.toList)
  size : desc'.size = desc.size + 1

variable (comp) in
/-- Nothing has happened: nothing is pending, and search finds the old pairs, of which there
    are as many. -/
structure Kept (desc desc' : Descriptor κ υ) : Prop where
  shape : ∃ n, Shape n desc'.root
  pairs : desc'.root.toList.Perm desc.root.toList
  size : desc'.size = desc.size
  found : ∀ k v, (k, v) ∈ desc.root.toList → ∃ iter, ptrAt comp desc' k = some (0, some iter) ∧
    iteratorDeref desc'.root iter = some (k, v)

variable (comp) in
def Atomic (pair : κ × υ) (desc : Descriptor κ υ)
    (r : Option ((Int32 × Descriptor κ υ) × List Bool)) : Prop :=
  ∃ stat desc' rest, r = some ((stat, desc'), rest) ∧
    ((stat = 0 ∧ Added pair desc desc') ∨ (stat = -1 ∧ Kept comp desc desc'))

theorem Kept.refl (ho : TotalOrder comp) {desc : Descriptor κ υ} (hv : Valid comp desc) :
    Kept comp desc desc where
  shape := hv.shape
  pairs := .refl _
  size := rfl
  found k v hkv := by
    obtain ⟨n, hs⟩ := hv.shape
    have hn := hs.depth_le hv.size
    obtain ⟨path, which, e, hd⟩ := @recursiveSearch_mem _ _ comp n _ [] ho k v hs
      (hs.sorted ho hv.ordered) hkv (by simp; omega)
    exact ⟨_, e, hd⟩

theorem perm_of_bag {xs : List (κ × υ)} {pair : κ × υ}
    (h : t.bag = {pair} + (xs : Multiset (κ × υ))) : t.toList.Perm (pair :: xs) := by
  rw [← Multiset.coe_eq_coe]
  exact h

/-- One of the two copies fails, or the call goes on. -/
theorem insert_copied (comp : κ → κ → Int) (desc : Descriptor κ υ) (pair : κ × υ) :
    (mallocs : List Bool) →
    (¬Succeed mallocs 2 ∧ ∃ rest, insert comp desc pair mallocs = some ((-1, desc), rest)) ∨
      Succeed mallocs 2 ∧ insert comp desc pair mallocs =
        insert comp desc pair (true :: true :: mallocs.drop 2)
  | [] => .inr ⟨by simp [Succeed], rfl⟩
  | [true] => .inr ⟨by simp [Succeed], rfl⟩
  | true :: true :: mallocs => .inr ⟨by simp [Succeed], rfl⟩
  | true :: false :: mallocs => .inl ⟨by simp [Succeed], mallocs, rfl⟩
  | false :: mallocs => .inl ⟨by simp [Succeed], mallocs, rfl⟩

/-- The call on an empty tree, the copies made. -/
theorem insert_empty (size : UInt32) (pair : κ × υ) (mallocs : List Bool) :
    insert comp ⟨size, null⟩ pair (true :: true :: mallocs) =
      if (malloc mallocs).1 = true then
        some ((0, ⟨size + 1, mk (some pair) none null null null none null⟩), (malloc mallocs).2)
      else some ((-1, ⟨size, null⟩), (malloc mallocs).2) := by
  cases hm : (malloc mallocs).1 with
  | true =>
    have e : recursiveInsert comp pair null mallocs =
        some ((0, mk (some pair) none null null null none null), (malloc mallocs).2) := by
      simp [recursiveInsert, nodeConstructor_ok hm]
    simp only [insert, malloc_cons, e, Option.bind_eq_bind, Option.bind_some, true_or, if_true]
    rfl
  | false =>
    have e : recursiveInsert comp pair null mallocs = some ((-1, null), (malloc mallocs).2) := by
      simp [recursiveInsert, nodeConstructor_fail hm]
    have hsize : size + (-1 + 1 : Int32).toUInt32 = size := UInt32.add_zero size
    simp only [insert, malloc_cons, e, Option.bind_eq_bind, Option.bind_some, or_true, if_true,
      hsize]
    rfl

/-- The call on a tree that takes the pair in without growing. -/
theorem insert_inside {desc : Descriptor κ υ} {pair : κ × υ} {t' : Node κ υ}
    {rest : List Bool} (e : recursiveInsert comp pair desc.root mallocs = some ((0, t'), rest)) :
    insert comp desc pair (true :: true :: mallocs) = some ((0, ⟨desc.size + 1, t'⟩), rest) := by
  have hone : Int32.toUInt32 0 + Int32.toUInt32 1 = 1 := rfl
  simp [insert, malloc_cons, e, hone]

/-- The call on a tree whose root waits to be split. -/
theorem insert_root {desc : Descriptor κ υ} {pair m : κ × υ} {t' l r : Node κ υ}
    {rest : List Bool} (e : recursiveInsert comp pair desc.root mallocs = some ((1, t'), rest))
    (hsplit : splitUp comp t' (mk none none null null null none null) = some (m, l, r)) :
    insert comp desc pair (true :: true :: mallocs) =
      if (malloc rest).1 = true then
        if (malloc rest.tail).1 = true then
          some ((0, ⟨desc.size + 1, mk (some m) none l r null none null⟩), rest.drop 2)
        else some ((-1, ⟨desc.size, r⟩), rest.drop 2)
      else some ((-1, ⟨desc.size, t'⟩), rest.tail) := by
  have h₁ : (malloc rest).2 = rest.tail := by rw [malloc_eq]
  have h₂ : (malloc rest.tail).2 = rest.drop 2 := by
    rw [malloc_eq, ← List.drop_one, ← List.drop_one, List.drop_drop]
  cases hm : (malloc rest).1 with
  | false => simp [insert, malloc_cons, e, nodeConstructor_fail hm, h₁]
  | true =>
    cases hm' : (malloc rest.tail).1 with
    | false =>
      simp [insert, malloc_cons, e, nodeConstructor_ok hm, h₁, hsplit, nodeConstructor_fail hm', h₂]
    | true =>
      simp [insert, malloc_cons, e, nodeConstructor_ok hm, h₁, hsplit, nodeConstructor_ok hm', h₂]

theorem succeed_nil (k : Nat) : Succeed [] k := by
  intro b hb
  rw [List.take_nil] at hb
  cases hb

theorem not_shape_pending {p q e : κ × υ} {c0 c1 c2 xc : Node κ υ} :
    ¬Shape n (mk (some p) (some q) c0 c1 c2 (some e) xc) := nofun

/-- The right half of the root alone is not the tree. -/
theorem not_kept_half {desc desc' : Descriptor κ υ} {pair m : κ × υ} {l r : Node κ υ}
    (hl : Shape (n + 1) l) (hr : desc'.root = r)
    (hbag : l.bag + {m} + r.bag = {pair} + desc.root.bag) : ¬Kept comp desc desc' := by
  intro hk
  have hcard := congrArg Multiset.card hbag
  have hperm := hk.pairs.length_eq
  have hpow := hl.two_pow_le
  have hpos : 2 ≤ 2 ^ (n + 1) := Nat.le_self_pow (by omega) 2
  simp only [Multiset.card_add, Multiset.card_singleton, Node.bag, Multiset.coe_card] at hcard
  rw [hr] at hperm
  omega

/-- The call whose root waits to be split: one node for the right half, one for the new
    root. -/
theorem insert_root_outcome {desc : Descriptor κ υ} {pair m : κ × υ} {t' l r : Node κ υ}
    {rest : List Bool} (e : recursiveInsert comp pair desc.root mallocs = some ((1, t'), rest))
    (hsplit : splitUp comp t' (mk none none null null null none null) = some (m, l, r))
    (hpend : ∀ k, ¬Shape k t') (hl : Shape (n + 1) l) (hr : Shape (n + 1) r)
    (hbag : l.bag + {m} + r.bag = {pair} + desc.root.bag) :
    Atomic comp pair desc (insert comp desc pair (true :: true :: mallocs)) ↔ Succeed rest 2 := by
  rw [insert_root e hsplit, succeed_succ, succeed_succ, and_iff_left (succeed_zero _)]
  have htail : ∀ l : List Bool, (malloc l).2 = l.tail := fun l => by rw [malloc_eq]
  rw [htail]
  cases hm : (malloc rest).1 with
  | false =>
    rw [if_neg Bool.false_ne_true]
    apply iff_of_false _ (fun h => Bool.false_ne_true h.1)
    rintro ⟨stat, desc', rest', e', h⟩
    cases e'
    rcases h with ⟨h, -⟩ | ⟨-, hk⟩
    · cases h
    · -- the old root is left pending
      obtain ⟨k, hs'⟩ := hk.shape
      exact hpend k hs'
  | true =>
    rw [if_pos rfl]
    cases hm' : (malloc rest.tail).1 with
    | false =>
      rw [if_neg Bool.false_ne_true]
      apply iff_of_false _ (fun h => Bool.false_ne_true h.2)
      rintro ⟨stat, desc', rest', e', h⟩
      cases e'
      rcases h with ⟨h, -⟩ | ⟨-, hk⟩
      · cases h
      · -- the left half is lost
        exact not_kept_half hl rfl hbag hk
    | true =>
      rw [if_pos rfl]
      apply iff_of_true _ ⟨rfl, rfl⟩
      refine ⟨0, _, _, rfl, .inl ⟨rfl, ⟨_, .two m hl hr⟩, ?_, rfl⟩⟩
      apply perm_of_bag
      rw [bag_two, hbag]
      rfl

/-- The nodes decide only whether that call returns 0. -/
theorem insert_root_same {desc : Descriptor κ υ} {pair m : κ × υ} {t' l r : Node κ υ}
    {mallocs' rest rest' : List Bool}
    (e : recursiveInsert comp pair desc.root mallocs = some ((1, t'), rest))
    (e' : recursiveInsert comp pair desc.root mallocs' = some ((1, t'), []))
    (hsplit : splitUp comp t' (mk none none null null null none null) = some (m, l, r))
    {desc' : Descriptor κ υ}
    (h : insert comp desc pair (true :: true :: mallocs) = some ((0, desc'), rest')) :
    ∃ rest'', insert comp desc pair (true :: true :: mallocs') = some ((0, desc'), rest'') := by
  rw [insert_root e hsplit] at h
  rw [insert_root e' hsplit]
  split at h
  · split at h
    · cases h
      exact ⟨_, rfl⟩
    · cases h
  · cases h

/-- A call that has made its copies, on a tree with pairs. -/
theorem insert_outcome {desc : Descriptor κ υ} (hs : Shape (n + 1) desc.root) {pair : κ × υ}
    (ha : Absent comp pair.1 desc.root.toList) (mallocs : List Bool) :
    (Atomic comp pair desc (insert comp desc pair (true :: true :: mallocs)) ↔
      Succeed mallocs (nodesNeeded comp pair.1 desc.root)) ∧
    ∀ desc' rest, insert comp desc pair (true :: true :: mallocs) = some ((0, desc'), rest) →
      ∃ rest', insert comp desc pair [true, true] = some ((0, desc'), rest') := by
  obtain ⟨st, t', hok, hfail, hgrown, hst⟩ := recursiveInsert_outcome hs ha
  have hnil := hok [] (succeed_nil _)
  rw [List.drop_nil] at hnil
  by_cases hb : Succeed mallocs (nodesBelow comp pair.1 desc.root)
  · have hcall := hok mallocs hb
    cases hgrown with
    | done hshape hbag =>
      have hsp : splits comp pair.1 desc.root = false := by
        rw [← Bool.not_eq_true, ← hst]
        decide
      rw [nodesNeeded, hsp, if_neg Bool.false_ne_true, Nat.add_zero, insert_inside hcall,
        insert_inside hnil]
      refine ⟨iff_of_true ⟨0, _, _, rfl, .inl ⟨rfl, ⟨_, hshape⟩, perm_of_bag hbag, rfl⟩⟩ hb, ?_⟩
      intro desc' rest e
      cases e
      exact ⟨_, rfl⟩
    | @pending _ _ c0 c1 c2 xc p q e h0 h1 h2 hx hbag =>
      have hsp : splits comp pair.1 desc.root = true := hst.1 rfl
      obtain ⟨m, l, r, hsplit, hl, hr, hbag⟩ := @Grown.split _ _ comp _ _ _
        (.pending p q e h0 h1 h2 hx hbag) _ (isNull_mk none none null null null none null)
      constructor
      · rw [nodesNeeded, hsp, if_pos rfl, succeed_add, and_iff_right hb]
        exact insert_root_outcome hcall hsplit (fun _ => not_shape_pending) hl hr hbag
      · intro desc' rest
        exact insert_root_same hcall hnil hsplit
  · -- the call below meets the missing node
    have hnone : insert comp desc pair (true :: true :: mallocs) = none := by
      simp [insert, malloc_cons, hfail mallocs hb]
    rw [hnone]
    constructor
    · apply iff_of_false
      · rintro ⟨stat, desc', rest, e, -⟩
        cases e
      · intro h
        exact hb ((succeed_add _ _ _).1 h).1
    · intro desc' rest e
      cases e

/-- **Allocation failures.** Inserting a new key adds it or changes nothing exactly when
    one of the copies fails, or the tree is empty, or the split chain gets all its nodes;
    and a call that returns 0 has done what it does when no allocation fails. -/
theorem insert_atomic (ho : TotalOrder comp) {desc : Descriptor κ υ} (hv : Valid comp desc)
    {pair : κ × υ} (hnew : ∀ p ∈ desc.root.toList, p.1 ≠ pair.1) (mallocs : List Bool) :
    (Atomic comp pair desc (insert comp desc pair mallocs) ↔
      ¬Succeed mallocs 2 ∨ desc.root = null ∨
        Succeed mallocs (2 + nodesNeeded comp pair.1 desc.root)) ∧
    ∀ desc' rest, insert comp desc pair mallocs = some ((0, desc'), rest) →
      ∃ rest', insert comp desc pair [] = some ((0, desc'), rest') := by
  have ha : Absent comp pair.1 desc.root.toList := by
    intro p hp h
    exact hnew p hp ((ho.eq_iff _ _).1 h).symm
  have hall : insert comp desc pair [] = insert comp desc pair [true, true] := rfl
  rcases insert_copied comp desc pair mallocs with ⟨h, rest, e⟩ | ⟨h, e⟩
  · rw [e]
    exact ⟨iff_of_true ⟨-1, desc, rest, rfl, .inr ⟨rfl, .refl ho hv⟩⟩ (.inl h), nofun⟩
  · rw [e, succeed_add, and_iff_right h, or_iff_right (not_not.2 h), hall]
    obtain ⟨n, hs⟩ := hv.shape
    cases n with
    | succ n =>
      have hne : desc.root ≠ null := by
        intro hnull
        have hfalse := hs.isNull_succ
        rw [hnull] at hfalse
        cases hfalse
      rw [or_iff_right hne]
      exact insert_outcome hs ha _
    | zero =>
      obtain ⟨size, root⟩ := desc
      obtain rfl : root = null := hs.eq_null
      rw [insert_empty, insert_empty]
      cases hm : (malloc (mallocs.drop 2)).1 with
      | false =>
        rw [if_neg Bool.false_ne_true]
        exact ⟨iff_of_true ⟨-1, _, _, rfl, .inr ⟨rfl, .refl ho hv⟩⟩ (.inl rfl), nofun⟩
      | true =>
        rw [if_pos rfl]
        refine ⟨iff_of_true ⟨0, _, _, rfl, .inl ⟨rfl, ⟨1, shape_leaf pair⟩, .refl _, rfl⟩⟩
          (.inl rfl), ?_⟩
        intro desc' rest e'
        cases e'
        exact ⟨_, rfl⟩

end

/-- The root is a full leaf and is split, and the new root is not there: the tree keeps
    only the right half. -/
theorem insert_atomic_fails : Valid byValue fullLeaf ∧
    (∀ p ∈ fullLeaf.root.toList, p.1 ≠ (3 : UInt64)) ∧
    ∃ desc', insert byValue fullLeaf (3, 30) [true, true, true, false] =
        some ((-1, desc'), []) ∧ desc'.root.toList = [(3, 30)] :=
  ⟨fullLeaf_valid, by simp [fullLeaf], _, rfl, rfl⟩

theorem insert_atomic_inner :
    Atomic byValue (4, 40) innerNode (insert byValue innerNode (4, 40) [true, true, false]) := by
  have hnew : ∀ p ∈ innerNode.root.toList, p.1 ≠ ((4, 40) : UInt64 × UInt64).1 := by
    simp [innerNode]
  refine (insert_atomic byValue_total innerNode_valid hnew [true, true, false]).1.2 (.inr (.inr ?_))
  unfold Succeed
  decide

end Zhwkrfsp.BTree
