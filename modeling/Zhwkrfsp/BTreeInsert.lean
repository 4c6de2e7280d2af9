import Zhwkrfsp.BTree
import Zhwkrfsp.SortedPairs

/- Valid 2-3 trees, and insertion into them. `Shape n` says that all leaves are at depth
   `n` and that a node has one child more than pairs; `toList` is the tree read from left
   to right. A subtree splits when every node on the way to the leaf is full (`splits`).
   A node with one pair whose child 0 splits puts the promoted pair and the left half in
   the wrong places; on every path without such a node (`safe`) an insertion puts the
   pair in its place. -/
namespace Zhwkrfsp.BTree
open Node

section
variable {κ υ : Type}

/-- A tree of depth `n` with all leaves at that depth and nothing pending. -/
inductive Shape : Nat → Node κ υ → Prop
  | empty : Shape 0 null
  | two {n : Nat} {c0 c1 : Node κ υ} (p : κ × υ) : Shape n c0 → Shape n c1 →
    Shape (n + 1) (mk (some p) none c0 c1 null none null)
  | three {n : Nat} {c0 c1 c2 : Node κ υ} (p q : κ × υ) : Shape n c0 → Shape n c1 → Shape n c2 →
    Shape (n + 1) (mk (some p) (some q) c0 c1 c2 none null)

/-- The pairs from left to right. -/
def Node.toList : Node κ υ → List (κ × υ)
  | null => []
  | mk kv0 kv1 c0 c1 c2 _ _ =>
    c0.toList ++ (kv0.toList ++ (c1.toList ++ (kv1.toList ++ c2.toList)))

@[simp] theorem toList_null : (null : Node κ υ).toList = [] := rfl

@[simp] theorem toList_two (p : κ × υ) (c0 c1 : Node κ υ) :
    (mk (some p) none c0 c1 null none null).toList = c0.toList ++ p :: c1.toList := by
  simp [Node.toList]

@[simp] theorem toList_three (p q : κ × υ) (c0 c1 c2 : Node κ υ) :
    (mk (some p) (some q) c0 c1 c2 none null).toList =
      c0.toList ++ p :: (c1.toList ++ q :: c2.toList) := by
  simp [Node.toList]

variable (comp : κ → κ → Int)

/-- In every node `kv[0]` is below `kv[1]`, and the keys of the children lie between
    the neighbouring keys. -/
def Ordered : Node κ υ → Prop
  | null => True
  | mk kv0 kv1 c0 c1 c2 _ _ => Ordered c0 ∧ Ordered c1 ∧ Ordered c2 ∧
      (∀ p ∈ kv0, ∀ q ∈ kv1, comp p.1 q.1 < 0) ∧
      (∀ p ∈ kv0, (∀ x ∈ c0.toList, comp x.1 p.1 < 0) ∧ ∀ x ∈ c1.toList, comp p.1 x.1 < 0) ∧
      ∀ q ∈ kv1, (∀ x ∈ c1.toList, comp x.1 q.1 < 0) ∧ ∀ x ∈ c2.toList, comp q.1 x.1 < 0

/-- The child that the search for a key that is not in the node goes to. -/
def way (key : κ) (kv0 kv1 : Option (κ × υ)) : Nat :=
  match kv0, kv1 with
  | none, _ => 0
  | some p, none => if comp key p.1 < 0 then 0 else 1
  | some p, some q => if comp key p.1 < 0 then 0 else if comp key q.1 < 0 then 1 else 2

/-- Every node on the way to the leaf is full, so that the insertion of a new key splits
    them all. -/
def splits (key : κ) : Node κ υ → Bool
  | null => true
  | mk kv0 kv1 c0 c1 c2 _ _ => kv1.isSome &&
      match way comp key kv0 kv1 with
      | 0 => splits key c0
      | 1 => splits key c1
      | _ => splits key c2

/-- On the way to the leaf no child 0 of a node with one pair splits. -/
def safe (key : κ) : Node κ υ → Bool
  | null => true
  | mk kv0 kv1 c0 c1 c2 _ _ =>
      match way comp key kv0 kv1 with
      | 0 => safe key c0 && (kv1.isSome || c0.isNull || !splits comp key c0)
      | 1 => safe key c1
      | _ => safe key c2

variable {comp} {n : Nat} {t : Node κ υ}

theorem Shape.isNull (hs : Shape n t) : t.isNull = decide (n = 0) := by
  cases hs <;> simp

theorem Shape.isNull_succ (hs : Shape (n + 1) t) : t.isNull = false := by
  simp [hs.isNull]

theorem Shape.eq_null (hs : Shape 0 t) : t = null := by
  cases hs
  rfl

/-- A tree of depth `n` has at least `2 ^ n - 1` pairs. -/
theorem Shape.two_pow_le (hs : Shape n t) : 2 ^ n ≤ t.toList.length + 1 := by
  induction hs with
  | empty => simp
  | two p _ _ ih0 ih1 =>
    rw [toList_two, List.length_append, List.length_cons, Nat.pow_succ]
    omega
  | three p q _ _ _ ih0 ih1 ih2 =>
    rw [toList_three, List.length_append, List.length_cons, List.length_append, List.length_cons,
      Nat.pow_succ]
    omega

/-- A tree whose pairs 32 bits can count is at most 32 deep. -/
theorem Shape.depth_le (hs : Shape n t) {size : UInt32} (h : size.toNat = t.toList.length) :
    n ≤ 32 := by
  have hpow := hs.two_pow_le
  have hlt := size.toNat_lt
  rw [h] at hlt
  have hle : 2 ^ n ≤ 2 ^ 32 := by omega
  exact (Nat.pow_le_pow_iff_right (by omega)).1 hle

/-- Ascending from left to right, a tree is ordered at every node. -/
theorem Shape.ordered (hs : Shape n t) (hl : Sorted comp t.toList) : Ordered comp t := by
  induction hs with
  | empty => trivial
  | @two n c0 c1 p _ _ ih0 ih1 =>
    rw [toList_two, sorted_append_cons] at hl
    obtain ⟨h0, h1, h0p, hp1, -⟩ := hl
    refine ⟨ih0 h0, ih1 h1, trivial, by simp, ?_, by simp⟩
    intro p' hp'
    cases hp'
    exact ⟨h0p, hp1⟩
  | @three n c0 c1 c2 p q _ _ _ ih0 ih1 ih2 =>
    rw [toList_three, sorted_append_cons, sorted_append_cons] at hl
    obtain ⟨h0, ⟨h1, h2, h1q, hq2, -⟩, h0p, hp, -⟩ := hl
    refine ⟨ih0 h0, ih1 h1, ih2 h2, ?_, ?_, ?_⟩
    · intro p' hp' q' hq'
      cases hp'
      cases hq'
      exact hp q (by simp)
    · intro p' hp'
      cases hp'
      exact ⟨h0p, fun x hx => hp x (by simp [hx])⟩
    · intro q' hq'
      cases hq'
      exact ⟨h1q, hq2⟩

/-! The three cases of a split. -/

section
variable {p q e : κ × υ} {c0 c1 c2 xc top : Node κ υ}

theorem splitUp_left (htop : top.isNull = false) (h : comp e.1 p.1 < 0) :
    splitUp comp (mk (some p) (some q) c0 c1 c2 (some e) xc) top =
      some (p, mk (some e) none xc c0 null none null, mk (some q) none c1 c2 null none null) := by
  cases top with
  | null => cases htop
  | mk => simp [splitUp, h]

theorem splitUp_mid (htop : top.isNull = false) (hp : ¬comp e.1 p.1 < 0) (hq : comp e.1 q.1 < 0) :
    splitUp comp (mk (some p) (some q) c0 c1 c2 (some e) xc) top =
      some (e, mk (some p) none c0 xc null none null, mk (some q) none c1 c2 null none null) := by
  cases top with
  | null => cases htop
  | mk => simp [splitUp, hp, hq]

theorem splitUp_right (htop : top.isNull = false) (hp : ¬comp e.1 p.1 < 0)
    (hq : ¬comp e.1 q.1 < 0) :
    splitUp comp (mk (some p) (some q) c0 c1 c2 (some e) xc) top =
      some (q, mk (some p) none c0 c1 null none null, mk (some e) none xc c2 null none null) := by
  cases top with
  | null => cases htop
  | mk => simp [splitUp, hp, hq]

end

/-! Insertion. -/

variable (comp) in
/-- What the insertion into a tree of depth `n` leaves: a tree that reads `xs`, or one
    that waits to be split and whose halves read `xs` with the promoted pair between. -/
inductive Inserted (n : Nat) (xs : List (κ × υ)) : Int32 → Node κ υ → Prop
  | done {t : Node κ υ} : Shape n t → t.toList = xs → Inserted n xs 0 t
  | pending {t l r : Node κ υ} {p : κ × υ} :
    (∀ top : Node κ υ, top.isNull = false → splitUp comp t top = some (p, l, r)) →
    Shape n l → Shape n r → l.toList ++ p :: r.toList = xs → Inserted n xs 1 t

theorem nodeConstructor_nil :
    nodeConstructor [] = ((mk none none null null null none null : Node κ υ), []) := rfl

/-- A pair on its own. -/
theorem shape_leaf (p : κ × υ) : Shape 1 (mk (some p) none null null null none null) :=
  .two p .empty .empty

variable (comp) in
/-- `recursive_insert` puts `pair` into the tree, of depth `n`, and asks for a split
    exactly when the way to the leaf is full. -/
def Inserts (pair : κ × υ) (n : Nat) (t : Node κ υ) : Prop :=
  ∃ st t', recursiveInsert comp pair t [] = some ((st, t'), []) ∧
    Inserted comp n (insertPair comp pair t.toList) st t' ∧ (st = 1 ↔ splits comp pair.1 t = true)

namespace Inserts
variable {pair p q : κ × υ} {c0 c1 c2 : Node κ υ} (ho : TotalOrder comp)

/-! A leaf. -/

include ho in
theorem leaf_two (hp : comp pair.1 p.1 ≠ 0) :
    Inserts comp pair 1 (mk (some p) none null null null none null) := by
  obtain hlt | hgt := ho.lt_or_gt hp
  · have hng : ¬0 < comp pair.1 p.1 := by omega
    refine ⟨0, mk (some pair) (some p) null null null none null, ?_, ?_, ?_⟩
    · simp [recursiveInsert, hp, hng]
    · refine .done (.three pair p .empty .empty .empty) ?_
      simp [insertPair, hlt]
    · simp [splits]
  · have hpos := (ho.neg_iff _ _).1 hgt
    have hnl : ¬comp pair.1 p.1 < 0 := by omega
    refine ⟨0, mk (some p) (some pair) null null null none null, ?_, ?_, ?_⟩
    · simp [recursiveInsert, hp, hpos]
    · refine .done (.three p pair .empty .empty .empty) ?_
      simp [insertPair, hnl]
    · simp [splits]

theorem leaf_three : Inserts comp pair 1 (mk (some p) (some q) null null null none null) := by
  refine ⟨1, mk (some p) (some q) null null null (some pair) null, ?_, ?_, ?_⟩
  · simp [recursiveInsert]
  · by_cases hp : comp pair.1 p.1 < 0
    · refine .pending (fun top htop => splitUp_left htop hp) (shape_leaf _) (shape_leaf _) ?_
      simp [insertPair, hp]
    · by_cases hq : comp pair.1 q.1 < 0
      · refine .pending (fun top htop => splitUp_mid htop hp hq) (shape_leaf _) (shape_leaf _) ?_
        simp [insertPair, hp, hq]
      · refine .pending (fun top htop => splitUp_right htop hp hq) (shape_leaf _) (shape_leaf _) ?_
        simp [insertPair, hp, hq]
  · simp only [splits, Option.isSome_some, Bool.true_and]
    split <;> simp

/-! A node with one pair takes in the split of child 1. -/

theorem two_left (h0 : Shape (n + 1) c0) (h1 : Shape (n + 1) c1) (hlt : comp pair.1 p.1 < 0)
    (hwhole : splits comp pair.1 c0 = false) (hi : Inserts comp pair (n + 1) c0) :
    Inserts comp pair (n + 2) (mk (some p) none c0 c1 null none null) := by
  obtain ⟨st, t', e, hi, hsp⟩ := hi
  have hp : comp pair.1 p.1 ≠ 0 := by omega
  cases hi with
  | pending => simp [hwhole] at hsp
  | done h0' hxs =>
    refine ⟨0, mk (some p) none t' c1 null none null, ?_, .done (.two p h0' h1) ?_, ?_⟩
    · simp [recursiveInsert, h0.isNull_succ, hp, hlt, e]
    · rw [toList_two, toList_two, hxs, insertPair_left hlt]
    · simp [splits]

include ho in
theorem two_right (h0 : Shape (n + 1) c0) (hgt : comp p.1 pair.1 < 0)
    (hxp : ∀ x ∈ c0.toList, comp x.1 p.1 < 0) (hi : Inserts comp pair (n + 1) c1) :
    Inserts comp pair (n + 2) (mk (some p) none c0 c1 null none null) := by
  obtain ⟨st, t', e, hi, -⟩ := hi
  have hnl := ho.not_lt hgt
  have hp : comp pair.1 p.1 ≠ 0 := by
    have := (ho.neg_iff _ _).1 hgt
    omega
  have hright := @insertPair_right _ _ _ _ p _ c1.toList
    (fun x hx => ho.not_lt (ho.lt_trans (hxp x hx) hgt)) hnl
  cases hi with
  | done h1' hxs =>
    refine ⟨0, mk (some p) none c0 t' null none null, ?_, .done (.two p h0 h1') ?_, ?_⟩
    · simp [recursiveInsert, h0.isNull_succ, hp, hnl, e]
    · rw [toList_two, toList_two, hxs, hright]
    · simp [splits]
  | @pending _ l r m hsplit hl' hr' hxs =>
    refine ⟨0, mk (some p) (some m) c0 l r none null, ?_, .done (.three p m h0 hl' hr') ?_, ?_⟩
    · have hsplit := hsplit (mk none none null null null none null) rfl
      simp [recursiveInsert, h0.isNull_succ, hp, hnl, e, nodeConstructor_nil, hsplit]
    · rw [toList_three, toList_two, hxs, hright]
    · simp [splits]

/-! A full node passes the split of any child on. -/

variable (h0 : Shape (n + 1) c0) (h1 : Shape (n + 1) c1) (h2 : Shape (n + 1) c2)

include h0 h1 h2 in
theorem three_left (hlt : comp pair.1 p.1 < 0) (hxp : ∀ x ∈ c0.toList, comp x.1 p.1 < 0)
    (hi : Inserts comp pair (n + 1) c0) :
    Inserts comp pair (n + 2) (mk (some p) (some q) c0 c1 c2 none null) := by
  obtain ⟨st, t', e, hi, hsp⟩ := hi
  have hp : comp pair.1 p.1 ≠ 0 := by omega
  have hsplits : splits comp pair.1 (mk (some p) (some q) c0 c1 c2 none null) =
      splits comp pair.1 c0 := by simp [splits, way, hlt]
  rw [Inserts, hsplits, toList_three, insertPair_left hlt]
  cases hi with
  | done h0' hxs =>
    refine ⟨0, mk (some p) (some q) t' c1 c2 none null, ?_, .done (.three p q h0' h1 h2) ?_, hsp⟩
    · simp [recursiveInsert, h0.isNull_succ, hp, hlt, e]
    · rw [toList_three, hxs]
  | @pending _ l r m hsplit hl' hr' hxs =>
    have hm : m ∈ insertPair comp pair c0.toList := by simp [← hxs]
    have hmp : comp m.1 p.1 < 0 :=
      forall_insertPair (q := fun x => comp x.1 p.1 < 0) hlt hxp m hm
    refine ⟨1, mk (some p) (some q) r c1 c2 (some m) l, ?_, ?_, hsp⟩
    · have hsplit := hsplit (mk none none null null null none null) rfl
      simp [recursiveInsert, h0.isNull_succ, hp, hlt, e, nodeConstructor_nil, hsplit]
    · refine .pending (fun top htop => splitUp_left htop hmp) (.two m hl' hr') (.two q h1 h2) ?_
      rw [toList_two, toList_two, hxs]

include ho h0 h2 in
theorem three_mid (hgt : comp p.1 pair.1 < 0) (hlt : comp pair.1 q.1 < 0)
    (hxp : ∀ x ∈ c0.toList, comp x.1 p.1 < 0) (hpy : ∀ y ∈ c1.toList, comp p.1 y.1 < 0)
    (hxq : ∀ x ∈ c1.toList, comp x.1 q.1 < 0) (hi : Inserts comp pair (n + 1) c1) :
    Inserts comp pair (n + 2) (mk (some p) (some q) c0 c1 c2 none null) := by
  obtain ⟨st, t', e, hi, hsp⟩ := hi
  have hnl := ho.not_lt hgt
  have hp : comp pair.1 p.1 ≠ 0 := by
    have := (ho.neg_iff _ _).1 hgt
    omega
  have hsplits : splits comp pair.1 (mk (some p) (some q) c0 c1 c2 none null) =
      splits comp pair.1 c1 := by simp [splits, way, hnl, hlt]
  rw [Inserts, hsplits, toList_three,
    insertPair_right (fun x hx => ho.not_lt (ho.lt_trans (hxp x hx) hgt)) hnl, insertPair_left hlt]
  cases hi with
  | done h1' hxs =>
    refine ⟨0, mk (some p) (some q) c0 t' c2 none null, ?_, .done (.three p q h0 h1' h2) ?_, hsp⟩
    · simp [recursiveInsert, h0.isNull_succ, hp, hnl, hlt, e]
    · rw [toList_three, hxs]
  | @pending _ l r m hsplit hl' hr' hxs =>
    have hm : m ∈ insertPair comp pair c1.toList := by simp [← hxs]
    have hmp : ¬comp m.1 p.1 < 0 := ho.not_lt
      (forall_insertPair (q := fun x => comp p.1 x.1 < 0) hgt hpy m hm)
    have hmq : comp m.1 q.1 < 0 :=
      forall_insertPair (q := fun x => comp x.1 q.1 < 0) hlt hxq m hm
    refine ⟨1, mk (some p) (some q) c0 r c2 (some m) l, ?_, ?_, hsp⟩
    · have hsplit := hsplit (mk none none null null null none null) rfl
      simp [recursiveInsert, h0.isNull_succ, hp, hnl, hlt, e, nodeConstructor_nil, hsplit]
    · refine .pending (fun top htop => splitUp_mid htop hmp hmq) (.two p h0 hl') (.two q hr' h2) ?_
      rw [toList_two, toList_two, ← hxs]
      simp

include ho h0 h1 in
theorem three_right (hpq : comp p.1 q.1 < 0) (hgt : comp q.1 pair.1 < 0)
    (hxp : ∀ x ∈ c0.toList, comp x.1 p.1 < 0) (hxq : ∀ x ∈ c1.toList, comp x.1 q.1 < 0)
    (hqy : ∀ y ∈ c2.toList, comp q.1 y.1 < 0) (hi : Inserts comp pair (n + 1) c2) :
    Inserts comp pair (n + 2) (mk (some p) (some q) c0 c1 c2 none null) := by
  obtain ⟨st, t', e, hi, hsp⟩ := hi
  have hgt' := ho.lt_trans hpq hgt
  have hnl := ho.not_lt hgt'
  have hnl' := ho.not_lt hgt
  have hp : comp pair.1 p.1 ≠ 0 := by
    have := (ho.neg_iff _ _).1 hgt'
    omega
  have hq : comp pair.1 q.1 ≠ 0 := by
    have := (ho.neg_iff _ _).1 hgt
    omega
  have hsplits : splits comp pair.1 (mk (some p) (some q) c0 c1 c2 none null) =
      splits comp pair.1 c2 := by simp [splits, way, hnl, hnl']
  rw [Inserts, hsplits, toList_three,
    insertPair_right (fun x hx => ho.not_lt (ho.lt_trans (hxp x hx) hgt')) hnl,
    insertPair_right (fun x hx => ho.not_lt (ho.lt_trans (hxq x hx) hgt)) hnl']
  cases hi with
  | done h2' hxs =>
    refine ⟨0, mk (some p) (some q) c0 c1 t' none null, ?_, .done (.three p q h0 h1 h2') ?_, hsp⟩
    · simp [recursiveInsert, h0.isNull_succ, hp, hnl, hq, hnl', e]
    · rw [toList_three, hxs]
  | @pending _ l r m hsplit hl' hr' hxs =>
    have hm : m ∈ insertPair comp pair c2.toList := by simp [← hxs]
    have hmq : comp q.1 m.1 < 0 :=
      forall_insertPair (q := fun x => comp q.1 x.1 < 0) hgt hqy m hm
    have hmp := ho.not_lt (ho.lt_trans hpq hmq)
    refine ⟨1, mk (some p) (some q) c0 c1 r (some m) l, ?_, ?_, hsp⟩
    · have hsplit := hsplit (mk none none null null null none null) rfl
      simp [recursiveInsert, h0.isNull_succ, hp, hnl, hq, hnl', e, nodeConstructor_nil, hsplit]
    · refine .pending (fun top htop => splitUp_right htop hmp (ho.not_lt hmq)) (.two p h0 h1)
        (.two m hl' hr') ?_
      rw [toList_two, toList_two, hxs]
      simp

end Inserts

/-- The insertion of a new pair along a safe path. -/
theorem recursiveInsert_spec (ho : TotalOrder comp) {pair : κ × υ} (hs : Shape (n + 1) t)
    (hl : Sorted comp t.toList) (ha : Absent comp pair.1 t.toList)
    (hsafe : safe comp pair.1 t = true) : Inserts comp pair (n + 1) t := by
  induction n generalizing t with
  | zero =>
    cases hs with
    | two p h0 h1 =>
      cases h0.eq_null
      cases h1.eq_null
      exact .leaf_two ho (ha p (by simp))
    | three p q h0 h1 h2 =>
      cases h0.eq_null
      cases h1.eq_null
      cases h2.eq_null
      exact .leaf_three
  | succ n ih =>
    cases hs with
    | @two _ c0 c1 p h0 h1 =>
      rw [toList_two] at hl ha
      obtain ⟨hl0, hl1, hxp, -, -⟩ := sorted_append_cons.1 hl
      obtain hlt | hgt := ho.lt_or_gt (ha p (by simp))
      · simp only [safe, way, hlt, if_true, Bool.and_eq_true, Option.isSome_none, Bool.false_or,
          h0.isNull_succ, Bool.not_eq_true'] at hsafe
        exact .two_left h0 h1 hlt hsafe.2 (ih h0 hl0 ha.left hsafe.1)
      · simp only [safe, way, ho.not_lt hgt, if_false] at hsafe
        exact .two_right ho h0 hgt hxp (ih h1 hl1 ha.right.tail hsafe)
    | @three _ c0 c1 c2 p q h0 h1 h2 =>
      rw [toList_three] at hl ha
      obtain ⟨hl0, hl12, hxp, hpy, -⟩ := sorted_append_cons.1 hl
      obtain ⟨hl1, hl2, hxq, hqy, -⟩ := sorted_append_cons.1 hl12
      obtain hlt | hgt := ho.lt_or_gt (ha p (by simp))
      · simp only [safe, way, hlt, if_true, Bool.and_eq_true] at hsafe
        exact .three_left h0 h1 h2 hlt hxp (ih h0 hl0 ha.left hsafe.1)
      · obtain hlt' | hgt' := ho.lt_or_gt (ha q (by simp))
        · simp only [safe, way, ho.not_lt hgt, hlt', if_true, if_false] at hsafe
          exact .three_mid ho h0 h2 hgt hlt' hxp (fun y hy => hpy y (by simp [hy])) hxq
            (ih h1 hl1 ha.right.tail.left hsafe)
        · simp only [safe, way, ho.not_lt hgt, ho.not_lt hgt', if_false] at hsafe
          exact .three_right ho h0 h1 (hpy q (by simp)) hgt' hxp hxq hqy
            (ih h2 hl2 ha.right.tail.right.tail hsafe)

/-- The insertion of a new key whose path is safe. -/
theorem insert_spec (ho : TotalOrder comp) {desc : Descriptor κ υ} {pair : κ × υ}
    (hs : Shape n desc.root) (hl : Sorted comp desc.root.toList)
    (ha : Absent comp pair.1 desc.root.toList) (hsafe : safe comp pair.1 desc.root = true) :
    ∃ n' root, insert comp desc pair [] = some ((0, ⟨desc.size + 1, root⟩), []) ∧
      Shape n' root ∧ root.toList = insertPair comp pair desc.root.toList := by
  have hone : Int32.toUInt32 0 + Int32.toUInt32 1 = 1 := rfl
  cases n with
  | zero =>
    rw [hs.eq_null]
    refine ⟨1, _, ?_, shape_leaf pair, rfl⟩
    simp [insert, malloc, hs.eq_null, recursiveInsert, nodeConstructor_nil, hone]
  | succ n =>
    obtain ⟨st, t', e, hi, -⟩ := recursiveInsert_spec ho hs hl ha hsafe
    cases hi with
    | done hs' hxs => exact ⟨n + 1, t', by simp [insert, malloc, e, hone], hs', hxs⟩
    | @pending _ l r m hsplit hl' hr' hxs =>
      -- the tree grows at the root
      refine ⟨n + 2, mk (some m) none l r null none null, ?_, .two m hl' hr', ?_⟩
      · have hsplit := hsplit (mk none none null null null none null) rfl
        simp [insert, malloc, e, nodeConstructor_nil, hsplit]
      · rw [toList_two, hxs]

/-- Off the safe paths: the call says 0, and the pairs of one node are out of order. -/
theorem recursiveInsert_misplaced (ho : TotalOrder comp) {pair : κ × υ} (hs : Shape n t)
    (hl : Sorted comp t.toList) (ha : Absent comp pair.1 t.toList)
    (hoff : safe comp pair.1 t = false) :
    ∃ t', recursiveInsert comp pair t [] = some ((0, t'), []) ∧ ¬Ordered comp t' := by
  induction hs with
  | empty => cases hoff
  | @two n c0 c1 p h0 h1 ih0 ih1 =>
    rw [toList_two] at hl ha
    obtain ⟨hl0, hl1, hxp, -, -⟩ := sorted_append_cons.1 hl
    have hp : comp pair.1 p.1 ≠ 0 := ha p (by simp)
    cases n with
    | zero =>
      cases h0.eq_null
      cases h1.eq_null
      simp only [safe, isNull_null, Bool.or_true, Bool.true_or, Bool.and_true] at hoff
      split at hoff <;> cases hoff
    | succ n =>
      obtain hlt | hgt := ho.lt_or_gt hp
      · cases hsafe : safe comp pair.1 c0 with
        | false =>
          obtain ⟨t', e, ho'⟩ := ih0 hl0 ha.left hsafe
          refine ⟨mk (some p) none t' c1 null none null, ?_, fun h => ho' h.1⟩
          simp [recursiveInsert, h0.isNull_succ, hp, hlt, e]
        | true =>
          -- the pair that the split sends up is put behind `p`, and is smaller
          simp only [safe, way, hlt, if_true, hsafe, Bool.true_and, Option.isSome_none,
            Bool.false_or, h0.isNull_succ, Bool.not_eq_false'] at hoff
          obtain ⟨st, t', e, hi, hsp⟩ := recursiveInsert_spec ho h0 hl0 ha.left hsafe
          obtain rfl := hsp.2 hoff
          cases hi with
          | @pending _ l r m hsplit hl' hr' hxs =>
            have hm : m ∈ insertPair comp pair c0.toList := by simp [← hxs]
            have hmp : comp m.1 p.1 < 0 :=
              forall_insertPair (q := fun x => comp x.1 p.1 < 0) hlt hxp m hm
            refine ⟨mk (some p) (some m) r l c1 none null, ?_, fun h => ?_⟩
            · have hsplit := hsplit (mk none none null null null none null) rfl
              simp [recursiveInsert, h0.isNull_succ, hp, hlt, e, nodeConstructor_nil, hsplit]
            · have hpm := h.2.2.2.1 p rfl m rfl
              exact ho.not_lt hpm hmp
      · simp only [safe, way, ho.not_lt hgt, if_false] at hoff
        obtain ⟨t', e, ho'⟩ := ih1 hl1 ha.right.tail hoff
        refine ⟨mk (some p) none c0 t' null none null, ?_, fun h => ho' h.2.1⟩
        simp [recursiveInsert, h0.isNull_succ, hp, ho.not_lt hgt, e]
  | @three n c0 c1 c2 p q h0 h1 h2 ih0 ih1 ih2 =>
    rw [toList_three] at hl ha
    obtain ⟨hl0, hl12, hxp, hpy, -⟩ := sorted_append_cons.1 hl
    obtain ⟨hl1, hl2, hxq, hqy, -⟩ := sorted_append_cons.1 hl12
    have hp : comp pair.1 p.1 ≠ 0 := ha p (by simp)
    have hq : comp pair.1 q.1 ≠ 0 := ha q (by simp)
    cases n with
    | zero =>
      cases h0.eq_null
      cases h1.eq_null
      cases h2.eq_null
      simp only [safe, Option.isSome_some, Bool.true_or, Bool.and_true] at hoff
      split at hoff <;> cases hoff
    | succ n =>
      obtain hlt | hgt := ho.lt_or_gt hp
      · simp only [safe, way, hlt, if_true, Option.isSome_some, Bool.true_or, Bool.and_true]
          at hoff
        obtain ⟨t', e, ho'⟩ := ih0 hl0 ha.left hoff
        refine ⟨mk (some p) (some q) t' c1 c2 none null, ?_, fun h => ho' h.1⟩
        simp [recursiveInsert, h0.isNull_succ, hp, hlt, e]
      · obtain hlt' | hgt' := ho.lt_or_gt hq
        · simp only [safe, way, ho.not_lt hgt, hlt', if_true, if_false] at hoff
          obtain ⟨t', e, ho'⟩ := ih1 hl1 ha.right.tail.left hoff
          refine ⟨mk (some p) (some q) c0 t' c2 none null, ?_, fun h => ho' h.2.1⟩
          simp [recursiveInsert, h0.isNull_succ, hp, ho.not_lt hgt, hlt', e]
        · simp only [safe, way, ho.not_lt hgt, ho.not_lt hgt', if_false] at hoff
          obtain ⟨t', e, ho'⟩ := ih2 hl2 ha.right.tail.right.tail hoff
          refine ⟨mk (some p) (some q) c0 c1 t' none null, ?_, fun h => ho' h.2.2.1⟩
          simp [recursiveInsert, h0.isNull_succ, hp, ho.not_lt hgt, hq, ho.not_lt hgt', e]

end

end Zhwkrfsp.BTree
