import Zhwkrfsp.Comparator
import Mathlib.Data.List.Sort

/- Lists of pairs in strictly ascending order of their keys, under a comparator: the
   contents of a search tree read from left to right. Putting a pair in and taking a key
   out only touch the part on the key's side of any pair, so both can be followed down
   a tree. -/
namespace Zhwkrfsp

section
variable {κ υ : Type} (comp : κ → κ → Int)

def Sorted (l : List (κ × υ)) : Prop := l.Pairwise fun x y => comp x.1 y.1 < 0

/-- `pair` before the first pair with a larger key. -/
def insertPair (pair : κ × υ) (l : List (κ × υ)) : List (κ × υ) :=
  l.orderedInsert (fun x y => comp x.1 y.1 < 0) pair

def eraseKey (key : κ) (l : List (κ × υ)) : List (κ × υ) := l.filter fun x => comp key x.1 ≠ 0

/-- No pair of the list has the key. -/
def Absent (key : κ) (l : List (κ × υ)) : Prop := ∀ x ∈ l, comp key x.1 ≠ 0

variable {comp} {key : κ} {pair p : κ × υ} {l xs ys : List (κ × υ)}

theorem sorted_nil : Sorted comp ([] : List (κ × υ)) := .nil

theorem sorted_append_cons : Sorted comp (xs ++ p :: ys) ↔
    Sorted comp xs ∧ Sorted comp ys ∧ (∀ x ∈ xs, comp x.1 p.1 < 0) ∧
      (∀ y ∈ ys, comp p.1 y.1 < 0) ∧ ∀ x ∈ xs, ∀ y ∈ ys, comp x.1 y.1 < 0 := by
  unfold Sorted
  rw [List.pairwise_append, List.pairwise_cons]
  constructor
  · intro ⟨hxs, ⟨hp, hys⟩, hxy⟩
    exact ⟨hxs, hys, fun x hx => hxy x hx p (by simp), hp, fun x hx y hy => hxy x hx y (by simp [hy])⟩
  · intro ⟨hxs, hys, hxp, hpy, hxy⟩
    refine ⟨hxs, ⟨hpy, hys⟩, fun x hx y hy => ?_⟩
    obtain rfl | hy := List.mem_cons.1 hy
    · exact hxp x hx
    · exact hxy x hx y hy

theorem mem_insertPair {x : κ × υ} : x ∈ insertPair comp pair l ↔ x = pair ∨ x ∈ l :=
  List.mem_orderedInsert _

theorem forall_insertPair {q : κ × υ → Prop} (hp : q pair) (hl : ∀ x ∈ l, q x) :
    ∀ x ∈ insertPair comp pair l, q x := by
  intro x hx
  obtain rfl | hx := mem_insertPair.1 hx
  · exact hp
  · exact hl x hx

theorem length_insertPair : (insertPair comp pair l).length = l.length + 1 :=
  List.orderedInsert_length _ _ _

/-- Left of a larger key. -/
theorem insertPair_left (h : comp pair.1 p.1 < 0) :
    insertPair comp pair (xs ++ p :: ys) = insertPair comp pair xs ++ p :: ys := by
  unfold insertPair
  induction xs with
  | nil => rw [List.nil_append, List.orderedInsert_cons, if_pos h]; rfl
  | cons x xs ih =>
    rw [List.cons_append, List.orderedInsert_cons, List.orderedInsert_cons, ih]
    by_cases hx : comp pair.1 x.1 < 0
    · rw [if_pos hx, if_pos hx]
      rfl
    · rw [if_neg hx, if_neg hx]
      rfl

/-- Right of keys that are not larger. -/
theorem insertPair_right (hx : ∀ x ∈ xs, ¬comp pair.1 x.1 < 0) (hp : ¬comp pair.1 p.1 < 0) :
    insertPair comp pair (xs ++ p :: ys) = xs ++ p :: insertPair comp pair ys := by
  unfold insertPair
  induction xs with
  | nil => rw [List.nil_append, List.orderedInsert_cons, if_neg hp]; rfl
  | cons x xs ih =>
    rw [List.cons_append, List.orderedInsert_cons, if_neg (hx x (by simp)),
      ih fun y hy => hx y (by simp [hy])]
    rfl

theorem eraseKey_absent (h : Absent comp key l) : eraseKey comp key l = l :=
  List.filter_eq_self.2 fun x hx => by simpa using h x hx

theorem eraseKey_append : eraseKey comp key (xs ++ ys) = eraseKey comp key xs ++ eraseKey comp key ys :=
  List.filter_append _ _

theorem eraseKey_cons_self (h : comp key p.1 = 0) : eraseKey comp key (p :: ys) = eraseKey comp key ys := by
  unfold eraseKey
  rw [List.filter_cons_of_neg (by simp [h])]

theorem eraseKey_cons_of_ne (h : comp key p.1 ≠ 0) :
    eraseKey comp key (p :: ys) = p :: eraseKey comp key ys := by
  unfold eraseKey
  rw [List.filter_cons_of_pos (by simp [h])]

theorem mem_eraseKey {x : κ × υ} : x ∈ eraseKey comp key l ↔ x ∈ l ∧ comp key x.1 ≠ 0 := by
  simp [eraseKey]

theorem Sorted.eraseKey (h : Sorted comp l) : Sorted comp (eraseKey comp key l) :=
  h.sublist List.filter_sublist

theorem Absent.left (h : Absent comp key (xs ++ ys)) : Absent comp key xs :=
  fun x hx => h x (by simp [hx])

theorem Absent.right (h : Absent comp key (xs ++ ys)) : Absent comp key ys :=
  fun x hx => h x (by simp [hx])

theorem Absent.tail (h : Absent comp key (p :: ys)) : Absent comp key ys :=
  fun x hx => h x (by simp [hx])

theorem Absent.head (h : Absent comp key (p :: ys)) : comp key p.1 ≠ 0 := h p (by simp)

theorem Absent.append (hx : Absent comp key xs) (hy : Absent comp key ys) :
    Absent comp key (xs ++ ys) := fun x h => (List.mem_append.1 h).elim (hx x) (hy x)

end

section
variable {κ υ : Type} {comp : κ → κ → Int} {key : κ} {pair p : κ × υ} {l xs ys : List (κ × υ)}
  (ho : TotalOrder comp)
include ho

theorem TotalOrder.lt_or_gt {a b : κ} (h : comp a b ≠ 0) : comp a b < 0 ∨ comp b a < 0 := by
  have := ho.neg_iff b a
  omega

theorem TotalOrder.not_lt {a b : κ} (h : comp a b < 0) : ¬comp b a < 0 := by
  have := (ho.neg_iff a b).1 h
  omega

/-- A key below `p` is none of the keys from `p` on. -/
theorem Absent.of_lt (h : comp key p.1 < 0) (hys : ∀ y ∈ ys, comp p.1 y.1 < 0) :
    Absent comp key (p :: ys) := by
  intro y hy
  obtain rfl | hy := List.mem_cons.1 hy
  · omega
  · have := ho.lt_trans h (hys y hy)
    omega

/-- A key above `p` is none of the keys up to `p`. -/
theorem Absent.of_gt (h : comp p.1 key < 0) (hxs : ∀ x ∈ xs, comp x.1 p.1 < 0) :
    Absent comp key xs := by
  intro x hx
  have := (ho.neg_iff x.1 key).1 (ho.lt_trans (hxs x hx) h)
  omega

/-- The key of `p` is none of the keys on either side. -/
theorem Absent.beside (h : comp key p.1 = 0) (hxs : ∀ x ∈ xs, comp x.1 p.1 < 0)
    (hys : ∀ y ∈ ys, comp p.1 y.1 < 0) : Absent comp key xs ∧ Absent comp key ys := by
  obtain rfl := (ho.eq_iff _ _).1 h
  refine ⟨fun x hx => ?_, fun y hy => ?_⟩
  · have := (ho.neg_iff _ _).1 (hxs x hx)
    omega
  · have := hys y hy
    omega

/-! A key on one side of `p`, or at it. -/

theorem eraseKey_left (h : comp key p.1 < 0) (hys : ∀ y ∈ ys, comp p.1 y.1 < 0) :
    eraseKey comp key (xs ++ p :: ys) = eraseKey comp key xs ++ p :: ys := by
  rw [eraseKey_append, eraseKey_absent (Absent.of_lt ho h hys)]

theorem eraseKey_mid (h : comp key p.1 = 0) (hxs : ∀ x ∈ xs, comp x.1 p.1 < 0)
    (hys : ∀ y ∈ ys, comp p.1 y.1 < 0) : eraseKey comp key (xs ++ p :: ys) = xs ++ ys := by
  obtain ⟨hx, hy⟩ := Absent.beside ho h hxs hys
  rw [eraseKey_append, eraseKey_cons_self h, eraseKey_absent hx, eraseKey_absent hy]

theorem eraseKey_right (h : comp p.1 key < 0) (hxs : ∀ x ∈ xs, comp x.1 p.1 < 0) :
    eraseKey comp key (xs ++ p :: ys) = xs ++ p :: eraseKey comp key ys := by
  have hp : comp key p.1 ≠ 0 := by
    have := (ho.neg_iff _ _).1 h
    omega
  rw [eraseKey_append, eraseKey_absent (Absent.of_gt ho h hxs), eraseKey_cons_of_ne hp]

theorem Sorted.insertPair (hl : Sorted comp l) (ha : Absent comp pair.1 l) :
    Sorted comp (insertPair comp pair l) := by
  induction l with
  | nil => exact List.pairwise_singleton _ _
  | cons x l ih =>
    unfold Zhwkrfsp.insertPair
    rw [List.orderedInsert_cons]
    obtain ⟨hx, hl⟩ := List.pairwise_cons.1 hl
    by_cases h : comp pair.1 x.1 < 0
    · rw [if_pos h]
      refine List.pairwise_cons.2 ⟨fun y hy => ?_, List.pairwise_cons.2 ⟨hx, hl⟩⟩
      obtain rfl | hy := List.mem_cons.1 hy
      · exact h
      · exact ho.lt_trans h (hx y hy)
    · rw [if_neg h]
      have hxp : comp x.1 pair.1 < 0 := (ho.lt_or_gt ha.head).resolve_left h
      exact List.pairwise_cons.2 ⟨forall_insertPair hxp hx, ih hl ha.tail⟩

theorem length_eraseKey (hl : Sorted comp l) (hp : p ∈ l) :
    (eraseKey comp p.1 l).length + 1 = l.length := by
  obtain ⟨xs, ys, rfl⟩ := List.append_of_mem hp
  obtain ⟨-, -, hxs, hys, -⟩ := sorted_append_cons.1 hl
  rw [eraseKey_mid ho (ho.self p.1) hxs hys, List.length_append, List.length_append,
    List.length_cons]
  omega

end

end Zhwkrfsp
