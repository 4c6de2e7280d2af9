import Zhwkrfsp.Codec
import Zhwkrfsp.Comparator

/- The comparator of strings in `zhwkre/utils/utils.c`, where `char` is signed. It
   looks for the first characters that differ, and then at the lengths. What it
   returns is the difference `order` of the two strings, and `order` is a total order
   of all byte strings. `none` is a read past the end of a block. -/
namespace Zhwkrfsp.StringComparator
open Wire

/-- The difference of two characters. -/
def charDiff (a b : UInt8) : Int32 := a.toInt8.toInt32 - b.toInt8.toInt32

/-- The loop from `i` on, for `turns` more turns. -/
def differFrom (achar bchar : Bytes) : Nat → Nat → Option (Option Int32)
  | 0, _ => some none
  | turns + 1, i => do
    let a ← achar[i]?
    let b ← bchar[i]?
    if a ≠ b then return some (charDiff a b)
    differFrom achar bchar turns (i + 1)

def stringComparator (stra : Bytes) (_sizea : UInt32) (strb : Bytes) (_sizeb : UInt32) :
    Option Int32 := do
  let alen := Int32.ofNat (← strlen stra)
  let blen := Int32.ofNat (← strlen strb)
  let cmplen := if alen ≤ blen then alen else blen
  match ← differFrom stra strb cmplen.toNatClampNeg 0 with
  | some d => return d
  | none => if alen ≠ blen then return alen - blen else return 0

/-- The difference of two strings. -/
def order : Bytes → Bytes → Int
  | a :: s, b :: t => if a = b then order s t else a.toInt8.toInt - b.toInt8.toInt
  | s, t => s.length - t.length

/-- A string that `strlen` can count in an `int`. -/
structure CString where
  str : Bytes
  noNul : 0 ∉ str
  short : str.length < 2 ^ 31

/-! The difference is a total order. -/

theorem toInt8_inj {a b : UInt8} : a.toInt8.toInt = b.toInt8.toInt ↔ a = b := by
  refine ⟨fun h => ?_, fun h => by rw [h]⟩
  have h' : a.toInt8 = b.toInt8 := Int8.toInt_inj.1 h
  rw [← UInt8.toUInt8_toInt8 a, h', UInt8.toUInt8_toInt8]

theorem order_eq_zero : ∀ s t : Bytes, order s t = 0 ↔ s = t
  | [], [] => by simp [order]
  | [], b :: t => by simp [order]; omega
  | a :: s, [] => by simp [order]; omega
  | a :: s, b :: t => by
    rw [order, List.cons.injEq]
    by_cases hab : a = b
    · rw [if_pos hab, order_eq_zero s t, and_iff_right hab]
    · rw [if_neg hab]
      refine iff_of_false (fun h => hab (toInt8_inj.1 ?_)) fun h => hab h.1
      omega

theorem order_swap : ∀ s t : Bytes, order s t = -order t s
  | [], [] => by simp [order]
  | [], b :: t => by simp [order]
  | a :: s, [] => by simp [order]
  | a :: s, b :: t => by
    rw [order, order]
    by_cases hab : a = b
    · rw [if_pos hab, if_pos hab.symm, order_swap s t]
    · rw [if_neg hab, if_neg fun h => hab h.symm]
      omega

theorem order_trans : ∀ s t u : Bytes, order s t ≤ 0 → order t u ≤ 0 → order s u ≤ 0
  | [], _, u => fun _ _ => by
    have hu : order [] u = (0 : Int) - u.length := by cases u <;> rfl
    rw [hu]
    omega
  | a :: s, [], _ => fun h _ => by
    have hs : order (a :: s) [] = (s.length + 1 : Nat) - (0 : Int) := rfl
    rw [hs] at h
    omega
  | a :: s, b :: t, [] => fun _ h => by
    have ht : order (b :: t) [] = (t.length + 1 : Nat) - (0 : Int) := rfl
    rw [ht] at h
    omega
  | a :: s, b :: t, c :: u => by
    rw [order, order, order]
    intro h₁ h₂
    by_cases hab : a = b
    · by_cases hbc : b = c
      · rw [if_pos hab] at h₁
        rw [if_pos hbc] at h₂
        rw [if_pos (hab.trans hbc)]
        exact order_trans s t u h₁ h₂
      · rw [if_neg hbc] at h₂
        rw [hab, if_neg hbc]
        exact h₂
    · rw [if_neg hab] at h₁
      by_cases hbc : b = c
      · rw [← hbc, if_neg hab]
        exact h₁
      · rw [if_neg hbc] at h₂
        -- two strict steps down cannot lead back up
        have hne : a.toInt8.toInt ≠ b.toInt8.toInt := fun h => hab (toInt8_inj.1 h)
        have hac : a ≠ c := by
          intro h
          subst h
          omega
        rw [if_neg hac]
        omega

theorem order_total : TotalOrder fun a b : CString => order a.str b.str where
  eq_iff a b := by
    rw [order_eq_zero]
    refine ⟨fun h => ?_, fun h => by rw [h]⟩
    cases a
    cases b
    cases h
    rfl
  neg_iff a b := by
    rw [order_swap]
    omega
  trans a b c := order_trans a.str b.str c.str

/-! What the code computes is the difference. -/

theorem charDiff_toInt (a b : UInt8) : (charDiff a b).toInt = a.toInt8.toInt - b.toInt8.toInt := by
  have ha := Int8.toInt_lt a.toInt8
  have ha' := Int8.le_toInt a.toInt8
  have hb := Int8.toInt_lt b.toInt8
  have hb' := Int8.le_toInt b.toInt8
  rw [charDiff, Int32.toInt_sub, Int8.toInt_toInt32, Int8.toInt_toInt32, Int.bmod_eq_of_le]
  all_goals omega

/-- The loop decides unless one string is the beginning of the other. -/
theorem differFrom_spec {achar bchar : Bytes} (s t : Bytes) {i : Nat} {resta restb : Bytes}
    (ha : achar.drop i = s ++ resta) (hb : bchar.drop i = t ++ restb) :
    ∃ r, differFrom achar bchar (min s.length t.length) i = some r ∧
      order s t = (r.map Int32.toInt).getD (s.length - t.length) := by
  induction s generalizing t i with
  | nil =>
    refine ⟨none, ?_, ?_⟩
    · rw [List.length_nil, Nat.zero_min]
      rfl
    · simp [order]
  | cons a s ih =>
    cases t with
    | nil => exact ⟨none, rfl, by simp [order]⟩
    | cons b t =>
      have ea : achar[i]? = some a := by rw [← List.head?_drop, ha]; rfl
      have eb : bchar[i]? = some b := by rw [← List.head?_drop, hb]; rfl
      have ha' : achar.drop (i + 1) = s ++ resta := by rw [← List.tail_drop, ha]; rfl
      have hb' : bchar.drop (i + 1) = t ++ restb := by rw [← List.tail_drop, hb]; rfl
      rw [List.length_cons, List.length_cons, Nat.succ_min_succ, differFrom, ea, eb, order]
      simp only [Option.bind_eq_bind, Option.bind_some]
      by_cases hab : a = b
      · obtain ⟨r, e, hr⟩ := ih t ha' hb'
        refine ⟨r, ?_, ?_⟩
        · rw [if_neg fun h => h hab]
          exact e
        · rw [if_pos hab, hr]
          congr 1
          omega
      · refine ⟨some (charDiff a b), ?_, ?_⟩
        · rw [if_pos hab]
          rfl
        · rw [if_neg hab, Option.map_some, Option.getD_some, charDiff_toInt]

/-- **The comparator of strings.** Whatever follows the strings, and whatever sizes it is
    passed, it returns their difference, which is a total order. -/
theorem string_comparator_total :
    (TotalOrder fun a b : CString => order a.str b.str) ∧
    ∀ (a b : CString) (resta restb : Bytes) (sizea sizeb : UInt32),
      (stringComparator (a.str ++ 0 :: resta) sizea (b.str ++ 0 :: restb) sizeb).map Int32.toInt =
        some (order a.str b.str) := by
  refine ⟨order_total, fun a b resta restb sizea sizeb => ?_⟩
  have ha := a.short
  have hb := b.short
  have hlen : ∀ n : Nat, n < 2 ^ 31 → (Int32.ofNat n).toInt = n := fun n hn =>
    Int32.toInt_ofNat_of_lt hn
  have hmin : (if Int32.ofNat a.str.length ≤ Int32.ofNat b.str.length
      then Int32.ofNat a.str.length else Int32.ofNat b.str.length).toNatClampNeg =
      min a.str.length b.str.length := by
    split
    · next hle =>
      rw [Int32.le_iff_toInt_le, hlen _ ha, hlen _ hb] at hle
      rw [Int32.toNatClampNeg, hlen _ ha]
      omega
    · next hle =>
      rw [Int32.le_iff_toInt_le, hlen _ ha, hlen _ hb] at hle
      rw [Int32.toNatClampNeg, hlen _ hb]
      omega
  have hda : (a.str ++ 0 :: resta).drop 0 = a.str ++ 0 :: resta := List.drop_zero
  have hdb : (b.str ++ 0 :: restb).drop 0 = b.str ++ 0 :: restb := List.drop_zero
  obtain ⟨r, e, hr⟩ := differFrom_spec a.str b.str hda hdb
  rw [stringComparator, strlen_append a.noNul, strlen_append b.noNul]
  simp only [Option.bind_eq_bind, Option.bind_some, hmin, e, hr]
  cases r with
  | some d => rfl
  | none =>
    have hsub : (Int32.ofNat a.str.length - Int32.ofNat b.str.length).toInt =
        (a.str.length : Int) - b.str.length := by
      rw [Int32.toInt_sub, hlen _ ha, hlen _ hb, Int.bmod_eq_of_le]
      all_goals omega
    by_cases hne : Int32.ofNat a.str.length = Int32.ofNat b.str.length
    · rw [hne, Int32.sub_self] at hsub
      simp only [hne, ne_eq, not_true_eq_false, if_false]
      exact congrArg some hsub
    · simp only [ne_eq, hne, not_false_eq_true, if_true]
      exact congrArg some hsub

end Zhwkrfsp.StringComparator
