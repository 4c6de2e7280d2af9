import Mathlib.Tactic.Common
import Mathlib.Tactic.SplitIfs

/- Comparators. The containers call them through a function pointer and read the
   sign of the int they return; what they rely on is that it is a total order. -/
namespace Zhwkrfsp

/-- What the containers ask of a comparator: a total order of the elements. -/
structure TotalOrder {α : Type} (comp : α → α → Int) : Prop where
  eq_iff : ∀ a b, comp a b = 0 ↔ a = b
  neg_iff : ∀ a b, comp a b < 0 ↔ 0 < comp b a
  trans : ∀ a b c, comp a b ≤ 0 → comp b c ≤ 0 → comp a c ≤ 0

namespace TotalOrder
variable {α : Type} {comp : α → α → Int} (ho : TotalOrder comp)
include ho

theorem self (a : α) : comp a a = 0 := (ho.eq_iff a a).2 rfl

theorem lt_trans {a b c : α} (h₁ : comp a b < 0) (h₂ : comp b c < 0) : comp a c < 0 := by
  have h := ho.trans a b c (by omega) (by omega)
  have hne : comp a c ≠ 0 := by
    intro e
    rw [ho.eq_iff] at e
    subst e
    have := (ho.neg_iff a b).1 h₁
    omega
  omega

theorem ne_of_lt {a b : α} (h : comp a b < 0) : a ≠ b := by
  rintro rfl
  have := ho.self a
  omega

end TotalOrder

/-- Eight-byte elements compared as numbers. -/
def byValue (a b : UInt64) : Int := if a < b then -1 else if b < a then 1 else 0

theorem byValue_total : TotalOrder byValue := by
  refine ⟨fun a b => ?_, fun a b => ?_, fun a b c => ?_⟩
  all_goals
    simp only [byValue, UInt64.lt_iff_toNat_lt, ← UInt64.toNat_inj]
  · split_ifs <;> simp <;> omega
  · split_ifs <;> simp
    omega
  · intro h₁ h₂
    split_ifs at * <;> omega

end Zhwkrfsp
