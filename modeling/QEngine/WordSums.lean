import Mathlib.Data.Int.Basic
import Mathlib.Algebra.BigOperators.Group.List.Basic

/-!
# Sums of 64-bit numbers

A sum of signed words wraps around.
-/

namespace QEngine.WordSums

def Fits (x : ℤ) : Prop := -2^63 ≤ x ∧ x < 2^63

instance (x : ℤ) : Decidable (Fits x) := inferInstanceAs (Decidable (_ ∧ _))

theorem fits_toInt (a : Int64) : Fits a.toInt := ⟨Int64.le_toInt a, Int64.toInt_lt a⟩

theorem toInt_add_fits {a b : Int64} (h : Fits (a.toInt+b.toInt)) : (a+b).toInt = a.toInt+b.toInt := by
  rw [Int64.toInt_add]
  exact Int.bmod_eq_of_le (by simpa using h.1) (by simpa using h.2)

theorem toInt_sub_fits {a b : Int64} (h : Fits (a.toInt-b.toInt)) : (a-b).toInt = a.toInt-b.toInt := by
  rw [Int64.toInt_sub]
  exact Int.bmod_eq_of_le (by simpa using h.1) (by simpa using h.2)

end QEngine.WordSums
