import ThumbHardening.Address
import Mathlib.Algebra.GroupWithZero.Nat

/-!
# Wrapped numbers

Reducing to 64 bits never makes a number larger, and leaves an address as it is. Rounding up is compared with
rounding up without a bound, which is where the laws of rounding hold.
-/

namespace ThumbHardening
namespace Address

theorem wrap_of_lt {n : Nat} (h : n < 2 ^ 64) : wrap n = n :=
  Nat.mod_eq_of_lt h

theorem wrap_le (n : Nat) : wrap n ≤ n :=
  Nat.mod_le _ _

/-! ### Rounding up -/

/-- The least multiple of `align` that is not below `value`, however large. -/
def roundUp (value align : Nat) : Nat :=
  if align ≤ 1 then value else (value + align - 1) / align * align

variable {value align bound : Nat}

theorem alignUp_of_lt (h : roundUp value align < 2 ^ 64) : alignUp value align = roundUp value align := by
  unfold alignUp roundUp at *
  split
  · rfl
  · next halign => exact wrap_of_lt (by rwa [if_neg halign] at h)

theorem le_roundUp (value align : Nat) : value ≤ roundUp value align := by
  unfold roundUp
  split
  · exact Nat.le_refl _
  · have := Nat.lt_div_mul_add (a := value + align - 1) (b := align) (by omega)
    omega

/-- Rounding up adds less than the alignment. -/
theorem roundUp_le_add (value align : Nat) : roundUp value align ≤ value + (align - 1) := by
  unfold roundUp
  split
  · omega
  · have := Nat.div_mul_le_self (value + align - 1) align
    omega

theorem dvd_roundUp (value : Nat) (halign : 0 < align) : align ∣ roundUp value align := by
  unfold roundUp
  split
  · rw [show align = 1 by omega]
    exact Nat.one_dvd _
  · exact Nat.dvd_mul_left _ _

theorem roundUp_of_dvd (halign : 0 < align) (h : align ∣ value) : roundUp value align = value := by
  have hle := le_roundUp value align
  have hadd := roundUp_le_add value align
  have hdiff : align ∣ roundUp value align - value := Nat.dvd_sub (dvd_roundUp value halign) h
  have hzero := Nat.eq_zero_of_dvd_of_lt hdiff (by omega)
  omega

end Address
end ThumbHardening
