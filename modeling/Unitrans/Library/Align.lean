/-
Rounding a machine word to a multiple of a power of two, with masks as C programs do it:
`a & ~(2 ^ k - 1)` rounds down, `(a + 2 ^ k - 1) & ~(2 ^ k - 1)` rounds up, and `a & (2 ^ k - 1)`
is what rounding down takes away.
-/
import Mathlib.Data.BitVec
import Mathlib.Algebra.Order.Ring.Nat

namespace Align

variable {w k : Nat}

/-- The mask of the bits below `k`. -/
def low (w k : Nat) : BitVec w := BitVec.ofNat w (2 ^ k - 1)

theorem toNat_and_low (a : BitVec w) (hk : k ≤ w) : (a &&& low w k).toNat = a.toNat % 2 ^ k := by
  have := Nat.pow_le_pow_right (n := 2) (by decide) hk
  have := Nat.two_pow_pos k
  rw [BitVec.toNat_and, low, BitVec.toNat_ofNat, Nat.mod_eq_of_lt (by omega), Nat.and_two_pow_sub_one_eq_mod]

theorem and_not_low (a : BitVec w) : a &&& ~~~low w k = (a >>> k) <<< k := by
  apply BitVec.eq_of_getLsbD_eq
  intro i hi
  rw [BitVec.getLsbD_and, BitVec.getLsbD_not, low, BitVec.getLsbD_ofNat, Nat.testBit_two_pow_sub_one,
    BitVec.getLsbD_shiftLeft, BitVec.getLsbD_ushiftRight]
  by_cases h : i < k
  · simp [h]
  · simp [h, hi, Nat.add_sub_cancel' (Nat.le_of_not_lt h)]

theorem toNat_and_not_low (a : BitVec w) : (a &&& ~~~low w k).toNat = 2 ^ k * (a.toNat / 2 ^ k) := by
  rw [and_not_low, BitVec.toNat_shiftLeft, BitVec.toNat_ushiftRight, Nat.shiftRight_eq_div_pow, Nat.shiftLeft_eq,
    Nat.mul_comm]
  exact Nat.mod_eq_of_lt (lt_of_le_of_lt (Nat.mul_div_le ..) a.isLt)

/-- A word is what is left of it and what was taken away. -/
theorem toNat_and_not_low_add (a : BitVec w) : (a &&& ~~~low w k).toNat + a.toNat % 2 ^ k = a.toNat := by
  rw [toNat_and_not_low]
  exact Nat.div_add_mod ..

/-- Rounding up, where that does not wrap. -/
theorem toNat_align {a : BitVec w} (ha : a.toNat + (2 ^ k - 1) < 2 ^ w) :
    ((a + low w k) &&& ~~~low w k).toNat = 2 ^ k * ((a.toNat + (2 ^ k - 1)) / 2 ^ k) := by
  rw [toNat_and_not_low, BitVec.toNat_add, low, BitVec.toNat_ofNat, Nat.mod_eq_of_lt (a := 2 ^ k - 1) (by omega),
    Nat.mod_eq_of_lt ha]

/-- Rounding up past the last word gives 0. -/
theorem align_eq_zero {a : BitVec w} (hk : k < w) (ha : 2 ^ w ≤ a.toNat + (2 ^ k - 1)) :
    (a + low w k) &&& ~~~low w k = 0 := by
  have hlt := a.isLt
  have hpow := Nat.pow_lt_pow_right (a := 2) (by decide) hk
  have hpos := Nat.two_pow_pos k
  apply BitVec.eq_of_toNat_eq
  rw [toNat_and_not_low, BitVec.toNat_add, low, BitVec.toNat_ofNat, Nat.mod_eq_of_lt (a := 2 ^ k - 1) (by omega),
    Nat.mod_eq_sub_mod ha, Nat.mod_eq_of_lt (by omega), Nat.div_eq_of_lt (by omega)]
  rfl

/-! ## Rounding up, for numbers -/

/-- The first multiple of `2 ^ k` from `n` on. -/
def up (k n : Nat) : Nat := 2 ^ k * ((n + (2 ^ k - 1)) / 2 ^ k)

theorem le_up (k n : Nat) : n ≤ up k n := by
  have hmod := Nat.mod_lt (n + (2 ^ k - 1)) (Nat.two_pow_pos k)
  have hdiv := Nat.div_add_mod (n + (2 ^ k - 1)) (2 ^ k)
  unfold up
  omega

theorem up_mono {k a b : Nat} (h : a ≤ b) : up k a ≤ up k b :=
  Nat.mul_le_mul_left _ (Nat.div_le_div_right (by omega))

theorem up_mod {j k n : Nat} (h : j ≤ k) : up k n % 2 ^ j = 0 :=
  Nat.mod_eq_zero_of_dvd (Dvd.dvd.mul_right (pow_dvd_pow 2 h) _)

theorem up_of_dvd {k n : Nat} (h : n % 2 ^ k = 0) : up k n = n := by
  obtain ⟨q, rfl⟩ := Nat.dvd_of_mod_eq_zero h
  have := Nat.two_pow_pos k
  rw [up, Nat.mul_add_div this, Nat.div_eq_of_lt (by omega), Nat.add_zero]

theorem up_of_not_dvd {k n : Nat} (h : n % 2 ^ k ≠ 0) : up k n = n + (2 ^ k - n % 2 ^ k) := by
  have hmod := Nat.mod_lt n (Nat.two_pow_pos k)
  have hdiv := Nat.div_add_mod n (2 ^ k)
  have hq : (n + (2 ^ k - 1)) / 2 ^ k = n / 2 ^ k + 1 := by
    apply Nat.div_eq_of_lt_le
    · rw [Nat.add_mul, Nat.mul_comm]
      omega
    · rw [Nat.add_mul, Nat.add_mul, Nat.mul_comm]
      omega
  unfold up
  rw [hq, Nat.mul_add]
  omega

/-- A number from `n` on is rounded up no less far for a greater power. -/
theorem up_le_up {k j n : Nat} (h : k ≤ j) : up k n ≤ up j n := by
  obtain ⟨d, rfl⟩ := Nat.exists_eq_add_of_le h
  have hpos := Nat.two_pow_pos k
  have hle : (n + (2 ^ k - 1)) / 2 ^ k ≤ up (k + d) n / 2 ^ k := by
    have hdvd : up (k + d) n / 2 ^ k * 2 ^ k = up (k + d) n := by
      apply Nat.div_mul_cancel
      exact Dvd.dvd.mul_right (pow_dvd_pow 2 h) _
    apply Nat.le_of_lt_succ
    apply (Nat.div_lt_iff_lt_mul hpos).mpr
    have := le_up (k + d) n
    rw [Nat.succ_mul]
    omega
  calc up k n = 2 ^ k * ((n + (2 ^ k - 1)) / 2 ^ k) := rfl
    _ ≤ 2 ^ k * (up (k + d) n / 2 ^ k) := Nat.mul_le_mul_left _ hle
    _ ≤ up (k + d) n := Nat.mul_div_le _ _

/-- Rounding a word up, where it wraps or not. -/
theorem toNat_align_up {a : BitVec w} (hk : k < w) :
    ((a + low w k) &&& ~~~low w k).toNat = if up k a.toNat < 2 ^ w then up k a.toNat else 0 := by
  have hlt := a.isLt
  by_cases ha : a.toNat + (2 ^ k - 1) < 2 ^ w
  · have hup : up k a.toNat < 2 ^ w := lt_of_le_of_lt (Nat.mul_div_le _ _) ha
    rw [if_pos hup, toNat_align ha, up]
  · have hle : 2 ^ w ≤ a.toNat + (2 ^ k - 1) := Nat.le_of_not_lt ha
    have hup : ¬up k a.toNat < 2 ^ w := by
      obtain ⟨d, rfl⟩ := Nat.exists_eq_add_of_lt hk
      have hq : 2 ^ (d + 1) ≤ (a.toNat + (2 ^ k - 1)) / 2 ^ k := by
        apply (Nat.le_div_iff_mul_le (Nat.two_pow_pos k)).mpr
        rw [← pow_add]
        exact (Nat.pow_le_pow_right (by decide) (by omega)).trans hle
      have hmul := Nat.mul_le_mul_left (2 ^ k) hq
      rw [← pow_add] at hmul
      have : k + (d + 1) = k + d + 1 := by omega
      rw [this] at hmul
      exact Nat.not_lt.mpr hmul
    rw [if_neg hup, align_eq_zero hk hle]
    rfl

end Align
