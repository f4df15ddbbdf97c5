import Mathlib.Algebra.GroupWithZero.Basic
import Mathlib.Algebra.Order.Ring.Nat
import StopAndWait.Time.Backoff

namespace StopAndWait

def capped (n : Nat) : Nat := min n (2^64 - 1)

theorem capped_of_le {n : Nat} (h : n ≤ 2^64 - 1) : capped n = n := Nat.min_eq_left h

theorem capped_of_ge {n : Nat} (h : 2^64 - 1 ≤ n) : capped n = 2^64 - 1 := Nat.min_eq_right h

theorem capped_toNat (a : UInt64) : capped a.toNat = a.toNat :=
  capped_of_le (Nat.le_sub_one_of_lt a.toNat_lt)

/-- What is above the greatest number stays there under any factor but zero. -/
theorem capped_capped_mul {n factor : Nat} (h : factor = 0 → n ≤ 2^64 - 1) :
    capped (capped n * factor) = capped (n * factor) := by
  by_cases hn : n ≤ 2^64 - 1
  · rw [capped_of_le hn]
  · have hle : 2^64 - 1 ≤ n := Nat.le_of_not_le hn
    have hpos : 0 < factor := Nat.pos_of_ne_zero (mt h hn)
    rw [capped_of_ge hle, capped_of_ge (Nat.le_mul_of_pos_right _ hpos),
      capped_of_ge (Nat.le_trans hle (Nat.le_mul_of_pos_right _ hpos))]

theorem capped_mul_pow_succ (n factor times : Nat) :
    capped (capped (n * factor) * factor ^ times) = capped (n * factor ^ (times + 1)) := by
  rw [capped_capped_mul, Nat.mul_assoc, Nat.pow_succ']
  intro hzero
  rw [eq_zero_of_pow_eq_zero hzero]
  exact Nat.zero_le _

/-- Where one factor changes nothing, no power of it does. -/
theorem capped_mul_pow {n factor : Nat} (hn : n ≤ 2^64 - 1) (h : capped (n * factor) = n)
    (times : Nat) : capped (n * factor ^ times) = n := by
  induction times with
  | zero => rw [Nat.pow_zero, Nat.mul_one, capped_of_le hn]
  | succ times ih => rw [← capped_mul_pow_succ, h, ih]

theorem toNat_satMul (a b : UInt64) : (satMul a b).toNat = capped (a.toNat * b.toNat) := by
  unfold satMul
  by_cases h : a.toNat * b.toNat < UInt64.size
  · rw [if_pos h, UInt64.toNat_mul, Nat.mod_eq_of_lt h, capped_of_le (Nat.le_sub_one_of_lt h)]
  · have hge : 2^64 ≤ a.toNat * b.toNat := Nat.le_of_not_lt h
    rw [if_neg h, capped_of_ge (Nat.le_trans (Nat.sub_le _ _) hge)]
    rfl

theorem toNat_satScale (factor : UInt64) (times : Nat) (acc : UInt64) :
    (satScale factor times acc).toNat = capped (acc.toNat * factor.toNat ^ times) := by
  induction times generalizing acc with
  | zero => rw [Nat.pow_zero, Nat.mul_one, capped_toNat, satScale]
  | succ times ih =>
    have hnext := toNat_satMul acc factor
    rw [satScale]
    by_cases h : satMul acc factor = acc
    -- The product changes nothing any more, and the rest of them are left out.
    · rw [h] at hnext
      rw [if_pos h, capped_mul_pow (Nat.le_sub_one_of_lt acc.toNat_lt) hnext.symm]
    · rw [if_neg h, ih, hnext, capped_mul_pow_succ]

theorem toNat_satPow (factor : UInt64) (exponent : Nat) :
    (satPow factor exponent).toNat = capped (factor.toNat ^ exponent) := by
  have hone : (1 : UInt64).toNat = 1 := rfl
  rw [satPow, toNat_satScale, hone, Nat.one_mul]

theorem toNat_min (a b : UInt64) : (min a b).toNat = min a.toNat b.toNat := by
  have hmin : min a b = if a ≤ b then a else b := rfl
  rw [hmin]
  split
  · rename_i h
    exact (Nat.min_eq_left (UInt64.le_iff_toNat_le.1 h)).symm
  · rename_i h
    exact (Nat.min_eq_right (Nat.le_of_not_le (mt UInt64.le_iff_toNat_le.2 h))).symm

/-- The wait of an attempt, as if there were no greatest number. -/
theorem toNat_backoff (attempt : UInt32) (base : Millis) (multiplier : UInt64) (ceiling : Millis) :
    (backoff attempt base multiplier ceiling).toNat =
      min (base.toNat * multiplier.toNat ^ attempt.toNat) ceiling.toNat := by
  have hproduct : capped (base.toNat * capped (multiplier.toNat ^ attempt.toNat)) =
      capped (base.toNat * multiplier.toNat ^ attempt.toNat) := by
    by_cases hbase : base.toNat = 0
    · rw [hbase, Nat.zero_mul, Nat.zero_mul]
    · rw [Nat.mul_comm, capped_capped_mul fun h => absurd h hbase, Nat.mul_comm]
  rw [backoff, toNat_min, toNat_satMul, toNat_satPow, hproduct, capped, Nat.min_assoc,
    Nat.min_eq_right (Nat.le_sub_one_of_lt ceiling.toNat_lt)]

end StopAndWait
