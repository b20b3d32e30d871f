import Mathlib.Algebra.Order.Field.Basic
import Mathlib.Data.Nat.Cast.Order.Field
import Mathlib.Tactic.FieldSimp
import Mathlib.Tactic.Ring

/-!
# Powers in fixed point, rounded down

`truncPow scale num den r` is the `r`-th power of the fraction `num / den` over the given scale,
computed with one truncating division for each factor.  It never exceeds the power.  Each round
loses less than one unit, and the later rounds shrink what was lost before, so a proper fraction
loses at most `den / (den - num)` units over any number of rounds.
-/

namespace Radiata.Lib

def truncPow (scale num den : ℕ) : ℕ → ℕ
  | 0 => scale
  | r + 1 => truncPow scale num den r * num / den

variable {scale num den : ℕ}

@[simp] theorem truncPow_zero : truncPow scale num den 0 = scale := rfl

theorem truncPow_succ (r : ℕ) :
    truncPow scale num den (r + 1) = truncPow scale num den r * num / den := rfl

theorem truncPow_mono {num' : ℕ} (h : num ≤ num') (r : ℕ) :
    truncPow scale num den r ≤ truncPow scale num' den r := by
  induction r with
  | zero => exact le_rfl
  | succ r ih => exact Nat.div_le_div_right (Nat.mul_le_mul ih h)

theorem truncPow_zero_num {r : ℕ} (hr : 0 < r) : truncPow scale 0 den r = 0 := by
  obtain ⟨r, rfl⟩ := Nat.exists_eq_succ_of_ne_zero hr.ne'
  rw [truncPow_succ, Nat.mul_zero, Nat.zero_div]

theorem truncPow_le {K : Type*} [Field K] [LinearOrder K] [IsStrictOrderedRing K] (r : ℕ) :
    (truncPow scale num den r : K) ≤ scale * ((num : K) / den) ^ r := by
  induction r with
  | zero => simp
  | succ r ih =>
    calc (truncPow scale num den (r + 1) : K)
        ≤ ((truncPow scale num den r * num : ℕ) : K) / den := Nat.cast_div_le
      _ = truncPow scale num den r * ((num : K) / den) := by rw [Nat.cast_mul, mul_div_assoc]
      _ ≤ scale * ((num : K) / den) ^ r * ((num : K) / den) :=
        mul_le_mul_of_nonneg_right ih (div_nonneg (Nat.cast_nonneg _) (Nat.cast_nonneg _))
      _ = scale * ((num : K) / den) ^ (r + 1) := by rw [pow_succ, mul_assoc]

theorem le_truncPow_add {K : Type*} [Field K] [LinearOrder K] [IsStrictOrderedRing K]
    (hlt : num < den) (r : ℕ) :
    scale * ((num : K) / den) ^ r ≤ truncPow scale num den r + (den : K) / (den - num) := by
  have hden : (0 : K) < den := Nat.cast_pos.mpr (Nat.zero_lt_of_lt hlt)
  have hgap : (0 : K) < den - num := sub_pos.mpr (Nat.cast_lt.mpr hlt)
  induction r with
  | zero => simpa using (div_pos hden hgap).le
  | succ r ih =>
    have hround : ((truncPow scale num den r * num : ℕ) : K) / den ≤
        truncPow scale num den (r + 1) + 1 := by
      rw [div_le_iff₀ hden, truncPow_succ]
      exact_mod_cast (Nat.lt_mul_of_div_lt (Nat.lt_succ_self _) (Nat.zero_lt_of_lt hlt)).le
    calc (scale : K) * ((num : K) / den) ^ (r + 1)
        = scale * ((num : K) / den) ^ r * ((num : K) / den) := by rw [pow_succ, mul_assoc]
      _ ≤ (truncPow scale num den r + (den : K) / (den - num)) * ((num : K) / den) :=
        mul_le_mul_of_nonneg_right ih (div_nonneg (Nat.cast_nonneg _) hden.le)
      _ = ((truncPow scale num den r * num : ℕ) : K) / den + num / (den - num) := by
        rw [Nat.cast_mul]
        field_simp
      _ ≤ truncPow scale num den (r + 1) + 1 + num / (den - num) :=
        add_le_add_left hround _
      _ = truncPow scale num den (r + 1) + (den : K) / (den - num) := by
        field_simp
        ring

end Radiata.Lib
