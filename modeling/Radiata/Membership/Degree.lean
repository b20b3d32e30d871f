import Mathlib.Analysis.SpecialFunctions.Log.Deriv
import Radiata.Lib.Truncated

/-!
# The target degree of a cluster

A cluster of `n` nodes aims at the smallest degree `k` for which the expected number of isolated
nodes, `n (1 - k / (n - 1)) ^ (n - 1)`, is at most `-ln 0.9`.  The implementation evaluates the
power over the scale `2 ^ 40`, rounding down after each of its `n - 1` factors, and compares with
the threshold rounded down.

The threshold's rounding loses less than one unit, the power's up to one in each round, and both
in the same direction: the product is smaller than it should be, so the search can only stop too
early.  The target never exceeds the formula.  It is the formula's degree wherever the expectation
one degree below exceeds the threshold by more than the power can lose, `n (n - 1) / k` units.
-/

namespace Radiata.Membership

open Lib

/-! ## The search -/

def degreeScale : ℕ := 2 ^ 40

def degreeThresholdScaled : ℕ := 115845112074

def isolatedProduct (peers k : ℕ) : ℕ := truncPow degreeScale (peers - k) peers peers

def degreeSearch (n peers : ℕ) : ℕ → ℕ → ℕ
  | 0, _ => peers
  | fuel + 1, k =>
    if n * isolatedProduct peers k ≤ degreeThresholdScaled then k
    else if peers ≤ k + 1 then peers
    else degreeSearch n peers fuel (k + 1)

variable (n : ℕ)

def degreeTarget : ℕ :=
  if n ≤ 1 then 0 else degreeSearch n (n - 1) (n - 1) 1

example : [2, 3, 4, 5, 6, 8, 16, 32, 64].map degreeTarget = [1, 2, 3, 3, 3, 4, 5, 6, 7] := by
  decide +kernel

def Accepted : Set ℕ :=
  {k | 1 ≤ k ∧ n * isolatedProduct (n - 1) k ≤ degreeThresholdScaled}

theorem isolatedProduct_anti {peers j k : ℕ} (h : j ≤ k) :
    isolatedProduct peers k ≤ isolatedProduct peers j :=
  truncPow_mono (Nat.sub_le_sub_left h peers) peers

theorem isolatedProduct_self {peers : ℕ} (h : 0 < peers) : isolatedProduct peers peers = 0 := by
  rw [isolatedProduct, Nat.sub_self]
  exact truncPow_zero_num h

theorem accepted_of_le {n j k : ℕ} (hj : j ∈ Accepted n) (h : j ≤ k) : k ∈ Accepted n :=
  ⟨hj.1.trans h, (Nat.mul_le_mul_left n (isolatedProduct_anti h)).trans hj.2⟩

theorem peers_mem_accepted {n : ℕ} (hn : 2 ≤ n) : n - 1 ∈ Accepted n := by
  have hpeers : 0 < n - 1 := by omega
  refine ⟨hpeers, ?_⟩
  rw [isolatedProduct_self hpeers, Nat.mul_zero]
  exact Nat.zero_le _

theorem degreeSearch_isLeast {n : ℕ} (hn : 2 ≤ n) (fuel k : ℕ) (hfuel : fuel + k = n)
    (hk : 1 ≤ k) (hlast : k ≤ n - 1) (hbelow : ∀ j ∈ Accepted n, k ≤ j) :
    IsLeast (Accepted n) (degreeSearch n (n - 1) fuel k) := by
  induction fuel generalizing k with
  | zero => omega
  | succ fuel ih =>
    rw [degreeSearch]
    split_ifs with haccept hend
    · exact ⟨⟨hk, haccept⟩, hbelow⟩
    -- from here on `k` itself is refused
    all_goals
      have hnext : ∀ j ∈ Accepted n, k + 1 ≤ j := by
        intro j hj
        refine Nat.succ_le_of_lt (lt_of_le_of_ne (hbelow j hj) ?_)
        rintro rfl
        exact haccept hj.2
    · exact ⟨peers_mem_accepted hn, fun j hj => hend.trans (hnext j hj)⟩
    · exact ih (k + 1) (by omega) (by omega) (by omega) hnext

theorem degreeTarget_isLeast {n : ℕ} (hn : 2 ≤ n) : IsLeast (Accepted n) (degreeTarget n) := by
  rw [degreeTarget, if_neg (by omega)]
  exact degreeSearch_isLeast hn _ 1 (by omega) le_rfl (by omega) fun j hj => hj.1

/-! ## The formula -/

noncomputable def isolatedExpectation (n k : ℕ) : ℝ :=
  n * (1 - (k : ℝ) / ((n : ℝ) - 1)) ^ (n - 1)

def Sufficient : Set ℕ := {k | 1 ≤ k ∧ isolatedExpectation n k ≤ -Real.log 0.9}

noncomputable def exactDegree : ℕ := min (n - 1) (sInf (Sufficient n))

/-- What the truncating divisions can take from the expectation at degree `k`. -/
noncomputable def roundingLoss (n k : ℕ) : ℝ := n * ((n - 1 : ℕ) / k) / degreeScale

theorem threshold_le : (degreeThresholdScaled : ℝ) ≤ -Real.log 0.9 * degreeScale := by
  have hseries := Real.abs_log_sub_add_sum_range_le (x := 0.1) (by norm_num [abs_of_pos]) 13
  rw [abs_le] at hseries
  norm_num [Finset.sum_range_succ, abs_of_pos] at hseries
  norm_num [degreeScale, degreeThresholdScaled]
  linarith [hseries.2]

theorem threshold_lt : -Real.log 0.9 * degreeScale < degreeThresholdScaled + 1 := by
  have hseries := Real.abs_log_sub_add_sum_range_le (x := 0.1) (by norm_num [abs_of_pos]) 13
  rw [abs_le] at hseries
  norm_num [Finset.sum_range_succ, abs_of_pos] at hseries
  norm_num [degreeScale, degreeThresholdScaled]
  linarith [hseries.1]

section Expectation

variable {n k : ℕ}

section

variable (hn : 2 ≤ n)
include hn

theorem isolatedExpectation_eq (hk : k ≤ n - 1) :
    isolatedExpectation n k = n * (((n - 1 - k : ℕ) : ℝ) / ((n - 1 : ℕ) : ℝ)) ^ (n - 1) := by
  have hcast : ((n - 1 : ℕ) : ℝ) = (n : ℝ) - 1 := by
    rw [Nat.cast_sub (by omega), Nat.cast_one]
  have hpeers : ((n - 1 : ℕ) : ℝ) ≠ 0 := Nat.cast_ne_zero.mpr (by omega)
  rw [isolatedExpectation, Nat.cast_sub hk, sub_div, div_self hpeers, hcast]

theorem isolatedProduct_le (hk : k ≤ n - 1) :
    ((n * isolatedProduct (n - 1) k : ℕ) : ℝ) ≤ isolatedExpectation n k * degreeScale := by
  have hle : (isolatedProduct (n - 1) k : ℝ) ≤ _ := truncPow_le (n - 1)
  rw [isolatedExpectation_eq hn hk, Nat.cast_mul, mul_assoc, mul_comm (_ ^ _)]
  exact mul_le_mul_of_nonneg_left hle (Nat.cast_nonneg n)

theorem le_isolatedProduct (hk : k ≤ n - 1) (hpos : 1 ≤ k) :
    (isolatedExpectation n k - roundingLoss n k) * degreeScale ≤
      ((n * isolatedProduct (n - 1) k : ℕ) : ℝ) := by
  have hscale : (degreeScale : ℝ) ≠ 0 := Nat.cast_ne_zero.mpr (by decide)
  have hlt : n - 1 - k < n - 1 := by omega
  have hle : (degreeScale : ℝ) * _ ≤ _ := le_truncPow_add hlt (n - 1)
  rw [Nat.cast_sub hk, sub_sub_cancel, ← Nat.cast_sub hk] at hle
  rw [isolatedExpectation_eq hn hk, roundingLoss, sub_mul, div_mul_cancel₀ _ hscale, Nat.cast_mul,
    mul_assoc, ← mul_sub, mul_comm (_ ^ _)]
  exact mul_le_mul_of_nonneg_left (sub_le_iff_le_add.mpr hle) (Nat.cast_nonneg n)

theorem isolatedExpectation_anti {j : ℕ} (hjk : j ≤ k) (hk : k ≤ n - 1) :
    isolatedExpectation n k ≤ isolatedExpectation n j := by
  rw [isolatedExpectation_eq hn hk, isolatedExpectation_eq hn (hjk.trans hk)]
  have hle : ((n - 1 - k : ℕ) : ℝ) ≤ ((n - 1 - j : ℕ) : ℝ) :=
    Nat.cast_le.mpr (Nat.sub_le_sub_left hjk _)
  gcongr

theorem accepted_of_sufficient (hk : k ≤ n - 1) (h : k ∈ Sufficient n) : k ∈ Accepted n := by
  refine ⟨h.1, Nat.lt_succ_iff.mp ?_⟩
  have hlt : ((n * isolatedProduct (n - 1) k : ℕ) : ℝ) < degreeThresholdScaled + 1 :=
    calc ((n * isolatedProduct (n - 1) k : ℕ) : ℝ)
        ≤ isolatedExpectation n k * degreeScale := isolatedProduct_le hn hk
      _ ≤ -Real.log 0.9 * degreeScale := mul_le_mul_of_nonneg_right h.2 (Nat.cast_nonneg _)
      _ < degreeThresholdScaled + 1 := threshold_lt
  exact_mod_cast hlt

theorem peers_mem_sufficient : n - 1 ∈ Sufficient n := by
  have hpow : (((n - 1 - (n - 1) : ℕ) : ℝ) / ((n - 1 : ℕ) : ℝ)) ^ (n - 1) = 0 := by
    rw [Nat.sub_self, Nat.cast_zero, zero_div, zero_pow (by omega)]
  refine ⟨by omega, ?_⟩
  rw [isolatedExpectation_eq hn le_rfl, hpow, mul_zero]
  exact neg_nonneg.mpr (Real.log_nonpos (by norm_num) (by norm_num))

theorem exactDegree_isLeast : IsLeast (Sufficient n) (exactDegree n) := by
  have hpeers := peers_mem_sufficient hn
  rw [exactDegree, min_eq_right (Nat.sInf_le hpeers)]
  exact ⟨Nat.sInf_mem ⟨_, hpeers⟩, fun k hk => Nat.sInf_le hk⟩

end

end Expectation

theorem add_lt_isolatedExpectation {n k : ℕ} (hn : 2 ≤ n) (hk : k ≤ n - 1) (loss : ℕ)
    (h : (degreeThresholdScaled + 1 + loss) * (n - 1) ^ (n - 1) <
      degreeScale * n * (n - 1 - k) ^ (n - 1)) :
    -Real.log 0.9 + loss / degreeScale < isolatedExpectation n k := by
  have hscale : (0 : ℝ) < degreeScale := Nat.cast_pos.mpr (by decide)
  have hpeers : (0 : ℝ) < ((n - 1 : ℕ) : ℝ) ^ (n - 1) := pow_pos (Nat.cast_pos.mpr (by omega)) _
  have hcast : ((degreeThresholdScaled : ℝ) + 1 + loss) * ((n - 1 : ℕ) : ℝ) ^ (n - 1) <
      degreeScale * n * ((n - 1 - k : ℕ) : ℝ) ^ (n - 1) := by exact_mod_cast h
  have hlt : (degreeThresholdScaled : ℝ) + 1 + loss < isolatedExpectation n k * degreeScale := by
    rw [isolatedExpectation_eq hn hk, div_pow, mul_div_assoc', div_mul_eq_mul_div,
      lt_div_iff₀ hpeers]
    linarith
  refine lt_of_mul_lt_mul_right ?_ hscale.le
  rw [add_mul, div_mul_cancel₀ _ hscale.ne']
  exact (add_lt_add_left threshold_lt _).trans hlt

end Radiata.Membership
