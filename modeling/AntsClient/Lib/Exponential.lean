import AntsClient.Lib.FixedPoint
import Mathlib.Analysis.Complex.ExponentialBounds

namespace AntsClient.Lib.Exponential

open Finset FixedPoint

noncomputable def nested (x : ℝ) : Nat → Nat → ℝ
  | 0, _ => 1
  | m + 1, k => 1 - x / k * nested x m (k + 1)

section Series

variable {x : ℝ} {one f : Nat}

theorem nested_eq_sum (x : ℝ) (m j : Nat) :
    nested x m (j + 1) = ∑ i ∈ range (m + 1), (-x) ^ i * (j.factorial / (j + i).factorial : ℝ) := by
  induction m generalizing j with
  | zero =>
    have hne : (j.factorial : ℝ) ≠ 0 := by positivity
    rw [nested, sum_range_one, pow_zero, Nat.add_zero, div_self hne, mul_one]
  | succ m ih =>
    have hne : (j.factorial : ℝ) ≠ 0 := by positivity
    have hsplit : ∑ i ∈ range (m + 1 + 1), (-x) ^ i * (j.factorial / (j + i).factorial : ℝ) =
        ∑ i ∈ range (m + 1), (-x) ^ (i + 1) * (j.factorial / (j + (i + 1)).factorial : ℝ) + 1 := by
      rw [sum_range_succ', pow_zero, add_zero j, div_self hne, mul_one]
    rw [nested, ih, hsplit, mul_sum, sub_eq_neg_add, ← sum_neg_distrib]
    refine congrArg (· + 1) (sum_congr rfl fun i _ => ?_)
    have hj : ((j : ℝ) + 1) ≠ 0 := by positivity
    have hfact : ((j + 1 + i).factorial : ℝ) ≠ 0 := by positivity
    rw [Nat.factorial_succ, show j + (i + 1) = j + 1 + i by omega]
    push_cast
    field_simp
    ring

/-- What is cut off of the series. -/
theorem nested_sub_exp (hx : 0 ≤ x) (hx' : x ≤ 1) (m : Nat) :
    |Real.exp (-x) - nested x m 1| ≤ (m + 2) / ((m + 1).factorial * (m + 1)) := by
  have habs : |-x| ≤ 1 := by
    rw [abs_neg, abs_of_nonneg hx]
    exact hx'
  have hsum : nested x m 1 = ∑ i ∈ range (m + 1), (-x) ^ i / i.factorial := by
    rw [nested_eq_sum x m 0]
    refine sum_congr rfl fun i _ => ?_
    rw [Nat.factorial_zero, Nat.zero_add, Nat.cast_one, mul_one_div]
  rw [hsum]
  refine (Real.exp_bound habs (Nat.succ_pos m)).trans ?_
  have hslack : (0 : ℝ) ≤ ((m + 1).succ : ℝ) / ((m + 1).factorial * (m + 1 : ℕ)) := by positivity
  refine (mul_le_of_le_one_left hslack (pow_le_one₀ (abs_nonneg _) habs)).trans (le_of_eq ?_)
  push_cast
  ring

/-- A quotient that is rounded down. -/
theorem floor_bounds (a : Nat) {b : Nat} (hb : 0 < b) :
    ((a / b : ℕ) : ℝ) ≤ a / b ∧ (a : ℝ) / b ≤ (a / b : ℕ) + 1 := by
  have hb' : (0 : ℝ) < b := by exact_mod_cast hb
  have hlt : a ≤ (a / b + 1) * b := by
    rw [Nat.mul_comm]
    exact (Nat.lt_mul_div_succ a hb).le
  exact ⟨Nat.cast_div_le, (div_le_iff₀ hb').mpr (by exact_mod_cast hlt)⟩

/-- One rounded factor adds at most one unit to the part of the error that it passes on. -/
theorem series_error_step (hone : 0 < one) (hf : f ≤ one) (m : Nat) {k : Nat} (hk : 0 < k) {e : ℝ}
    (he : |(series one f m (k + 1) : ℝ) - one * nested (f / one) m (k + 1)| ≤ e) :
    |(series one f (m + 1) k : ℝ) - one * nested (f / one) (m + 1) k| ≤ e / k + 1 := by
  have hone' : (0 : ℝ) < one := by exact_mod_cast hone
  have hk' : (0 : ℝ) < k := by exact_mod_cast hk
  have hsum : (series one f (m + 1) k : ℝ) + (f * series one f m (k + 1) / (one * k) : ℕ) = one := by
    exact_mod_cast series_add_factor hone hf m k
  obtain ⟨hlow, hhigh⟩ := floor_bounds (f * series one f m (k + 1)) (Nat.mul_pos hone hk)
  push_cast at hlow hhigh
  have hsplit : (series one f (m + 1) k : ℝ) - one * nested (f / one) (m + 1) k =
      -((f / one : ℝ) / k) * (series one f m (k + 1) - one * nested (f / one) m (k + 1)) +
        (f * series one f m (k + 1) / (one * k) - (f * series one f m (k + 1) / (one * k) : ℕ)) := by
    rw [nested, eq_sub_of_add_eq hsum]
    field_simp
    ring
  have hratio : (f : ℝ) / one ≤ 1 := (div_le_one hone').mpr (by exact_mod_cast hf)
  have hpassed : |(-((f / one : ℝ) / k)) *
      (series one f m (k + 1) - one * nested (f / one) m (k + 1))| ≤ e / k := by
    rw [abs_mul, abs_neg, abs_of_nonneg (by positivity), div_mul_eq_mul_div]
    refine div_le_div_of_nonneg_right ?_ hk'.le
    exact (mul_le_of_le_one_left (abs_nonneg _) hratio).trans he
  have hround : |(f * series one f m (k + 1) / (one * k) : ℝ) - (f * series one f m (k + 1) /
      (one * k) : ℕ)| ≤ 1 := by
    rw [abs_le]
    constructor <;> linarith
  rw [hsplit]
  exact (abs_add_le _ _).trans (add_le_add hpassed hround)

theorem series_error_two (hone : 0 < one) (hf : f ≤ one) (m : Nat) {k : Nat} (hk : 2 ≤ k) :
    |(series one f m k : ℝ) - one * nested (f / one) m k| ≤ 2 := by
  induction m generalizing k with
  | zero =>
    rw [series, nested, mul_one, sub_self, abs_zero]
    norm_num
  | succ m ih =>
    have hk' : (2 : ℝ) ≤ k := by exact_mod_cast hk
    refine (series_error_step hone hf m (by omega) (ih (Nat.le_succ_of_le hk))).trans ?_
    have hhalf : (2 : ℝ) / k ≤ 1 := (div_le_one (by linarith)).mpr hk'
    linarith

/-- All roundings together move the series by at most three units. -/
theorem series_error (hone : 0 < one) (hf : f ≤ one) (m : Nat) :
    |(series one f (m + 1) 1 : ℝ) - one * nested (f / one) (m + 1) 1| ≤ 3 := by
  refine (series_error_step hone hf m Nat.one_pos (series_error_two hone hf m (Nat.le_refl 2))).trans ?_
  norm_num

end Series

section Product

variable {one r p s : Nat} {y z c d e : ℝ}

/-- The factors of a product stand for the summands of an exponent: the error of the one is scaled by the other. -/
theorem product_error (hone : 0 < one) (hs : s ≤ c * one) (hy : 0 ≤ y)
    (hp : |(p : ℝ) - one * Real.exp (-y)| ≤ d) (hz : |(s : ℝ) - one * Real.exp (-z)| ≤ e) :
    |(mul one p s : ℝ) - one * Real.exp (-(y + z))| ≤ d * c + e + 1 := by
  have hone' : (0 : ℝ) < one := by exact_mod_cast hone
  obtain ⟨hlow, hhigh⟩ := floor_bounds (p * s) hone
  push_cast at hlow hhigh
  have hsplit : (mul one p s : ℝ) - one * Real.exp (-(y + z)) =
      (p - one * Real.exp (-y)) * (s / one) + Real.exp (-y) * (s - one * Real.exp (-z)) -
        (p * s / one - (p * s / one : ℕ)) := by
    rw [mul, neg_add, Real.exp_add]
    field_simp
    ring
  have hfirst : |((p : ℝ) - one * Real.exp (-y)) * (s / one)| ≤ d * c := by
    rw [abs_mul, abs_of_nonneg (by positivity : (0 : ℝ) ≤ s / one)]
    have hratio : (s : ℝ) / one ≤ c := (div_le_iff₀ hone').mpr hs
    have hd : 0 ≤ d := (abs_nonneg _).trans hp
    gcongr
  have hsecond : |Real.exp (-y) * ((s : ℝ) - one * Real.exp (-z))| ≤ e := by
    have hle : Real.exp (-y) ≤ 1 := Real.exp_le_one_iff.mpr (neg_nonpos.mpr hy)
    rw [abs_mul, abs_of_pos (Real.exp_pos _)]
    exact (mul_le_of_le_one_left (abs_nonneg _) hle).trans hz
  rw [hsplit]
  rw [abs_le] at hfirst hsecond ⊢
  constructor <;> linarith [hfirst.1, hfirst.2, hsecond.1, hsecond.2]

/-- Repeated rounding does not accumulate: what is lost in one product is scaled down by the next. -/
theorem power_error (hone : 0 < one) (hr : 8 * r ≤ 3 * one)
    (hexp : |(r : ℝ) - one * Real.exp (-1)| ≤ 1 / 2) (n : Nat) :
    |(power one r n : ℝ) - one * Real.exp (-n)| ≤ 12 / 5 := by
  have hratio : (r : ℝ) ≤ 3 / 8 * one := by
    have hr' : (8 : ℝ) * r ≤ 3 * one := by exact_mod_cast hr
    linarith
  induction n with
  | zero =>
    rw [power, Nat.cast_zero, neg_zero, Real.exp_zero, mul_one, sub_self, abs_zero]
    norm_num
  | succ n ih =>
    rw [power, Nat.cast_succ]
    refine (product_error hone hratio n.cast_nonneg ih hexp).trans (le_of_eq ?_)
    norm_num

/-- The exponential does not spread what is lost of the exponent. -/
theorem exp_neg_sub_le (hy : 0 ≤ y) (h : y ≤ z) : |Real.exp (-y) - Real.exp (-z)| ≤ z - y := by
  have hmono : Real.exp (-z) ≤ Real.exp (-y) := Real.exp_le_exp.mpr (neg_le_neg h)
  have hfactor : Real.exp (-z) = Real.exp (-y) * Real.exp (y - z) := by
    rw [← Real.exp_add]
    ring_nf
  have hline : 1 - Real.exp (y - z) ≤ z - y := by linarith [Real.add_one_le_exp (y - z)]
  have hle : Real.exp (-y) ≤ 1 := Real.exp_le_one_iff.mpr (neg_nonpos.mpr hy)
  have hslack : 0 ≤ 1 - Real.exp (y - z) := by linarith [Real.exp_le_one_iff.mpr (sub_nonpos.mpr h)]
  rw [abs_of_nonneg (sub_nonneg.mpr hmono)]
  calc Real.exp (-y) - Real.exp (-z) = Real.exp (-y) * (1 - Real.exp (y - z)) := by rw [hfactor]; ring
    _ ≤ 1 - Real.exp (y - z) := mul_le_of_le_one_left hslack hle
    _ ≤ z - y := hline

end Product

end AntsClient.Lib.Exponential
