import AntsClient.Lib.Exponential
import AntsClient.Reputation.Effective

namespace AntsClient.Reputation.Accuracy

open Lib.FixedPoint hiding mul_comm
open Lib.Exponential Decay Effective

section Exponential

variable {n f : Nat}

theorem expNeg1_error : |(expNeg1Q32.toNat : ℝ) - unit * Real.exp (-1)| ≤ 1 / 2 := by
  have hval : (expNeg1Q32.toNat : ℝ) = 1580030169 := by
    have hnat : expNeg1Q32.toNat = 1580030169 := by decide
    rw [hnat, Nat.cast_ofNat]
  have hunit : (unit : ℝ) = 4294967296 := by rw [unit, Nat.cast_ofNat]
  have hpos := Real.exp_pos 1
  have hlow : (4294967296 : ℝ) * (Real.exp 1)⁻¹ ≤ 4294967296 / 2.7182818283 := by
    rw [← div_eq_mul_inv]
    exact div_le_div_of_nonneg_left (by norm_num) (by norm_num) Real.exp_one_gt_d9.le
  have hhigh : (4294967296 : ℝ) / 2.7182818286 ≤ 4294967296 * (Real.exp 1)⁻¹ := by
    rw [← div_eq_mul_inv]
    exact div_le_div_of_nonneg_left (by norm_num) hpos Real.exp_one_lt_d9.le
  rw [hval, hunit, Real.exp_neg, abs_le]
  constructor
  · norm_num at hlow ⊢
    linarith
  · norm_num at hhigh ⊢
    linarith

theorem taylor_error (hf : f ≤ unit) : |(series unit f 16 1 : ℝ) - unit * Real.exp (-(f / unit))| ≤ 7 / 2 := by
  have hpos : (0 : ℝ) < unit := by exact_mod_cast unit_pos
  have hratio : (f : ℝ) / unit ≤ 1 := (div_le_one hpos).mpr (by exact_mod_cast hf)
  have hround := series_error unit_pos hf 15
  have hcut : |unit * (Real.exp (-(f / unit)) - nested (f / unit) 16 1)| ≤ 1 / 2 := by
    rw [abs_mul, abs_of_pos hpos]
    refine (mul_le_mul_of_nonneg_left (nested_sub_exp (by positivity) hratio 16) hpos.le).trans ?_
    rw [unit]
    norm_num [Nat.factorial]
  have hsplit : (series unit f 16 1 : ℝ) - unit * Real.exp (-(f / unit)) =
      (series unit f 16 1 - unit * nested (f / unit) 16 1) - unit *
        (Real.exp (-(f / unit)) - nested (f / unit) 16 1) := by
    ring
  rw [hsplit]
  rw [abs_le] at hround hcut ⊢
  constructor <;> linarith [hround.1, hround.2, hcut.1, hcut.2]

theorem expneg_error (hf : f ≤ unit) : |(expneg n f : ℝ) - unit * Real.exp (-(n + f / unit))| ≤ 7 := by
  have hseries : (series unit f 16 1 : ℝ) ≤ 1 * unit := by
    rw [one_mul]
    exact_mod_cast series_le_one
  have hpower := power_error unit_pos (by decide) expNeg1_error n
  refine (product_error unit_pos hseries n.cast_nonneg hpower (taylor_error hf)).trans ?_
  norm_num

end Exponential

section Transform

variable {t tCap : UInt64}

theorem ratio_eq (hcap : tCap ≠ 0) : (t.toNat : ℝ) / tCap.toNat =
      (t.toNat / tCap.toNat : ℕ) + (t.toNat % tCap.toNat : ℕ) / tCap.toNat := by
  have hpos : (tCap.toNat : ℝ) ≠ 0 := by exact_mod_cast fun h0 => hcap (UInt64.toNat.inj h0)
  have hdiv : (tCap.toNat : ℝ) * (t.toNat / tCap.toNat : ℕ) + (t.toNat % tCap.toNat : ℕ) = t.toNat := by
    exact_mod_cast Nat.div_add_mod t.toNat tCap.toNat
  rw [← hdiv]
  field_simp

theorem exponent_error (hcap : tCap ≠ 0) :
    |Real.exp (-((t.toNat / tCap.toNat : ℕ) + fraction t tCap / unit)) - Real.exp
      (-(t.toNat / tCap.toNat))| ≤ 1 / unit := by
  have hpos : (0 : ℝ) < unit := by exact_mod_cast unit_pos
  have hcap' : 0 < tCap.toNat := Nat.pos_of_ne_zero fun h0 => hcap (UInt64.toNat.inj h0)
  obtain ⟨hlow, hhigh⟩ := floor_bounds (t.toNat % tCap.toNat * unit) hcap'
  rw [Nat.cast_mul, mul_div_right_comm] at hlow hhigh
  rw [ratio_eq hcap]
  refine (exp_neg_sub_le (by positivity) ?_).trans ?_
  · exact add_le_add_right ((div_le_iff₀ hpos).mpr hlow) _
  · rw [add_sub_add_left_eq_sub, le_div_iff₀ hpos, sub_mul, fraction, div_mul_cancel₀ _ hpos.ne']
    linarith

theorem expneg_ratio_error (hcap : tCap ≠ 0) :
    |(expneg (t.toNat / tCap.toNat) (fraction t tCap) : ℝ) / unit - Real.exp
      (-(t.toNat / tCap.toNat))| ≤ 8 / unit := by
  have hpos : (0 : ℝ) < unit := by exact_mod_cast unit_pos
  have hexp := @expneg_error (t.toNat / tCap.toNat) _ (fraction_lt (t := t) hcap).le
  have hcut := exponent_error (t := t) hcap
  have hscaled : |(expneg (t.toNat / tCap.toNat) (fraction t tCap) : ℝ) / unit -
      Real.exp (-((t.toNat / tCap.toNat : ℕ) + fraction t tCap / unit))| ≤ 7 / unit := by
    rw [le_div_iff₀ hpos, ← abs_of_pos hpos, ← abs_mul, abs_of_pos hpos, sub_mul,
      div_mul_cancel₀ _ hpos.ne', mul_comm _ (unit : ℝ)]
    exact hexp
  refine (abs_sub_le _ _ _).trans ((add_le_add hscaled hcut).trans (le_of_eq ?_))
  ring

theorem tEff_le_tenure (hcap : tCap ≠ 0) :
    mul unit tCap.toNat (unit - expneg (t.toNat / tCap.toNat) (fraction t tCap)) ≤ t.toNat := by
  have hpos : 0 < tCap.toNat := Nat.pos_of_ne_zero fun h0 => hcap (UInt64.toNat.inj h0)
  by_cases hlt : t.toNat < tCap.toNat
  · -- below the cap the series alone decides, and it falls at most by its fraction
    have hexp : expneg (t.toNat / tCap.toNat) (fraction t tCap) = series unit (fraction t tCap) 16 1 := by
      rw [Nat.div_eq_of_lt hlt, expneg, power, Lib.FixedPoint.mul_comm, mul_one_right unit_pos]
    have hfall : unit - series unit (fraction t tCap) 16 1 ≤ fraction t tCap := by
      have hle := @le_series unit (fraction t tCap) unit_pos 16 1
      rw [Nat.div_one] at hle
      omega
    have hfrac : tCap.toNat * fraction t tCap ≤ t.toNat * unit := by
      rw [fraction, Nat.mod_eq_of_lt hlt]
      exact Nat.mul_div_le _ _
    rw [hexp, mul]
    exact Nat.div_le_of_le_mul ((Nat.mul_le_mul_left _ hfall).trans (hfrac.trans_eq (Nat.mul_comm _ _)))
  · exact (mul_le_left unit_pos (Nat.sub_le _ _)).trans (Nat.le_of_not_lt hlt)

/-- The transform is the exponential one, up to eight units of `q32` of the cap and one unit of tenure. -/
theorem tEff_accurate (t tCap : UInt64) (hcap : 1 ≤ tCap) :
    ∃ out, tEff t tCap = .ok out ∧ out ≤ t ∧ out ≤ tCap ∧
      |(out.toNat : ℝ) - tCap.toNat * (1 - Real.exp (-(t.toNat / tCap.toNat)))| ≤
        8 * tCap.toNat / 2 ^ 32 + 1 := by
  have hne : tCap ≠ 0 := by
    rintro rfl
    exact absurd hcap (by decide)
  obtain ⟨out, hout, hval⟩ := tEff_ok (t := t) hne
  refine ⟨out, hout, ?_, ?_, ?_⟩
  · rw [UInt64.le_iff_toNat_le, hval]
    exact tEff_le_tenure hne
  · rw [UInt64.le_iff_toNat_le, hval]
    exact mul_le_left unit_pos (Nat.sub_le _ _)
  · have hpos : (0 : ℝ) < unit := by exact_mod_cast unit_pos
    have hunit : (unit : ℝ) = 2 ^ 32 := by
      rw [unit]
      norm_num
    obtain ⟨hlow, hhigh⟩ :=
      floor_bounds (tCap.toNat * (unit - expneg (t.toNat / tCap.toNat) (fraction t tCap))) unit_pos
    rw [Nat.cast_mul, Nat.cast_sub (expneg_le_one _ _), mul_div_assoc, sub_div, div_self hpos.ne'] at hlow hhigh
    have herror : |(tCap.toNat : ℝ) * (expneg (t.toNat / tCap.toNat) (fraction t tCap) /
      unit - Real.exp (-(t.toNat / tCap.toNat)))| ≤
        8 * tCap.toNat / 2 ^ 32 := by
      rw [abs_mul, abs_of_nonneg (Nat.cast_nonneg _), mul_comm 8, mul_div_assoc, ← hunit]
      exact mul_le_mul_of_nonneg_left (expneg_ratio_error hne) (Nat.cast_nonneg _)
    rw [hval, mul]
    rw [mul_sub, abs_le] at herror
    rw [abs_le, mul_sub, mul_one]
    rw [mul_sub, mul_one] at hlow hhigh
    constructor <;> linarith [herror.1, herror.2]

theorem tEff_accurate_sample : (1 : UInt64) ≤ tForkChoiceCap ∧ ∃ out, tEff 1926468621 tForkChoiceCap = .ok out ∧
    out ≤ 1926468621 ∧ out ≤ tForkChoiceCap ∧
      |(out.toNat : ℝ) - tForkChoiceCap.toNat *
        (1 - Real.exp (-((1926468621 : UInt64).toNat / tForkChoiceCap.toNat)))| ≤
        8 * tForkChoiceCap.toNat / 2 ^ 32 + 1 :=
  ⟨by decide, tEff_accurate 1926468621 tForkChoiceCap (by decide)⟩

end Transform

end AntsClient.Reputation.Accuracy
