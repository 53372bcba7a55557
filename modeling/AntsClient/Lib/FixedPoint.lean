import Mathlib.Algebra.Order.Group.Nat
import Mathlib.Tactic

namespace AntsClient.Lib.FixedPoint

variable (one : Nat)

def mul (a b : Nat) : Nat := a * b / one

def power (r : Nat) : Nat → Nat
  | 0 => one
  | n + 1 => mul one (power r n) r

/-- The series of `exp (-f)` in nested form, from its factor `k` on, `m` factors, each rounded. -/
def series (f : Nat) : Nat → Nat → Nat
  | 0, _ => one
  | m + 1, k => one - mul one f (series f m (k + 1)) / k

variable {one} {a b a' b' r r' n n' f g m k : Nat}

section Product

theorem mul_comm (a b : Nat) : mul one a b = mul one b a := by rw [mul, mul, Nat.mul_comm]

theorem mul_le_mul (ha : a ≤ a') (hb : b ≤ b') : mul one a b ≤ mul one a' b' :=
  Nat.div_le_div_right (Nat.mul_le_mul ha hb)

theorem mul_le_left (hone : 0 < one) (hb : b ≤ one) : mul one a b ≤ a := by
  rw [mul, Nat.div_le_iff_le_mul_add_pred hone]
  exact le_add_right (Nat.mul_comm one a ▸ Nat.mul_le_mul_left a hb)

theorem mul_one_right (hone : 0 < one) (a : Nat) : mul one a one = a := Nat.mul_div_cancel a hone

end Product

section Power

theorem power_le_one (hone : 0 < one) (hr : r ≤ one) (n : Nat) : power one r n ≤ one := by
  induction n with
  | zero => exact Nat.le_refl one
  | succ n ih => exact (mul_le_left hone hr).trans ih

theorem power_antitone (hone : 0 < one) (hr : r ≤ one) (h : n ≤ n') : power one r n' ≤ power one r n := by
  induction h with
  | refl => exact Nat.le_refl _
  | step _ ih => exact (mul_le_left hone hr).trans ih

end Power

section Series

theorem series_le_one : series one f m k ≤ one := by
  cases m with
  | zero => exact Nat.le_refl one
  | succ m => exact Nat.sub_le _ _

/-- The factor that is subtracted is rounded once. -/
theorem series_succ (m k : Nat) : series one f (m + 1) k = one - f * series one f m (k + 1) / (one * k) := by
  rw [series, mul, Nat.div_div_eq_div_mul]

theorem factor_le (hone : 0 < one) : f * series one f m (k + 1) / (one * k) ≤ f / k := by
  rw [← Nat.div_div_eq_div_mul]
  exact Nat.div_le_div_right (mul_le_left hone series_le_one)

theorem series_add_factor (hone : 0 < one) (hf : f ≤ one) (m k : Nat) :
    series one f (m + 1) k + f * series one f m (k + 1) / (one * k) = one := by
  have hle := @factor_le one f m k hone
  have hdiv := Nat.div_le_self f k
  rw [series_succ]
  omega

theorem le_series (hone : 0 < one) (m k : Nat) : one ≤ series one f m k + f / k := by
  cases m with
  | zero => exact Nat.le_add_right _ _
  | succ m =>
    have hle := @factor_le one f m k hone
    rw [series_succ]
    omega

/-- One more factor at arguments `g` apart: where the series below falls by at most `c'`, this one
does not rise. -/
theorem series_step_le {c' : Nat} (hge : series one f m (k + 1) ≤ series one (f + g) m (k + 1) + c')
    (hlow : c' * (f + g) ≤ g * series one f m (k + 1)) :
    series one (f + g) (m + 1) k ≤ series one f (m + 1) k := by
  have hup : f * series one f m (k + 1) ≤ (f + g) * series one (f + g) m (k + 1) := by nlinarith
  rw [series_succ, series_succ]
  exact Nat.sub_le_sub_left (Nat.div_le_div_right hup) one

/-- Where the series below does not rise either, this one falls by at most `c`. -/
theorem series_step {c c' : Nat} (hone : 0 < one) (hk : 0 < k)
    (hle : series one (f + g) m (k + 1) ≤ series one f m (k + 1))
    (hge : series one f m (k + 1) ≤ series one (f + g) m (k + 1) + c')
    (hlow : c' * (f + g) ≤ g * series one f m (k + 1)) (hc : g ≤ c * k) :
    series one (f + g) (m + 1) k ≤ series one f (m + 1) k ∧
      series one f (m + 1) k ≤ series one (f + g) (m + 1) k + c := by
  have hone' : series one f m (k + 1) ≤ one := series_le_one
  have hdown : (f + g) * series one (f + g) m (k + 1) ≤
      f * series one f m (k + 1) + c * (one * k) := by nlinarith
  have hdiv : (f + g) * series one (f + g) m (k + 1) / (one * k) ≤
      f * series one f m (k + 1) / (one * k) + c := by
    rw [← Nat.add_mul_div_right _ _ (Nat.mul_pos hone hk)]
    exact Nat.div_le_div_right hdown
  refine ⟨series_step_le hge hlow, ?_⟩
  rw [series_succ, series_succ]
  omega

/-- One unit apart, every rounded factor from the second on moves by at most one, up or down. -/
theorem series_one (hone : 0 < one) (hf : f + 1 ≤ one) (m : Nat) (hk : 2 ≤ k) :
    series one f m k ≤ series one (f + 1) m k + 1 ∧
      series one (f + 1) m k ≤ series one f m k + 1 := by
  induction m generalizing k with
  | zero => exact ⟨Nat.le_add_right _ _, Nat.le_add_right _ _⟩
  | succ m ih =>
    obtain ⟨hfall, hrise⟩ := ih (Nat.le_succ_of_le hk)
    have hone' : series one f m (k + 1) ≤ one := series_le_one
    have hpos : 0 < one * k := Nat.mul_pos hone (by omega)
    have htwo : one * 2 ≤ one * k := Nat.mul_le_mul_left one hk
    have hup : (f + 1) * series one (f + 1) m (k + 1) ≤
        f * series one f m (k + 1) + 1 * (one * k) := by nlinarith
    have hdown : f * series one f m (k + 1) ≤
        (f + 1) * series one (f + 1) m (k + 1) + 1 * (one * k) := by nlinarith
    have hdiv := Nat.div_le_div_right (c := one * k) hup
    have hdiv' := Nat.div_le_div_right (c := one * k) hdown
    rw [Nat.add_mul_div_right _ _ hpos] at hdiv hdiv'
    rw [series_succ, series_succ]
    omega

/-- Two units apart, every rounded factor falls by at most one. -/
theorem series_two (hone : 0 < one) (hf : f + 2 ≤ one) (m : Nat) (hk : 2 ≤ k) :
    series one (f + 2) m k ≤ series one f m k ∧ series one f m k ≤ series one (f + 2) m k + 1 := by
  induction m generalizing k with
  | zero => exact ⟨Nat.le_refl _, Nat.le_add_right _ _⟩
  | succ m ih =>
    obtain ⟨hle, hge⟩ := ih (Nat.le_succ_of_le hk)
    have hlow := @le_series one f hone m (k + 1)
    have hthird : f / (k + 1) ≤ f / 3 := Nat.div_le_div_left (by omega) (by norm_num)
    exact series_step hone (by omega) hle hge (by omega) (by omega)

theorem series_add_two (hone : 0 < one) (hf : f + 2 ≤ one) (m : Nat) :
    series one (f + 2) (m + 1) 1 ≤ series one f (m + 1) 1 := by
  obtain ⟨hle, hge⟩ := series_two hone hf m (Nat.le_refl 2)
  have hlow := @le_series one f hone m (1 + 1)
  exact (@series_step one f 2 m 1 2 1 hone Nat.one_pos hle hge (by omega) (by omega)).1

/-- Up to one unit, the factors from the second on do not rise. -/
theorem series_near (hone : 0 < one) (hf : f + g ≤ one) (m : Nat) (hk : 2 ≤ k) :
    series one (f + g) m k ≤ series one f m k + 1 := by
  induction g using Nat.twoStepInduction with
  | zero => exact Nat.le_add_right _ _
  | one => exact (series_one hone hf m hk).2
  | more g ih _ => exact (series_two (f := f + g) hone hf m hk).1.trans (ih (by omega))

theorem series_add_one (hone : 0 < one) (hf : f + 1 ≤ one) (hlow : f + 1 ≤ series one f m 2) :
    series one (f + 1) (m + 1) 1 ≤ series one f (m + 1) 1 :=
  series_step_le (series_one hone hf m (Nat.le_refl 2)).1 (by rwa [Nat.one_mul, Nat.one_mul])

theorem series_add_three (hone : 0 < one) (hf : f + 3 ≤ one) (hlow : 2 * (f + 3) ≤ 3 * series one f m 2) :
    series one (f + 3) (m + 1) 1 ≤ series one f (m + 1) 1 := by
  have htwo := (series_two hone (Nat.le_of_succ_le hf) m (Nat.le_refl 2)).2
  have hone' := (@series_one one (f + 2) 2 hone hf m (Nat.le_refl 2)).1
  have hge : series one f m 2 ≤ series one (f + 3) m 2 + 2 := htwo.trans (Nat.succ_le_succ hone')
  exact series_step_le hge hlow

/-- Five units apart, the factors fall by at most two. -/
theorem series_five (hone : 8 ≤ one) (hf : f + 5 ≤ one) (m : Nat) (hk : 3 ≤ k) :
    series one (f + 5) m k ≤ series one f m k ∧ series one f m k ≤ series one (f + 5) m k + 2 := by
  induction m generalizing k with
  | zero => exact ⟨Nat.le_refl _, Nat.le_add_right _ _⟩
  | succ m ih =>
    obtain ⟨hle, hge⟩ := ih (Nat.le_succ_of_le hk)
    have hlow := @le_series one f (by omega) m (k + 1)
    have hfourth : f / (k + 1) ≤ f / 4 := Nat.div_le_div_left (by omega) (by norm_num)
    exact series_step (by omega) (by omega) hle hge (by omega) (by omega)

/-- The second factor stays above three fifths of one, which its first three factors show. -/
theorem series_second (hone : 256 ≤ one) (hf : f ≤ one) (m : Nat) :
    3 * (f + 5) ≤ 5 * series one f (m + 3) 2 := by
  have hpos : 0 < one := by omega
  obtain ⟨u, rfl⟩ : ∃ u, one = f + u := ⟨one - f, by omega⟩
  generalize hN : f + u = N at *
  have h4 : 4 * N ≤ 4 * series N f (m + 1) 4 + f := by
    have hlow := @le_series N f hpos (m + 1) 4
    omega
  have h3 : series N f (m + 2) 3 + f * series N f (m + 1) 4 / (N * 3) = N :=
    series_add_factor hpos (by omega) _ _
  have h2 : series N f (m + 3) 2 + f * series N f (m + 2) 3 / (N * 2) = N :=
    series_add_factor hpos (by omega) _ _
  have hround3 := Nat.lt_mul_div_succ (f * series N f (m + 1) 4) (Nat.mul_pos hpos (by norm_num : 0 < 3))
  have hround2 := Nat.mul_div_le (f * series N f (m + 2) 3) (N * 2)
  generalize series N f (m + 1) 4 = s₄ at *
  generalize f * s₄ / (N * 3) = q₃ at *
  generalize series N f (m + 2) 3 = s₃ at *
  generalize f * s₃ / (N * 2) = q₂ at *
  generalize series N f (m + 3) 2 = s₂ at *
  zify at *
  by_contra hlt
  push Not at hlt
  have hq₂ : 5 * N - 3 * f - 14 ≤ 5 * (q₂ : ℤ) := by omega
  -- both roundings, cleared of their denominators
  have hupper : 24 * (N : ℤ) ^ 2 * (5 * N - 3 * f - 14) ≤ 60 * N * f * (N - q₃) := by
    have hmul := mul_le_mul_of_nonneg_left hq₂ (by positivity : (0 : ℤ) ≤ 24 * N ^ 2)
    have hs₃ : (s₃ : ℤ) = N - q₃ := by omega
    rw [hs₃] at hround2
    nlinarith
  have hlower : 5 * (f : ℤ) ^ 2 * (4 * N - f) - 60 * N * f ≤ 60 * N * f * q₃ := by
    have hs₄ : (f : ℤ) * (4 * N - f) ≤ f * (4 * s₄) := mul_le_mul_of_nonneg_left (by omega) (by positivity)
    have hq₃ : (f : ℤ) * (4 * N - f) ≤ 12 * N * (q₃ + 1) := by nlinarith
    have hmul := mul_le_mul_of_nonneg_left hq₃ (by positivity : (0 : ℤ) ≤ 5 * f)
    nlinarith
  -- in the distance of the argument from one, what is left has no negative term
  have hfu : (f : ℤ) = N - u := by omega
  have hcube : 256 * (N : ℤ) ^ 2 ≤ N * N ^ 2 := mul_le_mul_of_nonneg_right (by omega) (by positivity)
  have hmixed : 0 ≤ 107 * (N : ℤ) ^ 2 * u + 5 * N * u ^ 2 + 5 * u ^ 3 + 60 * N * u := by positivity
  rw [hfu] at hupper hlower
  nlinarith

theorem series_add_five (hone : 256 ≤ one) (hf : f + 5 ≤ one) (m : Nat) :
    series one (f + 5) (m + 4) 1 ≤ series one f (m + 4) 1 := by
  obtain ⟨hle₃, hge₃⟩ := series_five (by omega) hf (m + 2) (Nat.le_refl 3)
  have hlow₃ := @le_series one f (by omega) (m + 2) (2 + 1)
  obtain ⟨hle, hge⟩ :=
    @series_step one f 5 (m + 2) 2 3 2 (by omega) (by norm_num) hle₃ hge₃ (by omega) (by norm_num)
  exact (@series_step one f 5 (m + 3) 1 5 3 (by omega) Nat.one_pos hle hge
    (series_second hone (by omega) m) (by norm_num)).1

/-- At arguments neither one unit nor three units apart, the series does not rise. -/
theorem series_antitone (hone : 256 ≤ one) (hf : f + g ≤ one) (hg : g ≠ 1 ∧ g ≠ 3) (m : Nat) :
    series one (f + g) (m + 4) 1 ≤ series one f (m + 4) 1 := by
  induction g using Nat.strong_induction_on with
  | _ g ih =>
    obtain rfl | rfl | hlarge : g = 0 ∨ g = 5 ∨ 2 ≤ g ∧ g - 2 ≠ 1 ∧ g - 2 ≠ 3 := by omega
    · exact Nat.le_refl _
    · exact series_add_five hone hf m
    · -- two units less are again neither one nor three
      have hstep := @series_add_two one (f + (g - 2)) (by omega) (by omega) (m + 3)
      rw [show f + (g - 2) + 2 = f + g by omega] at hstep
      exact hstep.trans (ih (g - 2) (by omega) (by omega) hlarge.2)

end Series

end AntsClient.Lib.FixedPoint
