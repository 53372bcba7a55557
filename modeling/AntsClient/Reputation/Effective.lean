import AntsClient.Reputation.Decay

namespace AntsClient.Reputation.Effective

open Common Lib.FixedPoint Receipts Decay UInt64

section Model

def expNeg1Q32 : UInt64 := 1580030169

def taylorTerms : Nat := 16

def tForkChoiceCap : UInt64 := 2000000000

/-- The binary long division, one bit of the quotient a round. -/
def muldivLoop (d : UInt64) : Nat → UInt64 → UInt64 → UInt64
  | 0, _, q => q
  | i + 1, rem, q =>
    if rem ≥ d - rem then muldivLoop d i (rem - (d - rem)) ((q <<< 1) ||| 1)
    else muldivLoop d i (rem + rem) (q <<< 1)

def muldivQ32 (a d : UInt64) : UInt64 := muldivLoop d 32 a 0

def taylorStep (f s k : UInt64) : UInt64 := fpOne - fpMul f s / k

def taylorCounts : Nat → List UInt64
  | 0 => []
  | k + 1 => UInt64.ofNat (k + 1) :: taylorCounts k

def taylorExpnegQ32 (f : UInt64) : UInt64 := (taylorCounts taylorTerms).foldl (taylorStep f) fpOne

def expnegRatioQ32 (t tCap : UInt64) : UInt64 :=
  fpMul (decayFactor expNeg1Q32 (t / tCap)) (taylorExpnegQ32 (muldivQ32 (t % tCap) tCap))

def tEff (t tCap : UInt64) : Except Error UInt64 :=
  if tCap = 0 then .error .invalidArg else .ok (applyDecay tCap (fpOne - expnegRatioQ32 t tCap))

end Model

section Values

theorem shiftLeft_one {q : UInt64} (h : q.toNat * 2 < 2 ^ 64) : (q <<< 1).toNat = q.toNat * 2 := by
  have hone : (1 : UInt64).toNat % 64 = 1 := rfl
  rw [UInt64.toNat_shiftLeft, hone, Nat.shiftLeft_eq, Nat.pow_one, Nat.mod_eq_of_lt h]

theorem shiftLeft_or_one {q : UInt64} (h : q.toNat * 2 < 2 ^ 64) :
    ((q <<< 1) ||| 1).toNat = q.toNat * 2 + 1 := by
  have hor := Nat.two_pow_add_eq_or_of_lt (by norm_num : 1 < 2 ^ 1) q.toNat
  rw [UInt64.toNat_or, shiftLeft_one h, UInt64.toNat_one, Nat.mul_comm]
  exact hor.symm

def NoWrap (d : UInt64) : Nat → UInt64 → UInt64 → Prop
  | 0, _, _ => True
  | i + 1, rem, q => rem ≤ d ∧ q.toNat * 2 + 1 < 2 ^ 64 ∧
    if rem ≥ d - rem then NoWrap d i (rem - (d - rem)) ((q <<< 1) ||| 1)
    else rem.toNat + rem.toNat < 2 ^ 64 ∧ NoWrap d i (rem + rem) (q <<< 1)

theorem muldivLoop_exact {d rem q : UInt64} {i : Nat} (hrem : rem < d) (hq : (q.toNat + 1) * 2 ^ i ≤ 2 ^ 64) :
    NoWrap d i rem q ∧ (muldivLoop d i rem q).toNat = q.toNat * 2 ^ i + rem.toNat * 2 ^ i / d.toNat := by
  induction i generalizing rem q with
  | zero =>
    rw [muldivLoop, Nat.pow_zero, Nat.mul_one, Nat.mul_one,
      Nat.div_eq_of_lt (lt_iff_toNat_lt.mp hrem), Nat.add_zero]
    exact ⟨trivial, rfl⟩
  | succ i ih =>
    have hlt := lt_iff_toNat_lt.mp hrem
    have hsub : (d - rem).toNat = d.toNat - rem.toNat := UInt64.toNat_sub_of_le _ _ (UInt64.le_of_lt hrem)
    have hd := d.toNat_lt
    have hpow : 1 ≤ 2 ^ i := Nat.one_le_two_pow
    rw [Nat.pow_succ] at hq ⊢
    have hqlt : q.toNat * 2 + 1 < 2 ^ 64 := by
      have hle : (q.toNat + 1) * 2 ≤ 2 ^ 64 := le_trans (by nlinarith) hq
      omega
    rw [muldivLoop, NoWrap]
    by_cases hbit : rem ≥ d - rem
    · have hge := le_iff_toNat_le.mp hbit
      have hnext : (rem - (d - rem)).toNat = 2 * rem.toNat - d.toNat := by
        rw [UInt64.toNat_sub_of_le _ _ hbit, hsub]
        omega
      have hless : rem - (d - rem) < d := by
        rw [lt_iff_toNat_lt, hnext]
        omega
      have hquot : rem.toNat * (2 ^ i * 2) / d.toNat = (2 * rem.toNat - d.toNat) * 2 ^ i / d.toNat + 2 ^ i := by
        obtain ⟨e, he⟩ : ∃ e, 2 * rem.toNat = d.toNat + e := ⟨2 * rem.toNat - d.toNat, by omega⟩
        have hsplit : rem.toNat * (2 ^ i * 2) = e * 2 ^ i + 2 ^ i * d.toNat := by
          rw [← Nat.mul_assoc, Nat.mul_right_comm, Nat.mul_comm rem.toNat, he]
          ring
        rw [hsplit, Nat.add_mul_div_right _ _ (Nat.zero_lt_of_lt hlt), he, Nat.add_sub_cancel_left]
      obtain ⟨hrest, hval⟩ := ih hless (q := (q <<< 1) ||| 1) (by rw [shiftLeft_or_one (by omega)]; nlinarith)
      rw [if_pos hbit, if_pos hbit, hval, shiftLeft_or_one (by omega), hnext, hquot]
      exact ⟨⟨UInt64.le_of_lt hrem, hqlt, hrest⟩, by ring⟩
    · have hsmall := lt_iff_toNat_lt.mp (UInt64.not_le.mp hbit)
      have hnext : (rem + rem).toNat = 2 * rem.toNat := by
        rw [UInt64.toNat_add, Nat.mod_eq_of_lt (by omega)]
        omega
      have hless : rem + rem < d := by
        rw [lt_iff_toNat_lt, hnext]
        omega
      obtain ⟨hrest, hval⟩ := ih hless (q := q <<< 1) (by rw [shiftLeft_one (by omega)]; nlinarith)
      rw [if_neg hbit, if_neg hbit, hval, shiftLeft_one (by omega), hnext]
      exact ⟨⟨UInt64.le_of_lt hrem, hqlt, by omega, hrest⟩, by ring_nf⟩

theorem muldivQ32_toNat {a d : UInt64} (h : a < d) : (muldivQ32 a d).toNat = a.toNat * unit / d.toNat := by
  have hunit : 2 ^ 32 = unit := by decide
  rw [muldivQ32, (muldivLoop_exact h (by decide)).2, UInt64.toNat_zero, Nat.zero_mul, Nat.zero_add, hunit]

/-- Both kernels are exact in unbounded integers, and neither saturates or wraps around. -/
theorem kernels_exact (value factor a d : UInt64) :
    (factor.toNat ≤ 2 ^ 32 → (applyDecay value factor).toNat = value.toNat * factor.toNat / 2 ^ 32 ∧
      (factor < fpOne → ¬ Saturates value factor)) ∧
    (a < d → (muldivQ32 a d).toNat = a.toNat * 2 ^ 32 / d.toNat ∧ NoWrap d 32 a 0) :=
  ⟨fun h => ⟨applyDecay_toNat h, fun hlt => (applyDecay_fits hlt).1⟩,
    fun h => ⟨muldivQ32_toNat h, (muldivLoop_exact h (by decide)).1⟩⟩

theorem taylorStep_toNat {f s k : UInt64} (hf : f.toNat ≤ unit) (hs : s.toNat ≤ unit) :
    (taylorStep f s k).toNat = unit - mul unit f.toNat s.toNat / k.toNat := by
  have hterm : (fpMul f s / k).toNat = mul unit f.toNat s.toNat / k.toNat := by
    rw [UInt64.toNat_div, fpMul_toNat hf hs]
  have hle : fpMul f s / k ≤ fpOne := by
    rw [le_iff_toNat_le, hterm, fpOne_toNat]
    exact (Nat.div_le_self _ _).trans ((mul_le_left unit_pos hs).trans hf)
  rw [taylorStep, UInt64.toNat_sub_of_le _ _ hle, hterm, fpOne_toNat]

theorem taylorFold_toNat {f s : UInt64} {m k : Nat} (hf : f.toNat ≤ unit) (hk : k ≤ taylorTerms)
    (hs : s.toNat = series unit f.toNat m (k + 1)) :
    ((taylorCounts k).foldl (taylorStep f) s).toNat = series unit f.toNat (m + k) 1 := by
  induction k generalizing m s with
  | zero => exact hs
  | succ k ih =>
    have hcount : (UInt64.ofNat (k + 1)).toNat = k + 1 := by
      rw [toNat_ofNat']
      exact Nat.mod_eq_of_lt (lt_of_le_of_lt hk (by decide))
    have hnext : (taylorStep f s (UInt64.ofNat (k + 1))).toNat = series unit f.toNat (m + 1) (k + 1) := by
      rw [taylorStep_toNat hf (hs ▸ series_le_one), hcount, hs, series]
    rw [taylorCounts, List.foldl_cons, ih (Nat.le_of_succ_le hk) hnext, Nat.add_right_comm, Nat.add_assoc]

theorem taylorExpnegQ32_toNat {f : UInt64} (hf : f.toNat ≤ unit) :
    (taylorExpnegQ32 f).toNat = series unit f.toNat 16 1 := by
  have hstart : fpOne.toNat = series unit f.toNat 0 (taylorTerms + 1) := by rw [series, fpOne_toNat]
  rw [taylorExpnegQ32, taylorFold_toNat hf (Nat.le_refl _) hstart, Nat.zero_add, taylorTerms]

def fraction (t tCap : UInt64) : Nat := (t.toNat % tCap.toNat) * unit / tCap.toNat

def expneg (n f : Nat) : Nat := mul unit (power unit expNeg1Q32.toNat n) (series unit f 16 1)

variable {t tCap : UInt64}

theorem fraction_lt (h : tCap ≠ 0) : fraction t tCap < unit := by
  have hpos : 0 < tCap.toNat := Nat.pos_of_ne_zero fun h0 => h (UInt64.toNat.inj h0)
  exact Nat.div_lt_of_lt_mul (Nat.mul_lt_mul_of_pos_right (Nat.mod_lt _ hpos) unit_pos)

theorem expneg_le_one (n f : Nat) : expneg n f ≤ unit :=
  (mul_le_left unit_pos series_le_one).trans (power_le_one unit_pos (by decide) n)

theorem expnegRatioQ32_toNat (h : tCap ≠ 0) :
    (expnegRatioQ32 t tCap).toNat = expneg (t.toNat / tCap.toNat) (fraction t tCap) := by
  have hpos : 0 < tCap.toNat := Nat.pos_of_ne_zero fun h0 => h (UInt64.toNat.inj h0)
  have hmod : t % tCap < tCap := by
    rw [UInt64.lt_iff_toNat_lt, UInt64.toNat_mod]
    exact Nat.mod_lt _ hpos
  have hfrac : (muldivQ32 (t % tCap) tCap).toNat = fraction t tCap := by
    rw [muldivQ32_toNat hmod, UInt64.toNat_mod, fraction]
  have htaylor := taylorExpnegQ32_toNat (f := muldivQ32 (t % tCap) tCap) (hfrac ▸ (fraction_lt h).le)
  have hfactor : (decayFactor expNeg1Q32 (t / tCap)).toNat =
      power unit expNeg1Q32.toNat (t.toNat / tCap.toNat) := by
    rw [decayFactor_toNat, Nat.min_eq_left (by decide), UInt64.toNat_div]
  rw [expnegRatioQ32, fpMul_toNat (decayFactor_le _ _) (htaylor ▸ series_le_one), htaylor, hfactor,
    hfrac, expneg]

theorem tEff_ok (h : tCap ≠ 0) : ∃ out, tEff t tCap = .ok out ∧
    out.toNat = mul unit tCap.toNat (unit - expneg (t.toNat / tCap.toNat) (fraction t tCap)) := by
  have hexp := expnegRatioQ32_toNat (t := t) h
  have hle : expnegRatioQ32 t tCap ≤ fpOne := by
    rw [le_iff_toNat_le, hexp, fpOne_toNat]
    exact expneg_le_one _ _
  have hsub : (fpOne - expnegRatioQ32 t tCap).toNat =
      unit - expneg (t.toNat / tCap.toNat) (fraction t tCap) := by
    rw [UInt64.toNat_sub_of_le _ _ hle, hexp, fpOne_toNat]
  refine ⟨_, if_neg h, ?_⟩
  rw [applyDecay_toNat (hsub ▸ Nat.sub_le _ _), hsub]

end Values

section Order

variable {t t' tCap : UInt64} {n n' f f' g : Nat}

theorem series_values : series unit (unit - 1) 16 1 = expNeg1Q32.toNat ∧
    expNeg1Q32.toNat ≤ series unit (unit - 2) 16 1 ∧
    expNeg1Q32.toNat ≤ series unit (unit - 4) 16 1 ∧
    3067833784 ≤ series unit 3067833782 15 2 ∧ 2757262959 ≤ series unit 4135894433 15 2 ∧
    power unit expNeg1Q32.toNat 22 = 0 := by
  decide +kernel

theorem expNeg1_le_series (hf : f < unit) : expNeg1Q32.toNat ≤ series unit f 16 1 := by
  obtain ⟨g, hg⟩ : ∃ g, f + g = unit - 1 := ⟨unit - 1 - f, by omega⟩
  obtain ⟨hlast, hsecond, hfourth, -⟩ := series_values
  by_cases hone : g = 1
  · obtain rfl : f = unit - 2 := by omega
    exact hsecond
  by_cases hthree : g = 3
  · obtain rfl : f = unit - 4 := by omega
    exact hfourth
  · rw [← hlast, ← hg]
    exact series_antitone (by decide) (by omega) ⟨hone, hthree⟩ 12

/-- Fractions between which the rounded series does not rise: neither one nor three units apart, or
where its second factor is large enough. -/
def Steady (f f' : Nat) : Prop :=
  (f' = f + 1 → 7 * f ≤ 5 * unit) ∧ (f' = f + 3 → 27 * f ≤ 26 * unit)

theorem second_factor_ge (bound : Nat) (hbound : bound ≤ unit) (hf : f ≤ bound) :
    series unit bound 15 2 ≤ series unit f 15 2 + 1 := by
  obtain ⟨g, rfl⟩ := Nat.exists_eq_add_of_le hf
  exact series_near unit_pos hbound 15 (Nat.le_refl 2)

theorem series_steady (hle : f ≤ f') (hf : f' < unit) (h : Steady f f') :
    series unit f' 16 1 ≤ series unit f 16 1 := by
  obtain ⟨g, rfl⟩ := Nat.exists_eq_add_of_le hle
  have hunit : unit = 4294967296 := by decide
  obtain ⟨-, -, -, hval, hval', -⟩ := series_values
  by_cases hone : g = 1
  · subst hone
    have hlow := h.1 rfl
    have hsecond := second_factor_ge 3067833782 (by decide) (by omega : f ≤ _)
    exact series_add_one unit_pos hf.le (by omega)
  by_cases hthree : g = 3
  · subst hthree
    have hlow := h.2 rfl
    have hsecond := second_factor_ge 4135894433 (by decide) (by omega : f ≤ _)
    exact series_add_three unit_pos hf.le (by omega)
  · exact series_antitone (by decide) hf.le ⟨hone, hthree⟩ 12

theorem power_zero (hn : 22 ≤ n) : power unit expNeg1Q32.toNat n = 0 := by
  obtain ⟨-, -, -, -, -, hzero⟩ := series_values
  exact Nat.eq_zero_of_le_zero (hzero ▸ power_antitone unit_pos (by decide) hn)

theorem expneg_next (hf : f < unit) (hn : n < n') : expneg n' f' ≤ expneg n f :=
  calc expneg n' f' ≤ power unit expNeg1Q32.toNat n' := mul_le_left unit_pos series_le_one
    _ ≤ power unit expNeg1Q32.toNat (n + 1) := power_antitone unit_pos (by decide) hn
    _ ≤ expneg n f := mul_le_mul (Nat.le_refl _) (expNeg1_le_series hf)

theorem fraction_mono (hle : t ≤ t') (hquot : t / tCap = t' / tCap) : fraction t tCap ≤ fraction t' tCap := by
  have hle' := le_iff_toNat_le.mp hle
  have hquot' := congrArg UInt64.toNat hquot
  rw [UInt64.toNat_div, UInt64.toNat_div] at hquot'
  have h := Nat.div_add_mod t.toNat tCap.toNat
  have h' := Nat.div_add_mod t'.toNat tCap.toNat
  rw [hquot'] at h
  exact Nat.div_le_div_right (Nat.mul_le_mul_right _ (by omega))

/-- The transform keeps the order of two tenures not in one multiple of the cap, beyond its
twenty-second, or with steady fractions. -/
theorem tEff_monotone (hcap : tCap ≠ 0) (hle : t ≤ t')
    (h : t / tCap ≠ t' / tCap ∨ 22 ≤ t / tCap ∨ Steady (fraction t tCap) (fraction t' tCap)) :
    ∃ out out', tEff t tCap = .ok out ∧ tEff t' tCap = .ok out' ∧ out ≤ out' := by
  obtain ⟨out, hout, hval⟩ := tEff_ok (t := t) hcap
  obtain ⟨out', hout', hval'⟩ := tEff_ok (t := t') hcap
  refine ⟨out, out', hout, hout', ?_⟩
  rw [le_iff_toNat_le, hval, hval']
  refine mul_le_mul (Nat.le_refl _) (Nat.sub_le_sub_left ?_ _)
  by_cases hquot : t / tCap = t' / tCap
  · have hsame : t'.toNat / tCap.toNat = t.toNat / tCap.toNat := by
      rw [← UInt64.toNat_div, ← UInt64.toNat_div, hquot]
    rw [hsame]
    rcases h.resolve_left (not_not.mpr hquot) with hlarge | hsteady
    · have hlarge' : 22 ≤ t.toNat / tCap.toNat := by
        rw [← UInt64.toNat_div]
        exact le_iff_toNat_le.mp hlarge
      rw [expneg, expneg, power_zero hlarge', mul, mul, Nat.zero_mul, Nat.zero_mul]
    · exact mul_le_mul (Nat.le_refl _)
        (series_steady (fraction_mono hle hquot) (fraction_lt hcap) hsteady)
  · have hdiv : t.toNat / tCap.toNat ≤ t'.toNat / tCap.toNat :=
      Nat.div_le_div_right (le_iff_toNat_le.mp hle)
    have hne : t.toNat / tCap.toNat ≠ t'.toNat / tCap.toNat := by
      rw [← UInt64.toNat_div, ← UInt64.toNat_div]
      exact fun h => hquot (UInt64.toNat.inj h)
    exact expneg_next (fraction_lt hcap) (by omega)

/-- Neighbouring tenures under a cap at which their fractions are one unit apart. -/
theorem tEff_monotone_neighbours : fraction 3067833783 4294967296 = fraction 3067833782 4294967296 + 1 ∧
    ∃ out out', tEff 3067833782 4294967296 = .ok out ∧ tEff 3067833783 4294967296 = .ok out' ∧
      out ≤ out' := by
  refine ⟨by decide +kernel, tEff_monotone (by decide) (by decide) (.inr (.inr ⟨fun _ => ?_, fun h => ?_⟩))⟩
  · decide +kernel
  · exact absurd h (by decide +kernel)

/-- One unit of tenure more under the fork-choice cap is one unit of weight less. -/
theorem tEff_falls : (1926468621 : UInt64) ≤ 1926468622 ∧ tEff 1926468621 tForkChoiceCap = .ok 1236687016 ∧
    tEff 1926468622 tForkChoiceCap = .ok 1236687015 ∧ ¬ (1236687016 : UInt64) ≤ 1236687015 := by
  refine ⟨by decide, ?_, ?_, by decide⟩
  · decide +kernel
  · decide +kernel

end Order

end AntsClient.Reputation.Effective
