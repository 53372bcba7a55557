import AntsClient.Lib.FixedPoint
import AntsClient.Reputation.Receipts

namespace AntsClient.Reputation.Decay

open Lib.FixedPoint Lib.Saturating Receipts UInt64

def unit : Nat := 4294967296

theorem unit_pos : 0 < unit := by decide

theorem unit_sq : unit * unit = 2 ^ 64 := by norm_num [unit]

theorem fpOne_toNat : fpOne.toNat = unit := by decide

theorem shiftRight_fpBits (x : UInt64) : (x >>> fpBits).toNat = x.toNat / unit := by
  have hbits : fpBits.toNat % 64 = 32 := by decide
  rw [UInt64.toNat_shiftRight, hbits, Nat.shiftRight_eq_div_pow]
  rfl

theorem fpMul_toNat {a b : UInt64} (ha : a.toNat ≤ unit) (hb : b.toNat ≤ unit) :
    (fpMul a b).toNat = mul unit a.toNat b.toNat := by
  rw [fpMul]
  by_cases hone : a ≥ fpOne
  · have haone : a.toNat = unit := Nat.le_antisymm ha (fpOne_toNat ▸ le_iff_toNat_le.mp hone)
    rw [if_pos hone, haone, mul_comm, mul_one_right unit_pos]
  · rw [if_neg hone]
    have halt : a.toNat < unit := fpOne_toNat ▸ lt_iff_toNat_lt.mp (UInt64.not_le.mp hone)
    by_cases hone' : b ≥ fpOne
    · have hbone : b.toNat = unit := Nat.le_antisymm hb (fpOne_toNat ▸ le_iff_toNat_le.mp hone')
      rw [if_pos hone', hbone, mul_one_right unit_pos]
    · have hblt : b.toNat < unit := fpOne_toNat ▸ lt_iff_toNat_lt.mp (UInt64.not_le.mp hone')
      have hprod : a.toNat * b.toNat < 2 ^ 64 := unit_sq ▸ Nat.mul_lt_mul'' halt hblt
      rw [if_neg hone', shiftRight_fpBits, UInt64.toNat_mul, Nat.mod_eq_of_lt hprod, mul]

theorem decayLoop_toNat {ratio acc : UInt64} (hratio : ratio.toNat ≤ unit) (hacc : acc.toNat ≤ unit) (n : Nat) :
    (decayLoop ratio n acc).toNat = (fun x => mul unit x ratio.toNat)^[n] acc.toNat := by
  induction n generalizing acc with
  | zero => rfl
  | succ n ih =>
    have hmul := fpMul_toNat hacc hratio
    rw [decayLoop, Function.iterate_succ_apply, ← hmul]
    by_cases hzero : fpMul acc ratio = 0
    · -- the loop stops, and so would the products
      have hfix : (fun x => mul unit x ratio.toNat)^[n] 0 = 0 :=
        Function.iterate_fixed (by rw [mul, Nat.zero_mul, Nat.zero_div]) n
      rw [if_pos hzero, hzero, UInt64.toNat_zero, hfix]
    · rw [if_neg hzero]
      exact ih (hmul ▸ (mul_le_left unit_pos hratio).trans hacc)

theorem power_eq_iterate (r n : Nat) : power unit r n = (fun x => mul unit x r)^[n] unit := by
  induction n with
  | zero => rfl
  | succ n ih => rw [power, ih, Function.iterate_succ_apply']

theorem decayFactor_toNat (ratio age : UInt64) :
    (decayFactor ratio age).toNat = power unit (min ratio.toNat unit) age.toNat := by
  rw [decayFactor]
  by_cases hone : ratio ≥ fpOne
  · have hle : unit ≤ ratio.toNat := fpOne_toNat ▸ le_iff_toNat_le.mp hone
    have hpower (n : Nat) : power unit unit n = unit := by
      induction n with
      | zero => rfl
      | succ n ih => rw [power, ih, mul_one_right unit_pos]
    rw [if_pos (.inl hone), Nat.min_eq_right hle, hpower, fpOne_toNat]
  · have hlt : ratio.toNat < unit := fpOne_toNat ▸ lt_iff_toNat_lt.mp (UInt64.not_le.mp hone)
    rw [Nat.min_eq_left hlt.le]
    by_cases hage : age = 0
    · rw [if_pos (.inr hage), hage, fpOne_toNat]
      rfl
    · rw [if_neg (not_or.mpr ⟨hone, hage⟩), decayLoop_toNat hlt.le fpOne_toNat.le, fpOne_toNat,
        power_eq_iterate]

theorem decayFactor_le (ratio age : UInt64) : (decayFactor ratio age).toNat ≤ unit := by
  rw [decayFactor_toNat]
  exact power_le_one unit_pos (Nat.min_le_right _ _) _

theorem decayFactor_antitone {ratio age age' : UInt64} (h : age ≤ age') :
    (decayFactor ratio age').toNat ≤ (decayFactor ratio age).toNat := by
  rw [decayFactor_toNat, decayFactor_toNat]
  exact power_antitone unit_pos (Nat.min_le_right _ _) (le_iff_toNat_le.mp h)

def Saturates (value factor : UInt64) : Prop :=
  value >>> 32 ≠ 0 ∧ factor > uint64Max / (value >>> 32) ∨
    (value >>> 32) * factor + ((value &&& 0xffffffff) * factor) >>> fpBits < (value >>> 32) * factor

variable {value factor : UInt64}

theorem applyDecay_fits {value factor : UInt64} (h : factor < fpOne) : ¬ Saturates value factor ∧
    ((value >>> 32) * factor + ((value &&& 0xffffffff) * factor) >>> fpBits).toNat =
      mul unit value.toNat factor.toNat := by
  have hflt : factor.toNat < unit := fpOne_toNat ▸ lt_iff_toNat_lt.mp h
  have hsq := unit_sq
  have hhi : (value >>> 32).toNat = value.toNat / unit := shiftRight_fpBits value
  have hlo : (value &&& 0xffffffff).toNat = value.toNat % unit := by
    rw [UInt64.toNat_and]
    exact Nat.and_two_pow_sub_one_eq_mod value.toNat 32
  have hsplit := Nat.div_add_mod value.toNat unit
  have hhilt : value.toNat / unit < unit := Nat.div_lt_of_lt_mul (unit_sq ▸ value.toNat_lt)
  have hlolt : value.toNat % unit < unit := Nat.mod_lt _ unit_pos
  have hloprod : (value.toNat % unit) * factor.toNat < 2 ^ 64 := unit_sq ▸ Nat.mul_lt_mul'' hlolt hflt
  have hhiprod : (value.toNat / unit) * factor.toNat < 2 ^ 64 := unit_sq ▸ Nat.mul_lt_mul'' hhilt hflt
  have hloterm : (((value &&& 0xffffffff) * factor) >>> fpBits).toNat =
      (value.toNat % unit) * factor.toNat / unit := by
    rw [shiftRight_fpBits, UInt64.toNat_mul, hlo, Nat.mod_eq_of_lt hloprod]
  have hhiterm : ((value >>> 32) * factor).toNat = (value.toNat / unit) * factor.toNat := by
    rw [UInt64.toNat_mul, hhi, Nat.mod_eq_of_lt hhiprod]
  have hwhole : (value.toNat / unit) * factor.toNat + (value.toNat % unit) * factor.toNat / unit =
      mul unit value.toNat factor.toNat := by
    have hsum : value.toNat * factor.toNat =
        (value.toNat % unit) * factor.toNat + (value.toNat / unit) * factor.toNat * unit := by
      nth_rewrite 1 [← hsplit]
      ring
    rw [mul, hsum, Nat.add_mul_div_right _ _ unit_pos, Nat.add_comm]
  have hle : mul unit value.toNat factor.toNat ≤ value.toNat := mul_le_left unit_pos hflt.le
  have hnowrap : ((value >>> 32) * factor + ((value &&& 0xffffffff) * factor) >>> fpBits).toNat =
      mul unit value.toNat factor.toNat := by
    rw [UInt64.toNat_add, hhiterm, hloterm, hwhole, Nat.mod_eq_of_lt (lt_of_le_of_lt hle value.toNat_lt)]
  refine ⟨?_, hnowrap⟩
  rintro (⟨hne, hgt⟩ | hwrap)
  · have hpos : 0 < value.toNat / unit := by
      rw [← hhi]
      exact Nat.pos_of_ne_zero fun h0 => hne (UInt64.toNat.inj h0)
    have hgt' := lt_iff_toNat_lt.mp hgt
    rw [UInt64.toNat_div, hhi, Nat.div_lt_iff_lt_mul hpos] at hgt'
    have hmax : uint64Max.toNat = 2 ^ 64 - 1 := by decide
    rw [Nat.mul_comm] at hgt'
    omega
  · rw [lt_iff_toNat_lt, hnowrap, hhiterm, ← hwhole] at hwrap
    omega

theorem applyDecay_toNat (h : factor.toNat ≤ unit) :
    (applyDecay value factor).toNat = mul unit value.toNat factor.toNat := by
  rw [applyDecay]
  by_cases hone : factor ≥ fpOne
  · have hfone : factor.toNat = unit := Nat.le_antisymm h (fpOne_toNat ▸ le_iff_toNat_le.mp hone)
    rw [if_pos hone, hfone, mul_one_right unit_pos]
  · obtain ⟨hfits, hval⟩ := @applyDecay_fits value _ (UInt64.not_le.mp hone)
    obtain ⟨hhigh, hsum⟩ := not_or.mp hfits
    rw [if_neg hone, if_neg hhigh, if_neg hsum, hval]

theorem applyDecay_le (h : factor.toNat ≤ unit) : (applyDecay value factor).toNat ≤ value.toNat := by
  rw [applyDecay_toNat h]
  exact mul_le_left unit_pos h

theorem applyDecay_mono {value' factor' : UInt64} (hfactor' : factor'.toNat ≤ unit)
    (hvalue : value.toNat ≤ value'.toNat) (hfactor : factor.toNat ≤ factor'.toNat) :
    (applyDecay value factor).toNat ≤ (applyDecay value' factor').toNat := by
  rw [applyDecay_toNat (hfactor.trans hfactor'), applyDecay_toNat hfactor']
  exact mul_le_mul hvalue hfactor

end AntsClient.Reputation.Decay
