import AntsClient.Common
import Mathlib.Data.UInt

namespace AntsClient.Chain.ForkChoice

open Common UInt64

inductive Winner
  | forkA
  | forkB
  | socialSchelling
  deriving DecidableEq

/-- The threshold as the code computes it, by a division of the total first. -/
def forkThresh (totalTEff thetaNum thetaDen : UInt64) : UInt64 :=
  let q := totalTEff / thetaDen
  let r := totalTEff % thetaDen
  q * thetaNum + r * thetaNum / thetaDen

def forkChoice (weightA weightB totalTEff thetaNum thetaDen : UInt64) : Except Error Winner :=
  if thetaDen = 0 then .error .invalidArg
  else if weightA > totalTEff ∨ weightB > totalTEff then .error .invalidArg
  else
    let thresh := forkThresh totalTEff thetaNum thetaDen
    if weightA > thresh ∧ weightB > thresh then .ok .socialSchelling
    else if weightA ≥ weightB then .ok .forkA
    else .ok .forkB

def Clears (totalTEff thetaNum thetaDen weight : UInt64) : Prop :=
  weight.toNat * thetaDen.toNat > totalTEff.toNat * thetaNum.toNat

instance decidableClears (totalTEff thetaNum thetaDen weight : UInt64) :
    Decidable (Clears totalTEff thetaNum thetaDen weight) :=
  inferInstanceAs (Decidable (_ > _))

def verdict (weightA weightB totalTEff thetaNum thetaDen : UInt64) : Winner :=
  if Clears totalTEff thetaNum thetaDen weightA ∧
    Clears totalTEff thetaNum thetaDen weightB then .socialSchelling
  else if weightA ≥ weightB then .forkA
  else .forkB

section Division

variable {total num den : Nat}

theorem div_split (hden : 0 < den) : total * num / den = total / den * num + total % den * num / den := by
  have hsplit : total * num = den * (total / den * num) + total % den * num := by
    rw [← Nat.mul_assoc, ← Nat.add_mul, Nat.div_add_mod]
  rw [hsplit, Nat.mul_add_div hden]

theorem div_le_total (h : num < den) : total * num / den ≤ total := by
  refine Nat.div_le_of_le_mul ?_
  rw [Nat.mul_comm den]
  exact Nat.mul_le_mul_left total h.le

end Division

variable {total num den weight a b : UInt64}

theorem clears_iff (hden : 0 < den.toNat) :
    Clears total num den weight ↔ total.toNat * num.toNat / den.toNat < weight.toNat :=
  (Nat.div_lt_iff_lt_mul hden).symm

theorem forkThresh_toNat (h : num < den) : (forkThresh total num den).toNat =
    total.toNat / den.toNat * num.toNat + total.toNat % den.toNat * num.toNat % 2 ^ 64 / den.toNat := by
  have hlt : num.toNat < den.toNat := lt_iff_toNat_lt.mp h
  have hquot : total.toNat / den.toNat * num.toNat +
      total.toNat % den.toNat * num.toNat / den.toNat < 2 ^ 64 := by
    rw [← div_split (Nat.zero_lt_of_lt hlt)]
    exact (div_le_total hlt).trans_lt total.toNat_lt
  have hwrap : total.toNat % den.toNat * num.toNat % 2 ^ 64 / den.toNat ≤
      total.toNat % den.toNat * num.toNat / den.toNat :=
    Nat.div_le_div_right (Nat.mod_le _ _)
  simp only [forkThresh, UInt64.toNat_add, UInt64.toNat_mul, UInt64.toNat_div, UInt64.toNat_mod]
  rw [Nat.mod_eq_of_lt ((Nat.le_add_right _ _).trans_lt hquot),
    Nat.mod_eq_of_lt ((Nat.add_le_add_left hwrap _).trans_lt hquot)]

theorem forkChoice_eq (hden : 0 < den.toNat) (ha : a ≤ total) (hb : b ≤ total) :
    forkChoice a b total num den = .ok (
    if forkThresh total num den < a ∧
    forkThresh total num den < b then .socialSchelling else if a ≥ b then .forkA else .forkB) := by
  have hzero : den ≠ 0 := fun h0 => absurd hden (by rw [h0]; decide)
  rw [forkChoice, if_neg hzero, if_neg (not_or.mpr ⟨UInt64.not_lt.mpr ha, UInt64.not_lt.mpr hb⟩)]
  dsimp only
  split
  · rfl
  · split <;> rfl

theorem thresh_lt_iff (h : num < den) (hfits : total.toNat % den.toNat * num.toNat < 2 ^ 64) :
    forkThresh total num den < weight ↔ Clears total num den weight := by
  have hden : 0 < den.toNat := Nat.zero_lt_of_lt (lt_iff_toNat_lt.mp h)
  rw [clears_iff hden, div_split hden, lt_iff_toNat_lt, forkThresh_toNat h, Nat.mod_eq_of_lt hfits]

theorem thresh_low (h : num < den) (hwraps : ¬total.toNat % den.toNat * num.toNat < 2 ^ 64) :
    (forkThresh total num den).toNat < total.toNat * num.toNat / den.toNat := by
  have hlt : num.toNat < den.toNat := lt_iff_toNat_lt.mp h
  have hden : 0 < den.toNat := Nat.zero_lt_of_lt hlt
  rw [forkThresh_toNat h, div_split hden, Nat.add_lt_add_iff_left]
  generalize total.toNat % den.toNat * num.toNat = p at hwraps
  have hstep : p % 2 ^ 64 + den.toNat ≤ p := by
    have hsize := den.toNat_lt
    have hmod := Nat.div_add_mod p (2 ^ 64)
    have hpos : 0 < p / 2 ^ 64 := Nat.div_pos (Nat.not_lt.mp hwraps) (Nat.two_pow_pos 64)
    omega
  calc p % 2 ^ 64 / den.toNat < p % 2 ^ 64 / den.toNat + 1 := Nat.lt_succ_self _
    _ = (p % 2 ^ 64 + den.toNat) / den.toNat := (Nat.add_div_right _ hden).symm
    _ ≤ p / den.toNat := Nat.div_le_div_right hstep

/-- The fork choice is exact for all weights of a total exactly when the remainder of the total
times the numerator fits a word. -/
theorem forkChoice_exact_iff (h : num < den) :
    (∀ a b, a ≤ total → b ≤ total → forkChoice a b total num den = .ok (verdict a b total num den)) ↔
      total.toNat % den.toNat * num.toNat < 2 ^ 64 := by
  have hlt : num.toNat < den.toNat := lt_iff_toNat_lt.mp h
  have hden : 0 < den.toNat := Nat.zero_lt_of_lt hlt
  constructor
  · intro hexact
    by_contra hwraps
    have hlow := thresh_low h hwraps
    -- two equal weights between the threshold of the code and the exact one
    have hle := @div_le_total total.toNat num.toNat den.toNat hlt
    have hsize := total.toNat_lt
    obtain ⟨w, hw⟩ : ∃ w : UInt64, w.toNat = total.toNat * num.toNat / den.toNat :=
      ⟨UInt64.ofNat _, toNat_ofNat_of_lt' (hle.trans_lt hsize)⟩
    have htotal : w ≤ total := le_iff_toNat_le.mpr (hw ▸ hle)
    have hclears : ¬Clears total num den w := by
      rw [clears_iff hden, hw]
      exact Nat.lt_irrefl _
    have hthresh : forkThresh total num den < w := lt_iff_toNat_lt.mpr (hw ▸ hlow)
    have hcode := hexact w w htotal htotal
    rw [forkChoice_eq hden htotal htotal, if_pos ⟨hthresh, hthresh⟩, verdict, if_neg fun hn => hclears hn.1,
      if_pos (UInt64.le_refl w)] at hcode
    cases hcode
  · intro hfits a b ha hb
    rw [forkChoice_eq hden ha hb, verdict]
    simp only [thresh_lt_iff h hfits]

theorem forkChoice_exact_third : (1 : UInt64) < 3 ∧ ∀ a b, a ≤ 2000000000 → b ≤ 2000000000 →
    forkChoice a b 2000000000 1 3 = .ok (verdict a b 2000000000 1 3) :=
  ⟨by decide, (@forkChoice_exact_iff 2000000000 1 3 (by decide)).mpr (by decide)⟩

/-- One half of a total of `2 ^ 33`, written over `2 ^ 34`: the threshold wraps to zero, and two weights
of one clear it. -/
theorem forkChoice_wraps : forkChoice 1 1 (2 ^ 33) (2 ^ 33) (2 ^ 34) = .ok .socialSchelling ∧
    verdict 1 1 (2 ^ 33) (2 ^ 33) (2 ^ 34) = .forkA := by decide

end AntsClient.Chain.ForkChoice
