import Mathlib.Algebra.Order.BigOperators.Group.List
import Mathlib.Data.List.Perm.Subperm
import Mathlib.Data.UInt
import Mathlib.Tactic

namespace AntsClient.Lib.Saturating

def uint64Max : UInt64 := 0xffffffffffffffff

def satAdd (a b : UInt64) : UInt64 := if a > uint64Max - b then uint64Max else a + b

def satMul (a b : UInt64) : UInt64 := if a ≠ 0 ∧ b > uint64Max / a then uint64Max else a * b

theorem toNat_uint64Max : uint64Max.toNat = 2 ^ 64 - 1 := by decide

theorem toNat_uint64Max_sub (b : UInt64) : (uint64Max - b).toNat = 2 ^ 64 - 1 - b.toNat := by
  have hb := b.toNat_lt
  have hle : b ≤ uint64Max := by
    rw [UInt64.le_iff_toNat_le, toNat_uint64Max]
    omega
  rw [UInt64.toNat_sub_of_le _ _ hle, toNat_uint64Max]

theorem toNat_satAdd (a b : UInt64) : (satAdd a b).toNat = min (a.toNat + b.toNat) (2 ^ 64 - 1) := by
  have ha := a.toNat_lt
  have hb := b.toNat_lt
  rw [satAdd]
  by_cases h : a > uint64Max - b
  · have hlt := UInt64.lt_iff_toNat_lt.mp h
    rw [toNat_uint64Max_sub] at hlt
    rw [if_pos h, toNat_uint64Max]
    omega
  · have hle := UInt64.le_iff_toNat_le.mp (UInt64.not_lt.mp h)
    rw [toNat_uint64Max_sub] at hle
    rw [if_neg h, UInt64.toNat_add, Nat.mod_eq_of_lt (by omega)]
    omega

def satSum (xs : List UInt64) : UInt64 := xs.foldl satAdd 0

theorem toNat_foldl_satAdd (xs : List UInt64) (acc : UInt64) :
    (xs.foldl satAdd acc).toNat = min (acc.toNat + (xs.map UInt64.toNat).sum) (2 ^ 64 - 1) := by
  induction xs generalizing acc with
  | nil =>
    have := acc.toNat_lt
    simp only [List.foldl_nil, List.map_nil, List.sum_nil]
    omega
  | cons x xs ih =>
    rw [List.foldl_cons, ih, toNat_satAdd, List.map_cons, List.sum_cons]
    omega

/-- A saturating sum is the true one, cut off at the largest word. -/
theorem toNat_satSum (xs : List UInt64) : (satSum xs).toNat = min (xs.map UInt64.toNat).sum (2 ^ 64 - 1) := by
  rw [satSum, toNat_foldl_satAdd, UInt64.toNat_zero, Nat.zero_add]

/-- A saturating sum depends on no order, and leaving parts out never raises it. -/
theorem satSum_subperm {xs ys : List UInt64} (h : xs.Subperm ys) : satSum xs ≤ satSum ys := by
  obtain ⟨zs, hperm, hsub⟩ := List.subperm_iff.mp h
  have hle : (xs.map UInt64.toNat).sum ≤ (ys.map UInt64.toNat).sum := by
    rw [← (hperm.map UInt64.toNat).sum_eq]
    exact (hsub.map UInt64.toNat).sum_le_sum (by simp)
  rw [UInt64.le_iff_toNat_le, toNat_satSum, toNat_satSum]
  omega

theorem satSum_perm {xs ys : List UInt64} (h : xs.Perm ys) : satSum xs = satSum ys :=
  UInt64.le_antisymm (satSum_subperm h.subperm) (satSum_subperm h.symm.subperm)

end AntsClient.Lib.Saturating
