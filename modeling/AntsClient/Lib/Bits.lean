import Mathlib.Data.Nat.Bitwise
import Mathlib.Tactic

namespace AntsClient.Lib.Bits

def ones (width x : Nat) : Nat := (List.range width).countP fun i => x.testBit i

theorem ones_succ (width x : Nat) : ones (width + 1) x = x % 2 + ones width (x / 2) := by
  rw [ones, List.range_succ_eq_map, List.countP_cons, List.countP_map, ones, Nat.testBit_zero]
  have hrest : (fun i => x.testBit i) ∘ Nat.succ = fun i => (x / 2).testBit i := by
    funext i
    exact Nat.testBit_succ x i
  rw [hrest, Nat.add_comm]
  rcases Nat.mod_two_eq_zero_or_one x with h | h <;> simp [h]

theorem ones_zero (width : Nat) : ones width 0 = 0 := by
  simp [ones]

theorem ones_le (width x : Nat) : ones width x ≤ width := by
  rw [ones]
  exact List.countP_le_length.trans_eq List.length_range

/-- The lowest bit that is set is cleared. -/
theorem ones_land_pred {width x : Nat} (h0 : x ≠ 0) (hx : x < 2 ^ width) :
    ones width (x &&& (x - 1)) + 1 = ones width x := by
  induction width generalizing x with
  | zero =>
    rw [pow_zero] at hx
    omega
  | succ width ih =>
    rw [ones_succ, ones_succ, Nat.and_div_two]
    have hbit : (x &&& (x - 1)) % 2 = 0 := by
      have := @Nat.and_mod_two_eq_one x (x - 1)
      omega
    rw [hbit, Nat.zero_add]
    rcases Nat.mod_two_eq_zero_or_one x with heven | hodd
    · have hhalf : (x - 1) / 2 = x / 2 - 1 := by omega
      rw [hhalf, ih (by omega) (by rw [pow_succ] at hx; omega), heven, Nat.zero_add]
    · have hhalf : (x - 1) / 2 = x / 2 := by omega
      rw [hhalf, Nat.and_self, hodd, Nat.add_comm]

end AntsClient.Lib.Bits
