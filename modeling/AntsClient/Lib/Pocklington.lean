import Mathlib.FieldTheory.Finite.Basic
import Mathlib.Tactic

namespace AntsClient.Lib.Pocklington

def powMod (n a : Nat) : Nat → Nat → Nat
  | 0, _ => 1 % n
  | bits + 1, e => powMod n a bits (e / 2) ^ 2 % n * a ^ (e % 2) % n

def certifies (bits a n q r : Nat) : Bool :=
  q * r < 2 ^ bits && powMod n a bits (q * r) == 1 && Nat.gcd (powMod n a bits r - 1) n == 1

theorem powMod_eq {n a bits e : Nat} (h : e < 2 ^ bits) : powMod n a bits e = a ^ e % n := by
  induction bits generalizing e with
  | zero =>
    rw [pow_zero, Nat.lt_one_iff] at h
    rw [powMod, h, pow_zero]
  | succ bits ih =>
    have hhalf : e / 2 < 2 ^ bits := by
      rw [pow_succ] at h
      omega
    rw [powMod, ih hhalf, ← Nat.pow_mod, Nat.mod_mul_mod, ← pow_mul, ← pow_add]
    congr 2
    omega

theorem dvd_pred {bits a n q r : Nat} (hq : q.Prime) (h : certifies bits a n q r = true) {p : Nat}
    (hp : p.Prime)
    (hdvd : p ∣ n) : q ∣ p - 1 := by
  simp only [certifies, Bool.and_eq_true, decide_eq_true_eq, beq_iff_eq] at h
  obtain ⟨⟨hlt, hone⟩, hgcd⟩ := h
  have hr : r < 2 ^ bits := (Nat.le_mul_of_pos_left r hq.pos).trans_lt hlt
  rw [powMod_eq hlt] at hone
  rw [powMod_eq hr] at hgcd
  have : Fact p.Prime := ⟨hp⟩
  have : Fact q.Prime := ⟨hq⟩
  have hcast (e : Nat) : ((a ^ e % n : Nat) : ZMod p) = (a : ZMod p) ^ e := by
    rw [← Nat.cast_pow]
    exact (ZMod.natCast_eq_natCast_iff' _ _ p).mpr (Nat.mod_mod_of_dvd _ hdvd)
  have hpow : ((a : ZMod p) ^ r) ^ q = 1 := by
    rw [← pow_mul, mul_comm, ← hcast, hone, Nat.cast_one]
  -- the power is not one modulo `p`, since `p` does not divide the coprime difference
  have hne : (a : ZMod p) ^ r ≠ 1 := by
    intro heq
    rw [← hcast] at heq
    have hpos : 1 ≤ a ^ r % n := by
      by_contra hzero
      rw [Nat.lt_one_iff.mp (not_le.mp hzero), Nat.cast_zero] at heq
      exact zero_ne_one heq
    have hsub : p ∣ a ^ r % n - 1 := by
      rw [← ZMod.natCast_eq_zero_iff, Nat.cast_sub hpos, heq, Nat.cast_one, sub_self]
    have := Nat.dvd_gcd hsub hdvd
    rw [hgcd, Nat.dvd_one] at this
    exact hp.one_lt.ne' this
  have hunit : (a : ZMod p) ^ r ≠ 0 := by
    intro hzero
    rw [hzero, zero_pow hq.ne_zero] at hpow
    exact zero_ne_one hpow
  rw [← orderOf_eq_prime hpow hne]
  exact ZMod.orderOf_dvd_card_sub_one hunit

/-- Pocklington's criterion: a factor above the square root leaves no room for a smaller prime. -/
theorem prime_of_dvd_pred {f n : Nat} (hn : 2 ≤ n) (hroot : n < f * f)
    (h : ∀ p, p.Prime → p ∣ n → f ∣ p - 1) : n.Prime := by
  by_contra hcomp
  have hmin := Nat.minFac_prime (show n ≠ 1 by omega)
  have hle := Nat.le_of_dvd (Nat.sub_pos_of_lt hmin.one_lt) (h _ hmin (Nat.minFac_dvd n))
  have hlt : f < n.minFac := by
    have := hmin.two_le
    omega
  have hsq := Nat.minFac_sq_le_self (show 0 < n by omega) hcomp
  rw [sq] at hsq
  have := Nat.mul_le_mul hlt.le hlt.le
  omega

/-- A certified number is prime. -/
theorem prime_of_certifies {bits a n q r : Nat} (hq : q.Prime) (hn : 2 ≤ n) (hroot : n < q * q)
    (h : certifies bits a n q r = true) : n.Prime := by
  apply prime_of_dvd_pred hn hroot
  intro p hp hdvd
  exact dvd_pred hq h hp hdvd

end AntsClient.Lib.Pocklington
