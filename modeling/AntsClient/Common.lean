import Mathlib.Data.Fintype.Basic
import Mathlib.Data.List.Induction
import Mathlib.Data.List.Sort
import Mathlib.Tactic

namespace AntsClient.Common

open List

abbrev Bytes := List UInt8

/-- The values of `ants_error_t` that the modelled functions return; `ANTS_OK` is the successful
result. -/
inductive Error
  | invalidArg
  | bufferTooSmall
  | notImplemented
  | malformed
  | nonCanonical
  | unsupportedType
  | overflow
  | peerUnreachable
  | streamReset
  | notFound
  deriving DecidableEq, Repr

def memcmp : Bytes → Bytes → Ordering
  | a :: as, b :: bs => if a < b then .lt else if b < a then .gt else memcmp as bs
  | _, _ => .eq

def slice (buf : Bytes) (lo hi : Nat) : Bytes := (buf.drop lo).take (hi - lo)

instance decidableEqResult {ε σ α : Type} [DecidableEq ε] [DecidableEq σ] [DecidableEq α] :
    DecidableEq (EStateM.Result ε σ α)
  | .ok a s, .ok b t => decidable_of_iff (a = b ∧ s = t) (by simp)
  | .error a s, .error b t => decidable_of_iff (a = b ∧ s = t) (by simp)
  | .ok .., .error .. => isFalse nofun
  | .error .., .ok .. => isFalse nofun

section EStateM

variable {ε σ α β : Type} {x : EStateM ε σ α} {f : α → EStateM ε σ β} {s s' : σ}

theorem bind_ok {a : α} (h : x s = .ok a s') : (x >>= f) s = f a s' := by
  simp only [bind, EStateM.bind, h]

theorem bind_error {e : ε} (h : x s = .error e s') : (x >>= f) s = .error e s' := by
  simp only [bind, EStateM.bind, h]

theorem throw_apply {e : ε} : (throw e : EStateM ε σ α) s = .error e s := rfl

theorem throw_bind_apply {e : ε} : (throw e >>= f) s = .error e s := rfl

theorem get_bind_apply {g : σ → EStateM ε σ β} : (get >>= g) s = g s s := rfl

theorem bind_eq_ok {b : β} : (x >>= f) s = .ok b s' ↔ ∃ a t, x s = .ok a t ∧ f a t = .ok b s' := by
  simp only [bind, EStateM.bind]
  cases x s <;> simp

theorem map_eq_ok {g : α → β} {b : β} : (g <$> x) s = .ok b s' ↔ ∃ a, x s = .ok a s' ∧ g a = b := by
  simp only [Functor.map, EStateM.map]
  cases x s <;> simp [and_comm]

end EStateM

theorem except_bind_eq_ok {ε α β : Type} {x : Except ε α} {f : α → Except ε β} {b : β} :
    x.bind f = .ok b ↔ ∃ a, x = .ok a ∧ f a = .ok b := by
  cases x <;> simp [Except.bind]

theorem except_guard_iff {ε β : Type} {p : Prop} [Decidable p] {err : ε} {f : Unit → Except ε β}
    {x : Except ε β} {b : β} :
    (if p then throw err >>= f else x) = .ok b ↔ ¬p ∧ x = .ok b := by
  by_cases h : p
  · simp [h, bind, Except.bind, throw, throwThe, MonadExceptOf.throw]
  · simp [h]

theorem memcmp_lt_iff {a b : Bytes} (h : a.length = b.length) : memcmp a b = .lt ↔ a < b := by
  induction a generalizing b with
  | nil => simp [memcmp, length_eq_zero_iff.mp h.symm]
  | cons x xs ih =>
    cases b with
    | nil => simp at h
    | cons y ys =>
      have hl : xs.length = ys.length := by simpa using h
      rw [memcmp, cons_lt_cons_iff]
      by_cases hxy : x = y
      · subst hxy
        simpa using ih hl
      · rcases UInt8.lt_or_lt_of_ne hxy with h' | h'
        · simp [h']
        · simp [h', UInt8.lt_asymm h', hxy]

theorem memcmp_swap (a b : Bytes) : (memcmp a b).swap = memcmp b a := by
  induction a generalizing b with
  | nil => cases b <;> rfl
  | cons x xs ih =>
    cases b with
    | nil => rfl
    | cons y ys =>
      rw [memcmp, memcmp]
      by_cases h : x < y
      · simp [h, UInt8.lt_asymm h]
      · by_cases h' : y < x <;> simp [h, h', ih]

theorem memcmp_gt_iff {a b : Bytes} (h : a.length = b.length) : memcmp a b = .gt ↔ b < a := by
  rw [← memcmp_swap, Ordering.swap_eq_gt, memcmp_lt_iff h.symm]

theorem slice_length {buf : Bytes} {lo hi : Nat} (h : hi ≤ buf.length) :
    (slice buf lo hi).length = hi - lo := by
  simp only [slice, length_take, length_drop]
  omega

theorem slice_append {buf : Bytes} {a b c : Nat} (hab : a ≤ b) (hbc : b ≤ c) :
    slice buf a b ++ slice buf b c = slice buf a c := by
  have hd : (buf.drop a).drop (b - a) = buf.drop b := by
    rw [drop_drop]
    congr 1
    omega
  have hs : c - a = (b - a) + (c - b) := by omega
  rw [slice, slice, slice, hs, take_add, hd]

theorem slice_self (buf : Bytes) (a : Nat) : slice buf a a = [] := by simp [slice]

theorem slice_zero (buf : Bytes) (n : Nat) : slice buf 0 n = buf.take n := by simp [slice]

theorem slice_congr {buf buf' : Bytes} {p lo hi : Nat} (h : buf.take p = buf'.take p) (hp : hi ≤ p) :
    slice buf lo hi = slice buf' lo hi := by
  have key (b : Bytes) : slice b lo hi = slice (b.take p) lo hi := by
    simp only [slice, drop_take, take_take]
    congr 1
    omega
  rw [key buf, key buf', h]

end AntsClient.Common
