import Mathlib.Data.List.Basic
import Mathlib.Tactic

namespace AntsClient.Lib.Continuation

open List

variable {α : Type} (next : List α → α)

def extend (context : List α) : Nat → List α
  | 0 => context
  | n + 1 => extend context n ++ [next (extend context n)]

def generated (context : List α) (n : Nat) : List α := (extend next context n).drop context.length

variable {next} {context : List α}

theorem extend_length (n : Nat) : (extend next context n).length = context.length + n := by
  induction n with
  | zero => rfl
  | succ n ih =>
    rw [extend, length_append, ih]
    rfl

theorem extend_take {k n : Nat} (h : k ≤ n) :
    (extend next context n).take (context.length + k) = extend next context k := by
  induction n, h using Nat.le_induction with
  | base => exact take_of_length_le (extend_length k).le
  | succ n hkn ih =>
    rw [extend, take_append_of_le_length, ih]
    rw [extend_length]
    omega

theorem extend_eq (n : Nat) : extend next context n = context ++ generated next context n := by
  have htake : (extend next context n).take context.length = context := extend_take (Nat.zero_le n)
  conv_lhs => rw [← take_append_drop context.length (extend next context n), htake]
  rfl

theorem generated_length (n : Nat) : (generated next context n).length = n := by
  rw [generated, length_drop, extend_length]
  omega

theorem generated_zero : generated next context 0 = [] := drop_length

theorem generated_succ (n : Nat) : generated next context (n + 1) = generated next context n ++
      [next (extend next context n)] := by
  rw [generated, extend, drop_append_of_le_length, ← generated]
  rw [extend_length]
  omega

theorem generated_take {k n : Nat} (h : k ≤ n) :
    (generated next context n).take k = generated next context k := by
  have happend : context ++ (generated next context n).take k = context ++ generated next context k := by
    rw [← extend_eq, ← extend_take h, extend_eq n, take_length_add_append]
  exact append_cancel_left happend

theorem forall_mem_generated {P : α → Prop} {n : Nat} (h : ∀ c, P (next c)) :
    ∀ a ∈ generated next context n, P a := by
  induction n with
  | zero => simp [generated, extend]
  | succ n ih =>
    rw [generated_succ]
    exact forall_mem_append.mpr ⟨ih, forall_mem_singleton.mpr (h _)⟩

end AntsClient.Lib.Continuation
