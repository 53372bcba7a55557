import Mathlib.Data.List.Count
import Mathlib.Data.UInt
import Mathlib.Tactic

namespace AntsClient.Lib.Tally

variable {α : Type} {l : List α} {i : Nat} {x x' : α}

theorem getElem?_set_cases {k : Nat} {y : α} (h : (l.set i x')[k]? = some y) :
    k = i ∧ y = x' ∨ k ≠ i ∧ l[k]? = some y := by
  rw [List.getElem?_set] at h
  by_cases hk : i = k
  · rw [if_pos hk] at h
    split at h
    · exact .inl ⟨hk.symm, (Option.some.inj h).symm⟩
    · cases h
  · rw [if_neg hk] at h
    exact .inr ⟨fun heq => hk heq.symm, h⟩

section Counters

variable {p : α → Bool}

theorem countP_change (hx : l[i]? = some x) (hkeep : p x = true → p x' = true) :
    (l.set i x').countP p = l.countP p + if p x' = true ∧ p x = false then 1 else 0 := by
  obtain ⟨hi, rfl⟩ := List.getElem?_eq_some_iff.mp hx
  rw [List.countP_set hi]
  by_cases hold : p l[i] = true
  · have hpos : 0 < l.countP p := List.countP_pos_iff.mpr ⟨_, List.getElem_mem hi, hold⟩
    simp only [hold, hkeep hold, if_true, Bool.true_eq_false, and_false, if_false, Nat.add_zero]
    omega
  · simp [hold]

theorem toNat_succ {n : UInt32} (h : n.toNat + 1 < 2 ^ 32) : (n + 1).toNat = n.toNat + 1 := by
  rw [UInt32.toNat_add]
  exact Nat.mod_eq_of_lt h

/-- A counter after a change, if it goes up exactly when the change is counted. -/
theorem count_change {n : UInt32} (hx : l[i]? = some x) (hfew : l.length + 1 < 2 ^ 32) {counted : Bool}
    (hn : n.toNat = l.countP p) (hiff : p x' = true ↔ p x = true ∨ counted = true)
    (hnew : counted = true → p x = false) :
    (if counted then n + 1 else n).toNat = (l.set i x').countP p := by
  rw [countP_change hx fun hp => hiff.mpr (.inl hp)]
  have hle : n.toNat ≤ l.length := hn.trans_le List.countP_le_length
  cases counted with
  | true => rw [if_pos rfl, toNat_succ (by omega), hn, if_pos ⟨hiff.mpr (.inr rfl), hnew rfl⟩]
  | false =>
    rw [if_neg Bool.false_ne_true, hn, if_neg, Nat.add_zero]
    rintro ⟨hp', hp⟩
    obtain hp' | hcounted := hiff.mp hp'
    · rw [hp] at hp'
      cases hp'
    · cases hcounted

end Counters

end AntsClient.Lib.Tally
