import AntsClient.Lib.Ranking
import Mathlib.Data.Nat.ModEq

namespace AntsClient.Lib.Rotation

open List

variable {m : Nat}

def ahead (m start p : Nat) : Nat := (p + m - start) % m

/-- Numbers below `m` that are told apart by `f` take every value below `m` once. -/
theorem countP_lt_of_injOn {f : Nat → Nat} (hlt : ∀ k < m, f k < m)
    (hinj : ∀ j < m, ∀ k < m, f j = f k → j = k) (w : Nat) :
    (range m).countP (fun k => f k < w) = min w m := by
  have hnodup : ((range m).map f).Nodup := by
    apply List.Nodup.map_on
    · intro j hj k hk
      exact hinj j (mem_range.mp hj) k (mem_range.mp hk)
    · exact nodup_range
  have hsub : (range m).map f ⊆ range m := by
    intro v hv
    obtain ⟨k, hk, rfl⟩ := mem_map.mp hv
    exact mem_range.mpr (hlt k (mem_range.mp hk))
  have hperm : ((range m).map f).Perm (range m) := by
    apply (hnodup.subperm hsub).perm_of_length_le
    rw [length_map]
  calc (range m).countP (fun k => f k < w)
      = ((range m).map f).countP fun v => v < w := by
        rw [countP_map]
        rfl
    _ = (range m).countP fun v => v < w := hperm.countP_eq _
    _ = min w m := Ranking.countP_range_lt w m

/-- Of `m` places a window of `w` places holds `w`, wherever it starts. -/
theorem countP_places {start : Nat} (hstart : start < m) (w : Nat) :
    (range m).countP (fun p => ahead m start p < w) = min w m := by
  apply countP_lt_of_injOn
  · intro p _
    exact Nat.mod_lt _ (Nat.zero_lt_of_lt hstart)
  · intro p hp q hq h
    have hmod : p + (m - start) ≡ q + (m - start) [MOD m] := by
      rw [← Nat.add_sub_assoc hstart.le, ← Nat.add_sub_assoc hstart.le]
      exact h
    exact Nat.ModEq.eq_of_lt_of_lt (Nat.ModEq.add_right_cancel' _ hmod) hp hq

/-- In `m` rounds that start one place further each time, a place is `w` times in the window. -/
theorem countP_rounds {p : Nat} (hp : p < m) (first w : Nat) :
    (range m).countP (fun k => ahead m ((first + k) % m) p < w) = min w m := by
  have hpos : 0 < m := Nat.zero_lt_of_lt hp
  apply countP_lt_of_injOn
  · intro k _
    exact Nat.mod_lt _ hpos
  · intro j hj k hk h
    have hsum : ∀ i, p + m - (first + i) % m + (first + i) % m = p + m := by
      intro i
      have := Nat.mod_lt (first + i) hpos
      omega
    have hturn : ∀ i, ahead m ((first + i) % m) p + (first + i) ≡ p + m [MOD m] := by
      intro i
      calc ahead m ((first + i) % m) p + (first + i)
          ≡ p + m - (first + i) % m + (first + i) % m [MOD m] :=
            (Nat.mod_modEq _ _).add (Nat.mod_modEq _ _).symm
        _ = p + m := hsum i
    have hjk : first + j ≡ first + k [MOD m] := by
      apply Nat.ModEq.add_left_cancel' (ahead m ((first + j) % m) p)
      exact (hturn j).trans (h ▸ (hturn k).symm)
    exact Nat.ModEq.eq_of_lt_of_lt (Nat.ModEq.add_left_cancel' _ hjk) hj hk

end AntsClient.Lib.Rotation
