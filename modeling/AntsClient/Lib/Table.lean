import Mathlib.Data.List.Perm.Subperm
import Mathlib.Data.List.Nodup
import Mathlib.Tactic

namespace AntsClient.Lib.Table

open List

variable {α κ : Type} {xs ys : List α} {i : Nat}

def swapRemove (xs : List α) (i : Nat) : List α :=
  match xs.getLast? with
  | some last => (xs.set i last).dropLast
  | none => xs

theorem swapRemove_perm_eraseIdx (h : i < xs.length) : (swapRemove xs i).Perm (xs.eraseIdx i) := by
  obtain ⟨front, last, rfl⟩ : ∃ front last, xs = front ++ [last] :=
    ⟨_, _, (dropLast_append_getLast (ne_nil_of_length_pos (Nat.zero_lt_of_lt h))).symm⟩
  rw [length_append, length_singleton] at h
  simp only [swapRemove, getLast?_append, getLast?_singleton, Option.some_or]
  by_cases hi : i < front.length
  · rw [set_append_left _ _ hi, dropLast_concat, eraseIdx_append_of_lt_length hi]
    exact (set_perm_cons_eraseIdx hi last).trans (perm_append_singleton last _).symm
  · have hend : i = front.length := by omega
    rw [set_append_right _ _ (Nat.not_lt.mp hi), eraseIdx_append_of_length_le (Nat.not_lt.mp hi),
      hend, Nat.sub_self]
    simp

theorem cons_swapRemove_perm (h : i < xs.length) : (xs[i] :: swapRemove xs i).Perm xs :=
  ((swapRemove_perm_eraseIdx h).cons _).trans (getElem_cons_eraseIdx_perm h)

theorem subperm_map {β : Type} (h : xs.Subperm ys) (f : α → β) : (xs.map f).Subperm (ys.map f) := by
  obtain ⟨zs, hperm, hsub⟩ := h
  exact ⟨zs.map f, hperm.map f, hsub.map f⟩

theorem nodup_of_subperm (h : xs.Subperm ys) (hys : ys.Nodup) : xs.Nodup := by
  obtain ⟨zs, hperm, hsub⟩ := h
  exact hperm.nodup_iff.mp (hsub.nodup hys)

def Keyed (key : α → κ) (xs : List α) : Prop := (xs.map key).Nodup

variable {key : α → κ}

theorem Keyed.perm (h : Keyed key xs) (hperm : xs.Perm ys) : Keyed key ys := (hperm.map key).nodup_iff.mp h

variable [DecidableEq κ] {k : κ} {x : α}

/-- The key of an element tells it from all others. -/
theorem Keyed.cons_filter_perm (h : Keyed key xs) (hx : x ∈ xs) :
    (x :: xs.filter fun y => key y ≠ key x).Perm xs := by
  obtain ⟨front, back, rfl⟩ := append_of_mem hx
  have hperm : (front ++ x :: back).Perm (x :: (front ++ back)) := perm_middle
  have hnew := (nodup_cons.mp (h.perm hperm)).1
  have hrest : (front ++ back).filter (fun y => key y ≠ key x) = front ++ back := by
    apply filter_eq_self.mpr
    intro y hy
    exact decide_eq_true fun he => hnew (mem_map.mpr ⟨y, hy, he⟩)
  have hfilter := hperm.filter fun y => key y ≠ key x
  rw [filter_cons_of_neg (by simp), hrest] at hfilter
  exact (hfilter.cons x).trans hperm.symm

def lookup (key : α → κ) (xs : List α) (k : κ) : Option α := xs.find? fun x => key x = k

theorem lookup_eq_none_iff : lookup key xs k = none ↔ ∀ x ∈ xs, key x ≠ k := by
  simp [lookup]

theorem Keyed.lookup_eq_some_iff (h : Keyed key xs) : lookup key xs k = some x ↔ x ∈ xs ∧ key x = k := by
  constructor
  · intro hx
    exact ⟨mem_of_find?_eq_some hx, by simpa using find?_some hx⟩
  · rintro ⟨hx, rfl⟩
    cases hy : lookup key xs (key x) with
    | none => exact absurd rfl (lookup_eq_none_iff.mp hy x hx)
    | some y =>
      have hkey : key y = key x := by simpa using find?_some hy
      rw [inj_on_of_nodup_map h (mem_of_find?_eq_some hy) hx hkey]

/-- What a key finds does not depend on the places. -/
theorem Keyed.lookup_perm (h : Keyed key xs) (hperm : xs.Perm ys) : lookup key xs = lookup key ys := by
  funext k
  apply Option.ext
  intro x
  rw [h.lookup_eq_some_iff, (h.perm hperm).lookup_eq_some_iff, hperm.mem_iff]

theorem lookup_cons : lookup key (x :: xs) k = if k = key x then some x else lookup key xs k := by
  by_cases hk : k = key x
  · simp [lookup, hk]
  · simp [lookup, hk, Ne.symm hk]

/-- Removing by a swap takes one key out and leaves the others. -/
theorem Keyed.lookup_swapRemove (h : Keyed key xs) (hi : i < xs.length) (k : κ) :
    lookup key (Table.swapRemove xs i) k = if k = key xs[i] then none else lookup key xs k := by
  have hperm := cons_swapRemove_perm hi
  rw [← (h.perm hperm.symm).lookup_perm hperm, lookup_cons]
  by_cases hk : k = key xs[i]
  · have hnew := (nodup_cons.mp (h.perm hperm.symm)).1
    rw [if_pos hk, lookup_eq_none_iff]
    intro x hx hkey
    exact hnew (mem_map.mpr ⟨x, hx, hkey.trans hk⟩)
  · rw [if_neg hk, if_neg hk]

end AntsClient.Lib.Table
