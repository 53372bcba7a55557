import Mathlib.Data.Finset.Card
import Mathlib.Data.List.ReduceOption

namespace AntsClient.Lib.Slots

open List

variable {α β : Type} {key : α → β} {slots : List (Option α)} {i : Nat} {x y : α}

def Distinct (key : α → β) (slots : List (Option α)) : Prop := (slots.reduceOption.map key).Nodup

theorem forall_some_mem_cons {P : α → Prop} :
    (∀ x, some x ∈ some y :: slots → P x) ↔ P y ∧ ∀ x, some x ∈ slots → P x := by
  simp [or_imp, forall_and]

/-- A scan that stops at the first free slot finds one. -/
theorem scan_free {γ : Type} (scan : List (Option α) → Nat → γ → Option Nat)
    (hnone : ∀ slots i c, scan (none :: slots) i c = some i)
    (hsome : ∀ x slots i c, ∃ c', scan (some x :: slots) i c = scan slots (i + 1) c')
    (h : none ∈ slots) (i : Nat) (c : γ) :
    ∃ n, scan slots i c = some (i + n) ∧ slots[n]? = some none := by
  induction slots generalizing i c with
  | nil => simp at h
  | cons slot slots ih =>
    cases slot with
    | none => exact ⟨0, hnone slots i c, rfl⟩
    | some x =>
      obtain ⟨c', hnext⟩ := hsome x slots i c
      obtain ⟨n, hn, hfree⟩ := ih (by simpa using h) (i + 1) c'
      exact ⟨n + 1, by rw [hnext, hn, Nat.add_assoc, Nat.add_comm 1], hfree⟩

theorem distinct_replicate (n : Nat) : Distinct key (replicate n (none : Option α)) := by
  simp [Distinct, reduceOption_replicate_none]

theorem Distinct.eq (h : Distinct key slots) (hx : some x ∈ slots) (hy : some y ∈ slots)
    (hk : key x = key y) : x = y :=
  inj_on_of_nodup_map h (reduceOption_mem_iff.mpr hx) (reduceOption_mem_iff.mpr hy) hk

theorem reduceOption_filter (f : α → Bool) :
    (slots.map fun slot => slot.filter f).reduceOption = slots.reduceOption.filter f := by
  induction slots with
  | nil => rfl
  | cons slot slots ih =>
    cases slot with
    | none => simpa using ih
    | some x =>
      rw [map_cons, Option.filter_some]
      cases hf : f x <;> simp [hf, ih]

theorem Distinct.filter (h : Distinct key slots) (f : α → Bool) :
    Distinct key (slots.map fun slot => slot.filter f) := by
  rw [Distinct, reduceOption_filter]
  exact h.sublist (filter_sublist.map key)

theorem mem_filter {f : α → Bool} :
    some x ∈ (slots.map fun slot => slot.filter f) ↔ some x ∈ slots ∧ f x = true := by
  rw [← reduceOption_mem_iff, reduceOption_filter, List.mem_filter, reduceOption_mem_iff]

/-- Filling a free slot adds one entry to the table. -/
theorem reduceOption_set (hfree : slots[i]? = some none) :
    (slots.set i (some y)).reduceOption.Perm (y :: slots.reduceOption) := by
  induction slots generalizing i with
  | nil => simp at hfree
  | cons slot slots ih =>
    cases i with
    | zero =>
      obtain rfl : slot = none := by simpa using hfree
      simp
    | succ i =>
      have hperm := ih (i := i) (by simpa using hfree)
      cases slot with
      | none => simpa using hperm
      | some x =>
        simp only [set_cons_succ, reduceOption_cons_of_some]
        exact (hperm.cons x).trans (List.Perm.swap y x _)

theorem mem_set_free (hfree : slots[i]? = some none) :
    some x ∈ slots.set i (some y) ↔ x = y ∨ some x ∈ slots := by
  rw [← reduceOption_mem_iff, (reduceOption_set hfree).mem_iff, mem_cons, reduceOption_mem_iff]

theorem Distinct.set (h : Distinct key slots) (hfree : slots[i]? = some none)
    (hnew : ∀ x, some x ∈ slots → key x ≠ key y) :
    Distinct key (slots.set i (some y)) := by
  rw [Distinct, ((reduceOption_set hfree).map key).nodup_iff, map_cons, nodup_cons]
  refine ⟨fun hm => ?_, h⟩
  obtain ⟨x, hx, hk⟩ := mem_map.mp hm
  exact hnew x (reduceOption_mem_iff.mp hx) hk

theorem reduceOption_clear (slots : List (Option α)) (i : Nat) :
    (slots.set i none).reduceOption.Sublist slots.reduceOption := by
  induction slots generalizing i with
  | nil => simp
  | cons slot slots ih =>
    cases i with
    | zero =>
      cases slot with
      | none => simp
      | some x => simp
    | succ i =>
      cases slot with
      | none => simpa using ih i
      | some x => simpa using (ih i).cons_cons x

/-- An entry with a new key may replace another. -/
theorem Distinct.put (h : Distinct key slots) (hnew : ∀ x, some x ∈ slots → key x ≠ key y) :
    Distinct key (slots.set i (some y)) := by
  rcases Nat.lt_or_ge i slots.length with hi | hi
  · have hclear : Distinct key (slots.set i none) := h.sublist ((reduceOption_clear slots i).map key)
    have hfree : (slots.set i none)[i]? = some none := by simp [hi]
    rw [← set_set none]
    refine hclear.set hfree fun x hx => hnew x ?_
    exact (mem_or_eq_of_mem_set hx).resolve_right (by simp)
  · rwa [set_eq_of_length_le hi]

theorem set_free (hfree : slots[i]? = some none) : slots.set i none = slots := by
  obtain ⟨hlt, hi⟩ := List.getElem?_eq_some_iff.mp hfree
  rw [← hi, set_getElem_self]

/-- Writing over an entry leaves all the others. -/
theorem reduceOption_replace (h : slots[i]? = some (some x)) :
    ∃ rest, slots.reduceOption.Perm (x :: rest) ∧ (slots.set i (some y)).reduceOption.Perm (y :: rest) := by
  obtain ⟨hi, hx⟩ := List.getElem?_eq_some_iff.mp h
  have hfree : (slots.set i none)[i]? = some none := by simp [hi]
  have hput (z : α) : (slots.set i (some z)).reduceOption.Perm (z :: (slots.set i none).reduceOption) := by
    have hperm := reduceOption_set (y := z) hfree
    rwa [set_set] at hperm
  have hself := hput x
  rw [← hx, set_getElem_self] at hself
  exact ⟨_, hself, hput y⟩

/-- A full table has as many entries as slots. -/
theorem length_reduceOption (hfull : none ∉ slots) : slots.reduceOption.length = slots.length := by
  rw [reduceOption_length_eq_iff]
  intro slot hslot
  cases slot with
  | none => exact absurd hslot hfull
  | some x => rfl

/-- A table with room for every key has a free slot while a key is missing. -/
theorem exists_free [DecidableEq β] {S : Finset β} {k : β} (hcard : S.card ≤ slots.length)
    (hd : Distinct key slots)
    (hmem : ∀ x, some x ∈ slots → key x ∈ S) (hk : k ∈ S) (hnew : ∀ x, some x ∈ slots → key x ≠ k) :
    none ∈ slots := by
  by_contra hfull
  have hlen := length_reduceOption hfull
  have hsub : (slots.reduceOption.map key).toFinset ⊆ S.erase k := by
    intro b hb
    obtain ⟨x, hx, rfl⟩ := mem_map.mp (mem_toFinset.mp hb)
    have hx := reduceOption_mem_iff.mp hx
    exact Finset.mem_erase.mpr ⟨hnew x hx, hmem x hx⟩
  have hle := Finset.card_le_card hsub
  rw [toFinset_card_of_nodup hd, length_map, hlen, Finset.card_erase_of_mem hk] at hle
  have hpos : 0 < S.card := Finset.card_pos.mpr ⟨k, hk⟩
  omega

end AntsClient.Lib.Slots
