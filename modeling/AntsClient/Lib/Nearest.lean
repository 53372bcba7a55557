import Mathlib.Data.List.Sort

namespace AntsClient.Lib.Nearest

open List

variable {α : Type} (closer : α → α → Bool) (cap : Nat)

/-- One round of an insertion sort into a buffer of `cap` places. -/
def insertCapped (top : List α) (a : α) : List α :=
  let pos := top.findIdx (closer a)
  if pos = cap then top else (top.insertIdx pos a).take cap

structure Holds (seen top : List α) : Prop where
  sorted : top.Pairwise fun a b => closer a b = true
  length : top.length = min cap seen.length
  rest : ∃ rest, (top ++ rest).Perm seen ∧ ∀ a ∈ top, ∀ b ∈ rest, closer a b = true

variable {closer} {cap} {seen top : List α} {a : α}

theorem insertIdx_findIdx (top : List α) (a : α) :
    top.insertIdx (top.findIdx (closer a)) a = top.orderedInsert (fun x y => closer x y = true) a := by
  induction top with
  | nil => rfl
  | cons b top ih =>
    rw [findIdx_cons, orderedInsert_cons]
    cases h : closer a b with
    | true => rfl
    | false =>
      rw [cond_false, insertIdx_succ_cons, ih]
      simp

theorem findIdx_eq_cap (hlen : top.length ≤ cap) (h : top.findIdx (closer a) = cap) :
    (top.insertIdx cap a).take cap = top := by
  have hle : cap ≤ top.length := h ▸ findIdx_le_length
  obtain rfl : cap = top.length := Nat.le_antisymm hle hlen
  rw [insertIdx_length_self, take_left]

theorem insertCapped_eq (hlen : top.length ≤ cap) (a : α) :
    insertCapped closer cap top a = (top.orderedInsert (fun x y => closer x y = true) a).take cap := by
  rw [insertCapped, ← insertIdx_findIdx]
  split
  case isTrue h => rw [h, findIdx_eq_cap hlen h]
  case isFalse => rfl

theorem orderedInsert_sorted (htrans : ∀ a b c, closer a b = true → closer b c = true → closer a c = true)
    (hs : top.Pairwise fun a b => closer a b = true) (ha : ∀ b ∈ top, closer a b = true ∨ closer b a = true) :
    (top.orderedInsert (fun x y => closer x y = true) a).Pairwise fun a b => closer a b = true := by
  induction top with
  | nil => exact pairwise_singleton _ a
  | cons b top ih =>
    obtain ⟨hb, hs'⟩ := pairwise_cons.mp hs
    rw [orderedInsert_cons]
    split
    case isTrue hab =>
      refine pairwise_cons.mpr ⟨fun c hc => ?_, hs⟩
      obtain rfl | hc := mem_cons.mp hc
      · exact hab
      · exact htrans a b c hab (hb c hc)
    case isFalse hab =>
      refine pairwise_cons.mpr ⟨fun c hc => ?_, ih hs' fun c hc => ha c (mem_cons_of_mem _ hc)⟩
      obtain rfl | hc := (mem_orderedInsert _).mp hc
      · exact (ha b mem_cons_self).resolve_left hab
      · exact hb c hc

theorem holds_nil : Holds closer cap [] [] :=
  ⟨List.Pairwise.nil, (Nat.min_zero cap).symm, [], List.Perm.nil, by simp⟩

/-- An insertion keeps the nearest of what was seen. -/
theorem Holds.insert (hirrefl : ∀ a, closer a a = false)
    (htrans : ∀ a b c, closer a b = true → closer b c = true → closer a c = true)
    (h : Holds closer cap seen top)
    (ha : ∀ b ∈ seen, closer a b = true ∨ closer b a = true) :
    Holds closer cap (seen ++ [a]) (insertCapped closer cap top a) := by
  obtain ⟨rest, hperm, hrest⟩ := h.rest
  have hlen : top.length ≤ cap := h.length.trans_le (Nat.min_le_left _ _)
  have htop : ∀ b ∈ top, b ∈ seen := fun b hb => hperm.subset (mem_append_left _ hb)
  have hsorted := orderedInsert_sorted htrans h.sorted fun b hb => ha b (htop b hb)
  have hins := perm_orderedInsert (fun x y => closer x y = true) a top
  have hcount := hperm.length_eq
  rw [length_append] at hcount
  rw [insertCapped_eq hlen]
  generalize top.orderedInsert (fun x y => closer x y = true) a = l at hsorted hins
  have hl : l.length = top.length + 1 := by rw [hins.length_eq, length_cons]
  refine ⟨hsorted.take, ?_, l.drop cap ++ rest, ?_, fun x hx y hy => ?_⟩
  · have := h.length
    rw [length_take, hl, length_append, length_singleton]
    omega
  · rw [← append_assoc, take_append_drop]
    exact (hins.append_right rest).trans ((hperm.cons a).trans (perm_append_singleton a seen).symm)
  · have hdrop : ∀ z ∈ l.drop cap, closer x z = true := by
      rw [← take_append_drop cap l, pairwise_append] at hsorted
      exact hsorted.2.2 x hx
    obtain hy | hy := mem_append.mp hy
    · exact hdrop y hy
    obtain rfl | hx' := mem_cons.mp (hins.subset (mem_of_mem_take hx))
    · -- the buffer was full, so that something farther than `a` leaves it
      have hfull : cap < l.length := by
        have := h.length
        have := length_pos_of_mem hy
        omega
      obtain ⟨z, hz⟩ := exists_mem_of_length_pos (l := l.drop cap) (by rw [length_drop]; omega)
      obtain rfl | hz' := mem_cons.mp (hins.subset (mem_of_mem_drop hz))
      · exact absurd (hdrop z hz) (by simp [hirrefl])
      · exact htrans x z y (hdrop z hz) (hrest z hz' y hy)
    · exact hrest x hx' y hy

/-- A whole scan leaves the nearest of all that it saw. -/
theorem holds_foldl (hirrefl : ∀ a, closer a a = false)
    (htrans : ∀ a b c, closer a b = true → closer b c = true → closer a c = true) {l : List α}
    (hl : (seen ++ l).Pairwise fun a b => closer b a = true ∨ closer a b = true)
    (h : Holds closer cap seen top) :
    Holds closer cap (seen ++ l) (l.foldl (insertCapped closer cap) top) := by
  induction l generalizing seen top with
  | nil => rwa [append_nil]
  | cons a l ih =>
    rw [append_cons] at hl ⊢
    apply ih hl
    apply h.insert hirrefl htrans
    intro b hb
    have hseen := (pairwise_append.mp (pairwise_append.mp hl).1).2.2
    exact hseen b hb a (mem_singleton_self a)

end AntsClient.Lib.Nearest
