import AntsClient.Lib.Sorting
import Mathlib.Data.List.Perm.Subperm
import Mathlib.Order.Lattice
import Mathlib.Tactic

namespace AntsClient.Lib.Ranking

open List

section Scores

variable {α β : Type} [LinearOrder β] (score : α → β)

def insertDown (pivot : α) : List α → List α
  | [] => [pivot]
  | x :: rest => if score x < score pivot then x :: insertDown pivot rest else pivot :: x :: rest

def sortDown (l : List α) : List α := (l.foldl (fun sorted pivot => insertDown score pivot sorted) []).reverse

variable {score} {l : List α} {n : Nat}

theorem insertDown_eq (pivot : α) (l : List α) :
    insertDown score pivot l = l.orderedInsert (fun a b => score a ≤ score b) pivot := by
  induction l with
  | nil => rfl
  | cons x rest ih =>
    rw [insertDown, orderedInsert_cons, ih]
    by_cases h : score x < score pivot
    · rw [if_pos h, if_neg (not_le.mpr h)]
    · rw [if_neg h, if_pos (not_lt.mp h)]

theorem sortDown_eq (l : List α) :
    sortDown score l = (l.reverse.insertionSort fun a b => score a ≤ score b).reverse := by
  have hstep : (fun sorted pivot => insertDown score pivot sorted) =
      fun (sorted : List α) pivot => sorted.orderedInsert (fun a b => score a ≤ score b) pivot := by
    funext sorted pivot
    exact insertDown_eq pivot sorted
  rw [sortDown, hstep, Sorting.foldl_orderedInsert]

theorem sortDown_perm (l : List α) : (sortDown score l).Perm l := by
  rw [sortDown_eq]
  exact (reverse_perm _).trans ((perm_insertionSort _ _).trans (reverse_perm l))

theorem sortDown_sorted (l : List α) : (sortDown score l).Pairwise fun a b => score b ≤ score a := by
  have : Std.Total fun a b : α => score a ≤ score b := ⟨fun a b => le_total (score a) (score b)⟩
  have : IsTrans α fun a b => score a ≤ score b := ⟨fun a b c => le_trans⟩
  rw [sortDown_eq, pairwise_reverse]
  exact pairwise_insertionSort _ _

/-- What a sorted list is cut off at scores least of what is kept. -/
theorem le_of_mem_take_of_mem_drop (hs : l.Pairwise fun a b => score b ≤ score a) {a b : α}
    (ha : a ∈ l.take n) (hb : b ∈ l.drop n) :
    score b ≤ score a := by
  rw [← take_append_drop n l, pairwise_append] at hs
  exact hs.2.2 a ha b hb

/-- If `n` elements reach a bound, then the first `n` of a sorted list do. -/
theorem le_of_mem_take (hs : l.Pairwise fun a b => score b ≤ score a) {v : β}
    (hn : n ≤ l.countP fun a => v ≤ score a) {a : α}
    (ha : a ∈ l.take n) : v ≤ score a := by
  by_contra hlt
  -- nothing from `a` on reaches the bound, and `a` is among the first `n`
  obtain ⟨i, hi, rfl⟩ := mem_iff_getElem.mp ha
  rw [length_take] at hi
  rw [getElem_take] at hlt
  have hrest : (l.drop i).countP (fun a => v ≤ score a) = 0 := by
    rw [countP_eq_zero]
    intro b hb
    rw [decide_eq_true_eq]
    intro hvb
    rw [drop_eq_getElem_cons (by omega), mem_cons] at hb
    obtain rfl | hb := hb
    · exact hlt hvb
    · refine hlt (hvb.trans (le_of_mem_take_of_mem_drop hs (n := i + 1) ?_ hb))
      exact mem_take_iff_getElem.mpr ⟨i, by omega, rfl⟩
  have hfirst : (l.take i).countP (fun a => v ≤ score a) ≤ i := countP_le_length.trans (length_take_le i l)
  rw [← take_append_drop i l, countP_append, hrest] at hn
  omega

end Scores

section Ranks

variable {α : Type} (above : α → α → Bool)

def rank (l : List α) (a : α) : Nat := l.countP fun b => above b a

variable {above} {l l' : List α}

theorem rank_perm (h : l.Perm l') (a : α) : rank above l a = rank above l' a := h.countP_eq _

/-- In a list from the best to the worst the places are the ranks. -/
theorem map_rank (hirrefl : ∀ a, above a a = false) (hasymm : ∀ a b, above a b = true → above b a = false)
    (hl : l.Pairwise fun a b => above a b = true) : l.map (rank above l) = range l.length := by
  apply ext_getElem
  · rw [length_map, length_range]
  intro i hi hi'
  have hlt : i < l.length := hi.trans_eq (length_map _)
  rw [getElem_map, getElem_range, rank]
  have hsplit : l = l.take i ++ l[i] :: l.drop (i + 1) := by rw [← drop_eq_getElem_cons hlt, take_append_drop]
  have hparts := hl
  rw [hsplit, pairwise_append, pairwise_cons] at hparts
  obtain ⟨-, ⟨hafter, -⟩, hbefore⟩ := hparts
  have hfirst : (l.take i).countP (fun b => above b l[i]) = i := by
    rw [countP_eq_length.mpr fun b hb => hbefore b hb _ mem_cons_self, length_take_of_le hlt.le]
  have hlast : (l.drop (i + 1)).countP (fun b => above b l[i]) = 0 := by
    rw [countP_eq_zero]
    intro b hb
    rw [hasymm _ _ (hafter b hb)]
    exact Bool.false_ne_true
  calc l.countP (fun b => above b l[i])
      = (l.take i ++ l[i] :: l.drop (i + 1)).countP fun b => above b l[i] := congrArg _ hsplit
    _ = i := by rw [countP_append, countP_cons_of_neg (by simp [hirrefl]), hfirst, hlast, Nat.add_zero]

theorem rank_getElem (hirrefl : ∀ a, above a a = false) (hasymm : ∀ a b, above a b = true → above b a = false)
    (hl : l.Pairwise fun a b => above a b = true) {i : Nat} (hi : i < l.length) : rank above l l[i] = i := by
  have h := congrArg (fun ranks => ranks[i]?) (map_rank hirrefl hasymm hl)
  simpa [hi] using h

theorem countP_range_lt (w m : Nat) : (range m).countP (fun k => k < w) = min w m := by
  induction m with
  | zero => simp
  | succ m ih =>
    rw [range_succ, countP_append, ih, countP_singleton]
    by_cases h : m < w
    · rw [if_pos (decide_eq_true h)]
      omega
    · rw [if_neg (by simpa using h)]
      omega

/-- As many are of a rank below `w` as there are ranks. -/
theorem countP_rank_lt (hirrefl : ∀ a, above a a = false) (hasymm : ∀ a b, above a b = true → above b a = false)
    (hl : l.Pairwise fun a b => above a b = true) (h : l'.Perm l) (w : Nat) :
    l'.countP (fun a => rank above l' a < w) = min w l.length := by
  have hranks : (fun a => decide (rank above l' a < w)) = fun a => decide (rank above l a < w) := by
    funext a
    rw [rank_perm h]
  rw [hranks, h.countP_eq, ← countP_range_lt, ← map_rank hirrefl hasymm hl, countP_map]
  rfl

end Ranks

end AntsClient.Lib.Ranking
