import AntsClient.Lib.Ring
import Mathlib.Data.List.Perm.Basic
import Mathlib.Data.List.Pairwise
import Mathlib.Data.List.Perm.Subperm

namespace AntsClient.Lib.RoundRobin

open List

variable {α : Type}

def level (xss : List (List α)) (d : Nat) : List α := xss.filterMap fun xs => xs[d]?

def dealt (xss : List (List α)) (depth : Nat) : List α := (range depth).flatMap (level xss)

variable {xss : List (List α)} {xs ys : List α} {depth d n : Nat} {x : α}

theorem mem_level : x ∈ level xss d ↔ ∃ xs ∈ xss, xs[d]? = some x := mem_filterMap

theorem level_eq_nil (h : ∀ xs ∈ xss, xs.length ≤ d) : level xss d = [] := by
  rw [level, filterMap_eq_nil_iff]
  intro xs hxs
  exact getElem?_eq_none (h xs hxs)

theorem length_le_of_level (h : level xss d = []) : ∀ xs ∈ xss, xs.length ≤ d := by
  intro xs hxs
  exact getElem?_eq_none_iff.mp (filterMap_eq_nil_iff.mp h xs hxs)

theorem dealt_perm (h : ∀ xs ∈ xss, xs.length ≤ depth) : (dealt xss depth).Perm xss.flatten := by
  induction xss with
  | nil => simp [dealt, level]
  | cons xs xss ih =>
    have hsplit : dealt (xs :: xss) depth = (range depth).flatMap fun d => xs[d]?.toList ++ level xss d := by
      rw [dealt]
      congr 1
      funext d
      rw [level, filterMap_cons]
      cases xs[d]? <;> rfl
    have hfirst : ((range depth).flatMap fun d => xs[d]?.toList) = xs := by
      rw [← filterMap_eq_flatMap_toList, Ring.filterMap_getElem?_range, take_of_length_le (h xs mem_cons_self)]
    have happend := flatMap_append_perm (range depth) (fun d => xs[d]?.toList) (level xss)
    rw [hfirst] at happend
    rw [hsplit, flatten_cons]
    exact happend.symm.trans ((ih fun ys hys => h ys (mem_cons_of_mem _ hys)).append_left xs)

theorem dealt_split (h : d ≤ depth) :
    dealt xss depth = dealt xss d ++ (List.range' d (depth - d)).flatMap (level xss) := by
  have hrange : range depth = range d ++ List.range' d (depth - d) := by
    have happend := range'_append_1 (s := 0) (m := d) (n := depth - d)
    rw [Nat.zero_add, Nat.add_sub_cancel' h] at happend
    rw [range_eq_range', range_eq_range', happend]
  rw [dealt, dealt, hrange, flatMap_append]

theorem dealt_succ : dealt xss (depth + 1) = dealt xss depth ++ level xss depth := by
  rw [dealt, range_succ, flatMap_append, flatMap_singleton]
  rfl

/-- A round in which no list gives anything is the last. -/
theorem dealt_of_level_nil (h : level xss d = []) (hd : d ≤ depth) : dealt xss depth = dealt xss d := by
  have hrest : (List.range' d (depth - d)).flatMap (level xss) = [] := by
    apply flatMap_eq_nil_iff.mpr
    intro d' hd'
    apply level_eq_nil
    intro xs hxs
    exact (length_le_of_level h xs hxs).trans (mem_range'_1.mp hd').1
  rw [dealt_split hd, hrest, append_nil]

theorem mem_dealt : x ∈ dealt xss depth ↔ ∃ d < depth, ∃ xs ∈ xss, xs[d]? = some x := by
  simp only [dealt, mem_flatMap, mem_range, mem_level]

theorem list_unique (hnodup : xss.flatten.Nodup) (hxs : xs ∈ xss) (hys : ys ∈ xss) (hx : x ∈ xs)
    (hy : x ∈ ys) : xs = ys := by
  by_contra hne
  have : Std.Symm (@List.Disjoint α) := ⟨fun _ _ h _ hx hy => h hy hx⟩
  exact (nodup_flatten.mp hnodup).2.forall hxs hys hne hx hy

/-- Where an element stands in its list is what tells its turn. -/
theorem place_unique (hnodup : xss.flatten.Nodup) {d' : Nat} (hxs : xs ∈ xss) (hys : ys ∈ xss)
    (hx : xs[d]? = some x)
    (hy : ys[d']? = some x) : d = d' := by
  obtain rfl := list_unique hnodup hxs hys (mem_of_getElem? hx) (mem_of_getElem? hy)
  obtain ⟨hd, hxd⟩ := List.getElem?_eq_some_iff.mp hx
  obtain ⟨hd', hyd⟩ := List.getElem?_eq_some_iff.mp hy
  exact (List.Nodup.getElem_inj_iff ((nodup_flatten.mp hnodup).1 _ hxs)).mp (hxd.trans hyd.symm)

/-- Before an element is dealt, every list has given what stands at the places before its own. -/
theorem mem_take_of_lt (hnodup : xss.flatten.Nodup) {y : α} {d' : Nat} (hxs : xs ∈ xss)
    (hys : ys ∈ xss) (hx : xs[d]? = some x)
    (hy : ys[d']? = some y) (hlt : d' < d) (hd : d < depth) (htake : x ∈ (dealt xss depth).take n) :
    y ∈ (dealt xss depth).take n := by
  have hsplit : dealt xss depth = dealt xss d ++ (List.range' d (depth - d)).flatMap (level xss) :=
    dealt_split hd.le
  have hy' : y ∈ dealt xss d := mem_dealt.mpr ⟨d', hlt, ys, hys, hy⟩
  rw [hsplit, take_append] at htake ⊢
  by_cases hn : n ≤ (dealt xss d).length
  · rw [Nat.sub_eq_zero_of_le hn, take_zero, append_nil] at htake
    obtain ⟨d₀, hd₀, xs', hxs', hx'⟩ := mem_dealt.mp (mem_of_mem_take htake)
    exact absurd (place_unique hnodup hxs hxs' hx hx') hd₀.ne'
  · apply mem_append_left
    rwa [take_of_length_le (Nat.le_of_not_le hn)]

variable [DecidableEq α]

/-- Of any two lists, one has given all but the last of as many as the other. -/
theorem countP_take_le (h : ∀ xs ∈ xss, xs.length ≤ depth) (hnodup : xss.flatten.Nodup)
    (hxs : xs ∈ xss) (hys : ys ∈ xss)
    (hpos : 1 ≤ ((dealt xss depth).take n).countP (· ∈ xs)) :
    min ys.length (((dealt xss depth).take n).countP (· ∈ xs) - 1) ≤
      ((dealt xss depth).take n).countP (· ∈ ys) := by
  have hdealt : ((dealt xss depth).take n).Nodup :=
    ((dealt_perm h).nodup_iff.mpr hnodup).sublist (take_sublist _ _)
  have hlists := (nodup_flatten.mp hnodup).1
  rw [countP_eq_length_filter, countP_eq_length_filter] at *
  generalize hc : (((dealt xss depth).take n).filter (· ∈ xs)).length = c at hpos ⊢
  -- some element that was given stands at the last of these places, or behind it
  obtain ⟨x, hx, hbehind⟩ : ∃ x ∈ ((dealt xss depth).take n).filter (· ∈ xs), x ∉ xs.take (c - 1) := by
    by_contra hnone
    push Not at hnone
    have hle := ((hdealt.filter _).subperm hnone).length_le
    have := length_take_le (c - 1) xs
    omega
  obtain ⟨hgiven, hmem⟩ := mem_filter.mp hx
  obtain ⟨d, hd, rfl⟩ := mem_iff_getElem.mp (of_decide_eq_true hmem)
  have hplace : c - 1 ≤ d := by
    by_contra hlt
    exact hbehind (mem_take_iff_getElem.mpr ⟨d, by omega, rfl⟩)
  have hsub : ys.take (c - 1) ⊆ ((dealt xss depth).take n).filter (· ∈ ys) := by
    intro y hy
    obtain ⟨d', hd', rfl⟩ := mem_take_iff_getElem.mp hy
    apply mem_filter.mpr
    refine ⟨?_, decide_eq_true (getElem_mem _)⟩
    exact mem_take_of_lt hnodup hxs hys (getElem?_eq_getElem hd) (getElem?_eq_getElem _) (by omega)
      (hd.trans_le (h xs hxs)) hgiven
  have hle := (((hlists ys hys).sublist (take_sublist _ _)).subperm hsub).length_le
  rw [length_take] at hle
  omega

end AntsClient.Lib.RoundRobin
