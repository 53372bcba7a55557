import AntsClient.Lib.Ranking
import Mathlib.Data.List.Dedup
import Mathlib.Data.List.ReduceOption
import Mathlib.Order.Basic

namespace AntsClient.Lib.Best

open List

variable {α κ β : Type} [DecidableEq κ] [LinearOrder β] (key : α → κ) (score : α → β)

/-- What comes later with the key of `best` is blanked, and takes its place where it scores more. -/
def absorb (best : α) : List (Option α) → α × List (Option α)
  | [] => (best, [])
  | none :: rest => ((absorb best rest).1, none :: (absorb best rest).2)
  | some c :: rest =>
    if key best = key c then
      let best := if score c > score best then c else best
      ((absorb best rest).1, none :: (absorb best rest).2)
    else ((absorb best rest).1, some c :: (absorb best rest).2)

def rounds : Nat → List (Option α) → List (Option α)
  | 0, cells => cells
  | _ + 1, [] => []
  | n + 1, none :: rest => none :: rounds n rest
  | n + 1, some c :: rest => some (absorb key score c rest).1 :: rounds n (absorb key score c rest).2

def keepBest (l : List α) : List α := (rounds key score l.length (l.map some)).reduceOption

/-- One element of `l` for every key in it, none of which another with that key outdoes. -/
structure Picks (l r : List α) : Prop where
  mem : ∀ a ∈ r, a ∈ l
  keys : (r.map key).Nodup
  cover : ∀ a ∈ l, ∃ b ∈ r, key b = key a ∧ score a ≤ score b

variable {key score} {l l' r r' : List α}

section Rounds

variable (key score) in
theorem length_absorb (best : α) (cells : List (Option α)) :
    (absorb key score best cells).2.length = cells.length := by
  induction cells generalizing best with
  | nil => rfl
  | cons cell cells ih =>
    cases cell with
    | none => exact congrArg (· + 1) (ih best)
    | some c =>
      rw [absorb]
      split
      · exact congrArg (· + 1) (ih _)
      · exact congrArg (· + 1) (ih _)

/-- What a round leaves is what has another key. -/
theorem reduceOption_absorb (best : α) (cells : List (Option α)) :
    (absorb key score best cells).2.reduceOption = cells.reduceOption.filter fun a => key best ≠ key a := by
  induction cells generalizing best with
  | nil => rfl
  | cons cell cells ih =>
    cases cell with
    | none =>
      rw [absorb, reduceOption_cons_of_none, reduceOption_cons_of_none]
      exact ih best
    | some c =>
      rw [absorb, reduceOption_cons_of_some]
      by_cases h : key best = key c
      · have hkey : key (if score c > score best then c else best) = key best := by
          split
          · exact h.symm
          · rfl
        rw [if_pos h, reduceOption_cons_of_none, ih, hkey, filter_cons_of_neg (by simpa using h)]
      · rw [if_neg h, reduceOption_cons_of_some, ih, filter_cons_of_pos (by simpa using h)]

variable (key score) in
theorem key_absorb (best : α) (cells : List (Option α)) : key (absorb key score best cells).1 = key best := by
  induction cells generalizing best with
  | nil => rfl
  | cons cell cells ih =>
    cases cell with
    | none => exact ih best
    | some c =>
      rw [absorb]
      split
      · rename_i h
        refine (ih _).trans ?_
        split
        · exact h.symm
        · rfl
      · exact ih best

theorem absorb_mem (best : α) (cells : List (Option α)) :
    (absorb key score best cells).1 ∈ best :: cells.reduceOption := by
  induction cells generalizing best with
  | nil => exact mem_singleton.mpr rfl
  | cons cell cells ih =>
    cases cell with
    | none =>
      rw [reduceOption_cons_of_none]
      exact ih best
    | some c =>
      have hsub : ∀ b, b = best ∨ b = c → ∀ a ∈ b :: cells.reduceOption,
          a ∈ best :: c :: cells.reduceOption := by
        intro b hb a ha
        simp only [mem_cons] at ha ⊢
        rcases ha with rfl | ha
        · tauto
        · tauto
      rw [reduceOption_cons_of_some, absorb]
      split
      · refine hsub _ ?_ _ (ih _)
        split
        · exact .inr rfl
        · exact .inl rfl
      · exact hsub best (.inl rfl) _ (ih best)

/-- What the round settles on is outdone by nothing it has seen with its key. -/
theorem le_absorb (best : α) (cells : List (Option α)) : ∀ a ∈ best :: cells.reduceOption, key a = key best →
    score a ≤ score (absorb key score best cells).1 := by
  induction cells generalizing best with
  | nil =>
    intro a ha _
    rw [mem_singleton.mp ha]
    rfl
  | cons cell cells ih =>
    cases cell with
    | none =>
      rw [reduceOption_cons_of_none]
      exact ih best
    | some c =>
      rw [reduceOption_cons_of_some, absorb]
      intro a ha hkey
      simp only [mem_cons] at ha
      by_cases h : key best = key c
      · rw [if_pos h]
        by_cases hlt : score c > score best
        · rw [if_pos hlt]
          have hc := ih c
          rcases ha with rfl | rfl | ha
          · exact hlt.le.trans (hc c mem_cons_self rfl)
          · exact hc a mem_cons_self rfl
          · exact hc a (mem_cons_of_mem _ ha) (hkey.trans h)
        · rw [if_neg hlt]
          have hbest := ih best
          rcases ha with rfl | rfl | ha
          · exact hbest a mem_cons_self rfl
          · exact (not_lt.mp hlt).trans (hbest best mem_cons_self rfl)
          · exact hbest a (mem_cons_of_mem _ ha) hkey
      · rw [if_neg h]
        rcases ha with rfl | rfl | ha
        · exact ih a a mem_cons_self rfl
        · exact absurd hkey.symm h
        · exact ih best a (mem_cons_of_mem _ ha) hkey

theorem picks_rounds {n : Nat} {cells : List (Option α)} (hn : cells.length ≤ n) :
    Picks key score cells.reduceOption (rounds key score n cells).reduceOption := by
  induction n generalizing cells with
  | zero =>
    obtain rfl := length_eq_zero_iff.mp (Nat.le_zero.mp hn)
    exact ⟨fun a ha => ha, nodup_nil, fun a ha => absurd ha not_mem_nil⟩
  | succ n ih =>
    cases cells with
    | nil => exact ⟨fun a ha => ha, nodup_nil, fun a ha => absurd ha not_mem_nil⟩
    | cons cell rest =>
      have hrest : rest.length ≤ n := Nat.le_of_succ_le_succ hn
      cases cell with
      | none =>
        rw [rounds, reduceOption_cons_of_none, reduceOption_cons_of_none]
        exact ih hrest
      | some c =>
        rw [rounds, reduceOption_cons_of_some, reduceOption_cons_of_some]
        have hround := ih ((length_absorb key score c rest).trans_le hrest)
        rw [reduceOption_absorb] at hround
        have hkey := key_absorb key score c rest
        constructor
        · intro a ha
          rw [mem_cons] at ha
          rcases ha with rfl | ha
          · exact absorb_mem c rest
          · exact mem_cons_of_mem _ (mem_of_mem_filter (hround.mem a ha))
        · rw [map_cons, nodup_cons, hkey]
          refine ⟨fun hmem => ?_, hround.keys⟩
          obtain ⟨a, ha, hsame⟩ := mem_map.mp hmem
          have hne := of_mem_filter (hround.mem a ha)
          simp [hsame] at hne
        · intro a ha
          by_cases hsame : key a = key c
          · exact ⟨_, mem_cons_self, hkey.trans hsame.symm, le_absorb c rest a ha hsame⟩
          · have hlater : a ∈ rest.reduceOption := by
              rcases mem_cons.mp ha with rfl | ha
              · exact absurd rfl hsame
              · exact ha
            have hleft : a ∈ rest.reduceOption.filter fun b => key c ≠ key b :=
              mem_filter.mpr ⟨hlater, by simpa using fun h => hsame h.symm⟩
            obtain ⟨b, hb, hbkey, hle⟩ := hround.cover a hleft
            exact ⟨b, mem_cons_of_mem _ hb, hbkey, hle⟩

theorem picks_keepBest (l : List α) : Picks key score l (keepBest key score l) := by
  have hcells : (l.map some).reduceOption = l := by
    rw [List.reduceOption, filterMap_map]
    exact filterMap_some
  have h : Picks key score (l.map some).reduceOption (keepBest key score l) := picks_rounds (length_map ..).le
  rwa [hcells] at h

end Rounds

variable {a b : α}

section Picks

variable (h : Picks key score l r)

include h

omit [DecidableEq κ] in
theorem Picks.eq_of_key (ha : a ∈ r) (hb : b ∈ r) (hkey : key a = key b) : a = b :=
  inj_on_of_nodup_map h.keys ha hb hkey

omit [DecidableEq κ] in
theorem Picks.le (ha : a ∈ l) (hb : b ∈ r) (hkey : key a = key b) : score a ≤ score b := by
  obtain ⟨c, hc, hckey, hle⟩ := h.cover a ha
  rwa [h.eq_of_key hc hb (hckey.trans hkey)] at hle

theorem Picks.length_eq : r.length = (l.map key).dedup.length := by
  have hperm : (r.map key).Perm (l.map key).dedup := by
    rw [perm_ext_iff_of_nodup h.keys (nodup_dedup _)]
    intro k
    rw [mem_dedup, mem_map, mem_map]
    constructor
    · rintro ⟨a, ha, rfl⟩
      exact ⟨a, h.mem a ha, rfl⟩
    · rintro ⟨a, ha, rfl⟩
      obtain ⟨b, hb, hkey, -⟩ := h.cover a ha
      exact ⟨b, hb, hkey⟩
  rw [← hperm.length_eq, length_map]

omit [DecidableEq κ] in
/-- The same keys with the same scores are picked from a list in another order. -/
theorem Picks.perm (h' : Picks key score l' r') (hl : l.Perm l') :
    (r.map fun a => (key a, score a)).Perm (r'.map fun a => (key a, score a)) := by
  have hnodup : ∀ {s : List α}, (s.map key).Nodup → (s.map fun a => (key a, score a)).Nodup := by
    intro s hs
    apply List.Nodup.of_map Prod.fst
    rwa [map_map]
  -- a pick has its counterpart among the others, and neither outdoes the other
  have hpick : ∀ {l l' r r' : List α}, Picks key score l r → Picks key score l' r' → l.Perm l' →
      ∀ p ∈ r.map (fun a => (key a, score a)), p ∈ r'.map fun a => (key a, score a) := by
    intro l l' r r' h h' hl p hp
    obtain ⟨a, ha, rfl⟩ := mem_map.mp hp
    obtain ⟨b, hb, hkey, hle⟩ := h'.cover a (hl.mem_iff.mp (h.mem a ha))
    have hge : score b ≤ score a := h.le (hl.mem_iff.mpr (h'.mem b hb)) ha hkey
    exact mem_map.mpr ⟨b, hb, Prod.ext hkey (le_antisymm hge hle)⟩
  rw [perm_ext_iff_of_nodup (hnodup h.keys) (hnodup h'.keys)]
  exact fun p => ⟨hpick h h' hl p, hpick h' h hl.symm p⟩

end Picks

section Top

omit [DecidableEq κ] in
theorem Picks.of_perm (h : Picks key score l r) (hr : r.Perm r') : Picks key score l r' := by
  constructor
  · exact fun a ha => h.mem a (hr.mem_iff.mpr ha)
  · exact (hr.map key).nodup_iff.mp h.keys
  · intro a ha
    obtain ⟨b, hb, hkey, hle⟩ := h.cover a ha
    exact ⟨b, hr.mem_iff.mp hb, hkey, hle⟩

structure Ordered (key : α → κ) (score : α → β) (l s : List α) : Prop where
  picks : Picks key score l s
  falling : s.Pairwise fun a b => score b ≤ score a

theorem ordered_sortDown (l : List α) : Ordered key score l (Ranking.sortDown score (keepBest key score l)) :=
  ⟨(picks_keepBest l).of_perm (Ranking.sortDown_perm _).symm, Ranking.sortDown_sorted _⟩

variable {s s' : List α} {n : Nat}

omit [DecidableEq κ] in
/-- Nothing that is cut off outdoes what is kept. -/
theorem Ordered.le_of_cut (h : Ordered key score l s) (ha : a ∈ l)
    (hcut : key a ∉ (s.take n).map key) (hb : b ∈ s.take n) :
    score a ≤ score b := by
  obtain ⟨c, hc, hkey, hle⟩ := h.picks.cover a ha
  rw [← take_append_drop n s, mem_append] at hc
  rcases hc with hc | hc
  · exact absurd (mem_map.mpr ⟨c, hc, hkey⟩) hcut
  · exact hle.trans (Ranking.le_of_mem_take_of_mem_drop h.falling hb hc)

omit [DecidableEq κ] in
/-- The scores in order do not depend on the order of the list. -/
theorem Ordered.map_score (h : Ordered key score l s) (h' : Ordered key score l' s')
    (hl : l.Perm l') : s.map score = s'.map score := by
  have hperm : (s.map score).Perm (s'.map score) := by
    have hpairs := (h.picks.perm h'.picks hl).map Prod.snd
    rwa [map_map, map_map] at hpairs
  apply List.Perm.eq_of_pairwise (fun a b _ _ hab hba => le_antisymm hba hab) _ _ hperm
  · exact pairwise_map.mpr h.falling
  · exact pairwise_map.mpr h'.falling

omit [DecidableEq κ] in
/-- What is kept of one order is kept of another, or another key of the same score is kept in its place. -/
theorem Ordered.tie (h : Ordered key score l s) (h' : Ordered key score l' s') (hl : l.Perm l')
    (ha : a ∈ s.take n) :
    (∃ b ∈ s'.take n, key b = key a ∧ score b = score a) ∨ ∃ b ∈ s'.take n,
    key b ∉ (s.take n).map key ∧ score b = score a := by
  have hal : a ∈ l := h.picks.mem a (mem_of_mem_take ha)
  by_cases hkept : key a ∈ (s'.take n).map key
  · left
    obtain ⟨b, hb, hkey⟩ := mem_map.mp hkept
    have hbs := mem_of_mem_take hb
    have hle : score b ≤ score a := h.picks.le (hl.mem_iff.mpr (h'.picks.mem b hbs)) (mem_of_mem_take ha) hkey
    exact ⟨b, hb, hkey, le_antisymm hle (h'.picks.le (hl.mem_iff.mp hal) hbs hkey.symm)⟩
  · right
    -- as many keys are kept in both, so that one of the others takes the place
    have hlen : ((s.take n).map key).length = ((s'.take n).map key).length := by
      have hscores := congrArg List.length (h.map_score h' hl)
      rw [length_map, length_map] at hscores
      rw [length_map, length_map, length_take, length_take, hscores]
    obtain ⟨k, hk, hnot⟩ : ∃ k ∈ (s'.take n).map key, k ∉ (s.take n).map key := by
      by_contra hnone
      push Not at hnone
      have hnodup : ((s'.take n).map key).Nodup := h'.picks.keys.sublist ((take_sublist n s').map key)
      have hperm := (subperm_of_subset hnodup hnone).perm_of_length_le hlen.le
      exact hkept (hperm.mem_iff.mpr (mem_map_of_mem ha))
    obtain ⟨b, hb, rfl⟩ := mem_map.mp hk
    have hbl : b ∈ l' := h'.picks.mem b (mem_of_mem_take hb)
    exact ⟨b, hb, hnot, le_antisymm (h.le_of_cut (hl.mem_iff.mpr hbl) hnot ha)
      (h'.le_of_cut (hl.mem_iff.mp hal) hkept hb)⟩

end Top

end AntsClient.Lib.Best
