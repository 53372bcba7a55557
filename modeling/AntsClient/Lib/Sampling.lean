import Mathlib.Algebra.BigOperators.Group.Finset.Basic
import Mathlib.Data.Fintype.Pi
import Mathlib.Data.Fin.Tuple.Basic
import Mathlib.Data.Int.CardIntervalMod
import Mathlib.Data.List.OfFn
import Mathlib.Data.Nat.Factorial.Basic
import Mathlib.Tactic

namespace AntsClient.Lib.Sampling

open Finset

section Rejection

variable {n b r : Nat}

/-- Of the numbers below `n` without the band that is left over by whole multiples of `b`, every
residue has the same share. -/
theorem card_accepted (hb : 0 < b) (hr : r < b) :
    ((range n).filter fun w => n % b ≤ w ∧ w % b = r).card = n / b := by
  have hall : ((range n).filter fun w => w % b = r).card = n / b + if r < n % b then 1 else 0 := by
    have hcount := Nat.count_modEq_card n hb r
    rw [Nat.mod_eq_of_lt hr, Nat.count_eq_card_filter_range] at hcount
    rw [← hcount]
    refine congrArg card (filter_congr fun w _ => ?_)
    rw [Nat.ModEq, Nat.mod_eq_of_lt hr]
  have hband : ((range n).filter fun w => w < n % b ∧ w % b = r).card = if r < n % b then 1 else 0 := by
    have heq : ((range n).filter fun w => w < n % b ∧ w % b = r) = if r < n % b then {r} else ∅ := by
      ext w
      rw [mem_filter, mem_range]
      have hmod := Nat.mod_lt n hb
      have hle := Nat.mod_le n b
      constructor
      · rintro ⟨-, hw, hres⟩
        rw [Nat.mod_eq_of_lt (hw.trans hmod)] at hres
        rw [if_pos (hres ▸ hw), mem_singleton]
        exact hres
      · intro hw
        split at hw
        · rename_i hlt
          obtain rfl := mem_singleton.mp hw
          exact ⟨hlt.trans_le hle, hlt, Nat.mod_eq_of_lt hr⟩
        · exact absurd hw (notMem_empty w)
    rw [heq]
    split <;> rfl
  have hsplit := @card_filter_add_card_filter_not Nat ((range n).filter fun w => w % b = r)
    (fun w => w < n % b) _ _
  rw [filter_filter, filter_filter, hall] at hsplit
  have hlow : ((range n).filter fun w => w % b = r ∧ w < n % b).card = if r < n % b then 1 else 0 := by
    rw [← hband]
    exact congrArg card (filter_congr fun w _ => and_comm)
  have hhigh : ((range n).filter fun w => w % b = r ∧ ¬w < n % b) = (range n).filter fun w =>
      n % b ≤ w ∧ w % b = r :=
    filter_congr fun w _ => by rw [Nat.not_lt, and_comm]
  rw [hlow, hhigh] at hsplit
  omega

end Rejection

/-- Floyd's distinct sampling: round `s` takes its draw if it is free, and `base + s` otherwise. -/
def floyd (base : Nat) (draws out : List Nat) : List Nat :=
  draws.foldl (fun out t => out ++ [if t ∈ out then base + out.length else t]) out

def drawTuples (base k : Nat) : Finset (Fin k → Nat) := Fintype.piFinset fun s => range (base + s + 1)

variable {base k j t : Nat} {A S : Finset Nat}

theorem floyd_snoc (draws out : List Nat) (t : Nat) : floyd base (draws ++ [t]) out =
    floyd base draws out ++ [if t ∈ floyd base draws out then base + (floyd base draws out).length else t] := by
  rw [floyd, List.foldl_append]
  rfl

theorem floyd_length (draws out : List Nat) : (floyd base draws out).length = out.length + draws.length := by
  induction draws generalizing out with
  | nil => rfl
  | cons t draws ih =>
    rw [floyd, List.foldl_cons]
    refine (ih _).trans ?_
    rw [List.length_append, List.length_singleton, List.length_cons]
    omega

theorem mem_drawTuples {f : Fin k → Nat} : f ∈ drawTuples base k ↔ ∀ s, f s ≤ base + s := by
  simp only [drawTuples, Fintype.mem_piFinset, mem_range, Nat.lt_succ_iff]

theorem init_mem_drawTuples {f : Fin (k + 1) → Nat} :
    f ∈ drawTuples base (k + 1) ↔ Fin.init f ∈ drawTuples base k ∧ f (Fin.last k) ≤ base + k := by
  rw [mem_drawTuples, mem_drawTuples, Fin.forall_fin_succ']
  rfl

def picked (base : Nat) (f : Fin k → Nat) : Finset Nat := (floyd base (List.ofFn f) []).toFinset

theorem floyd_succ (f : Fin (k + 1) → Nat) :
    floyd base (List.ofFn f) [] = floyd base (List.ofFn (Fin.init f)) [] ++
    [if f (Fin.last k) ∈ floyd base (List.ofFn (Fin.init f)) [] then base + k else f (Fin.last k)] := by
  have hlen : (floyd base (List.ofFn (Fin.init f)) []).length = k := by
    rw [floyd_length, List.length_ofFn, List.length_nil, Nat.zero_add]
  have hofFn : List.ofFn f = List.ofFn (Fin.init f) ++ [f (Fin.last k)] := by
    rw [List.ofFn_succ', List.concat_eq_append]
    rfl
  rw [hofFn, floyd_snoc, hlen]

theorem picked_succ (f : Fin (k + 1) → Nat) : picked base f =
    if f (Fin.last k) ∈ picked base (Fin.init f) then insert (base + k) (picked base (Fin.init f))
    else insert (f (Fin.last k)) (picked base (Fin.init f)) := by
  rw [picked, floyd_succ, picked]
  simp only [List.mem_toFinset]
  split
  · ext i
    simp
  · ext i
    simp

theorem picked_subset {f : Fin k → Nat} (h : f ∈ drawTuples base k) : picked base f ⊆ range (base + k) := by
  induction k with
  | zero => exact empty_subset _
  | succ k ih =>
    obtain ⟨hinit, hlast⟩ := init_mem_drawTuples.mp h
    have hsub : picked base (Fin.init f) ⊆ range (base + k + 1) :=
      (ih hinit).trans (range_subset_range.mpr (Nat.le_succ _))
    rw [picked_succ]
    split
    · exact insert_subset (mem_range.mpr (Nat.lt_succ_self _)) hsub
    · exact insert_subset (mem_range.mpr (Nat.lt_succ_of_le hlast)) hsub

theorem floyd_nodup {f : Fin k → Nat} (h : f ∈ drawTuples base k) : (floyd base (List.ofFn f) []).Nodup := by
  induction k with
  | zero => exact List.nodup_nil
  | succ k ih =>
    obtain ⟨hinit, -⟩ := init_mem_drawTuples.mp h
    -- `base + k` is beyond all that was picked before
    have hfresh : base + k ∉ floyd base (List.ofFn (Fin.init f)) [] := by
      intro hmem
      have hlt := mem_range.mp (picked_subset hinit (List.mem_toFinset.mpr hmem))
      exact absurd hlt (Nat.lt_irrefl _)
    rw [floyd_succ, List.nodup_append]
    refine ⟨ih hinit, List.nodup_singleton _, fun a ha b hb hab => ?_⟩
    rw [List.mem_singleton.mp hb] at hab
    split at hab
    · exact hfresh (hab ▸ ha)
    · rename_i hfree
      exact hfree (hab ▸ ha)

def before (j t : Nat) (S : Finset Nat) : Finset Nat := if j ∈ S then S.erase j else S.erase t

theorem step_eq_iff (hA : A ⊆ range j) :
    (if t ∈ A then insert j A else insert t A) = S ↔ t ∈ S ∧ A = before j t S := by
  have hj : j ∉ A := fun hmem => absurd (mem_range.mp (hA hmem)) (Nat.lt_irrefl j)
  constructor
  · intro h
    subst h
    by_cases ht : t ∈ A
    · rw [if_pos ht, before, if_pos (mem_insert_self j A), erase_insert hj]
      exact ⟨mem_insert_of_mem ht, rfl⟩
    · rw [if_neg ht, before]
      refine ⟨mem_insert_self t A, ?_⟩
      by_cases hjt : j = t
      · rw [← hjt, if_pos (mem_insert_self j A), erase_insert hj]
      · have hnot : j ∉ insert t A := fun hmem => (mem_insert.mp hmem).elim hjt hj
        rw [if_neg hnot, erase_insert ht]
  · rintro ⟨ht, rfl⟩
    rw [before]
    by_cases hjS : j ∈ S
    · rw [if_pos hjS]
      by_cases hjt : t = j
      · rw [hjt, if_neg (notMem_erase j S), insert_erase hjS]
      · rw [if_pos (mem_erase.mpr ⟨hjt, ht⟩), insert_erase hjS]
    · rw [if_neg hjS, if_neg (notMem_erase t S), insert_erase ht]

theorem before_subset (hS : S ⊆ range (j + 1)) : before j t S ⊆ range j := by
  intro i hi
  have hne : i ∈ S ∧ i ≠ j := by
    rw [before] at hi
    split at hi
    · exact ⟨mem_of_mem_erase hi, ne_of_mem_erase hi⟩
    · rename_i hj
      exact ⟨mem_of_mem_erase hi, fun h => hj (h ▸ mem_of_mem_erase hi)⟩
  have hlt := mem_range.mp (hS hne.1)
  exact mem_range.mpr (by omega)

theorem before_card (ht : t ∈ S) : (before j t S).card = S.card - 1 := by
  rw [before]
  split
  · rename_i hj
    exact card_erase_of_mem hj
  · exact card_erase_of_mem ht

/-- The tuples that pick `S` with the last draw `t` are the tuples of the rounds before that pick
what must be there before. -/
theorem card_picked_last (hS : S ⊆ range (base + k + 1)) (ht : t ∈ S) :
    ((drawTuples base (k + 1)).filter fun f => picked base f = S ∧ f (Fin.last k) = t).card =
      ((drawTuples base k).filter fun f => picked base f = before (base + k) t S).card := by
  refine card_nbij' Fin.init (fun f => Fin.snoc f t) ?_ ?_ ?_ ?_
  · intro f hf
    obtain ⟨hmem, hpick, hlast⟩ := mem_filter.mp (mem_coe.mp hf)
    have hinit := (init_mem_drawTuples.mp hmem).1
    rw [picked_succ, hlast, step_eq_iff (picked_subset hinit)] at hpick
    exact mem_coe.mpr (mem_filter.mpr ⟨hinit, hpick.2⟩)
  · intro f hf
    obtain ⟨hmem, hpick⟩ := mem_filter.mp (mem_coe.mp hf)
    have hlast : @Fin.snoc k (fun _ => Nat) f t (Fin.last k) = t := @Fin.snoc_last k (fun _ => Nat) t f
    refine mem_coe.mpr (mem_filter.mpr ⟨?_, ?_, hlast⟩)
    · rw [init_mem_drawTuples, Fin.init_snoc]
      beta_reduce
      rw [hlast]
      exact ⟨hmem, Nat.lt_succ_iff.mp (mem_range.mp (hS ht))⟩
    · rw [picked_succ, Fin.init_snoc]
      beta_reduce
      rw [hlast, step_eq_iff (picked_subset hmem)]
      exact ⟨ht, hpick⟩
  · intro f hf
    obtain ⟨-, -, hlast⟩ := mem_filter.mp (mem_coe.mp hf)
    rw [← hlast]
    exact Fin.snoc_init_self f
  · intro f _
    exact Fin.init_snoc _ _

/-- Every set of `k` numbers is picked by exactly `k !` tuples of draws. -/
theorem card_picked (hS : S ⊆ range (base + k)) (hcard : S.card = k) :
    ((drawTuples base k).filter fun f => picked base f = S).card = k.factorial := by
  -- by the last draw, which is one of the set
  induction k generalizing S with
  | zero =>
    obtain rfl := card_eq_zero.mp hcard
    rfl
  | succ k ih =>
    have hmaps : ∀ f ∈ (drawTuples base (k + 1)).filter fun f => picked base f = S, f (Fin.last k) ∈ S := by
      intro f hf
      obtain ⟨hmem, hpick⟩ := mem_filter.mp hf
      rw [picked_succ, step_eq_iff (picked_subset (init_mem_drawTuples.mp hmem).1)] at hpick
      exact hpick.1
    have hfiber : ∀ t ∈ S, (((drawTuples base (k + 1)).filter fun f => picked base f = S).filter fun f =>
        f (Fin.last k) = t).card = k.factorial := by
      intro t ht
      rw [filter_filter, card_picked_last hS ht]
      exact ih (before_subset hS) (by rw [before_card ht, hcard, Nat.add_sub_cancel])
    rw [card_eq_sum_card_fiberwise hmaps, sum_congr rfl hfiber, sum_const, hcard, smul_eq_mul,
      Nat.factorial_succ]

end AntsClient.Lib.Sampling
