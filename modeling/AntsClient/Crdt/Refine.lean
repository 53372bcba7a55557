import AntsClient.Crdt.Container
import Mathlib.Data.Finset.Card
import Mathlib.Data.Finset.Image

namespace AntsClient.Crdt.Refine

open Common Crypto Lib.LinearProbe Crdt.Container
open List hiding contains

variable {k : Nat} {slots : List (Option Elem)} {tab : List Bytes32} {s : GSet} {x : Bytes32}
  {α : Type} {Q : GSet → Prop}

/-- What the set is for: the proofs stored, the subjects remembered without one, and the epoch below
which nothing is stored. -/
structure View where
  stored : Finset Elem
  retired : Finset Bytes32
  floor : Nat

def Slashed (v : View) (x : Bytes32) : Prop := (∃ e ∈ v.stored, e.subject = x) ∨ x ∈ v.retired

def stored (s : GSet) : Finset Elem := (s.slots.filterMap id).toFinset

def retiredSubjects (s : GSet) : Finset Bytes32 :=
  (s.retired.filterMap subjectKey).toFinset ∪ if s.retiredZero then {zero32} else ∅

def view (s : GSet) : View := ⟨stored s, retiredSubjects s, s.floor⟩

structure Inv (s : GSet) : Prop where
  pow2 : ∃ k, s.slots.length = 2 ^ k
  cap : initialCap ≤ s.slots.length
  placed : Placed elemKey idHash s.slots
  count : s.count = (occupied elemKey s.slots).length
  load : s.count * 10 < s.slots.length * 7
  retiredPow2 : s.retired = [] ∨ ∃ k, s.retired.length = 2 ^ (k + 1)
  retiredPlaced : Placed subjectKey idHash s.retired
  nRetired : s.nRetired = (occupied subjectKey s.retired).length
  retiredLoad : s.nRetired * 2 ≤ s.retired.length
  floor : ∀ e ∈ stored s, s.floor ≤ e.epoch

theorem probeLoop_eq {σ : Type} {key? : σ → Option Bytes32} {slots : List σ} (h : slots.length = 2 ^ k)
    (id : Bytes32) (fuel i : Nat) : probeLoop key? slots id fuel i = probeFrom key? slots id fuel i := by
  induction fuel generalizing i with
  | zero => rfl
  | succ fuel ih =>
    rw [probeLoop, probeFrom, keyAt]
    cases slots[i]?.bind key? with
    | none => rfl
    | some id' =>
      simp only [ih]
      rw [h, Nat.and_two_pow_sub_one_eq_mod]

theorem crdtProbe_eq (h : slots.length = 2 ^ k) (id : Bytes32) :
    crdtProbe slots id = probe elemKey idHash slots id := by
  rw [crdtProbe, probe, probeLoop_eq h]
  congr 1
  rw [h, Nat.and_two_pow_sub_one_eq_mod]

theorem retiredProbe_eq (h : tab.length = 2 ^ k) (subject : Bytes32) :
    retiredProbe tab subject = probe subjectKey idHash tab subject := by
  rw [retiredProbe, probe, probeLoop_eq h]
  congr 1
  rw [h, Nat.and_two_pow_sub_one_eq_mod]

theorem mem_stored {e : Elem} : e ∈ stored s ↔ some e ∈ s.slots := by
  simp [stored]

theorem Inv.room (hs : Inv s) : (occupied elemKey s.slots).length < s.slots.length := by
  have h := hs.load
  rw [hs.count] at h
  omega

theorem contains_iff {s : GSet} (hs : Inv s) {id : Bytes32} :
    contains s id = true ↔ ∃ e ∈ stored s, e.contentId = id := by
  obtain ⟨k, hk⟩ := hs.pow2
  rw [contains, crdtProbe_eq hk, probe_found hs.placed hs.room]
  simp only [mem_stored]
  constructor
  · rintro ⟨slot, hm, hkey⟩
    obtain ⟨e, rfl, rfl⟩ := Option.map_eq_some_iff.mp hkey
    exact ⟨e, hm, rfl⟩
  · rintro ⟨e, hm, rfl⟩
    exact ⟨some e, hm, rfl⟩

theorem subjectKey_eq_some {place : Bytes32} : subjectKey place = some x ↔ place = x ∧ x ≠ zero32 := by
  rw [subjectKey]
  split
  · rename_i h
    subst h
    constructor
    · intro h
      cases h
    · rintro ⟨rfl, hne⟩
      exact absurd rfl hne
  · rename_i h
    rw [Option.some.injEq]
    constructor
    · rintro rfl
      exact ⟨rfl, h⟩
    · exact fun h => h.1

theorem mem_retiredSubjects :
    x ∈ retiredSubjects s ↔ if x = zero32 then s.retiredZero = true else x ∈ s.retired := by
  have hkeys : x ∈ (s.retired.filterMap subjectKey).toFinset ↔ x ∈ s.retired ∧ x ≠ zero32 := by
    rw [mem_toFinset, mem_filterMap]
    constructor
    · rintro ⟨y, hy, hk⟩
      obtain ⟨rfl, hne⟩ := subjectKey_eq_some.mp hk
      exact ⟨hy, hne⟩
    · rintro ⟨hx, hne⟩
      exact ⟨x, hx, subjectKey_eq_some.mpr ⟨rfl, hne⟩⟩
  rw [retiredSubjects, Finset.mem_union, hkeys]
  by_cases hx : x = zero32
  · subst hx
    cases s.retiredZero <;> simp
  · cases s.retiredZero <;> simp [hx]

theorem Inv.retired_room (hs : Inv s) (hk : s.retired.length = 2 ^ (k + 1)) :
    (occupied subjectKey s.retired).length < s.retired.length := by
  have hpos : 0 < s.retired.length := by rw [hk]; positivity
  have hload := hs.retiredLoad
  rw [hs.nRetired] at hload
  omega

theorem retiredProbe_found (hs : Inv s) (hk : s.retired.length = 2 ^ (k + 1))
    (hx : x ≠ zero32) : (retiredProbe s.retired x).2 = true ↔ x ∈ s.retired := by
  rw [retiredProbe_eq hk, probe_found hs.retiredPlaced (hs.retired_room hk)]
  constructor
  · rintro ⟨y, hy, hkey⟩
    obtain ⟨rfl, -⟩ := subjectKey_eq_some.mp hkey
    exact hy
  · intro hmem
    exact ⟨x, hmem, subjectKey_eq_some.mpr ⟨rfl, hx⟩⟩

theorem retiredHas_iff (hs : Inv s) : retiredHas s x = true ↔ x ∈ retiredSubjects s := by
  rw [retiredHas, mem_retiredSubjects]
  split
  · rfl
  rename_i hx
  rcases hs.retiredPow2 with hnil | ⟨k, hk⟩
  · simp [hnil]
  · have hpos : s.retired.length ≠ 0 := by rw [hk]; positivity
    rw [if_neg hpos, retiredProbe_found hs hk hx]

theorem isSlashed_iff (hs : Inv s) : isSlashed s x = true ↔ Slashed (view s) x := by
  rw [isSlashed, Bool.or_eq_true, retiredHas_iff hs, any_eq_true]
  refine or_congr_left ?_
  simp only [view, mem_stored, Option.any_eq_true, decide_eq_true_eq]
  constructor
  · rintro ⟨slot, hm, e, rfl, hx⟩
    exact ⟨e, hm, hx⟩
  · rintro ⟨e, hm, hx⟩
    exact ⟨some e, hm, e, rfl, hx⟩

theorem occupied_elem (slots : List (Option Elem)) :
    occupied elemKey slots = (slots.filterMap id).map some := by
  induction slots with
  | nil => rfl
  | cons slot slots ih =>
    cases slot with
    | none => simpa [occupied, elemKey] using ih
    | some e => simpa [occupied, elemKey] using ih

theorem contentIds_nodup (hs : Inv s) : ((s.slots.filterMap id).map Elem.contentId).Nodup := by
  rw [map_filterMap]
  exact keys_nodup hs.placed

theorem elems_nodup (hs : Inv s) : (s.slots.filterMap id).Nodup := (contentIds_nodup hs).of_map _

theorem size_eq (hs : Inv s) : size s = (stored s).card := by
  rw [size, hs.count, occupied_elem, length_map, stored, toFinset_card_of_nodup (elems_nodup hs)]

theorem inv_initial : Inv initial := by
  have hnone : ∀ x ∈ replicate initialCap (none : Option Elem), elemKey x = none := fun x hx =>
    (eq_of_mem_replicate hx) ▸ rfl
  refine ⟨⟨4, rfl⟩, le_rfl, placed_of_empty hnone, by decide, by decide, .inl rfl, ?_, rfl, le_rfl, ?_⟩
  · exact placed_of_empty fun _ h => absurd h not_mem_nil
  · intro e he
    exact Nat.zero_le _

/-- A call on the set ends well with `P`, or an allocation failed on the way and it
ends with `Q`. -/
def Outcome {α : Type} (s : Store) (P : α → GSet → Prop) (Q : GSet → Prop) : EStateM.Result Error Store α → Prop
  | .ok a s' => s'.mem <:+ s.mem ∧ P a s'.set
  | .error err s' => s'.mem <:+ s.mem ∧ err = .malformed ∧ false ∈ s.mem ∧ Q s'.set

variable {P : α → GSet → Prop} {r : EStateM.Result Error Store α}

theorem Outcome.bind {β : Type} {x : StoreM α} {f : α → StoreM β} {s : Store} {P' : β → GSet → Prop}
    (hx : Outcome s P Q (x s))
    (hf : ∀ a s', s'.mem <:+ s.mem → P a s'.set → Outcome s' P' Q (f a s')) : Outcome s P' Q ((x >>= f) s) := by
  cases h : x s with
  | error err s' =>
    rw [h] at hx
    rw [bind_error h]
    exact hx
  | ok a s' =>
    rw [h] at hx
    rw [bind_ok h]
    obtain ⟨hmem, hP⟩ := hx
    have hr := hf a s' hmem hP
    cases h' : f a s' with
    | error err s'' =>
      rw [h'] at hr
      exact ⟨hr.1.trans hmem, hr.2.1, hmem.subset hr.2.2.1, hr.2.2.2⟩
    | ok b s'' =>
      rw [h'] at hr
      exact ⟨hr.1.trans hmem, hr.2⟩

theorem Outcome.mono {s : Store} {P' : α → GSet → Prop} {Q' : GSet → Prop}
    (h : Outcome s P Q r) (hP : ∀ a t, P a t → P' a t) (hQ : ∀ t, Q t → Q' t) :
    Outcome s P' Q' r := by
  cases r with
  | ok a s' => exact ⟨h.1, hP _ _ h.2⟩
  | error err s' => exact ⟨h.1, h.2.1, h.2.2.1, hQ _ h.2.2.2⟩

def final {α : Type} : EStateM.Result Error Store α → GSet
  | .ok _ t => t.set
  | .error _ t => t.set

theorem Outcome.final_of {s : Store} {R : GSet → Prop} (h : Outcome s P Q r)
    (hP : ∀ a t, P a t → R t) (hQ : ∀ t, Q t → R t) :
    R (final r) := by
  cases r with
  | ok a s' => exact hP a _ h.2
  | error err s' => exact hQ _ h.2.2.2

theorem alloc_outcome (s : Store) : Outcome s (fun _ t => t = s.set) (fun t => t = s.set) (alloc s) := by
  obtain ⟨set, mem⟩ := s
  rcases mem with _ | ⟨_ | _, mem⟩
  · exact ⟨suffix_rfl, rfl⟩
  · exact ⟨suffix_cons _ _, rfl, mem_cons_self, rfl⟩
  · exact ⟨suffix_cons _ _, rfl⟩

theorem doubleWhile_spec {small : Nat → Bool} {bound cap : Nat} (h : small (cap * 2 ^ bound) = false) :
    ∃ k, doubleWhile small bound cap = cap * 2 ^ k ∧ small (cap * 2 ^ k) = false := by
  induction bound generalizing cap with
  | zero => exact ⟨0, by simp [doubleWhile], h⟩
  | succ bound ih =>
    rw [doubleWhile]
    by_cases hs : small cap
    · rw [if_pos hs]
      obtain ⟨k, hk, hsm⟩ := @ih (cap * 2) (by rwa [Nat.mul_assoc, ← Nat.pow_succ'])
      rw [Nat.mul_assoc, ← Nat.pow_succ'] at hk hsm
      exact ⟨k + 1, hk, hsm⟩
    · rw [if_neg hs]
      exact ⟨0, by simp, by simpa using hs⟩

theorem Inv.with_slots (hs : Inv s) (hk : slots.length = 2 ^ k) (hcap : initialCap ≤ slots.length)
    (hp : Placed elemKey idHash slots) (hocc : (occupied elemKey slots).Perm (occupied elemKey s.slots))
    (hload : s.count * 10 < slots.length * 7) :
    Inv { s with slots := slots } ∧ view { s with slots := slots } = view s := by
  have hst : stored { s with slots := slots } = stored s := by
    rw [occupied_elem, occupied_elem] at hocc
    have hperm : (slots.filterMap id).Perm (s.slots.filterMap id) :=
      (map_perm_map_iff (Option.some_injective _)).mp hocc
    exact toFinset_eq_of_perm _ _ hperm
  refine ⟨⟨⟨k, hk⟩, hcap, hp, hs.count.trans hocc.length_eq.symm, hload, hs.retiredPow2,
    hs.retiredPlaced, hs.nRetired,
    hs.retiredLoad, ?_⟩, ?_⟩
  · rw [hst]
    exact hs.floor
  · rw [view, hst]
    rfl

theorem rehash_eq : rehash slots (2 ^ k) = putAll elemKey idHash (replicate (2 ^ k) none) slots := by
  rw [rehash, putAll]
  have hlen : (replicate (2 ^ k) (none : Option Elem)).length = 2 ^ k := length_replicate
  generalize replicate (2 ^ k) (none : Option Elem) = ns at hlen
  induction slots generalizing ns with
  | nil => rfl
  | cons slot slots ih =>
    rw [foldl_cons, foldl_cons]
    cases slot with
    | none => exact ih ns hlen
    | some e =>
      simp only [crdtProbe_eq hlen]
      exact ih _ (by rw [length_set, hlen])

theorem updateSet_outcome {s : Store} {P : Unit → GSet → Prop} {f : GSet → GSet}
    (h : P () (f s.set)) : Outcome s P Q (updateSet f s) :=
  ⟨suffix_rfl, h⟩

theorem pure_outcome {s : Store} {a : α} (h : P a s.set) : Outcome s P Q ((pure a : StoreM α) s) :=
  ⟨suffix_rfl, h⟩

theorem getSet_outcome {s : Store} : Outcome s (fun a t => a = s.set ∧ t = s.set) Q (getSet s) :=
  ⟨suffix_rfl, rfl, rfl⟩

theorem crdtGrow_outcome {s : Store} (hs : Inv s.set) :
    Outcome s (fun _ t => Inv t ∧ view t = view s.set ∧ (t.count + 1) * 10 < t.slots.length * 7)
      (fun t => t = s.set)
      (crdtGrow s) := by
  obtain ⟨k, hk⟩ := hs.pow2
  have hcap : s.set.slots.length * 2 = 2 ^ (k + 1) := by rw [hk, Nat.pow_succ]
  refine (alloc_outcome s).bind fun _ s' _ ht => ?_
  obtain ⟨hp, hocc⟩ := @rehash_spec _ _ _ idHash _ (s.set.slots.length * 2) none _ rfl (keys_nodup hs.placed)
    (by have := hs.room; omega)
  have hlen := @putAll_length _ _ elemKey idHash _ (replicate (s.set.slots.length * 2) none) s.set.slots
  rw [length_replicate] at hlen
  have hload := hs.load
  refine updateSet_outcome ?_
  rw [ht, hcap, rehash_eq, ← hcap]
  have hinit := hs.cap
  rw [initialCap] at hinit
  obtain ⟨hinv, hview⟩ := hs.with_slots (hlen.trans hcap) (by rw [hlen, initialCap]; omega) hp hocc
    (by rw [hlen]; omega)
  refine ⟨hinv, hview, ?_⟩
  simp only [hlen]
  omega

theorem occupied_subject (tab : List Bytes32) : occupied subjectKey tab = tab.filterMap subjectKey := by
  induction tab with
  | nil => rfl
  | cons x tab ih =>
    rw [occupied] at ih ⊢
    cases hx : subjectKey x with
    | none => rw [filterMap_cons_none hx, filter_cons_of_neg (by simp [hx]), ih]
    | some y =>
      obtain ⟨rfl, -⟩ := subjectKey_eq_some.mp hx
      rw [filterMap_cons_some hx, filter_cons_of_pos (by simp [hx]), ih]

theorem retiredRehash_eq :
    retiredRehash tab (2 ^ k) = putAll subjectKey idHash (replicate (2 ^ k) zero32) tab := by
  have hfold : ∀ (nt : List Bytes32), nt.length = 2 ^ k →
      tab.foldl (fun nt s => if s = zero32 then nt else nt.set (retiredProbe nt s).1 s) nt =
        putAll subjectKey idHash nt tab := by
    induction tab with
    | nil => exact fun _ _ => rfl
    | cons x tab ih =>
      intro nt hnt
      rw [foldl_cons, putAll, foldl_cons]
      by_cases hx : x = zero32
      · simp only [hx, if_true, subjectKey]
        exact ih nt hnt
      · simp only [hx, if_false, subjectKey, retiredProbe_eq hnt]
        exact ih _ (by rw [length_set, hnt])
  exact hfold _ length_replicate

theorem Inv.with_retired (hs : Inv s) {n : Nat} {z : Bool}
    (hk : tab.length = 2 ^ (k + 1)) (hp : Placed subjectKey idHash tab)
    (hn : n = (occupied subjectKey tab).length)
    (hload : n * 2 ≤ tab.length) : Inv { s with retired := tab, nRetired := n, retiredZero := z } :=
  ⟨hs.pow2, hs.cap, hs.placed, hs.count, hs.load, .inr ⟨k, hk⟩, hp, hn, hload, hs.floor⟩

theorem reserve_cap {need cap : Nat} (hcap : ∃ k, cap = 2 ^ (k + 1)) :
    ∃ k, doubleWhile (fun cap => need * 2 > cap) need cap = 2 ^ (k + 1) ∧ need * 2 ≤ 2 ^ (k + 1) := by
  obtain ⟨m, rfl⟩ := hcap
  have hend : (fun cap => decide (need * 2 > cap)) (2 ^ (m + 1) * 2 ^ need) = false := by
    have hneed : need * 2 ≤ 2 ^ need * 2 := Nat.mul_le_mul_right 2 Nat.lt_two_pow_self.le
    have hpow : 2 ^ need * 2 ≤ 2 ^ (m + 1) * 2 ^ need := by
      rw [Nat.mul_comm]
      exact Nat.mul_le_mul_right _ (Nat.le_self_pow (Nat.succ_ne_zero m) 2)
    simpa using hneed.trans hpow
  obtain ⟨k, hk, hs⟩ := @doubleWhile_spec (fun cap => decide (need * 2 > cap)) need (2 ^ (m + 1)) hend
  rw [← Nat.pow_add, Nat.add_right_comm] at hk hs
  exact ⟨m + k, hk, by simpa using hs⟩

theorem retiredReserve_outcome {s : Store} (hs : Inv s.set) (extra : Nat) :
    Outcome s (fun _ t => Inv t ∧ view t = view s.set ∧ (t.nRetired + extra) * 2 ≤ t.retired.length ∧
      ∃ tab, t = { s.set with retired := tab }) (fun t => t = s.set) (retiredReserve extra s) := by
  refine getSet_outcome.bind ?_
  rintro _ s' _ ⟨rfl, ht⟩
  by_cases hle : (s.set.nRetired + extra) * 2 ≤ s.set.retired.length
  · simp only [hle, if_true]
    refine pure_outcome ?_
    rw [ht]
    exact ⟨hs, rfl, hle, _, rfl⟩
  · simp only [hle, if_false]
    have hcap : ∃ k, (if s.set.retired.length ≠ 0 then s.set.retired.length else 16) = 2 ^ (k + 1) := by
      rcases hs.retiredPow2 with hnil | ⟨k, hk⟩
      · exact ⟨3, by simp [hnil]⟩
      · exact ⟨k, by simp [hk]⟩
    obtain ⟨k, hk, hneed⟩ := @reserve_cap (s.set.nRetired + extra) _ hcap
    rw [hk]
    refine ((alloc_outcome s').mono (fun _ _ h => h) (fun t h => h.trans ht)).bind fun _ s'' _ ht' => ?_
    refine updateSet_outcome ?_
    rw [ht', ht, retiredRehash_eq]
    have hn := hs.nRetired
    obtain ⟨hp, hocc⟩ := @rehash_spec _ _ _ idHash _ (2 ^ (k + 1)) zero32 s.set.retired (by simp [subjectKey])
      (keys_nodup hs.retiredPlaced) (by omega)
    have hlen := @putAll_length _ _ subjectKey idHash _ (replicate (2 ^ (k + 1)) zero32) s.set.retired
    rw [length_replicate] at hlen
    have hinv := hs.with_retired (z := s.set.retiredZero) hlen hp (hn.trans hocc.length_eq.symm)
      (by rw [hlen]; omega)
    refine ⟨hinv, ?_, by rw [hlen]; exact hneed, _, rfl⟩
    rw [occupied_subject, occupied_subject] at hocc
    simp only [view, retiredSubjects, toFinset_eq_of_perm _ _ hocc]
    rfl

theorem retiredAdd_spec (hs : Inv s) (hroom : (s.nRetired + 1) * 2 ≤ s.retired.length) (x : Bytes32) :
    ∃ tab n z, retiredAdd s x = { s with retired := tab, nRetired := n, retiredZero := z } ∧
    Inv (retiredAdd s x) ∧
      retiredSubjects (retiredAdd s x) = insert x (retiredSubjects s) ∧ n ≤ s.nRetired + 1 ∧
      tab.length = s.retired.length := by
  rcases hs.retiredPow2 with hnil | ⟨k, hk⟩
  · rw [hnil] at hroom
    simp at hroom
  rw [retiredAdd]
  by_cases hx : x = zero32
  · subst hx
    rw [if_pos rfl]
    refine ⟨s.retired, s.nRetired, true, rfl,
      hs.with_retired hk hs.retiredPlaced hs.nRetired hs.retiredLoad, ?_, Nat.le_succ _, rfl⟩
    ext y
    rw [Finset.mem_insert, mem_retiredSubjects, mem_retiredSubjects]
    by_cases hy : y = zero32 <;> simp [hy]
  rw [if_neg hx]
  by_cases hf : (retiredProbe s.retired x).2
  · rw [if_pos hf]
    refine ⟨s.retired, s.nRetired, s.retiredZero, rfl, hs, ?_, Nat.le_succ _, rfl⟩
    rw [Finset.insert_eq_self.mpr]
    rw [mem_retiredSubjects, if_neg hx]
    exact (retiredProbe_found hs hk hx).mp hf
  · rw [if_neg hf, retiredProbe_eq hk]
    have hnew : ∀ y ∈ s.retired, subjectKey y ≠ some x := by
      intro y hy hkey
      obtain ⟨rfl, -⟩ := subjectKey_eq_some.mp hkey
      exact hf ((retiredProbe_found hs hk hx).mpr hy)
    obtain ⟨hp, hocc⟩ := put_new hs.retiredPlaced (hs.retired_room hk) (subjectKey_eq_some.mpr ⟨rfl, hx⟩) hnew
    have hlen := @put_length _ _ subjectKey idHash _ s.retired x x
    refine ⟨put subjectKey idHash s.retired x x, s.nRetired + 1, s.retiredZero, rfl,
      hs.with_retired (hlen.trans hk) hp ?_ (hlen.symm ▸ hroom), ?_, le_rfl, hlen⟩
    · exact (congrArg (· + 1) hs.nRetired).trans hocc.length_eq.symm
    · rw [occupied_subject, occupied_subject] at hocc
      have hset := toFinset_eq_of_perm _ _ hocc
      simp only [retiredSubjects]
      change (List.filterMap subjectKey (put subjectKey idHash s.retired x x)).toFinset ∪ _ = _
      rw [hset, toFinset_cons, Finset.insert_union]

end AntsClient.Crdt.Refine
