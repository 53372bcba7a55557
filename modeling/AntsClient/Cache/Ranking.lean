import AntsClient.Cache.Store
import AntsClient.Lib.Bits
import AntsClient.Lib.Ranking

namespace AntsClient.Cache.Ranking

open Crypto Wire Store Lib Bits Ranking List

def bitsApart (a b : UInt64) : Nat :=
  (range shardKeyBits).countP fun i => a.toNat.testBit i != b.toNat.testBit i

theorem popcountRounds_eq {rounds : Nat} {x : UInt64} (h : ones shardKeyBits x.toNat ≤ rounds) :
    popcountRounds rounds x = ones shardKeyBits x.toNat := by
  induction rounds generalizing x with
  | zero => exact (Nat.le_zero.mp h).symm
  | succ rounds ih =>
    rw [popcountRounds]
    by_cases hx : x = 0
    · rw [if_pos hx, hx, UInt64.toNat_zero, ones_zero]
    · have hx0 : x.toNat ≠ 0 := fun h0 => hx (UInt64.toNat.inj h0)
      have hle : (1 : UInt64) ≤ x := UInt64.le_iff_toNat_le.mpr (Nat.one_le_iff_ne_zero.mpr hx0)
      have hclear : (x &&& (x - 1)).toNat = x.toNat &&& (x.toNat - 1) := by
        rw [UInt64.toNat_and, UInt64.toNat_sub_of_le _ _ hle]
        rfl
      have hone := ones_land_pred hx0 x.toNat_lt
      rw [← hclear] at hone
      rw [if_neg hx, ih (by simp only [shardKeyBits] at h ⊢; omega)]
      exact hone

theorem shardKeyPopcount_xor (a b : UInt64) : shardKeyPopcount (a ^^^ b) = bitsApart a b := by
  have hrounds : popcountRounds 64 (a ^^^ b) = ones shardKeyBits (a ^^^ b).toNat :=
    popcountRounds_eq (ones_le _ _)
  rw [shardKeyPopcount, hrounds, ones, bitsApart, UInt64.toNat_xor]
  congr 1
  funext i
  rw [Nat.testBit_xor]

def wanted (topK : UInt32) (n : Nat) : Nat := if topK = 0 then n else min topK.toNat n

section Best

variable {α D : Type} [LinearOrder D] (score : α → D) (topK : UInt32) (l : List α)

def best : List α :=
  let sorted := sortDown score (l.take topkMaxCandidates)
  if topK > 0 then sorted.take topK.toNat else sorted

variable {score topK l} {p q : α}

theorem best_subperm : (best score topK l).Subperm (l.take topkMaxCandidates) := by
  rw [best]
  split
  · exact (take_sublist _ _).subperm.trans (sortDown_perm _).subperm
  · exact (sortDown_perm _).subperm

theorem mem_of_mem_best (hp : p ∈ best score topK l) : p ∈ l := mem_of_mem_take (best_subperm.subset hp)

theorem best_sorted : (best score topK l).Pairwise fun p q => score q ≤ score p := by
  rw [best]
  split
  · exact (sortDown_sorted _).sublist (take_sublist _ _)
  · exact sortDown_sorted _

theorem best_length : (best score topK l).length = wanted topK (min topkMaxCandidates l.length) := by
  rw [best, wanted]
  by_cases htop : topK = 0
  · rw [if_neg (by rw [htop]; decide), if_pos htop, (sortDown_perm _).length_eq, length_take]
  · rw [if_pos (UInt32.pos_iff_ne_zero.mpr htop), if_neg htop, length_take,
      (sortDown_perm _).length_eq, length_take]

theorem best_length_le : (best score topK l).length ≤ topkMaxCandidates :=
  best_subperm.length_le.trans (length_take_le _ _)

theorem le_of_mem_best (hp : p ∈ best score topK l) (hq : q ∈ l.take topkMaxCandidates)
    (hout : q ∉ best score topK l) :
    score q ≤ score p := by
  have hq' : q ∈ sortDown score _ := (sortDown_perm _).mem_iff.mpr hq
  rw [best] at hp hout
  by_cases htop : topK > 0
  · rw [if_pos htop] at hp hout
    rw [← take_append_drop topK.toNat (sortDown _ _), mem_append] at hq'
    exact le_of_mem_take_of_mem_drop (sortDown_sorted _) hp (hq'.resolve_left hout)
  · rw [if_neg htop] at hout
    exact absurd hq' hout

theorem not_mem_best (hl : l.Nodup) (hq : q ∈ l.drop topkMaxCandidates) : q ∉ best score topK l := by
  intro hr
  rw [← take_append_drop topkMaxCandidates l] at hl
  exact disjoint_of_nodup_append hl (best_subperm.subset hr) hq

variable (score topK) in
/-- Ranking what is looked at is enough precisely if there is nothing else, or if enough of it
is no worse than the rest. -/
theorem best_exact_iff (hl : l.Nodup) : (best score topK l).length = wanted topK l.length ∧
        (∀ p ∈ best score topK l, ∀ q ∈ l, q ∉ best score topK l → score q ≤ score p) ↔
      l.length ≤ topkMaxCandidates ∨ topK ≠ 0 ∧
        topK.toNat ≤ (l.take topkMaxCandidates).countP fun p =>
        ∀ q ∈ l.drop topkMaxCandidates, score q ≤ score p := by
  constructor
  · rintro ⟨hnumber, hbest⟩
    refine or_iff_not_imp_left.mpr fun hmany => ?_
    have hlen : (best score topK l).length ≤ topkMaxCandidates := best_length_le
    rw [wanted] at hnumber
    have htop : topK ≠ 0 := by
      intro h0
      rw [if_pos h0] at hnumber
      omega
    rw [if_neg htop] at hnumber
    refine ⟨htop, ?_⟩
    have hcount : (best score topK l).countP
        (fun p => ∀ q ∈ l.drop topkMaxCandidates, score q ≤ score p) = (best score topK l).length :=
      countP_eq_length.mpr fun p hp =>
        decide_eq_true fun q hq => hbest p hp q (mem_of_mem_drop hq) (not_mem_best hl hq)
    have hsub : (best score topK l).Subperm _ := best_subperm
    have hle := hsub.countP_le fun p => decide (∀ q ∈ l.drop topkMaxCandidates, score q ≤ score p)
    rw [hcount] at hle
    omega
  · intro hlook
    constructor
    · rw [best_length, wanted, wanted]
      rcases hlook with hall | ⟨htop, hle⟩
      · rw [Nat.min_eq_right hall]
      · have hcount := hle.trans countP_le_length
        rw [length_take] at hcount
        rw [if_neg htop, if_neg htop]
        omega
    · intro p hp q hq hout
      rw [← take_append_drop topkMaxCandidates l, mem_append] at hq
      rcases hq with hq | hq
      · exact le_of_mem_best hp hq hout
      · rcases hlook with hall | ⟨htop, hle⟩
        · rw [drop_of_length_le hall] at hq
          exact absurd hq not_mem_nil
        · rw [best, if_pos (UInt32.pos_iff_ne_zero.mpr htop)] at hp
          refine le_of_mem_take (sortDown_sorted _) ?_ hp
          rw [(sortDown_perm _).countP_eq]
          refine hle.trans (countP_mono_left fun p _ hlead => ?_)
          exact decide_eq_true (of_decide_eq_true hlead q hq)

end Best

variable {D : Type} [LinearOrder D] (metric : Metric D) (nowSec : UInt64) (embedding : Embedding)
  (threshold topK hammingRadius : UInt32)
  (capMatches : Nat) (c : State)

def Ordered : Prop := ∀ a b, metric.lt a b = decide (a < b)

/-- An entry that a lookup is for: it is still valid, near enough to the query's shard, and
similar enough to the query. -/
def Eligible (slot : Slot) : Prop :=
  entryStillValid slot nowSec = true ∧
    bitsApart slot.shardKey (metric.shardKey embedding) ≤ hammingRadius.toNat ∧
    metric.ofFloat threshold ≤ metric.cosine slot.embedding embedding

instance decidableEligible (slot : Slot) :
    Decidable (Eligible metric nowSec embedding threshold hammingRadius slot) :=
  inferInstanceAs (Decidable (_ ∧ _ ∧ _))

def eligible (entries : List Slot) : List (Slot × Nat) :=
  entries.zipIdx.filter fun p => Eligible metric nowSec embedding threshold hammingRadius p.1

def scoreOf (p : Slot × Nat) : D :=
  metric.score p.1.positiveCount p.1.negativeCount p.1.created (metric.cosine p.1.embedding embedding) nowSec

def toCandidate (p : Slot × Nat) : Candidate D :=
  ⟨p.2, metric.cosine p.1.embedding embedding, scoreOf metric nowSec embedding p⟩

def record (p : Slot × Nat) : Match := ⟨p.1.entry, metric.toFloat (metric.cosine p.1.embedding embedding)⟩

def returned : List (Slot × Nat) :=
  (select metric nowSec embedding threshold topK hammingRadius c.entries).filterMap fun cand =>
    (c.entries[cand.entryIdx]?).map fun slot => (slot, cand.entryIdx)

/-- The lookup succeeds with as many eligible entries as are asked for, the best first, and leaves
out none that is better. -/
structure Exact : Prop where
  err : (getTopk metric nowSec embedding threshold topK hammingRadius capMatches c).1.err = none
  outN : (getTopk metric nowSec embedding threshold topK hammingRadius capMatches c).1.outN =
    wanted topK (eligible metric nowSec embedding threshold hammingRadius c.entries).length
  found : (getTopk metric nowSec embedding threshold topK hammingRadius capMatches c).1.found =
    (returned metric nowSec embedding threshold topK hammingRadius c).map (record metric embedding)
  number : (returned metric nowSec embedding threshold topK hammingRadius c).length =
    wanted topK (eligible metric nowSec embedding threshold hammingRadius c.entries).length
  distinct : ((returned metric nowSec embedding threshold topK hammingRadius c).map Prod.snd).Nodup
  subset : ∀ p ∈ returned metric nowSec embedding threshold topK hammingRadius c,
    p ∈ eligible metric nowSec embedding threshold hammingRadius c.entries
  sorted : (returned metric nowSec embedding threshold topK hammingRadius c).Pairwise fun p q =>
    scoreOf metric nowSec embedding q ≤ scoreOf metric nowSec embedding p
  best : ∀ p ∈ returned metric nowSec embedding threshold topK hammingRadius c,
    ∀ q ∈ eligible metric nowSec embedding threshold hammingRadius c.entries,
      q ∉ returned metric nowSec embedding threshold topK hammingRadius c →
        scoreOf metric nowSec embedding q ≤ scoreOf metric nowSec embedding p

def leaders (E : List (Slot × Nat)) : Nat :=
  (E.take topkMaxCandidates).countP fun p => ∀ q ∈ E.drop topkMaxCandidates,
    scoreOf metric nowSec embedding q ≤ scoreOf metric nowSec embedding p

variable {metric} {nowSec} {embedding} {threshold topK hammingRadius} {capMatches} {c}

theorem candidate_eq (h : Ordered metric) (p : Slot × Nat) :
    candidate metric nowSec embedding threshold hammingRadius p.1 p.2 =
      if Eligible metric nowSec embedding threshold hammingRadius p.1 then
      some (toCandidate metric nowSec embedding p) else none := by
  rw [candidate, shardKeyPopcount_xor, h]
  by_cases hvalid : entryStillValid p.1 nowSec = true
  · by_cases hnear : bitsApart p.1.shardKey (metric.shardKey embedding) ≤ hammingRadius.toNat
    · by_cases hsim : metric.ofFloat threshold ≤ metric.cosine p.1.embedding embedding
      · simp [Eligible, hvalid, hnear, hsim, not_lt.mpr hnear, not_lt.mpr hsim, toCandidate, scoreOf]
      · simp [Eligible, hvalid, hnear, hsim, not_lt.mpr hnear, not_le.mp hsim]
    · simp [Eligible, hvalid, hnear, not_le.mp hnear]
  · simp [Eligible, hvalid]

theorem candidates_eq (h : Ordered metric) (entries : List Slot) :
    candidates metric nowSec embedding threshold hammingRadius entries =
      ((eligible metric nowSec embedding threshold hammingRadius entries).take topkMaxCandidates).map
        (toCandidate metric nowSec embedding) := by
  rw [candidates, map_take, eligible]
  congr 1
  induction entries.zipIdx with
  | nil => rfl
  | cons p ps ih =>
    rw [filterMap_cons, candidate_eq h, filter_cons]
    by_cases hp : Eligible metric nowSec embedding threshold hammingRadius p.1
    · simp [hp, ih]
    · simp [hp, ih]

section Sorting

variable {α : Type} {f : α → Candidate D} (score : α → D) (hscore : ∀ p, (f p).score = score p)
  (h : Ordered metric)

include hscore h

theorem insertCandidate_map (pivot : α) (l : List α) :
    insertCandidate metric (f pivot) (l.map f) = (insertDown score pivot l).map f := by
  induction l with
  | nil => rfl
  | cons p l ih =>
    rw [map_cons, insertCandidate, insertDown, h, ih, hscore, hscore]
    by_cases hlt : score p < score pivot
    · rw [if_pos (decide_eq_true hlt), if_pos hlt, map_cons]
    · rw [if_neg (fun h => hlt (of_decide_eq_true h)), if_neg hlt, map_cons, map_cons]

theorem sortCandidates_map (l : List α) : sortCandidates metric (l.map f) = (sortDown score l).map f := by
  have hfold (sorted : List α) :
    (l.map f).foldl (fun sorted pivot => insertCandidate metric pivot sorted) (sorted.map f) =
      (l.foldl (fun sorted pivot => insertDown score pivot sorted) sorted).map f := by
    induction l generalizing sorted with
    | nil => rfl
    | cons p l ih => rw [map_cons, foldl_cons, foldl_cons, insertCandidate_map score hscore h, ih]
  rw [sortCandidates, sortDown, map_reverse, ← hfold, map_nil]

end Sorting

section Eligible

variable {E : List (Slot × Nat)} (hE : eligible metric nowSec embedding threshold hammingRadius c.entries = E)

include hE

theorem select_eq (h : Ordered metric) : select metric nowSec embedding threshold topK hammingRadius c.entries =
    (best (scoreOf metric nowSec embedding) topK E).map (toCandidate metric nowSec embedding) := by
  rw [select, candidates_eq h, sortCandidates_map (scoreOf metric nowSec embedding) (fun _ => rfl) h, hE, best]
  by_cases htop : topK > 0
  · rw [if_pos htop, if_pos htop, map_take]
  · rw [if_neg htop, if_neg htop]

theorem eligible_sublist : E.Sublist c.entries.zipIdx := hE ▸ filter_sublist

theorem nodup_places : (E.map Prod.snd).Nodup := by
  refine ((eligible_sublist hE).map Prod.snd).nodup ?_
  rw [zipIdx_map_snd]
  exact nodup_range'

theorem getElem?_of_mem_best {p : Slot × Nat} (hp : p ∈ best (scoreOf metric nowSec embedding) topK E) :
    c.entries[p.2]? = some p.1 := mem_zipIdx_iff_getElem?.mp ((eligible_sublist hE).mem (mem_of_mem_best hp))

theorem returned_eq (h : Ordered metric) : returned metric nowSec embedding threshold topK hammingRadius c =
    best (scoreOf metric nowSec embedding) topK E := by
  rw [returned, select_eq hE h, filterMap_map]
  refine Eq.trans ?_ filterMap_some
  apply filterMap_congr
  intro p hp
  rw [Function.comp_apply, toCandidate, getElem?_of_mem_best hE hp]
  rfl

theorem best_distinct : ((best (scoreOf metric nowSec embedding) topK E).map Prod.snd).Nodup := by
  have hsub : (best (scoreOf metric nowSec embedding) topK E).Subperm E :=
    best_subperm.trans (take_sublist _ _).subperm
  obtain ⟨between, hperm, hsub⟩ := hsub
  rw [← (hperm.map Prod.snd).nodup_iff]
  exact (hsub.map Prod.snd).nodup (nodup_places hE)

theorem getTopk_eq (h : Ordered metric) (hradius : hammingRadius ≤ maxHammingRadius) (hne : E ≠ [])
    (hcap : wanted topK E.length ≤ capMatches) :
    (getTopk metric nowSec embedding threshold topK hammingRadius capMatches c).1 =
      ⟨none, (best (scoreOf metric nowSec embedding) topK E).length,
        (best (scoreOf metric nowSec embedding) topK E).map (record metric embedding)⟩ := by
  have hpos := length_pos_iff.mpr hne
  have hlen : (select metric nowSec embedding threshold topK hammingRadius c.entries).length =
      (best (scoreOf metric nowSec embedding) topK E).length := by
    rw [select_eq hE h, length_map]
  have hcut : (best (scoreOf metric nowSec embedding) topK E).length ≤ capMatches ∧
      (best (scoreOf metric nowSec embedding) topK E).length ≠ 0 := by
    rw [best_length, wanted, topkMaxCandidates]
    rw [wanted] at hcap
    by_cases htop : topK = 0
    · rw [if_pos htop] at hcap ⊢
      omega
    · have htop' : topK.toNat ≠ 0 := fun h0 => htop (UInt32.toNat.inj h0)
      rw [if_neg htop] at hcap ⊢
      omega
  have hfound : ((best (scoreOf metric nowSec embedding) topK E).map
    (toCandidate metric nowSec embedding)).filterMap
      (fun cand => (c.entries[cand.entryIdx]?).map fun slot =>
        (⟨slot.entry, metric.toFloat cand.similarity⟩ : Match)) =
      (best (scoreOf metric nowSec embedding) topK E).map (record metric embedding) := by
    rw [filterMap_map, ← filterMap_eq_map]
    apply filterMap_congr
    intro p hp
    rw [Function.comp_apply, toCandidate, getElem?_of_mem_best hE hp]
    rfl
  rw [getTopk, if_neg (UInt32.not_lt.mpr hradius)]
  dsimp only
  rw [hlen, if_neg hcut.2, if_neg (Nat.not_lt.mpr hcut.1), take_of_length_le (by omega), select_eq hE h, hfound]

end Eligible

/-- A lookup is exact precisely if its radius is allowed and at most 256 entries are eligible, or as
many of the first 256 as are asked for score no less than any after. -/
theorem getTopk_exact_iff (h : Ordered metric)
    (hE : eligible metric nowSec embedding threshold hammingRadius c.entries ≠ [])
    (hcap : wanted topK
      (eligible metric nowSec embedding threshold hammingRadius c.entries).length ≤ capMatches) :
    Exact metric nowSec embedding threshold topK hammingRadius capMatches c ↔
      hammingRadius ≤ maxHammingRadius ∧
      ((eligible metric nowSec embedding threshold hammingRadius c.entries).length ≤ topkMaxCandidates ∨
        topK ≠ 0 ∧ topK.toNat ≤ leaders metric nowSec embedding
          (eligible metric nowSec embedding threshold hammingRadius c.entries)) := by
  obtain ⟨E, hE'⟩ : ∃ E, eligible metric nowSec embedding threshold hammingRadius c.entries = E := ⟨_, rfl⟩
  have hret : returned metric nowSec embedding threshold topK hammingRadius c = _ := returned_eq hE' h
  rw [hE'] at hE hcap ⊢
  have hiff := best_exact_iff (scoreOf metric nowSec embedding) topK (List.Nodup.of_map _ (nodup_places hE'))
  constructor
  · intro hexact
    have hradius : hammingRadius ≤ maxHammingRadius := by
      by_contra hr
      have herr := hexact.err
      rw [getTopk, if_pos (UInt32.not_le.mp hr)] at herr
      cases herr
    have hnumber := hexact.number
    have hbest := hexact.best
    rw [hret, hE'] at hnumber hbest
    exact ⟨hradius, hiff.mp ⟨hnumber, hbest⟩⟩
  · rintro ⟨hradius, hlook⟩
    obtain ⟨hnumber, hbest⟩ := hiff.mpr hlook
    have heq := getTopk_eq hE' h hradius hE hcap
    constructor
    · rw [heq]
    · rw [heq, hE', hnumber]
    · rw [heq, hret]
    · rw [hret, hE', hnumber]
    · rw [hret]
      exact best_distinct hE'
    · rw [hret, hE']
      exact fun p hp => mem_of_mem_best hp
    · rw [hret]
      exact best_sorted
    · rw [hret, hE']
      exact hbest

def origin : Embedding := ⟨replicate embedDim 0, length_replicate⟩

def byAge : Metric Nat where
  shardKey _ := 0
  cosine _ _ := 1
  score _ _ created _ _ := created.toNat
  lt a b := a < b
  ofFloat _ := 0
  toFloat _ := 0
  minusTwo := 0

def perennial (created : UInt64) : Slot where
  shardKey := 0
  embedding := origin
  lastAccess := 0
  embeddingModel := .data embModel
  promptHash := zero32
  response := .null 0
  responseModel := .data []
  producer := zero32
  created := created
  validityClass := 4
  attestation := .null 0
  signature := signature 0 0
  positiveCount := 0
  negativeCount := 0
  challengeCount := 0
  lastChallengedSec := 0
  invalidated := false

def holding (entries : List Slot) : State := ⟨0, 0, entries, [], 0, [], zero_nil⟩

theorem getTopk_exact_iff_pair : Exact byAge 0 origin 0 1 0 1 (holding [perennial 1, perennial 2]) ↔
    (0 : UInt32) ≤ maxHammingRadius ∧
      ((eligible byAge 0 origin 0 0 [perennial 1, perennial 2]).length ≤ topkMaxCandidates ∨
        (1 : UInt32) ≠ 0 ∧ (1 : UInt32).toNat ≤
          leaders byAge 0 origin (eligible byAge 0 origin 0 0 [perennial 1, perennial 2])) :=
  getTopk_exact_iff (fun _ _ => rfl) (ne_nil_of_length_pos (by decide +kernel)) (by decide +kernel)

def crowd : List Slot := replicate 256 (perennial 1) ++ [perennial 2]

theorem eligible_crowd : eligible byAge 0 origin 0 0 crowd = crowd.zipIdx := by
  apply filter_eq_self.mpr
  intro p hp
  have hslot : p.1 ∈ crowd := fst_mem_of_mem_zipIdx hp
  rw [crowd, mem_append, mem_replicate, mem_singleton] at hslot
  rcases hslot with ⟨-, h⟩ | h
  · rw [h]
    decide +kernel
  · rw [h]
    decide +kernel

/-- The best entry comes last, behind 256 others: it is not looked at, and not counted. -/
theorem getTopk_misses_best :
    Ordered byAge ∧ (eligible byAge 0 origin 0 0 (holding crowd).entries).length = 257 ∧
    (returned byAge 0 origin 0 1 0 (holding crowd)).map Prod.snd = [0] ∧
    scoreOf byAge 0 origin (perennial 1, 0) < scoreOf byAge 0 origin (perennial 2, 256) ∧
    ¬Exact byAge 0 origin 0 0 0 257 (holding crowd) := by
  have hordered : Ordered byAge := fun _ _ => rfl
  have hall : eligible byAge 0 origin 0 0 (holding crowd).entries = crowd.zipIdx := eligible_crowd
  have hlength : (eligible byAge 0 origin 0 0 (holding crowd).entries).length = 257 := by
    rw [hall, length_zipIdx, crowd, length_append, length_replicate, length_singleton]
  refine ⟨hordered, hlength, ?_, by decide, ?_⟩
  · rw [returned_eq hall hordered, best]
    decide +kernel
  · intro h
    have hnumber := h.number
    rw [hlength, returned_eq hall hordered] at hnumber
    have hle := hnumber.symm.trans_le best_length_le
    exact absurd hle (by decide)

end AntsClient.Cache.Ranking
