import AntsClient.Cache.Query

namespace AntsClient.Cache.Aggregation

open Crypto Wire Query Lib Best Ranking List

def responses (slots : List Slot) : List Match :=
  (slots.filter fun s => s.status = .responded).flatMap Slot.decoded

structure Bounded (slots : List Slot) : Prop where
  few : slots.length ≤ queryMaxFanout.toNat
  short : ∀ s ∈ slots, s.status = .responded → s.decoded.length ≤ queryPeerResponseCap

variable {candidates : List Match} {slots : List Slot}

section Collect

theorem collectSlot_eq {found : List Match} (h : candidates.length + found.length ≤ candidatesMax) :
    collectSlot candidates found = candidates ++ found := by
  induction found generalizing candidates with
  | nil => rw [collectSlot, append_nil]
  | cons m found ih =>
    rw [length_cons] at h
    have hroom : ¬ candidates.length ≥ candidatesMax := by omega
    rw [collectSlot, if_neg hroom, ih, append_assoc]
    · rfl
    · rw [length_append, length_singleton]
      omega

theorem collect_append (hroom : candidates.length + slots.length * queryPeerResponseCap ≤ candidatesMax)
    (hshort : ∀ s ∈ slots, s.status = .responded → s.decoded.length ≤ queryPeerResponseCap) :
    collect candidates slots = candidates ++ responses slots := by
  induction slots generalizing candidates with
  | nil => exact (append_nil _).symm
  | cons s slots ih =>
    rw [forall_mem_cons] at hshort
    rw [length_cons, Nat.add_mul, Nat.one_mul] at hroom
    rw [collect, responses]
    by_cases hs : s.status = .responded
    · have hlen := hshort.1 hs
      rw [if_neg (not_not.mpr hs), collectSlot_eq (by omega), ih _ hshort.2,
        filter_cons_of_pos (by simpa using hs),
        flatMap_cons, append_assoc]
      · rfl
      · rw [length_append]
        omega
    · rw [if_pos hs, ih (by omega) hshort.2, filter_cons_of_neg (by simpa using hs)]
      rfl

theorem collect_eq (h : Bounded slots) : collect [] slots = responses slots := by
  rw [collect_append _ h.short, nil_append]
  rw [length_nil, Nat.zero_add, candidatesMax]
  exact Nat.mul_le_mul_right _ h.few

end Collect

variable {β : Type} [LinearOrder β] (value : UInt32 → β)

def wanted (slots : List Slot) (capMatches : Nat) (topK : UInt32) : Nat :=
  min (if topK = 0 then capMatches else min capMatches topK.toNat)
    ((responses slots).map entryDupKey).dedup.length

theorem aggregateMatches_eq (h : Bounded slots) (capMatches : Nat) (topK : UInt32) :
    aggregateMatches value slots capMatches topK =
      (sortDown (similarity value) (keepBest entryDupKey (similarity value) (responses slots))).take
        (wanted slots capMatches topK) := by
  have hcap : outputCap capMatches topK = if topK = 0 then capMatches else min capMatches topK.toNat := by
    rw [outputCap]
    by_cases hzero : topK = 0
    · subst hzero
      rw [if_pos rfl, if_neg fun h => absurd h.1 (by decide)]
    · have hpos : topK > 0 := UInt32.pos_iff_ne_zero.mpr hzero
      rw [if_neg hzero]
      by_cases hlt : topK.toNat < capMatches
      · rw [if_pos ⟨hpos, hlt⟩, Nat.min_eq_right hlt.le]
      · rw [if_neg fun h => hlt h.2, Nat.min_eq_left (Nat.not_lt.mp hlt)]
  have hcount : (keepBest entryDupKey (similarity value) (responses slots)).length = _ :=
    (picks_keepBest (responses slots)).length_eq
  rw [aggregateMatches, collect_eq h, hcap, wanted, hcount]
  congr 1
  generalize ((responses slots).map entryDupKey).dedup.length = n
  generalize (if topK = 0 then capMatches else min capMatches topK.toNat) = cap
  split <;> omega

/-- The aggregation returns the best distinct matches of all peers, each with the greatest
similarity that any peer gives it. -/
theorem aggregateMatches_exact {slots : List Slot} (h : Bounded slots) (capMatches : Nat)
    (topK : UInt32) (hcap : 1 ≤ capMatches) :
    (aggregateMatches value slots capMatches topK).length = wanted slots capMatches topK ∧
    ((aggregateMatches value slots capMatches topK).map entryDupKey).Nodup ∧
    ((aggregateMatches value slots capMatches topK).Pairwise fun m m' =>
      value m'.similarity ≤ value m.similarity) ∧
    (∀ m ∈ aggregateMatches value slots capMatches topK, m ∈ responses slots ∧
      ∀ m' ∈ responses slots, entryDupKey m' = entryDupKey m → value m'.similarity ≤ value m.similarity) ∧
    (∀ m ∈ responses slots, entryDupKey m ∉ (aggregateMatches value slots capMatches topK).map entryDupKey →
      ∃ last, (aggregateMatches value slots capMatches topK).getLast? = some last ∧
      value m.similarity ≤ value last.similarity) ∧
    ∀ slots', Bounded slots' → (responses slots').Perm (responses slots) →
      (aggregateMatches value slots' capMatches topK).map (fun m => value m.similarity) =
        (aggregateMatches value slots capMatches topK).map (fun m => value m.similarity) ∧
      ∀ m ∈ aggregateMatches value slots capMatches topK,
        (∃ m' ∈ aggregateMatches value slots' capMatches topK, entryDupKey m' = entryDupKey m ∧
          value m'.similarity = value m.similarity) ∨
        ∃ m' ∈ aggregateMatches value slots' capMatches topK,
          entryDupKey m' ∉ (aggregateMatches value slots capMatches topK).map entryDupKey ∧
          value m'.similarity = value m.similarity := by
  rw [aggregateMatches_eq value h]
  have hordered : Ordered entryDupKey (similarity value) (responses slots) _ :=
    ordered_sortDown (responses slots)
  have hlen := hordered.picks.length_eq
  generalize sortDown (similarity value)
    (keepBest entryDupKey (similarity value) (responses slots)) = sorted at hordered hlen ⊢
  have hwanted : wanted slots capMatches topK ≤ sorted.length := hlen ▸ Nat.min_le_right _ _
  refine ⟨length_take_of_le hwanted, hordered.picks.keys.sublist ((take_sublist _ _).map _),
    hordered.falling.sublist (take_sublist _ _), fun m hm => ?_, fun m hm hcut => ?_, fun slots' h' hperm => ?_⟩
  · have hms := mem_of_mem_take hm
    exact ⟨hordered.picks.mem m hms, fun m' hm' hkey => hordered.picks.le hm' hms hkey⟩
  · -- there is room for one match, so something is returned
    have hpos : 0 < (sorted.take (wanted slots capMatches topK)).length := by
      rw [length_take_of_le hwanted, wanted]
      have hsome : 0 < ((responses slots).map entryDupKey).dedup.length :=
        length_pos_of_mem (mem_dedup.mpr (mem_map_of_mem hm))
      have htop : topK ≠ 0 → 0 < topK.toNat := fun h => Nat.pos_of_ne_zero fun h0 => h (UInt32.toNat.inj h0)
      split
      · omega
      · rename_i hk
        have := htop hk
        omega
    obtain ⟨last, hlast⟩ := getLast?_isSome.mpr (length_pos_iff.mp hpos) |> Option.isSome_iff_exists.mp
    exact ⟨last, hlast, hordered.le_of_cut hm hcut (mem_of_getLast? hlast)⟩
  · have hordered' : Ordered entryDupKey (similarity value) (responses slots') _ :=
      ordered_sortDown (responses slots')
    have hsame : wanted slots' capMatches topK = wanted slots capMatches topK := by
      rw [wanted, wanted, (hperm.map entryDupKey).dedup.length_eq]
    rw [aggregateMatches_eq value h', hsame]
    refine ⟨?_, fun m hm => hordered.tie hordered' hperm.symm hm⟩
    have hscores := hordered'.map_score hordered hperm
    rw [map_take, map_take]
    exact congrArg (List.take _) hscores

def answered (sims : List (UInt8 × UInt32)) : Slot :=
  ⟨.responded, sims.map fun p =>
    ⟨⟨none, .null 0, zero32, .null 0, .null 0, ⟨replicate 32 p.1, length_replicate⟩, 0, 0, .null 0,
    signature 0 0⟩, p.2⟩⟩

def twoPeers : List Slot := [answered [(7, 1), (8, 2)], answered [(7, 3)]]

theorem aggregateMatches_exact_two :
    (aggregateMatches UInt32.toNat twoPeers 5 0).length = 2 ∧
    (aggregateMatches UInt32.toNat twoPeers 5 0).map Match.similarity = [3, 2] := by
  have h : Bounded twoPeers := ⟨by decide, by decide⟩
  refine ⟨(aggregateMatches_exact UInt32.toNat h 5 0 (by decide)).1.trans
    (by decide +kernel), by decide +kernel⟩

end AntsClient.Cache.Aggregation
