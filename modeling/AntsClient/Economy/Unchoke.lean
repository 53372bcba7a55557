import AntsClient.Economy.Ledger
import AntsClient.Lib.Rotation

namespace AntsClient.Economy.Unchoke

open Common Crypto Lib Saturating Ranking Rotation Ledger List

variable {r : Peer} {rs : List Peer} {seen : Nat}

def optimisticUnchokeDivisor : UInt32 := 8

def unchokeScore (r : Peer) (now window : UInt64) : UInt64 :=
  satMul (generosity r now window) r.qualityQ14k.toUInt64

abbrev Scored := Peer × UInt64

def ranksAbove (a b : Scored) : Bool :=
  if a.2 ≠ b.2 then a.2 > b.2 else memcmp a.1.peerId.val b.1.peerId.val = .lt

def optimisticSlots (slots : UInt32) : UInt32 :=
  if slots / optimisticUnchokeDivisor = 0 then 1 else slots / optimisticUnchokeDivisor

def earnedSlots (slots : UInt32) : UInt32 :=
  if optimisticSlots slots ≥ slots then 0 else slots - optimisticSlots slots

def scoreAll (records : List Peer) (now window : UInt64) : List Scored :=
  records.map fun r => (r, unchokeScore r now window)

/-- The inner loop of the earned slots, which ends once `earned` others rank above. -/
def countAbove (earned : UInt32) (self : Scored) (i : Nat) : List (Scored × Nat) → UInt32 → UInt32
  | [], above => above
  | (other, j) :: rest, above =>
    if j ≠ i ∧ ranksAbove other self then
      if above + 1 ≥ earned then above + 1 else countAbove earned self i rest (above + 1)
    else countAbove earned self i rest above

/-- The loop writes no more than the flags, which the comparisons do not read. -/
def earnedPass (earned : UInt32) (table : List Scored) : List Peer :=
  table.zipIdx.map fun (self, i) =>
    if earned = 0 then { self.1 with choked := true }
    else { self.1 with choked := !(countAbove earned self i table.zipIdx 0 < earned) }

def optimisticLoop (optimistic : UInt32) (stillChoked start : Nat) : List Peer → Nat → Nat → List Peer
  | [], _, _ => []
  | r :: rest, seen, taken =>
    if taken < optimistic.toNat then
      if !r.choked then r :: optimisticLoop optimistic stillChoked start rest seen taken
      else if (seen + stillChoked - start) % stillChoked < optimistic.toNat then
        { r with choked := false } :: optimisticLoop optimistic stillChoked start rest (seen + 1) (taken + 1)
      else r :: optimisticLoop optimistic stillChoked start rest (seen + 1) taken
    else r :: rest

def unchokeRound (records : List Peer) (now window : UInt64) (slots : UInt32) (rotation : UInt64)
    (scratchLen : Nat) :
    Except Error (List Peer) :=
  if records.length = 0 then .ok records
  else if scratchLen < records.length then .error .invalidArg
  else if slots = 0 then .ok (records.map fun r => { r with choked := true })
  else
    let optimistic := optimisticSlots slots
    let records := earnedPass (earnedSlots slots) (scoreAll records now window)
    let stillChoked := records.countP Peer.choked
    if stillChoked = 0 ∨ optimistic = 0 then .ok records
    else .ok (optimisticLoop optimistic stillChoked (rotation.toNat % stillChoked) records 0 0)

section Ranks

variable {a b c : Scored}

theorem ranksAbove_iff : ranksAbove a b = true ↔ b.2 < a.2 ∨ a.2 = b.2 ∧ a.1.peerId.val < b.1.peerId.val := by
  rw [ranksAbove]
  by_cases h : a.2 = b.2
  · rw [if_neg (not_not.mpr h), decide_eq_true_eq,
      memcmp_lt_iff (a.1.peerId.length_val.trans b.1.peerId.length_val.symm), h]
    simp
  · rw [if_pos h, decide_eq_true_eq]
    simp [h]

theorem ranksAbove_eq_false_iff :
    ranksAbove b a = false ↔ b.2 < a.2 ∨ a.2 = b.2 ∧ a.1.peerId.val ≤ b.1.peerId.val := by
  have hle : a.1.peerId.val ≤ b.1.peerId.val ↔ ¬ b.1.peerId.val < a.1.peerId.val := Iff.rfl
  rw [← Bool.not_eq_true, ranksAbove_iff, hle, UInt64.lt_iff_toNat_lt, UInt64.lt_iff_toNat_lt,
    ← UInt64.toNat_inj, ← UInt64.toNat_inj]
  by_cases h : b.1.peerId.val < a.1.peerId.val
  · simp only [h, and_true, not_true, and_false, or_false]
    omega
  · simp only [h, and_false, not_false_eq_true, and_true, or_false]
    omega

theorem ranksAbove_irrefl (a : Scored) : ranksAbove a a = false :=
  ranksAbove_eq_false_iff.mpr (.inr ⟨rfl, List.le_refl _⟩)

theorem ranksAbove_asymm (h : ranksAbove a b = true) : ranksAbove b a = false := by
  rw [ranksAbove_eq_false_iff]
  obtain hlt | ⟨heq, hlt⟩ := ranksAbove_iff.mp h
  · exact .inl hlt
  · exact .inr ⟨heq, List.le_of_lt hlt⟩

theorem ranksAbove_of_ne (hne : a.1.peerId ≠ b.1.peerId) (h : ranksAbove b a = false) :
    ranksAbove a b = true := by
  rw [ranksAbove_iff]
  obtain hlt | ⟨heq, hle⟩ := ranksAbove_eq_false_iff.mp h
  · exact .inl hlt
  · refine .inr ⟨heq, ?_⟩
    by_contra hlt
    exact hne (Bytes32.ext (List.le_antisymm hle (List.not_lt.mp hlt)))

theorem ranksAbove_trans (hab : ranksAbove b a = false) (hbc : ranksAbove c b = false) :
    ranksAbove c a = false := by
  rw [ranksAbove_eq_false_iff] at hab hbc ⊢
  obtain hlt | ⟨heq, hle⟩ := hab
  · obtain hlt' | ⟨heq', -⟩ := hbc
    · exact .inl (UInt64.lt_trans hlt' hlt)
    · exact .inl (heq' ▸ hlt)
  · obtain hlt' | ⟨heq', hle'⟩ := hbc
    · exact .inl (heq ▸ hlt')
    · exact .inr ⟨heq.trans heq', List.le_trans hle hle'⟩

variable (now window : UInt64)

def scored (r : Peer) : Scored := (r, unchokeScore r now window)

def outranks (r r' : Peer) : Bool := ranksAbove (scored now window r) (scored now window r')

theorem outranks_irrefl (r : Peer) : outranks now window r r = false := ranksAbove_irrefl _

theorem outranks_asymm (r r' : Peer) (h : outranks now window r r' = true) :
    outranks now window r' r = false := ranksAbove_asymm h

/-- The records from the best to the worst: by the score, and then by the peer id. -/
structure Ranked (records ranked : List Peer) : Prop where
  perm : ranked.Perm records
  falling : ranked.Pairwise fun r r' => outranks now window r r' = true

variable {now window} {records ranked : List Peer}

theorem exists_ranked (hids : (records.map Peer.peerId).Nodup) :
    ∃ ranked, Ranked now window records ranked := by
  have : Std.Total fun r r' : Peer => outranks now window r' r = false := by
    constructor
    intro r r'
    cases h : outranks now window r' r with
    | false => exact .inl rfl
    | true => exact .inr (ranksAbove_asymm h)
  have : IsTrans Peer fun r r' => outranks now window r' r = false := ⟨fun _ _ _ => ranksAbove_trans⟩
  have hperm := perm_insertionSort (fun r r' => outranks now window r' r = false) records
  refine ⟨_, hperm, ?_⟩
  have hids' := (hperm.map Peer.peerId).nodup_iff.mpr hids
  rw [List.Nodup, pairwise_map] at hids'
  exact ((pairwise_insertionSort _ _).and hids').imp fun h => ranksAbove_of_ne h.2 h.1

variable (h : Ranked now window records ranked)

include h

theorem Ranked.rank_getElem {i : Nat} (hi : i < ranked.length) :
    rank (outranks now window) records ranked[i] = i := by
  rw [← rank_perm h.perm]
  exact Lib.Ranking.rank_getElem (outranks_irrefl now window) (outranks_asymm now window) h.falling hi

theorem Ranked.countP_lt (w : Nat) :
    records.countP (fun r => rank (outranks now window) records r < w) = min w records.length := by
  rw [← h.perm.length_eq]
  exact countP_rank_lt (outranks_irrefl now window) (outranks_asymm now window) h.falling h.perm.symm w

theorem Ranked.of_mem_take {w : Nat} (hr : r ∈ ranked.take w) :
    r ∈ records ∧ rank (outranks now window) records r < w := by
  obtain ⟨i, hi, rfl⟩ := mem_take_iff_getElem.mp hr
  rw [h.rank_getElem]
  exact ⟨h.perm.mem_iff.mp (getElem_mem _), by omega⟩

theorem Ranked.of_mem_drop {w : Nat} (hr : r ∈ ranked.drop w) :
    r ∈ records ∧ ¬ rank (outranks now window) records r < w := by
  obtain ⟨i, hi, rfl⟩ := mem_drop_iff_getElem.mp hr
  rw [h.rank_getElem]
  exact ⟨h.perm.mem_iff.mp (getElem_mem _), by omega⟩

end Ranks

section Earned

variable {earned : UInt32} {self : Scored} {i : Nat}

theorem countAbove_lt_iff {others : List (Scored × Nat)} {above : UInt32} (h : above < earned) :
    countAbove earned self i others above < earned ↔
      above.toNat + others.countP (fun p => p.2 ≠ i ∧ ranksAbove p.1 self) < earned.toNat := by
  induction others generalizing above with
  | nil => simp [countAbove, UInt32.lt_iff_toNat_lt]
  | cons other others ih =>
    obtain ⟨other, j⟩ := other
    have hlt := UInt32.lt_iff_toNat_lt.mp h
    rw [countAbove, countP_cons]
    by_cases hrank : j ≠ i ∧ ranksAbove other self
    · have hsucc : (above + 1).toNat = above.toNat + 1 := by
        have := earned.toNat_lt
        rw [UInt32.toNat_add, UInt32.toNat_one, Nat.mod_eq_of_lt (by omega)]
      rw [if_pos hrank, if_pos (decide_eq_true hrank)]
      by_cases hend : above + 1 ≥ earned
      · have := UInt32.le_iff_toNat_le.mp hend
        rw [if_pos hend, UInt32.lt_iff_toNat_lt]
        omega
      · have hgo : above + 1 < earned := UInt32.not_le.mp hend
        rw [if_neg hend, ih hgo]
        omega
    · rw [if_neg hrank, if_neg (by simpa using hrank), ih h, Nat.add_zero]

theorem countP_others {table : List Scored} (h : (self, i) ∈ table.zipIdx) :
    table.zipIdx.countP (fun p => p.2 ≠ i ∧ ranksAbove p.1 self) = table.countP fun b => ranksAbove b self := by
  have hself : ∀ p ∈ table.zipIdx, decide (p.2 ≠ i ∧ ranksAbove p.1 self) = true ↔
      ranksAbove p.1 self = true := by
    rintro ⟨other, j⟩ hp
    rw [decide_eq_true_eq, and_iff_right_iff_imp]
    rintro hrank rfl
    have hsame : other = self := by
      rw [mem_zipIdx_iff_getElem?] at h hp
      exact Option.some.inj (hp.symm.trans h)
    subst hsame
    rw [ranksAbove_irrefl] at hrank
    cases hrank
  rw [countP_congr hself]
  calc table.zipIdx.countP (fun p => ranksAbove p.1 self)
      = (table.zipIdx.map Prod.fst).countP fun b => ranksAbove b self := by
        rw [countP_map]
        rfl
    _ = table.countP fun b => ranksAbove b self := by rw [zipIdx_map_fst]

def earnedRecord (now window : UInt64) (records : List Peer) (earned : Nat) (r : Peer) : Peer :=
  { r with choked := !(rank (outranks now window) records r < earned) }

theorem earnedPass_eq (earned : UInt32) (records : List Peer) (now window : UInt64) :
    earnedPass earned (scoreAll records now window) =
      records.map (earnedRecord now window records earned.toNat) := by
  have htable : scoreAll records now window = records.map (scored now window) := rfl
  have hrank : ∀ r, (records.map (scored now window)).countP (fun b => ranksAbove b (scored now window r)) =
      rank (outranks now window) records r := by
    intro r
    rw [countP_map]
    rfl
  have hentry : ∀ p ∈ (records.map (scored now window)).zipIdx,
    (if earned = 0 then { p.1.1 with choked := true }
        else { p.1.1 with choked :=
        !(countAbove earned p.1 p.2 (records.map (scored now window)).zipIdx 0 < earned) }) =
        earnedRecord now window records earned.toNat p.1.1 := by
    rintro ⟨self, i⟩ hself
    obtain ⟨r, -, rfl⟩ := mem_map.mp (mem_of_getElem? (mem_zipIdx_iff_getElem?.mp hself))
    by_cases hzero : earned = 0
    · rw [if_pos hzero, hzero]
      rfl
    · have hpos : (0 : UInt32) < earned := UInt32.pos_iff_ne_zero.mpr hzero
      have hflag : countAbove earned (scored now window r) i
        (records.map (scored now window)).zipIdx 0 < earned ↔
          rank (outranks now window) records r < earned.toNat := by
        rw [countAbove_lt_iff hpos, countP_others hself, hrank, UInt32.toNat_zero, Nat.zero_add]
      rw [if_neg hzero]
      exact congrArg (fun b => { r with choked := !b }) (decide_eq_decide.mpr hflag)
  rw [htable, earnedPass, map_congr_left hentry]
  calc (records.map (scored now window)).zipIdx.map (fun p => earnedRecord now window records earned.toNat p.1.1)
      = ((records.map (scored now window)).zipIdx.map Prod.fst).map fun s =>
          earnedRecord now window records earned.toNat s.1 := by
        rw [map_map]
        rfl
    _ = records.map (earnedRecord now window records earned.toNat) := by
        rw [zipIdx_map_fst, map_map]
        rfl

end Earned

section Optimistic

def sweep (hit : Nat → Bool) : List Peer → Nat → List Peer
  | [], _ => []
  | r :: rest, seen =>
    if r.choked then (if hit seen then { r with choked := false } else r) :: sweep hit rest (seen + 1)
    else r :: sweep hit rest seen

variable {hit : Nat → Bool}

theorem sweep_of_no_hits (h : (List.range' seen (rs.countP Peer.choked)).countP hit = 0) :
    sweep hit rs seen = rs := by
  induction rs generalizing seen with
  | nil => rfl
  | cons r rs ih =>
    rw [sweep]
    rw [countP_cons] at h
    by_cases hchoked : r.choked = true
    · rw [if_pos hchoked, range'_succ, countP_cons] at h
      have hmiss : ¬ hit seen = true := by
        intro hhit
        rw [if_pos hhit] at h
        omega
      rw [if_pos hchoked, if_neg hmiss, ih (Nat.eq_zero_of_add_eq_zero_right h)]
    · rw [if_neg hchoked] at h
      rw [if_neg hchoked, ih h]

theorem optimisticLoop_eq {optimistic : UInt32} {m start : Nat} {taken : Nat}
    (h : taken + (List.range' seen (rs.countP Peer.choked)).countP
      (fun p => ahead m start p < optimistic.toNat) ≤ optimistic.toNat) :
    optimisticLoop optimistic m start rs seen taken =
      sweep (fun p => ahead m start p < optimistic.toNat) rs seen := by
  induction rs generalizing seen taken with
  | nil => rfl
  | cons r rs ih =>
    rw [optimisticLoop]
    by_cases hgo : taken < optimistic.toNat
    · rw [if_pos hgo, sweep]
      rw [countP_cons] at h
      by_cases hchoked : r.choked = true
      · rw [if_pos hchoked, range'_succ, countP_cons] at h
        rw [if_neg (by simp [hchoked]), if_pos hchoked,
          show (seen + m - start) % m = ahead m start seen from rfl]
        by_cases hhit : ahead m start seen < optimistic.toNat
        · rw [if_pos (decide_eq_true hhit)] at h
          rw [if_pos hhit, if_pos (decide_eq_true hhit), @ih (seen + 1) (taken + 1) (by omega)]
        · rw [if_neg (by simpa using hhit)] at h
          rw [if_neg hhit, if_neg (by simpa using hhit), @ih (seen + 1) taken (by omega)]
      · rw [if_neg hchoked] at h
        rw [if_pos (by simpa using hchoked), if_neg hchoked, ih h]
    · rw [if_neg hgo, sweep_of_no_hits]
      omega

theorem countP_sweep (rs : List Peer) (seen : Nat) : (sweep hit rs seen).countP (fun r => !r.choked) =
    rs.countP (fun r => !r.choked) + (List.range' seen (rs.countP Peer.choked)).countP hit := by
  induction rs generalizing seen with
  | nil => rfl
  | cons r rs ih =>
    rw [sweep]
    by_cases hchoked : r.choked = true
    · rw [if_pos hchoked, countP_cons, ih, countP_cons, countP_cons, if_pos hchoked, range'_succ, countP_cons]
      by_cases hhit : hit seen = true
      · simp only [hhit, hchoked, if_true, Bool.not_false, Bool.not_true, Bool.false_eq_true, if_false]
        omega
      · simp only [hhit, hchoked, Bool.not_true, Bool.false_eq_true, if_false]
        omega
    · rw [if_neg hchoked, countP_cons, ih, countP_cons, countP_cons, if_neg hchoked, Nat.add_zero]
      omega

theorem sweep_append (rs rs' : List Peer) (seen : Nat) :
    sweep hit (rs ++ rs') seen = sweep hit rs seen ++ sweep hit rs' (seen + rs.countP Peer.choked) := by
  induction rs generalizing seen with
  | nil => rfl
  | cons r rs ih =>
    rw [cons_append, sweep, sweep, countP_cons]
    by_cases hchoked : r.choked = true
    · rw [if_pos hchoked, if_pos hchoked, if_pos hchoked, ih, cons_append, Nat.add_assoc, Nat.add_comm 1]
    · rw [if_neg hchoked, if_neg hchoked, if_neg hchoked, ih, cons_append, Nat.add_zero]

def account (r : Peer) : Peer := { r with choked := true }

theorem map_account_sweep (rs : List Peer) (seen : Nat) : (sweep hit rs seen).map account = rs.map account := by
  induction rs generalizing seen with
  | nil => rfl
  | cons r rs ih =>
    rw [sweep]
    split
    · rw [map_cons, ih, map_cons]
      split <;> rfl
    · rw [map_cons, ih, map_cons]

theorem mem_sweep (hr : r ∈ rs) (h : r.choked = false) : r ∈ sweep hit rs seen := by
  obtain ⟨before, after, rfl⟩ := append_of_mem hr
  rw [sweep_append, sweep, if_neg (by simp [h])]
  exact mem_append_right _ mem_cons_self

def unchoked (rs : List Peer) (id : Bytes32) : Bool := rs.any fun r => r.peerId = id && !r.choked

theorem unchoked_of_notMem {id : Bytes32} (h : id ∉ rs.map Peer.peerId) : unchoked rs id = false := by
  rw [unchoked, any_eq_false]
  intro r hr hboth
  rw [Bool.and_eq_true, decide_eq_true_eq] at hboth
  exact h (mem_map.mpr ⟨r, hr, hboth.1⟩)

theorem map_peerId_sweep (rs : List Peer) (seen : Nat) :
    (sweep hit rs seen).map Peer.peerId = rs.map Peer.peerId := by
  have h := congrArg (List.map Peer.peerId) (@map_account_sweep hit rs seen)
  rw [map_map, map_map] at h
  exact h

theorem unchoked_sweep {before after : List Peer} (hids : ((before ++ r :: after).map Peer.peerId).Nodup)
    (hchoked : r.choked = true) :
    unchoked (sweep hit (before ++ r :: after) 0) r.peerId = hit (before.countP Peer.choked) := by
  rw [map_append, map_cons, nodup_append, nodup_cons] at hids
  obtain ⟨-, ⟨hafter, -⟩, hbefore⟩ := hids
  have hfirst : r.peerId ∉ (sweep hit before 0).map Peer.peerId := by
    rw [map_peerId_sweep]
    intro hmem
    exact hbefore _ hmem _ mem_cons_self rfl
  have hlast : r.peerId ∉ (sweep hit after (before.countP Peer.choked + 1)).map Peer.peerId := by
    rwa [map_peerId_sweep]
  have hsplit : sweep hit (before ++ r :: after) 0 = sweep hit before 0 ++
      (if hit (before.countP Peer.choked) then { r with choked := false } else r) ::
        sweep hit after (before.countP Peer.choked + 1) := by
    rw [sweep_append, Nat.zero_add, sweep, if_pos hchoked]
  rw [hsplit, unchoked, any_append, any_cons, ← unchoked, ← unchoked, unchoked_of_notMem hfirst,
    unchoked_of_notMem hlast, Bool.false_or, Bool.or_false]
  cases hit (before.countP Peer.choked) with
  | true => simp
  | false => simp [hchoked]

end Optimistic

section Slots

variable {slots : UInt32}

theorem toNat_optimisticSlots (slots : UInt32) : (optimisticSlots slots).toNat = max 1 (slots.toNat / 8) := by
  have hdiv : (slots / optimisticUnchokeDivisor).toNat = slots.toNat / 8 := UInt32.toNat_div ..
  rw [optimisticSlots]
  by_cases h : slots / optimisticUnchokeDivisor = 0
  · rw [h, UInt32.toNat_zero] at hdiv
    rw [if_pos h, ← hdiv]
    rfl
  · have hpos : 0 < (slots / optimisticUnchokeDivisor).toNat :=
      Nat.pos_of_ne_zero fun h0 => h (UInt32.toNat.inj h0)
    rw [if_neg h, hdiv]
    omega

theorem toNat_earnedSlots (slots : UInt32) :
    (earnedSlots slots).toNat = slots.toNat - max 1 (slots.toNat / 8) := by
  rw [earnedSlots, ← toNat_optimisticSlots]
  by_cases h : optimisticSlots slots ≥ slots
  · rw [if_pos h, UInt32.toNat_zero]
    exact (Nat.sub_eq_zero_of_le (UInt32.le_iff_toNat_le.mp h)).symm
  · rw [if_neg h, UInt32.toNat_sub_of_le _ _ (UInt32.le_of_lt (UInt32.not_le.mp h))]

variable (records : List Peer) (now window : UInt64)

def settled (earned : Nat) : List Peer := records.map (earnedRecord now window records earned)

def shared (slots : UInt32) (rotation : UInt64) : List Peer :=
  let settled := settled records now window (earnedSlots slots).toNat
  let m := settled.countP Peer.choked
  sweep (fun p => ahead m (rotation.toNat % m) p < (optimisticSlots slots).toNat) settled 0

def round (slots : UInt32) (rotation : UInt64) : List Peer :=
  if slots = 0 then records.map fun r => { r with choked := true } else shared records now window slots rotation

variable {records now window}

theorem unchokeRound_eq (slots : UInt32) (rotation : UInt64) {scratchLen : Nat}
    (h : records.length ≤ scratchLen) :
    unchokeRound records now window slots rotation scratchLen =
      .ok (round records now window slots rotation) := by
  rw [unchokeRound, round]
  by_cases hempty : records.length = 0
  · obtain rfl := length_eq_zero_iff.mp hempty
    rw [if_pos hempty]
    split <;> rfl
  rw [if_neg hempty, if_neg (Nat.not_lt.mpr h)]
  by_cases hslots : slots = 0
  · rw [if_pos hslots, if_pos hslots]
  rw [if_neg hslots, if_neg hslots, earnedPass_eq]
  have hone : ¬ optimisticSlots slots = 0 := by
    intro hzero
    have hmax := toNat_optimisticSlots slots
    rw [hzero, UInt32.toNat_zero] at hmax
    omega
  change (if (settled records now window (earnedSlots slots).toNat).countP Peer.choked = 0 ∨
    optimisticSlots slots = 0 then _ else _) = _
  by_cases hnone : (settled records now window (earnedSlots slots).toNat).countP Peer.choked = 0
  · rw [if_pos (.inl hnone), shared, sweep_of_no_hits]
    · rfl
    · rw [hnone]
      rfl
  · rw [if_neg (not_or.mpr ⟨hnone, hone⟩), shared, optimisticLoop_eq]
    · rfl
    · have hcount := countP_places (Nat.mod_lt rotation.toNat (Nat.pos_of_ne_zero hnone))
        (optimisticSlots slots).toNat
      rw [range_eq_range'] at hcount
      rw [Nat.zero_add]
      exact hcount.trans_le (Nat.min_le_left _ _)

theorem map_account_round (slots : UInt32) (rotation : UInt64) :
    (round records now window slots rotation).map account = records.map account := by
  rw [round]
  split
  · rw [map_map]
    rfl
  · rw [shared, map_account_sweep, settled, map_map]
    rfl

variable {ranked : List Peer} (h : Ranked now window records ranked)

include h

theorem settled_choked (earned : Nat) :
    (settled records now window earned).countP Peer.choked = records.length - earned ∧
      (settled records now window earned).countP (fun r => !r.choked) = min earned records.length := by
  have hunchoked : (settled records now window earned).countP (fun r => !r.choked) =
      min earned records.length := by
    rw [settled, countP_map, ← h.countP_lt earned]
    apply countP_congr
    intro r _
    simp [earnedRecord]
  have hall := length_eq_countP_add_countP Peer.choked (l := settled records now window earned)
  have hlen : (settled records now window earned).length = records.length := length_map ..
  have hnot : (settled records now window earned).countP (fun r => !r.choked) =
      (settled records now window earned).countP fun r => decide ¬ r.choked = true := by
    apply countP_congr
    simp
  rw [hlen, ← hnot, hunchoked] at hall
  exact ⟨by omega, hunchoked⟩

theorem countP_round (slots : UInt32) (rotation : UInt64) :
    (round records now window slots rotation).countP (fun r => !r.choked) = min records.length slots.toNat := by
  rw [round]
  by_cases hslots : slots = 0
  · rw [if_pos hslots, hslots, countP_map, UInt32.toNat_zero, Nat.min_zero, countP_eq_zero]
    simp
  obtain ⟨hchoked, hunchoked⟩ := settled_choked h (earnedSlots slots).toNat
  have hpos : 0 < slots.toNat := Nat.pos_of_ne_zero fun h0 => hslots (UInt32.toNat.inj h0)
  have hearned := toNat_earnedSlots slots
  have hoptimistic := toNat_optimisticSlots slots
  rw [if_neg hslots, shared, countP_sweep, hunchoked, hchoked, ← range_eq_range']
  obtain hzero | hsome := Nat.eq_zero_or_pos (records.length - (earnedSlots slots).toNat)
  · rw [hzero, range_zero, countP_nil]
    omega
  · rw [countP_places (Nat.mod_lt _ hsome)]
    omega

theorem unchoked_of_earned (slots : UInt32) (rotation : UInt64)
    (hr : r ∈ ranked.take (earnedSlots slots).toNat) :
    unchoked (round records now window slots rotation) r.peerId = true := by
  obtain ⟨hmem, hrank⟩ := h.of_mem_take hr
  have hslots : slots ≠ 0 := by
    rintro rfl
    exact absurd hrank (Nat.not_lt_zero _)
  have hearned : earnedRecord now window records (earnedSlots slots).toNat r ∈ settled records now
      window (earnedSlots slots).toNat :=
    mem_map_of_mem hmem
  have hunchoked : (earnedRecord now window records (earnedSlots slots).toNat r).choked = false := by
    rw [earnedRecord, decide_eq_true hrank]
    rfl
  rw [round, if_neg hslots, unchoked, any_eq_true]
  exact ⟨_, mem_sweep hearned hunchoked, by rw [hunchoked]; simp [earnedRecord]⟩

theorem unchoked_swept (hids : (records.map Peer.peerId).Nodup) {earned : Nat} (hr : r ∈ ranked.drop earned) :
    ∃ p < records.length - earned, ∀ hit,
    unchoked (sweep hit (settled records now window earned) 0) r.peerId = hit p := by
  obtain ⟨hmem, hrank⟩ := h.of_mem_drop hr
  obtain ⟨before, after, hsplit⟩ := append_of_mem hmem
  obtain ⟨hchoked, -⟩ := settled_choked h earned
  have hself : (earnedRecord now window records earned r).choked = true := by
    rw [earnedRecord, decide_eq_false hrank]
    rfl
  have hsettled : settled records now window earned = before.map (earnedRecord now window records earned) ++
      earnedRecord now window records earned r :: after.map (earnedRecord now window records earned) := by
    rw [settled]
    nth_rewrite 2 [hsplit]
    rw [map_append, map_cons]
  have hids' : ((settled records now window earned).map Peer.peerId).Nodup := by
    rw [settled, map_map]
    exact hids
  rw [hsettled] at hids' hchoked ⊢
  refine ⟨(before.map (earnedRecord now window records earned)).countP Peer.choked, ?_, fun hit =>
    unchoked_sweep hids' hself⟩
  rw [← hchoked, countP_append, countP_cons_of_pos hself]
  omega

theorem unchoked_shared (hids : (records.map Peer.peerId).Nodup) (slots : UInt32)
    (hr : r ∈ ranked.drop (earnedSlots slots).toNat) :
    ∃ p < records.length - (earnedSlots slots).toNat, ∀ rotation,
    unchoked (shared records now window slots rotation) r.peerId =
      decide (ahead (records.length - (earnedSlots slots).toNat)
        (rotation.toNat % (records.length - (earnedSlots slots).toNat)) p <
        (optimisticSlots slots).toNat) := by
  obtain ⟨p, hp, hswept⟩ := unchoked_swept h hids hr
  refine ⟨p, hp, fun rotation => ?_⟩
  rw [shared, (settled_choked h _).1, hswept]

end Slots

/-- A round unchokes as many as there are slots, the best for the earned ones; the others come in
turn as the rotation goes on. -/
theorem unchokeRound_allocates {records : List Peer} (hids : (records.map Peer.peerId).Nodup)
    (now window : UInt64)
    (slots : UInt32) {scratchLen : Nat} (hscratch : records.length ≤ scratchLen) :
    (∃ ranked, Ranked now window records ranked) ∧
    ∀ ranked, Ranked now window records ranked → ∀ optimistic earned m :
    Nat, optimistic = max 1 (slots.toNat / 8) →
      earned = slots.toNat - optimistic → m = records.length - earned →
      ∃ round : UInt64 → List Peer,
        (∀ rotation, unchokeRound records now window slots rotation scratchLen = .ok (round rotation) ∧
          (round rotation).map account = records.map account ∧
          (round rotation).countP (fun r => !r.choked) = min records.length slots.toNat ∧
          ∀ r ∈ ranked.take earned, unchoked (round rotation) r.peerId = true) ∧
        (slots ≠ 0 → ∀ r ∈ ranked.drop earned, ∀ first, first + m ≤ 2 ^ 64 →
          (range m).countP (fun k => unchoked (round (UInt64.ofNat (first + k))) r.peerId) =
            min optimistic m) := by
  refine ⟨exists_ranked hids, fun ranked h optimistic earned m hoptimistic hearned hm => ?_⟩
  rw [← toNat_optimisticSlots] at hoptimistic
  rw [hoptimistic, toNat_optimisticSlots, ← toNat_earnedSlots] at hearned
  subst hoptimistic hearned hm
  refine ⟨round records now window slots, fun rotation => ?_, fun hslots r hr first hfirst => ?_⟩
  · exact ⟨unchokeRound_eq slots rotation hscratch, map_account_round slots rotation,
      countP_round h slots rotation,
      fun r hr => unchoked_of_earned h slots rotation hr⟩
  · obtain ⟨p, hp, hplace⟩ := unchoked_shared h hids slots hr
    rw [← countP_rounds hp first]
    apply countP_congr
    intro k hk
    have hlt : first + k < 2 ^ 64 := by
      have := mem_range.mp hk
      omega
    rw [round, if_neg hslots, hplace, UInt64.toNat_ofNat_of_lt' hlt]

def newcomers : List Peer :=
  [peerInit ⟨replicate 32 2, rfl⟩ 0, peerInit ⟨replicate 32 1, rfl⟩ 0, peerInit zero32 0]

theorem unchokeRound_allocates_newcomers :
    ∃ rs, unchokeRound newcomers 0 0 2 5 3 = .ok rs ∧ rs.countP (fun r => !r.choked) = 2 := by
  obtain ⟨⟨ranked, h⟩, hround⟩ := @unchokeRound_allocates newcomers (by decide) 0 0 2 3 (by decide)
  obtain ⟨round, hround, -⟩ := hround ranked h _ _ _ rfl rfl rfl
  exact ⟨round 5, (hround 5).1, (hround 5).2.2.1⟩

/-- Without slots a record is in no round unchoked, though one slot is kept for those in turn. -/
theorem unchokeRound_without_slots :
    (range 1).countP (fun k => match unchokeRound [peerInit zero32 0] 0 0 0 (UInt64.ofNat k) 1 with
      | .ok rs => unchoked rs zero32
      | .error _ => false) ≠ min (max 1 ((0 : UInt32).toNat / 8)) 1 := by
  decide

end AntsClient.Economy.Unchoke
