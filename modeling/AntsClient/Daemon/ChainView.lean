import AntsClient.Chain.Patterns
import AntsClient.Chain.Runtime
import AntsClient.Crdt.Snapshot

namespace AntsClient.Daemon.ChainView

open Common Crypto Chain Blocks Runtime Patterns Lib.Sorting Crdt Proof Container Refine Operations
  Converge Slashing Join List UInt64

def chainViewMax : Nat := 65536

structure ViewWalk where
  ids : List Bytes32
  events : List Event
  overflow : Bool

def viewVisit (genesisTime minEpoch maxEpoch : UInt64) (contentId : Bytes32) (proof : Bytes)
    (w : ViewWalk) : ViewWalk × Bool :=
  match faultProofDecode proof with
  | .error _ => (w, true)
  | .ok v =>
    if v.epoch > maxEpoch ∨ v.epoch < minEpoch then (w, true)
    else if w.ids.length ≥ chainViewMax then ({ w with overflow := true }, false)
    else
      ({ w with
        ids := w.ids ++ [contentId]
        events := w.events ++ [⟨v.subject, genesisTime + v.epoch * epochDurationS, v.faultType⟩] }, true)

def sortIds (ids : List Bytes32) : List Bytes32 := ids.insertionSort idLe

def chainView (genesisTime : UInt64) (set : GSet) (cutoff : UInt64) :
    Except Error (List Bytes32 × List Event) :=
  let w : ViewWalk := match viewEpochs genesisTime cutoff with
    | none => ⟨[], [], false⟩
    | some (minEpoch, maxEpoch) => enumerate (viewVisit genesisTime minEpoch maxEpoch) set.slots ⟨[], [], false⟩
  if w.overflow then .error .bufferTooSmall else .ok (sortIds w.ids, w.events)

structure AntsdChain where
  genesisTime : UInt64
  archive : Bool
  pruneKeep : UInt64
  gset : GSet

/-- The epoch of a head, but never one ahead of the clock. -/
def headEpoch (genesisTime cutoffTime now : UInt64) : UInt64 :=
  ((if cutoffTime < now then cutoffTime else now) - genesisTime) / epochDurationS

def outFinal (c : AntsdChain) (cutoffTime now : UInt64) : AntsdChain :=
  match viewEpochs c.genesisTime (if cutoffTime < now then cutoffTime else now) with
  | none => c
  | some (_, e) =>
    if !c.archive ∧ e > viewWindowEpochs then
      let keep := e - viewWindowEpochs
      if keep.toNat > pruneFloor c.gset ∧ keep > c.pruneKeep then { c with pruneKeep := keep } else c
    else c

/-- The part of the tick that prunes; it is tried again if memory ran out. -/
def tickPrune (c : AntsdChain) (mem : List Bool) : AntsdChain :=
  if c.pruneKeep ≠ 0 then
    match prune c.pruneKeep.toNat ⟨c.gset, mem⟩ with
    | .ok _ s => { c with gset := s.set, pruneKeep := 0 }
    | .error _ s => { c with gset := s.set }
  else c

def proposeFrom (crypto : Primitives) (genesisTime : UInt64) (set : GSet) (height : UInt64) (prev : Bytes32)
    (epoch cutoff : UInt64) (degradedSeed : Bool) (findingsCap : Nat) : Except Error Block := do
  let (ids, events) ← chainView genesisTime set cutoff
  blockPropose crypto height prev epoch cutoff degradedSeed ids events findingsCap

/-- Two views that differ at most in the order of the events. -/
inductive SameView : Except Error (List Bytes32 × List Event) → Except Error (List Bytes32 × List Event) → Prop
  | ok {ids : List Bytes32} {events events' : List Event} :
    events.Perm events' → SameView (.ok (ids, events)) (.ok (ids, events'))
  | error (err : Error) : SameView (.error err) (.error err)

def visible (set : GSet) (minEpoch maxEpoch : UInt64) : Finset Elem :=
  (stored set).filter fun e => minEpoch.toNat ≤ e.epoch ∧ e.epoch ≤ maxEpoch.toNat

section Walk

variable (genesisTime minEpoch maxEpoch : UInt64)

def inView (e : Elem) : Bool :=
  match faultProofDecode e.proof with
  | .error _ => false
  | .ok v => decide ¬(v.epoch > maxEpoch ∨ v.epoch < minEpoch)

def eventOf (e : Elem) : Event :=
  match faultProofDecode e.proof with
  | .error _ => ⟨zero32, 0, 0⟩
  | .ok v => ⟨v.subject, genesisTime + v.epoch * epochDurationS, v.faultType⟩

def seen (slots : List (Option Elem)) : List Elem := (slots.filterMap id).filter (inView minEpoch maxEpoch)

theorem viewVisit_eq (e : Elem) (w : ViewWalk) : viewVisit genesisTime minEpoch maxEpoch e.contentId e.proof w =
    if inView minEpoch maxEpoch e then
      if w.ids.length ≥ chainViewMax then ({ w with overflow := true }, false)
      else ({ w with ids := w.ids ++ [e.contentId], events := w.events ++ [eventOf genesisTime e] }, true)
    else (w, true) := by
  rw [viewVisit, inView, eventOf]
  cases faultProofDecode e.proof with
  | error err => rfl
  | ok v =>
    by_cases h : v.epoch > maxEpoch ∨ v.epoch < minEpoch
    · simp only [h, not_true_eq_false, decide_false, Bool.false_eq_true, if_true, if_false]
    · simp only [h, not_false_eq_true, decide_true, if_true, if_false]

theorem enumerate_view (slots : List (Option Elem)) (w : ViewWalk) (hw : w.overflow = false) :
    let w' := enumerate (viewVisit genesisTime minEpoch maxEpoch) slots w
    if w.ids.length + (seen minEpoch maxEpoch slots).length ≤ chainViewMax then
      w' = ⟨w.ids ++ (seen minEpoch maxEpoch slots).map Elem.contentId,
        w.events ++ (seen minEpoch maxEpoch slots).map (eventOf genesisTime), false⟩
    else w.ids.length ≤ chainViewMax → w'.overflow = true := by
  induction slots generalizing w with
  | nil => cases w; simp_all [enumerate, seen]
  | cons slot slots ih =>
    cases slot with
    | none => exact ih w hw
    | some e =>
      have hcons : seen minEpoch maxEpoch (some e :: slots) =
          if inView minEpoch maxEpoch e then
            e :: seen minEpoch maxEpoch slots else seen minEpoch maxEpoch slots := by
        simp [seen, filter_cons]
      rw [enumerate, viewVisit_eq, hcons]
      by_cases hin : inView minEpoch maxEpoch e = true
      · simp only [hin, if_true]
        by_cases hfull : w.ids.length ≥ chainViewMax
        · simp only [hfull, if_true, length_cons]
          rw [if_neg (by omega)]
          simp
        · simp only [hfull, if_false]
          have hrest := ih { w with ids := w.ids ++ [e.contentId], events := w.events ++ [eventOf genesisTime e] } hw
          simp only [length_append, length_singleton, append_assoc, singleton_append] at hrest
          simp only [length_cons, map_cons]
          rw [show w.ids.length + ((seen minEpoch maxEpoch slots).length + 1) =
            w.ids.length + 1 + (seen minEpoch maxEpoch slots).length by omega]
          split at hrest
          · rename_i hle
            rw [if_pos hle]
            exact hrest
          · rename_i hle
            rw [if_neg hle]
            exact fun _ => hrest (by omega)
      · simp only [hin, if_false, Bool.false_eq_true]
        exact ih w hw

end Walk

variable {e : Elem} {set' : GSet} {m : Nat}

section View

variable {crypto : Primitives} {set : GSet} {offered : Set Bytes}
  {genesisTime cutoff minEpoch maxEpoch : UInt64}

theorem chainView_eq (h : viewEpochs genesisTime cutoff = some (minEpoch, maxEpoch)) :
    chainView genesisTime set cutoff =
    if (seen minEpoch maxEpoch set.slots).length ≤ chainViewMax then
      .ok (sortIds ((seen minEpoch maxEpoch set.slots).map Elem.contentId),
        (seen minEpoch maxEpoch set.slots).map (eventOf genesisTime))
    else .error .bufferTooSmall := by
  have hwalk := enumerate_view genesisTime minEpoch maxEpoch set.slots ⟨[], [], false⟩ rfl
  simp only [length_nil, Nat.zero_add, nil_append] at hwalk
  rw [chainView, h]
  split at hwalk
  · rename_i hle
    simp only [if_pos hle, hwalk, Bool.false_eq_true, if_false]
  · rename_i hle
    rw [if_neg hle]
    simp only [hwalk (Nat.zero_le _), if_true]

theorem sortIds_perm {ids ids' : List Bytes32} (h : ids.Perm ids') : sortIds ids = sortIds ids' :=
  insertionSort_congr id idLe h (Function.injective_id.injOn)

theorem epoch_toNat (h : genesisTime.toNat ≤ cutoff.toNat) :
    ((cutoff - genesisTime) / epochDurationS).toNat = (cutoff.toNat - genesisTime.toNat) / 86400 := by
  rw [UInt64.toNat_div, UInt64.toNat_sub_of_le _ _ (UInt64.le_iff_toNat_le.mpr h)]
  rfl

theorem viewEpochs_eq_some {lo e : UInt64} (h : viewEpochs genesisTime cutoff = some (lo, e)) :
    genesisTime.toNat ≤ cutoff.toNat ∧ e.toNat = (cutoff.toNat - genesisTime.toNat) / 86400 ∧
    lo.toNat = e.toNat - 29 := by
  rw [viewEpochs] at h
  split at h
  · cases h
  rename_i hle
  rw [UInt64.not_lt, le_iff_toNat_le] at hle
  obtain ⟨rfl, rfl⟩ := Prod.mk.inj (Option.some.inj h)
  have he := epoch_toNat hle
  refine ⟨hle, he, ?_⟩
  split
  · rename_i hge
    rw [UInt64.toNat_sub_of_le _ _ hge]
    rfl
  · rename_i hlt
    rw [ge_iff_le, UInt64.not_le, lt_iff_toNat_lt] at hlt
    have hlt : ((cutoff - genesisTime) / epochDurationS).toNat < 29 := hlt
    rw [UInt64.toNat_zero]
    omega

theorem keep_le_minEpoch {e : UInt64} (hview : viewEpochs genesisTime cutoff = some (minEpoch, maxEpoch))
    (hlarge : viewWindowEpochs < e) (hepoch : e - 1 ≤ (cutoff - genesisTime) / epochDurationS) :
    (e - viewWindowEpochs).toNat ≤ minEpoch.toNat := by
  obtain ⟨hgen, hmax, hmin⟩ := viewEpochs_eq_some hview
  have hlarge' : 30 < e.toNat := lt_iff_toNat_lt.mp hlarge
  have hone : (e - 1).toNat = e.toNat - 1 := by
    rw [UInt64.toNat_sub_of_le _ _ (UInt64.le_iff_toNat_le.mpr (by rw [UInt64.toNat_one]; omega))]
    rfl
  have hkeep : (e - viewWindowEpochs).toNat = e.toNat - 30 := by
    rw [UInt64.toNat_sub_of_le _ _ (UInt64.le_of_lt hlarge)]
    rfl
  rw [le_iff_toNat_le, hone, epoch_toNat hgen] at hepoch
  omega

theorem SameView.propose {crypto : Primitives} {set set' : GSet}
    (h : SameView (chainView genesisTime set cutoff)
    (chainView genesisTime set' cutoff)) (height : UInt64) (prev : Bytes32) (epoch : UInt64)
    (degradedSeed : Bool)
    (findingsCap : Nat) : proposeFrom crypto genesisTime set height prev epoch cutoff degradedSeed findingsCap =
      proposeFrom crypto genesisTime set' height prev epoch cutoff degradedSeed findingsCap := by
  rw [proposeFrom, proposeFrom]
  generalize chainView genesisTime set cutoff = view at h
  generalize chainView genesisTime set' cutoff = view' at h
  cases h with
  | ok hperm => simp only [bind, Except.bind, blockPropose, patternScan_perm hperm cutoff findingsCap]
  | error err => rfl

theorem sameView_of_seen (hview : viewEpochs genesisTime cutoff = some (minEpoch, maxEpoch))
    (hperm : (seen minEpoch maxEpoch set.slots).Perm (seen minEpoch maxEpoch set'.slots)) :
    SameView (chainView genesisTime set cutoff) (chainView genesisTime set' cutoff) := by
  rw [chainView_eq hview, chainView_eq hview, ← hperm.length_eq]
  split
  · rw [sortIds_perm (hperm.map Elem.contentId)]
    exact .ok (hperm.map _)
  · exact .error _

section Reachable

variable (hset : Reachable crypto set offered)

include hset

theorem stored_decodes (he : e ∈ stored set) :
    ∃ v, faultProofDecode e.proof = .ok v ∧ e.subject = v.subject ∧ e.epoch = v.epoch.toNat := by
  obtain ⟨-, helem⟩ := (reachable_spec hset).2.stored e he
  obtain ⟨-, v, hv, hsame⟩ := elemOf_eq_some.mp helem
  exact ⟨v, hv, by rw [hsame], by rw [hsame]⟩

theorem inView_iff (he : e ∈ stored set) :
    inView minEpoch maxEpoch e = true ↔ minEpoch.toNat ≤ e.epoch ∧ e.epoch ≤ maxEpoch.toNat := by
  obtain ⟨v, hv, -, hepoch⟩ := stored_decodes hset he
  simp only [inView, hv, decide_eq_true_eq, not_or, hepoch, gt_iff_lt, UInt64.not_lt, le_iff_toNat_le]
  exact and_comm

theorem seen_nodup : (seen minEpoch maxEpoch set.slots).Nodup :=
  (elems_nodup (reachable_spec hset).1).filter _

theorem mem_seen : e ∈ seen minEpoch maxEpoch set.slots ↔ e ∈ visible set minEpoch maxEpoch := by
  rw [seen, mem_filter, visible, Finset.mem_filter, stored, mem_toFinset]
  refine and_congr_right fun he => ?_
  exact inView_iff hset (mem_toFinset.mpr he)

theorem stored_prune (m : Nat) (mem : List Bool) :
    stored (perform crypto set (.prune m) mem) = (stored set).filter (fun e => m ≤ e.epoch) ∨
      perform crypto set (.prune m) mem = set := by
  have hout := prune_outcome (s := ⟨set, mem⟩) (reachable_spec hset).1 m
  rw [perform]
  cases hp : prune m ⟨set, mem⟩ with
  | ok n s =>
    rw [hp] at hout
    exact .inl (congrArg View.stored hout.2.2)
  | error err s =>
    rw [hp] at hout
    exact .inr hout.2.2.2

theorem seen_prune (hm : m ≤ minEpoch.toNat) (mem : List Bool) :
    (seen minEpoch maxEpoch set.slots).Perm
      (seen minEpoch maxEpoch (perform crypto set (.prune m) mem).slots) := by
  have hpruned : Reachable crypto (perform crypto set (.prune m) mem) (offered ∪ offers (.prune m)) :=
    hset.call (.prune m) (by simp) mem
  rw [perm_ext_iff_of_nodup (seen_nodup hset) (seen_nodup hpruned)]
  intro e
  rw [mem_seen hset, mem_seen hpruned, visible, visible, Finset.mem_filter, Finset.mem_filter]
  rcases stored_prune hset m mem with hs | hs
  · rw [hs, Finset.mem_filter]
    constructor
    · rintro ⟨he, hlo, hhi⟩
      exact ⟨⟨he, hm.trans hlo⟩, hlo, hhi⟩
    · rintro ⟨⟨he, -⟩, hin⟩
      exact ⟨he, hin⟩
  · rw [hs]

variable (hview : viewEpochs genesisTime cutoff = some (minEpoch, maxEpoch))

include hview

theorem event_inWindow (he : e ∈ visible set minEpoch maxEpoch) :
    (eventOf genesisTime e).subject = e.subject ∧ eventInWindow (eventOf genesisTime e) cutoff = true := by
  obtain ⟨hgen, hmax, hmin⟩ := viewEpochs_eq_some hview
  obtain ⟨hst, hlo, hhi⟩ := Finset.mem_filter.mp he
  obtain ⟨v, hv, hsubject, hepoch⟩ := stored_decodes hset hst
  rw [hepoch] at hlo hhi
  have hcut := cutoff.toNat_lt
  have hmul : (v.epoch * epochDurationS).toNat = v.epoch.toNat * 86400 := by
    rw [UInt64.toNat_mul]
    exact Nat.mod_eq_of_lt (by change v.epoch.toNat * 86400 < 2 ^ 64; omega)
  have htime : (genesisTime + v.epoch * epochDurationS).toNat = genesisTime.toNat + v.epoch.toNat * 86400 := by
    rw [UInt64.toNat_add, hmul]
    exact Nat.mod_eq_of_lt (by omega)
  have hevent : eventOf genesisTime e = ⟨v.subject, genesisTime + v.epoch * epochDurationS, v.faultType⟩ := by
    rw [eventOf, hv]
  have hle : genesisTime + v.epoch * epochDurationS ≤ cutoff := by
    rw [le_iff_toNat_le, htime]
    omega
  have hlt : cutoff - (genesisTime + v.epoch * epochDurationS) < patternWindowS := by
    rw [UInt64.lt_iff_toNat_lt, UInt64.toNat_sub_of_le _ _ hle, htime]
    change _ < 2592000
    omega
  rw [hevent]
  exact ⟨hsubject.symm, by simp [eventInWindow, hle, hlt]⟩

theorem countFor_visible (subject : Bytes32) :
    countFor ((seen minEpoch maxEpoch set.slots).map (eventOf genesisTime)) cutoff subject =
      ((visible set minEpoch maxEpoch).filter fun e => e.subject = subject).card := by
  have hvisible : visible set minEpoch maxEpoch = (seen minEpoch maxEpoch set.slots).toFinset := by
    ext e
    rw [mem_toFinset, mem_seen hset]
  rw [countFor, countP_map, hvisible, filter_toFinset, toFinset_card_of_nodup ((seen_nodup hset).filter _),
    ← countP_eq_length_filter]
  refine countP_congr fun e he => ?_
  obtain ⟨hsubject, hwindow⟩ := event_inWindow hset hview ((mem_seen hset).mp he)
  simp [hsubject, hwindow]

theorem chainView_prune (hm : m ≤ minEpoch.toNat) (mem : List Bool) :
    SameView (chainView genesisTime set cutoff)
      (chainView genesisTime (perform crypto set (.prune m) mem) cutoff) :=
  sameView_of_seen hview (seen_prune hset hm mem)

/-- A finding counts the visible proofs against its subject, without wrapping: a view
holds only so many. -/
theorem finding_count (hroom : (seen minEpoch maxEpoch set.slots).length ≤ chainViewMax)
    {findingsCap : Nat} {fs : List PatternFinding}
    {f : PatternFinding}
    (hfs : patternScan ((seen minEpoch maxEpoch set.slots).map (eventOf genesisTime)) cutoff
      findingsCap = .ok fs) (hf : f ∈ fs) :
    f.count.toNat = ((visible set minEpoch maxEpoch).filter fun el => el.subject = f.subject).card := by
  rw [mem_patternScan hfs hf, findingFor, countFor_visible hset hview]
  refine toNat_ofNat_of_lt' ?_
  have hcard : ((visible set minEpoch maxEpoch).filter fun el => el.subject = f.subject).card ≤
      (seen minEpoch maxEpoch set.slots).length := by
    refine (Finset.card_le_card (Finset.filter_subset _ _)).trans ?_
    refine (Finset.card_le_card fun el hel => ?_).trans (toFinset_card_le _)
    exact mem_toFinset.mpr ((mem_seen hset).mpr hel)
  exact lt_of_le_of_lt (hcard.trans hroom) (by decide)

end Reachable

/-- Nodes that hold the same proofs of a window make the same block, in whatever order they came and
whatever else was stored or pruned. -/
theorem same_window_same_block {offered' : Set Bytes} (hset : Reachable crypto set offered)
    (hset' : Reachable crypto set' offered')
    (hsame : ∀ lo hi, viewEpochs genesisTime cutoff = some (lo, hi) →
      visible set lo hi = visible set' lo hi) (height : UInt64)
    (prev : Bytes32) (epoch : UInt64) (degradedSeed : Bool) (findingsCap : Nat) :
    proposeFrom crypto genesisTime set height prev epoch cutoff degradedSeed findingsCap =
      proposeFrom crypto genesisTime set' height prev epoch cutoff degradedSeed findingsCap := by
  refine SameView.propose ?_ height prev epoch degradedSeed findingsCap
  cases hview : viewEpochs genesisTime cutoff with
  | none =>
    rw [chainView, chainView, hview]
    exact .ok (.refl _)
  | some window =>
    refine sameView_of_seen hview ((perm_ext_iff_of_nodup (seen_nodup hset) (seen_nodup hset')).mpr fun e => ?_)
    rw [mem_seen hset, mem_seen hset', hsame _ _ hview]

theorem same_window_same_block_sample : stored samplePruned ≠ stored sampleHolder ∧
    proposeFrom sampleCrypto 0 sampleHolder 1 zero32 38 3283200 false 8 =
      proposeFrom sampleCrypto 0 samplePruned 1 zero32 38 3283200 false 8 := by
  refine ⟨by decide +kernel, same_window_same_block reachable_sampleHolder
    (reachable_sampleHolder.call (.prune 8) (by simp) []) ?_ ..⟩
  intro lo hi h
  obtain ⟨rfl, rfl⟩ : 9 = lo ∧ 38 = hi := by
    simpa using (show viewEpochs 0 3283200 = some (9, 38) by decide +kernel).symm.trans h
  decide +kernel

/-- From the epoch before its head's on, a pruned node sees what an archive node sees, so that both
make the same block. -/
theorem pruned_view_same (hset : Reachable crypto set offered) {headCutoff now : UInt64}
    (hlarge : viewWindowEpochs < headEpoch genesisTime headCutoff now) (hcutoff : genesisTime ≤ cutoff)
    (hepoch : headEpoch genesisTime headCutoff now - 1 ≤ (cutoff - genesisTime) / epochDurationS)
    (mem : List Bool) :
    let pruned :=
  perform crypto set (.prune (headEpoch genesisTime headCutoff now - viewWindowEpochs).toNat) mem
    SameView (chainView genesisTime set cutoff) (chainView genesisTime pruned cutoff) ∧
    (∀ height prev epoch degradedSeed findingsCap,
      proposeFrom crypto genesisTime set height prev epoch cutoff degradedSeed findingsCap =
        proposeFrom crypto genesisTime pruned height prev epoch cutoff degradedSeed findingsCap) ∧
    ∀ ids events, chainView genesisTime set cutoff = .ok (ids, events) →
      (∀ ev ∈ events, eventInWindow ev cutoff = true) ∧
      ∀ findingsCap fs, patternScan events cutoff findingsCap = .ok fs → ∀ f ∈ fs, ∃ minEpoch maxEpoch,
        viewEpochs genesisTime cutoff = some (minEpoch, maxEpoch) ∧
          f.count.toNat = ((visible set minEpoch maxEpoch).filter fun el => el.subject = f.subject).card := by
  generalize headEpoch genesisTime headCutoff now = e at hlarge hepoch ⊢
  intro pruned
  obtain ⟨⟨minEpoch, maxEpoch⟩, hview⟩ : ∃ r, viewEpochs genesisTime cutoff = some r := by
    rw [viewEpochs, if_neg (UInt64.not_lt.mpr hcutoff)]
    exact ⟨_, rfl⟩
  have hsame := chainView_prune hset hview (keep_le_minEpoch hview hlarge hepoch) mem
  refine ⟨hsame, hsame.propose, fun ids events hv => ?_⟩
  rw [chainView_eq hview] at hv
  split at hv
  · rename_i hroom
    obtain ⟨rfl, rfl⟩ := Prod.mk.inj (Except.ok.inj hv)
    refine ⟨fun ev hev => ?_, fun findingsCap fs hfs f hf =>
      ⟨minEpoch, maxEpoch, hview, finding_count hset hview hroom hfs hf⟩⟩
    obtain ⟨el, hel, rfl⟩ := mem_map.mp hev
    exact (event_inWindow hset hview ((mem_seen hset).mp hel)).2
  · cases hv

end View

/-- A proof of epoch 7, on a node whose head is in epoch 38. -/
theorem pruned_view_same_sample : stored samplePruned ≠ stored sampleHolder ∧
    SameView (chainView 0 sampleHolder 3283200) (chainView 0 samplePruned 3283200) := by
  have hkeep : (headEpoch 0 3283200 3283300 - viewWindowEpochs).toNat = 8 := by decide +kernel
  have hlarge : viewWindowEpochs < headEpoch 0 3283200 3283300 := by decide +kernel
  have hepoch : headEpoch 0 3283200 3283300 - 1 ≤ (3283200 - 0) / epochDurationS := by decide +kernel
  obtain ⟨hsame, -⟩ := pruned_view_same reachable_sampleHolder hlarge UInt64.zero_le hepoch []
  rw [hkeep, ← samplePruned] at hsame
  exact ⟨by decide +kernel, hsame⟩

section Schedule

inductive Step
  | final (cutoffTime now : UInt64)
  | tick (mem : List Bool)
  | proof (p : Bytes) (mem : List Bool)

def nodeStep (crypto : Primitives) (c : AntsdChain) : Step → AntsdChain
  | .final cutoffTime now => outFinal c cutoffTime now
  | .tick mem => tickPrune c mem
  | .proof p mem => { c with gset := perform crypto c.gset (.insert p) mem }

variable {crypto : Primitives} {g : UInt64} {c : AntsdChain}

structure Holds (g : UInt64) (m : Nat) (e : Elem) (c : AntsdChain) : Prop where
  genesis : c.genesisTime = g
  inv : Inv c.gset
  keep : c.pruneKeep.toNat ≤ m
  floor : pruneFloor c.gset ≤ m
  held : e ∈ stored c.gset

theorem Holds.final (h : Holds g m e c) (cutoffTime : UInt64) {now : UInt64}
    (hnow : (now.toNat - g.toNat) / 86400 - 30 ≤ m) :
    Holds g m e (outFinal c cutoffTime now) := by
  have hclock : (if cutoffTime < now then cutoffTime else now).toNat ≤ now.toNat := by
    split
    · exact le_iff_toNat_le.mp (UInt64.le_of_lt ‹_›)
    · exact le_rfl
  rw [outFinal]
  split
  · exact h
  rename_i head hview
  obtain ⟨-, hhead, -⟩ := viewEpochs_eq_some hview
  split
  · rename_i hlarge
    dsimp only
    split
    · have hkeep : (head - viewWindowEpochs).toNat = head.toNat - 30 :=
        UInt64.toNat_sub_of_le _ _ (UInt64.le_of_lt hlarge.2)
      rw [h.genesis] at hhead
      exact { h with keep := by dsimp only; omega }
    · exact h
  · exact h

theorem Holds.tick (h : Holds g m e c) (hlive : m ≤ e.epoch) (mem : List Bool) :
    Holds g m e (tickPrune c mem) := by
  have hout := @prune_outcome ⟨c.gset, mem⟩ h.inv c.pruneKeep.toNat
  rw [tickPrune]
  split
  · cases hp : prune c.pruneKeep.toNat ⟨c.gset, mem⟩ with
    | ok n s =>
      rw [hp] at hout
      obtain ⟨-, hinv, hview⟩ := hout
      have hfloor : s.set.floor = max c.gset.floor c.pruneKeep.toNat := congrArg View.floor hview
      have hstored : stored s.set = (stored c.gset).filter _ := congrArg View.stored hview
      refine ⟨h.genesis, hinv, Nat.zero_le _, hfloor.trans_le (max_le h.floor h.keep), ?_⟩
      exact hstored ▸ Finset.mem_filter.mpr ⟨h.held, h.keep.trans hlive⟩
    | error err s =>
      rw [hp] at hout
      have hset : s.set = c.gset := hout.2.2.2
      dsimp only
      rw [hset]
      exact h
  · exact h

theorem Holds.proof (h : Holds g m e c) (p : Bytes) (mem : List Bool) :
    Holds g m e (nodeStep crypto c (.proof p mem)) := by
  obtain ⟨hinv, es, -, hview⟩ := @insert_final crypto ⟨c.gset, mem⟩ h.inv p
  have hheld : e ∈ (offerAll (view c.gset) es).stored :=
    List.foldlRecOn es offer h.held fun v hv e' _ => stored_subset_offer v e' hv
  have hstored : stored (nodeStep crypto c (.proof p mem)).gset = _ := congrArg View.stored hview
  have hfloor := (congrArg View.floor hview).trans (offerAll_floor _ _)
  exact ⟨h.genesis, hinv, h.keep, hfloor.trans_le h.floor, hstored ▸ hheld⟩

end Schedule

end AntsClient.Daemon.ChainView
