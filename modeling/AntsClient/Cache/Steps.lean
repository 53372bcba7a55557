import AntsClient.Cache.Records
import AntsClient.Cache.Store
import AntsClient.Lib.Outcome
import AntsClient.Lib.Table

namespace AntsClient.Cache.Steps

open Common Crypto Wire Records Store Lib Outcome Table List

variable {f : Slot → Slot} {promptHash producer : Bytes32}

/-- The calls that use a cache; the clock is read once by each call that reads it. -/
inductive Op
  | put (nowSec : UInt64) (embedding : Embedding) (value : Bytes) (sized : value.length < 2 ^ 64)
  | putRecord (e : Entry) (sized : Sized e)
  | inboundEntry (entryCbor : Bytes)
  | get (nowSec : UInt64) (embedding : Embedding) (threshold : UInt32) (outCap : Nat)
  | getTopk (nowSec : UInt64) (embedding : Embedding) (threshold topK hammingRadius : UInt32) (capMatches : Nat)
  | inboundLookup (nowSec : UInt64) (reqCbor respBuf : Bytes)
  | positive (promptHash producer : Bytes32)
  | negative (promptHash producer : Bytes32)
  | challenge (nowSec : UInt64) (promptHash producer : Bytes32)
  | clear

def Op.offered : Op → Option Entry
  | .put nowSec embedding value _ => some (valueEntry nowSec embedding value)
  | .putRecord e _ => some e
  | .inboundEntry entryCbor => (entryDecode entryCbor).toOption
  | _ => none

def Op.signal : Op → Option (Bytes32 × Bytes32 × (Slot → Slot))
  | .positive promptHash producer => some (promptHash, producer, praised)
  | .negative promptHash producer => some (promptHash, producer, blamed)
  | .challenge nowSec promptHash producer => some (promptHash, producer, challenged nowSec)
  | _ => none

variable {D : Type} (metric : Metric D) (crypto : Primitives)

def step (c : State) : Op → State
  | .put nowSec embedding value _ => after (put metric nowSec embedding value c)
  | .putRecord e _ => after (putRecord metric e c)
  | .inboundEntry entryCbor => after (handleInboundEntry metric crypto entryCbor c)
  | .get nowSec embedding threshold outCap => after (Store.get metric nowSec embedding threshold outCap c)
  | .getTopk nowSec embedding threshold topK hammingRadius capMatches =>
    (getTopk metric nowSec embedding threshold topK hammingRadius capMatches c).2
  | .inboundLookup nowSec reqCbor respBuf => after (handleInboundLookup metric nowSec reqCbor respBuf c)
  | .positive promptHash producer => after (recordPositive promptHash producer c)
  | .negative promptHash producer => after (recordNegative promptHash producer c)
  | .challenge nowSec promptHash producer => after (recordChallenge nowSec promptHash producer c)
  | .clear => after (clear c)

def run (c : State) (ops : List Op) : State := ops.foldl (step metric crypto) c

def core (slot : Slot) : Slot := { slot with lastAccess := 0 }

def kept (b : Buf) : Buf := if b.len = 0 then .null 0 else .data b.bytes

def fresh (e : Entry) (embedding : Embedding) (lastAccess : UInt64) : Slot where
  shardKey := metric.shardKey embedding
  embedding := embedding
  lastAccess := lastAccess
  embeddingModel := kept e.embeddingModel
  promptHash := e.promptHash
  response := kept e.response
  responseModel := kept e.responseModel
  producer := e.producer
  created := e.created
  validityClass := e.validityClass
  attestation := kept e.attestation
  signature := e.signature
  positiveCount := 0
  negativeCount := 0
  challengeCount := 0
  lastChallengedSec := 0
  invalidated := false

@[simp]
theorem fresh_shardKey (e : Entry) (embedding : Embedding) (stamp : UInt64) :
    (fresh metric e embedding stamp).shardKey = metric.shardKey embedding := rfl

def Thins (c c' : State) : Prop := (c'.entries.map core).Subperm (c.entries.map core)

def Stores (e : Entry) (c c' : State) : Prop :=
  ∃ embedding entries stamp, entryValidate e = .ok () ∧ e.embedding = some embedding ∧
  entries.Subperm c.entries ∧ c'.entries = entries ++ [fresh metric e embedding stamp]

inductive Moves (c : State) (op : Op) (c' : State) : Prop
  | thins (h : Thins c c')
  | stores (e : Entry) (he : op.offered = some e) (h : Stores metric e c c')
  | signals (promptHash producer : Bytes32) (f : Slot → Slot) (idx : Nat)
    (hs : op.signal = some (promptHash, producer, f))
      (hidx : c.entries.findIdx? (isRecord promptHash producer) = some idx)
        (h : c'.entries = c.entries.modify idx f)

variable {idx : Nat} {slot : Slot}

section Thins

variable {c c' c'' : State}

theorem Thins.refl (c : State) : Thins c c := List.Subperm.refl _

theorem Thins.trans (h : Thins c c') (h' : Thins c' c'') : Thins c c'' := List.Subperm.trans h' h

theorem thins_of_eq (h : c'.entries = c.entries) : Thins c c' := by
  rw [Thins, h]

theorem findLruFrom_lt {pick : Slot → Bool} {entries : List Slot} {i : Nat} {minAccess : UInt64}
    {best : Option Nat}
    (hbest : ∀ j, best = some j → j < i + entries.length)
    (h : findLruFrom pick entries i minAccess best = some idx) :
    idx < i + entries.length := by
  induction entries generalizing i minAccess best with
  | nil => exact hbest idx h
  | cons slot rest ih =>
    have hlen : i + 1 + rest.length = i + (slot :: rest).length := by
      rw [length_cons]
      omega
    rw [findLruFrom] at h
    rw [← hlen] at hbest ⊢
    split at h
    · refine ih (fun j hj => ?_) h
      obtain rfl := Option.some.inj hj
      omega
    · exact ih hbest h

theorem evictAt_eq_swapRemove (entries : List Slot) (idx : Nat) :
    evictAt entries idx = swapRemove entries idx := by
  rw [evictAt, swapRemove]
  cases entries.getLast? <;> rfl

theorem evictLru_subperm (pick : Slot → Bool) (entries : List Slot) :
    (evictLru pick entries).Subperm entries := by
  rw [evictLru]
  cases h : findLru pick entries with
  | none => exact List.Subperm.refl _
  | some idx =>
    have hlt := findLruFrom_lt (fun j hj => absurd hj (Option.some_ne_none j).symm) h
    rw [Nat.zero_add] at hlt
    exact (evictAt_eq_swapRemove entries idx ▸ swapRemove_perm_eraseIdx hlt).subperm.trans
      (eraseIdx_sublist entries idx).subperm

theorem enforceCapsOnInsert_subperm (key : UInt64) (c : State) :
    (enforceCapsOnInsert key c).entries.Subperm c.entries := by
  rw [enforceCapsOnInsert]
  have htotal : (if c.totalMax > 0 ∧ c.entries.length ≥ c.totalMax then evictLru (fun _ => true) c.entries
      else c.entries).Subperm c.entries := by
    split
    · exact evictLru_subperm _ _
    · exact List.Subperm.refl _
  dsimp only
  by_cases hshard : c.perShardMax > 0 ∧ countInShard (if c.totalMax > 0 ∧ c.entries.length ≥ c.totalMax
      then evictLru (fun _ => true) c.entries else c.entries) key ≥ c.perShardMax
  · rw [if_pos hshard]
    exact (evictLru_subperm _ _).trans htotal
  · rw [if_neg hshard]
    exact htotal

theorem map_core_modify (hf : ∀ slot, core (f slot) = core slot) (entries : List Slot) (idx : Nat) :
    (entries.modify idx f).map core = entries.map core := by
  induction entries generalizing idx with
  | nil => cases idx <;> rfl
  | cons slot rest ih =>
    cases idx with
    | zero => rw [modify_zero_cons, map_cons, map_cons, hf]
    | succ idx => rw [modify_succ_cons, map_cons, map_cons, ih]

theorem touch_thins (idx : Nat) (c : State) : Thins c (touch idx c) := by
  have hmap : (touch idx c).entries.map core = c.entries.map core := by
    apply map_core_modify
    intro slot
    rfl
  rw [Thins, hmap]

theorem foldl_touch_thins (emitted : List (Candidate D)) (c : State) :
    Thins c (emitted.foldl (fun c cand => touch cand.entryIdx c) c) := by
  induction emitted generalizing c with
  | nil => exact Thins.refl c
  | cons cand emitted ih => exact (touch_thins cand.entryIdx c).trans (ih _)

theorem getTopk_thins (metric : Metric D) (nowSec : UInt64) (embedding : Embedding)
    (threshold topK hammingRadius : UInt32)
    (capMatches : Nat) (c : State) :
    Thins c (getTopk metric nowSec embedding threshold topK hammingRadius capMatches c).2 := by
  rw [getTopk]
  split
  · exact Thins.refl c
  · dsimp only
    split
    · exact Thins.refl c
    · exact foldl_touch_thins _ c

end Thins

section Calls

variable {metric} {crypto} {c : State} {e : Entry}

theorem ends_malloc (c : State) : Ends malloc c fun _ c' => c'.entries = c.entries := by
  rw [Ends, malloc]
  by_cases h : c.mem.headD true
  · rw [if_pos h]
  · rw [if_neg h]

theorem ends_malloc_ok (c : State) : Ends malloc c fun r _ => r ≠ none → c.mem.headD true = true := by
  rw [Ends, malloc]
  by_cases h : c.mem.headD true
  · rw [if_pos h]
    exact fun _ => h
  · rw [if_neg h]
    exact fun hne => absurd rfl hne

theorem ends_orThrow {α : Type} (x : Except Error α) (c : State) : Ends (orThrow x) c fun r c' =>
    c' = c ∧ ∀ a, r = some a → x = .ok a := by
  cases x with
  | error err => exact ends_throw ⟨rfl, fun a h => nomatch h⟩
  | ok a => exact ends_pure ⟨rfl, fun a' h => by rw [Option.some.inj h]⟩

theorem ends_dupBytes (b : Buf) (c : State) : Ends (dupBytes b) c fun r c' =>
    c'.entries = c.entries ∧ ∀ b', r = some b' → b' = kept b := by
  rw [dupBytes, kept]
  by_cases h : b.len = 0
  · rw [if_pos h, if_pos h]
    exact ends_pure ⟨rfl, fun b' hb => (Option.some.inj hb).symm⟩
  · rw [if_neg h, if_neg h]
    refine (ends_malloc c).bind (fun c' hc => ⟨hc, fun b' hb => nomatch hb⟩) fun _ c' hc => ?_
    exact ends_pure ⟨hc, fun b' hb => (Option.some.inj hb).symm⟩

theorem ends_growEntries (c : State) : Ends growEntries c fun _ c' => c'.entries = c.entries := by
  refine Ends.get_bind ?_
  split
  · exact (ends_malloc c).bind (fun _ hc => hc) fun _ _ hc => hc
  · exact ends_pure rfl

theorem ends_putRecord (e : Entry) (c : State) : Ends (putRecord metric e) c fun r c' =>
    r = none ∧ Thins c c' ∨ Stores metric e c c' := by
  rw [putRecord]
  refine (ends_orThrow _ c).bind (fun c' hc => .inl ⟨rfl, thins_of_eq (by rw [hc.1])⟩) fun _ c' hc => ?_
  obtain ⟨rfl, hvalid⟩ := hc
  cases hemb : e.embedding with
  | none => exact ends_throw (.inl ⟨rfl, Thins.refl _⟩)
  | some embedding =>
    refine Ends.modify_bind ?_
    have hcaps := enforceCapsOnInsert_subperm (metric.shardKey embedding) c'
    generalize enforceCapsOnInsert (metric.shardKey embedding) c' = c₁ at hcaps
    -- every allocation that fails leaves the entries as the caps left them
    have hfail {c₂ : State} (h : c₂.entries = c₁.entries) : Thins c' c₂ :=
      subperm_map (by rw [h]; exact hcaps) core
    refine (ends_growEntries c₁).bind (fun c₂ h => .inl ⟨rfl, hfail h⟩) fun _ c₂ h₂ => ?_
    refine (ends_dupBytes _ c₂).bind (fun c₃ h => .inl ⟨rfl, hfail (h.1.trans h₂)⟩) fun em c₃ h => ?_
    obtain ⟨h₃, hem⟩ := h
    refine (ends_dupBytes _ c₃).bind (fun c₄ h => .inl ⟨rfl, hfail (h.1.trans (h₃.trans h₂))⟩)
      fun resp c₄ h => ?_
    obtain ⟨h₄, hresp⟩ := h
    refine (ends_dupBytes _ c₄).bind
      (fun c₅ h => .inl ⟨rfl, hfail (h.1.trans (h₄.trans (h₃.trans h₂)))⟩) fun rm c₅ h => ?_
    obtain ⟨h₅, hrm⟩ := h
    refine (ends_dupBytes _ c₅).bind (fun c₆ h =>
      .inl ⟨rfl, hfail (h.1.trans (h₅.trans (h₄.trans (h₃.trans h₂))))⟩) fun att c₆ h => ?_
    obtain ⟨h₆, hatt⟩ := h
    have hentries : c₆.entries = c₁.entries := h₆.trans (h₅.trans (h₄.trans (h₃.trans h₂)))
    refine Or.inr ⟨embedding, c₁.entries, c₆.lruCounter + 1, hvalid () rfl, hemb, hcaps, ?_⟩
    rw [← hentries, hem em rfl, hresp resp rfl, hrm rm rfl, hatt att rfl]
    dsimp only
    rw [State.headD_spare]
    rfl

theorem ends_put (nowSec : UInt64) (embedding : Embedding) (value : Bytes) (c : State) :
    Ends (put metric nowSec embedding value) c fun r c' =>
    r = none ∧ Thins c c' ∨ Stores metric (valueEntry nowSec embedding value) c c' := by
  rw [put]
  split
  · exact ends_throw_bind (.inl ⟨rfl, Thins.refl c⟩)
  · exact ends_putRecord _ c

theorem ends_handleInboundEntry (entryCbor : Bytes) (c : State) :
    Ends (handleInboundEntry metric crypto entryCbor) c fun r c' =>
    r = none ∧ Thins c c' ∨ ∃ e, entryDecode entryCbor = .ok e ∧ Stores metric e c c' := by
  rw [handleInboundEntry]
  split
  · exact ends_throw_bind (.inl ⟨rfl, Thins.refl c⟩)
  · refine (ends_orThrow _ c).bind (fun c' hc => .inl ⟨rfl, thins_of_eq (by rw [hc.1])⟩) fun e c' hc => ?_
    obtain ⟨rfl, hdec⟩ := hc
    refine (ends_malloc c').bind (fun c₁ h => .inl ⟨rfl, thins_of_eq h⟩) fun _ c₁ h₁ => ?_
    refine (ends_orThrow _ c₁).bind (fun c₂ hc => .inl ⟨rfl, thins_of_eq (by rw [hc.1, h₁])⟩)
      fun payload c₂ hc => ?_
    obtain ⟨rfl, -⟩ := hc
    split
    · exact ends_throw_bind (.inl ⟨rfl, thins_of_eq h₁⟩)
    · refine (ends_putRecord e c₂).mono fun r c₃ h => ?_
      obtain ⟨hr, hthins⟩ | ⟨embedding, entries, stamp, hvalid, hemb, hsub, hentries⟩ := h
      · exact .inl ⟨hr, (thins_of_eq h₁).trans hthins⟩
      · exact .inr ⟨e, hdec e rfl, embedding, entries, stamp, hvalid, hemb, h₁ ▸ hsub, hentries⟩

theorem ends_get (nowSec : UInt64) (embedding : Embedding) (threshold : UInt32) (outCap : Nat) (c : State) :
    Ends (Store.get metric nowSec embedding threshold outCap) c fun _ c' => Thins c c' := by
  refine Ends.get_bind ?_
  cases h : getHit metric nowSec embedding threshold c with
  | none => exact ends_throw (Thins.refl c)
  | some hit =>
    refine Ends.modify_bind ?_
    split
    · exact ends_throw_bind (touch_thins _ c)
    · exact ends_pure (touch_thins _ c)

theorem ends_handleInboundLookup (nowSec : UInt64) (reqCbor respBuf : Bytes) (c : State) :
    Ends (handleInboundLookup metric nowSec reqCbor respBuf) c fun _ c' => Thins c c' := by
  rw [handleInboundLookup]
  split
  · exact ends_throw_bind (Thins.refl c)
  · refine (ends_orThrow _ c).bind (fun c' hc => thins_of_eq (by rw [hc.1])) fun req c' hc => ?_
    obtain ⟨rfl, -⟩ := hc
    refine (ends_malloc c').bind (fun c₁ h => thins_of_eq h) fun _ c₁ h₁ => ?_
    refine Ends.get_bind (Ends.set_bind ?_)
    have hthins := (thins_of_eq h₁).trans
      (getTopk_thins metric nowSec req.embedding req.threshold (clampTopK req.topK)
      req.hammingRadius handleLookupServerCap.toNat c₁)
    split
    · exact (ends_orThrow _ _).mono fun r c₂ hc => by rw [hc.1]; exact hthins
    · exact (ends_orThrow _ _).mono fun r c₂ hc => by rw [hc.1]; exact hthins
    · exact ends_throw hthins

theorem onRecord_none (h : c.entries.findIdx? (isRecord promptHash producer) = none) (f : Slot → Slot) :
    onRecord promptHash producer f c = .error .notFound c := by
  rw [onRecord, get_bind_apply, h]
  rfl

theorem onRecord_some (h : c.entries.findIdx? (isRecord promptHash producer) = some idx)
    (f : Slot → Slot) : onRecord promptHash producer f c =
      .ok () { c with entries := c.entries.modify idx f } := by
  rw [onRecord, get_bind_apply, h]
  rfl

theorem signal_moves {op : Op} (hs : op.signal = some (promptHash, producer, f)) :
    Moves metric c op (after (onRecord promptHash producer f c)) := by
  cases h : c.entries.findIdx? (isRecord promptHash producer) with
  | none =>
    rw [onRecord_none h]
    exact .thins (Thins.refl c)
  | some idx =>
    rw [onRecord_some h]
    exact .signals promptHash producer f idx hs h rfl

theorem step_moves (c : State) (op : Op) : Moves metric c op (step metric crypto c op) := by
  cases op with
  | put nowSec embedding value sized =>
    refine ((ends_put nowSec embedding value c).mono fun _ c' h => ?_).after
    exact h.elim (fun h => .thins h.2) fun h => .stores _ rfl h
  | putRecord e sized =>
    refine ((ends_putRecord e c).mono fun _ c' h => ?_).after
    exact h.elim (fun h => .thins h.2) fun h => .stores _ rfl h
  | inboundEntry entryCbor =>
    refine ((ends_handleInboundEntry entryCbor c).mono fun _ c' h => ?_).after
    obtain ⟨-, h⟩ | ⟨e, hdec, h⟩ := h
    · exact .thins h
    · exact .stores e (by rw [Op.offered, hdec]; rfl) h
  | get nowSec embedding threshold outCap => exact .thins (ends_get nowSec embedding threshold outCap c).after
  | getTopk nowSec embedding threshold topK hammingRadius capMatches => exact .thins (getTopk_thins ..)
  | inboundLookup nowSec reqCbor respBuf =>
    exact .thins (ends_handleInboundLookup nowSec reqCbor respBuf c).after
  | positive promptHash producer => exact signal_moves rfl
  | negative promptHash producer => exact signal_moves rfl
  | challenge nowSec promptHash producer => exact signal_moves rfl
  | clear => exact .thins (nil_subperm)

end Calls

section Invariants

variable {metric} {crypto} {c c' : State} {op : Op}

theorem Thins.exists_core (h : Thins c c') (hslot : slot ∈ c'.entries) :
    ∃ slot₀ ∈ c.entries, core slot₀ = core slot :=
  mem_map.mp (h.subset (mem_map_of_mem hslot))

/-- A property of slots that does not look at access stamps is kept, if new slots have it
and signals keep it. -/
theorem Moves.forall_slots {P : Slot → Prop} (h : Moves metric c op c') (hcore : ∀ slot, P (core slot) ↔ P slot)
    (hfresh : ∀ e embedding stamp, op.offered = some e → entryValidate e = .ok () →
      P (fresh metric e embedding stamp))
    (hsignal : ∀ promptHash producer f, op.signal = some (promptHash, producer, f) → ∀ slot,
      P slot → P (f slot))
    (hc : ∀ slot ∈ c.entries, P slot) : ∀ slot ∈ c'.entries, P slot := by
  intro slot hslot
  cases h with
  | thins h =>
    obtain ⟨slot₀, hslot₀, heq⟩ := h.exists_core hslot
    rw [← hcore, ← heq, hcore]
    exact hc slot₀ hslot₀
  | stores e he h =>
    obtain ⟨embedding, entries, stamp, hvalid, -, hsub, hentries⟩ := h
    rw [hentries, mem_append, mem_singleton] at hslot
    obtain hslot | rfl := hslot
    · exact hc slot (hsub.subset hslot)
    · exact hfresh e embedding stamp he hvalid
  | signals promptHash producer f idx hs hidx h =>
    rw [h] at hslot
    obtain ⟨i, hi, rfl⟩ := mem_iff_getElem.mp hslot
    rw [getElem_modify]
    split
    · exact hsignal promptHash producer f hs _ (hc _ (getElem_mem _))
    · exact hc _ (getElem_mem _)

theorem signal_entry (h : op.signal = some (promptHash, producer, f)) (slot : Slot) :
    (f slot).entry = slot.entry := by
  cases op with
  | positive | negative | challenge =>
    simp only [Op.signal, Option.some.injEq, Prod.mk.injEq] at h
    obtain ⟨-, -, rfl⟩ := h
    rfl
  | _ => cases h

theorem run_entries {P : Entry → Prop} {ops : List Op}
    (hfresh : ∀ op ∈ ops, ∀ e embedding stamp, op.offered = some e → entryValidate e = .ok () →
      P (fresh metric e embedding stamp).entry)
    (hc : ∀ slot ∈ c.entries, P slot.entry) : ∀ slot ∈ (run metric crypto c ops).entries, P slot.entry := by
  induction ops generalizing c with
  | nil => exact hc
  | cons op ops ih =>
    rw [forall_mem_cons] at hfresh
    refine ih hfresh.2 ((step_moves c op).forall_slots (fun _ => Iff.rfl) hfresh.1 ?_ hc)
    intro promptHash producer f hs slot hslot
    rw [signal_entry hs]
    exact hslot

end Invariants

section Candidates

variable {metric}

theorem candidate_valid {nowSec : UInt64} {embedding : Embedding} {threshold hammingRadius : UInt32}
    {cand : Candidate D} (h : candidate metric nowSec embedding threshold hammingRadius slot idx = some cand) :
    cand.entryIdx = idx ∧ entryStillValid slot nowSec = true := by
  rw [candidate] at h
  split_ifs at h with hvalid
  rw [← Option.some.inj h]
  exact ⟨rfl, by simpa using hvalid⟩

theorem insertCandidate_perm (pivot : Candidate D) (sorted : List (Candidate D)) :
    (insertCandidate metric pivot sorted).Perm (pivot :: sorted) := by
  induction sorted with
  | nil => exact List.Perm.refl _
  | cons first rest ih =>
    rw [insertCandidate]
    split
    · exact (ih.cons first).trans (List.Perm.swap pivot first rest)
    · exact List.Perm.refl _

theorem sortCandidates_perm (cands : List (Candidate D)) : (sortCandidates metric cands).Perm cands := by
  have hfold (sorted : List (Candidate D)) :
      (cands.foldl (fun sorted pivot => insertCandidate metric pivot sorted) sorted).Perm
        (cands ++ sorted) := by
    induction cands generalizing sorted with
    | nil => exact List.Perm.refl _
    | cons pivot cands ih =>
      exact (ih _).trans (((insertCandidate_perm pivot sorted).append_left cands).trans perm_middle)
  exact (reverse_perm _).trans ((hfold []).trans (by rw [append_nil]))

end Candidates

end AntsClient.Cache.Steps
