import AntsClient.Cache.Ranking
import AntsClient.Cache.Steps

namespace AntsClient.Cache.Capacity

open Common Crypto Wire Store Steps Lib Outcome Table List UInt64

def Oldest (pick : Slot → Bool) (slot : Slot) (entries : List Slot) : Prop :=
  slot ∈ entries ∧ pick slot = true ∧ ∀ other ∈ entries, pick other = true → other ≠ slot →
    slot.lastAccess < other.lastAccess

def Drops (pick : Slot → Bool) (full : Prop) (entries entries' : List Slot) : Prop :=
  (full → ∃ slot, Oldest pick slot entries ∧ (slot :: entries').Perm entries) ∧ (¬full → entries' = entries)

section Eviction

variable {pick : Slot → Bool} {entries : List Slot}

theorem findLruFrom_spec (i : Nat) (minAccess : UInt64) (best : Option Nat) :
    (findLruFrom pick entries i minAccess best = best ∧ ∀ slot ∈ entries, pick slot = true →
      minAccess ≤ slot.lastAccess) ∨
    ∃ j slot, findLruFrom pick entries i minAccess best = some (i + j) ∧ entries[j]? = some slot ∧
    pick slot = true ∧
      slot.lastAccess < minAccess ∧ ∀ other ∈ entries, pick other = true →
      slot.lastAccess ≤ other.lastAccess := by
  induction entries generalizing i minAccess best with
  | nil => exact .inl ⟨rfl, by simp⟩
  | cons first rest ih =>
    rw [findLruFrom]
    by_cases hfirst : pick first = true ∧ first.lastAccess < minAccess
    · rw [if_pos hfirst]
      rcases ih (i + 1) first.lastAccess (some i) with ⟨he, hall⟩ | ⟨j, slot, he, hslot, hpick, hlt, hall⟩
      · exact .inr ⟨0, first, he, rfl, hfirst.1, hfirst.2,
          forall_mem_cons.mpr ⟨fun _ => UInt64.le_refl _, hall⟩⟩
      · refine .inr ⟨j + 1, slot, ?_, hslot, hpick, UInt64.lt_trans hlt hfirst.2, ?_⟩
        · rw [he, Nat.add_assoc, Nat.add_comm 1 j]
        · exact forall_mem_cons.mpr ⟨fun _ => UInt64.le_of_lt hlt, hall⟩
    · have hbound : pick first = true → minAccess ≤ first.lastAccess :=
        fun hp => UInt64.not_lt.mp fun hlt => hfirst ⟨hp, hlt⟩
      rw [if_neg hfirst]
      rcases ih (i + 1) minAccess best with ⟨he, hall⟩ | ⟨j, slot, he, hslot, hpick, hlt, hall⟩
      · exact .inl ⟨he, forall_mem_cons.mpr ⟨hbound, hall⟩⟩
      · refine .inr ⟨j + 1, slot, ?_, hslot, hpick, hlt, ?_⟩
        · rw [he, Nat.add_assoc, Nat.add_comm 1 j]
        · exact forall_mem_cons.mpr ⟨fun hp => UInt64.le_of_lt (UInt64.lt_of_lt_of_le hlt (hbound hp)), hall⟩

variable (hdistinct : (entries.map Slot.lastAccess).Nodup)
  (hbelow : ∀ slot ∈ entries, slot.lastAccess < uint64Max)

include hdistinct hbelow

theorem evictLru_oldest (hsome : ∃ slot ∈ entries, pick slot = true) :
    ∃ slot, Oldest pick slot entries ∧ (slot :: evictLru pick entries).Perm entries := by
  obtain ⟨s, hs, hp⟩ := hsome
  rcases @findLruFrom_spec pick entries 0 uint64Max none with ⟨-, hall⟩ | ⟨j, slot, he, hslot, hpick, -, hall⟩
  · exact absurd (hall s hs hp) (UInt64.not_le.mpr (hbelow s hs))
  · obtain ⟨hj, rfl⟩ := List.getElem?_eq_some_iff.mp hslot
    refine ⟨entries[j], ⟨getElem_mem hj, hpick, fun other ho hpo hne => ?_⟩, ?_⟩
    · rcases UInt64.lt_or_eq_of_le (hall other ho hpo) with hlt | heq
      · exact hlt
      · exact absurd (inj_on_of_nodup_map hdistinct ho (getElem_mem hj) heq.symm) hne
    · rw [Nat.zero_add] at he
      rw [evictLru, findLru, he]
      dsimp only
      rw [evictAt_eq_swapRemove]
      exact cons_swapRemove_perm hj

theorem drops_evictLru {full : Prop} [Decidable full] (hsome : full → ∃ slot ∈ entries, pick slot = true) :
    Drops pick full entries (if full then evictLru pick entries else entries) := by
  constructor
  · intro hfull
    rw [if_pos hfull]
    exact evictLru_oldest hdistinct hbelow (hsome hfull)
  · intro hfull
    rw [if_neg hfull]

end Eviction

section Drops

variable {pick : Slot → Bool} {full : Prop} {entries entries' : List Slot}

theorem Drops.subperm (h : Drops pick full entries entries') : entries'.Subperm entries := by
  by_cases hfull : full
  · obtain ⟨slot, -, hperm⟩ := h.1 hfull
    exact (sublist_cons_self slot entries').subperm.trans hperm.subperm
  · rw [h.2 hfull]

theorem Drops.length_lt (h : Drops pick full entries entries') (hfull : full) :
    entries'.length < entries.length := by
  obtain ⟨slot, -, hperm⟩ := h.1 hfull
  rw [← hperm.length_eq, length_cons]
  exact Nat.lt_succ_self _

theorem Drops.countP_lt (h : Drops pick full entries entries') (hfull : full) :
    entries'.countP pick < entries.countP pick := by
  obtain ⟨slot, holdest, hperm⟩ := h.1 hfull
  rw [← hperm.countP_eq, countP_cons_of_pos holdest.2.1]
  exact Nat.lt_succ_self _

end Drops

variable {c : State}

theorem enforceCapsOnInsert_drops (key : UInt64) (hdistinct : (c.entries.map Slot.lastAccess).Nodup)
    (hbelow : ∀ slot ∈ c.entries, slot.lastAccess < uint64Max) :
    ∃ left, Drops (fun _ => true) (0 < c.totalMax ∧ c.totalMax ≤ c.entries.length) c.entries left ∧
      Drops (fun slot => slot.shardKey = key) (0 < c.perShardMax ∧ c.perShardMax ≤ countInShard left key) left
        (enforceCapsOnInsert key c).entries := by
  have htotal : Drops (fun _ => true) (0 < c.totalMax ∧ c.totalMax ≤ c.entries.length) c.entries
      (if 0 < c.totalMax ∧ c.totalMax ≤ c.entries.length then
        evictLru (fun _ => true) c.entries else c.entries) := by
    refine drops_evictLru hdistinct hbelow fun hfull => ?_
    obtain ⟨slot, hslot⟩ := exists_mem_of_length_pos (Nat.lt_of_lt_of_le hfull.1 hfull.2)
    exact ⟨slot, hslot, rfl⟩
  refine ⟨_, htotal, ?_⟩
  have hsub := htotal.subperm
  refine drops_evictLru ?_ (fun slot hslot => hbelow slot (hsub.subset hslot)) fun hfull => ?_
  · exact nodup_of_subperm (subperm_map hsub Slot.lastAccess) hdistinct
  · obtain ⟨slot, hslot, hkey⟩ := countP_pos_iff.mp (Nat.lt_of_lt_of_le hfull.1 hfull.2)
    exact ⟨slot, hslot, hkey⟩

variable {D : Type} (metric : Metric D) (crypto : Primitives)
  {e : Entry} {entryCbor : Bytes} {op : Op} {f : Slot → Slot} {n : UInt64} {c' : State}

section Calls

def topkPlaces (nowSec : UInt64) (embedding : Embedding) (threshold topK hammingRadius : UInt32)
    (capMatches : Nat) (c : State) : List Nat :=
  if hammingRadius > maxHammingRadius then []
  else ((select metric nowSec embedding threshold topK hammingRadius c.entries).take capMatches).map
    Candidate.entryIdx

/-- The places of the entries that a call reports, the match of `get` even if only its size fits. -/
def reported (c : State) : Op → List Nat
  | .get nowSec embedding threshold _ =>
    match getHit metric nowSec embedding threshold c with
    | some (_, idx, _) => [idx]
    | none => []
  | .getTopk nowSec embedding threshold topK hammingRadius capMatches =>
    topkPlaces metric nowSec embedding threshold topK hammingRadius capMatches c
  | .inboundLookup nowSec reqCbor _ =>
    match lookupRequestDecode reqCbor with
    | .ok req => topkPlaces metric nowSec req.embedding req.threshold (clampTopK req.topK)
      req.hammingRadius handleLookupServerCap.toNat c
    | .error _ => []
  | _ => []

def inserted (c : State) : Op → Bool
  | .put nowSec embedding value _ => succeeded (put metric nowSec embedding value c)
  | .putRecord e _ => succeeded (putRecord metric e c)
  | .inboundEntry entryCbor => succeeded (handleInboundEntry metric crypto entryCbor c)
  | _ => false

def accesses (c : State) (op : Op) : Nat :=
  (reported metric c op).length + if inserted metric crypto c op then 1 else 0

def accessesOf : State → List Op → Nat
  | _, [] => 0
  | c, op :: ops => accesses metric crypto c op + accessesOf (step metric crypto c op) ops

def grown (c : State) : State := if c.entries.length = c.capEntries then c.zeroed c.capEntries else c

def insertInto (e : Entry) (embedding : Embedding) (c : State) : State :=
  let c := grown (enforceCapsOnInsert (metric.shardKey embedding) c)
  { c with
    lruCounter := c.lruCounter + 1
    spare := c.spare.tail
    spare_zero := c.tail_zero
    entries := c.entries ++ [fresh metric e embedding (c.lruCounter + 1)] }

inductive Acts (c : State) (op : Op) : State → Prop
  | uses (hi : inserted metric crypto c op = false) :
    Acts c op ((reported metric c op).foldl (fun c idx => touch idx c) c)
  | inserts (e : Entry) (embedding : Embedding) (he : op.offered = some e) (hemb : e.embedding = some embedding)
      (hr : reported metric c op = []) (hi : inserted metric crypto c op = true) :
        Acts c op (insertInto metric e embedding c)
  | signals (idx : Nat) (f : Slot → Slot) (hidx : idx < c.entries.length)
    (hf : ∀ slot, (f slot).lastAccess = slot.lastAccess ∧ (f slot).shardKey = slot.shardKey)
      (hs : op.signal ≠ none) (hr : reported metric c op = []) (hi : inserted metric crypto c op = false) :
      Acts c op { c with entries := c.entries.modify idx f }
  | clears (hc : op = .clear) (hr : reported metric c op = []) (hi : inserted metric crypto c op = false) :
      Acts c op { c.zeroed c.entries.length with entries := [] }

variable {metric} {crypto} {c : State}

theorem malloc_nil (h : c.mem = []) : malloc c = .ok () c := by
  cases c
  subst h
  rfl

theorem dupBytes_nil (h : c.mem = []) (b : Buf) : dupBytes b c = .ok (kept b) c := by
  rw [dupBytes, kept]
  by_cases hlen : b.len = 0
  · rw [if_pos hlen, if_pos hlen]
    rfl
  · rw [if_neg hlen, if_neg hlen, bind_ok (malloc_nil h)]
    rfl

theorem growEntries_nil (h : c.mem = []) : growEntries c = .ok () (grown c) := by
  rw [growEntries, get_bind_apply, grown]
  by_cases hlen : c.entries.length = c.capEntries
  · rw [if_pos hlen, if_pos hlen, bind_ok (malloc_nil h)]
    rfl
  · rw [if_neg hlen, if_neg hlen]
    rfl

@[simp]
theorem grown_entries (c : State) : (grown c).entries = c.entries := by
  rw [grown]
  split <;> rfl

@[simp]
theorem grown_lruCounter (c : State) : (grown c).lruCounter = c.lruCounter := by
  rw [grown]
  split <;> rfl

@[simp]
theorem grown_mem (c : State) : (grown c).mem = c.mem := by
  rw [grown]
  split <;> rfl

theorem putRecord_valid {embedding : Embedding} (h : c.mem = []) (hvalid : putRecordValidate e = .ok ())
    (hemb : e.embedding = some embedding) :
    putRecord metric e c = .ok () (insertInto metric e embedding c) := by
  have hmem : (grown (enforceCapsOnInsert (metric.shardKey embedding) c)).mem = [] := by rw [grown_mem]; exact h
  have hgrow : growEntries (enforceCapsOnInsert (metric.shardKey embedding) c) = _ := growEntries_nil h
  rw [putRecord, hvalid, hemb]
  change (growEntries >>= fun _ => _) (enforceCapsOnInsert (metric.shardKey embedding) c) = _
  rw [bind_ok hgrow, bind_ok (dupBytes_nil hmem _), bind_ok (dupBytes_nil hmem _),
    bind_ok (dupBytes_nil hmem _),
    bind_ok (dupBytes_nil hmem _)]
  simp only [State.headD_spare]
  rfl

theorem putRecord_cases (h : c.mem = []) (e : Entry) : (∃ err, putRecord metric e c = .error err c) ∨
    ∃ embedding, e.embedding = some embedding ∧
    putRecord metric e c = .ok () (insertInto metric e embedding c) := by
  cases hvalid : putRecordValidate e with
  | error err => exact .inl ⟨err, by rw [putRecord, hvalid]; rfl⟩
  | ok _ =>
    cases hemb : e.embedding with
    | none => exact .inl ⟨.invalidArg, by rw [putRecord, hvalid, hemb]; rfl⟩
    | some embedding => exact .inr ⟨embedding, rfl, putRecord_valid h hvalid hemb⟩

theorem getTopk_state (nowSec : UInt64) (embedding : Embedding)
    (threshold topK hammingRadius : UInt32) (capMatches : Nat) :
    (getTopk metric nowSec embedding threshold topK hammingRadius capMatches c).2 =
      (topkPlaces metric nowSec embedding threshold topK hammingRadius capMatches c).foldl
        (fun c idx => touch idx c) c := by
  rw [getTopk, topkPlaces]
  by_cases hradius : hammingRadius > maxHammingRadius
  · rw [if_pos hradius, if_pos hradius]
    rfl
  · rw [if_neg hradius, if_neg hradius, foldl_map]
    dsimp only
    by_cases hnone : (select metric nowSec embedding threshold topK hammingRadius c.entries).length = 0
    · rw [if_pos hnone, length_eq_zero_iff.mp hnone, take_nil]
      rfl
    · rw [if_neg hnone]

theorem lookupRequestDecode_nil : ∃ err, lookupRequestDecode [] = .error err := ⟨_, rfl⟩

theorem handleInboundLookup_state (h : c.mem = []) (nowSec : UInt64) (reqCbor respBuf : Bytes) :
    after (handleInboundLookup metric nowSec reqCbor respBuf c) =
      (reported metric c (.inboundLookup nowSec reqCbor respBuf)).foldl (fun c idx => touch idx c) c := by
  rw [handleInboundLookup, reported]
  by_cases hlen : reqCbor.length = 0
  · obtain ⟨err, herr⟩ := lookupRequestDecode_nil
    rw [if_pos hlen, length_eq_zero_iff.mp hlen, herr]
    rfl
  · rw [if_neg hlen]
    cases lookupRequestDecode reqCbor with
    | error err => rfl
    | ok req =>
      have hread : (orThrow (.ok req) : CacheM LookupRequest) c = .ok req c := rfl
      dsimp only
      rw [bind_ok hread, bind_ok (malloc_nil h), get_bind_apply, ← getTopk_state, Lib.Outcome.set_bind]
      generalize getTopk metric nowSec req.embedding req.threshold (clampTopK req.topK) req.hammingRadius
        handleLookupServerCap.toNat c = r
      obtain ⟨⟨err, outN, found⟩, c'⟩ := r
      cases err with
      | none => cases lookupResponseEncode found respBuf <;> rfl
      | some err =>
        cases err with
        | notFound => cases lookupResponseEncode [] respBuf <;> rfl
        | _ => rfl

theorem handleInboundEntry_read {payload : Bytes} (h : c.mem = []) (hdec : entryDecode entryCbor = .ok e)
    (hpayload : cacheEntryEmitSigningPayload e (replicate entryCbor.length 0) = .ok payload) :
    handleInboundEntry metric crypto entryCbor c =
      if crypto.ed25519Verify e.producer payload e.signature.val then
      putRecord metric e c else .error .malformed c := by
  have hlen : entryCbor.length ≠ 0 := by
    intro hlen
    rw [length_eq_zero_iff.mp hlen] at hdec
    cases hdec
  have hread : (orThrow (.ok e) : CacheM Entry) c = .ok e c := rfl
  have hpay : (orThrow (.ok payload) : CacheM Bytes) c = .ok payload c := rfl
  rw [handleInboundEntry, if_neg hlen, hdec]
  dsimp only
  rw [bind_ok hread, bind_ok (malloc_nil h), hpayload, bind_ok hpay]
  cases crypto.ed25519Verify e.producer payload e.signature.val <;> rfl

theorem handleInboundEntry_refused {err : Error} (hdec : entryDecode entryCbor = .error err) :
    ∃ err, handleInboundEntry metric crypto entryCbor c = .error err c := by
  rw [handleInboundEntry, hdec]
  split
  · exact ⟨.invalidArg, rfl⟩
  · exact ⟨err, rfl⟩

theorem handleInboundEntry_cases (h : c.mem = []) (entryCbor : Bytes) :
    (∃ err, handleInboundEntry metric crypto entryCbor c = .error err c) ∨
    ∃ e, entryDecode entryCbor = .ok e ∧
    handleInboundEntry metric crypto entryCbor c = putRecord metric e c := by
  cases hdec : entryDecode entryCbor with
  | error err => exact .inl (handleInboundEntry_refused hdec)
  | ok e =>
    rw [handleInboundEntry_read h hdec (Records.payload_of_decode hdec)]
    split
    · exact .inr ⟨e, rfl, rfl⟩
    · exact .inl ⟨.malformed, rfl⟩

theorem offered_acts (h : c.mem = []) (he : op.offered = some e) (hr : reported metric c op = [])
    (hs : step metric crypto c op = after (putRecord metric e c))
    (hi : inserted metric crypto c op = succeeded (putRecord metric e c)) :
    Acts metric crypto c op (step metric crypto c op) := by
  rcases putRecord_cases h e with ⟨err, herr⟩ | ⟨embedding, hemb, hok⟩
  · rw [herr] at hs hi
    rw [hs]
    have hacts := Acts.uses (c := c) hi
    rwa [hr] at hacts
  · rw [hok] at hs hi
    rw [hs]
    exact .inserts e embedding he hemb hr hi

theorem onRecord_acts {promptHash producer : Bytes32}
    (hf : ∀ slot, (f slot).lastAccess = slot.lastAccess ∧ (f slot).shardKey = slot.shardKey)
    (hs : op.signal ≠ none) (hr : reported metric c op = []) (hi : inserted metric crypto c op = false) :
    Acts metric crypto c op (after (onRecord promptHash producer f c)) := by
  cases h : c.entries.findIdx? (isRecord promptHash producer) with
  | none =>
    rw [onRecord_none h]
    have hacts := Acts.uses (c := c) hi
    rwa [hr] at hacts
  | some idx =>
    rw [onRecord_some h]
    exact .signals idx f (findIdx?_eq_some_iff_getElem.mp h).1 hf hs hr hi

theorem step_acts (h : c.mem = []) (op : Op) : Acts metric crypto c op (step metric crypto c op) := by
  cases op with
  | put nowSec embedding value sized =>
    by_cases hlen : value.length = 0
    · have hput : put metric nowSec embedding value c = .error .invalidArg c := by
        rw [put, if_pos hlen]
        rfl
      rw [step, hput]
      exact .uses (by rw [inserted, hput]; rfl)
    · have hput : put metric nowSec embedding value c =
          putRecord metric (valueEntry nowSec embedding value) c := by
        rw [put, if_neg hlen]
      exact offered_acts h rfl rfl (by rw [step, hput]) (by rw [inserted, hput])
  | putRecord e sized => exact offered_acts h rfl rfl rfl rfl
  | inboundEntry entryCbor =>
    rcases @handleInboundEntry_cases D metric crypto c h entryCbor with ⟨err, herr⟩ | ⟨e, hdec, hput⟩
    · rw [step, herr]
      exact .uses (by rw [inserted, herr]; rfl)
    · exact offered_acts h (by rw [Op.offered, hdec]; rfl) rfl (by rw [step, hput]) (by rw [inserted, hput])
  | get nowSec embedding threshold outCap =>
    have hstate : after (Store.get metric nowSec embedding threshold outCap c) =
        (reported metric c (.get nowSec embedding threshold outCap)).foldl (fun c idx => touch idx c) c := by
      rw [Store.get, get_bind_apply, reported]
      cases getHit metric nowSec embedding threshold c with
      | none => rfl
      | some hit =>
        obtain ⟨slot, idx, sim⟩ := hit
        change after ((if slot.response.bytes.length > outCap then
          throw .bufferTooSmall >>= fun _ => _ else _ : CacheM _) (touch idx c)) = _
        split <;> rfl
    rw [step, hstate]
    exact .uses rfl
  | getTopk nowSec embedding threshold topK hammingRadius capMatches =>
    rw [step, getTopk_state]
    exact .uses rfl
  | inboundLookup nowSec reqCbor respBuf =>
    rw [step, handleInboundLookup_state h]
    exact .uses rfl
  | positive promptHash producer => exact onRecord_acts (fun _ => ⟨rfl, rfl⟩) (Option.some_ne_none _) rfl rfl
  | negative promptHash producer => exact onRecord_acts (fun _ => ⟨rfl, rfl⟩) (Option.some_ne_none _) rfl rfl
  | challenge nowSec promptHash producer =>
    exact onRecord_acts (fun _ => ⟨rfl, rfl⟩) (Option.some_ne_none _) rfl rfl
  | clear => exact .clears rfl rfl rfl

end Calls

structure Sound (c : State) : Prop where
  distinct : (c.entries.map Slot.lastAccess).Nodup
  stamped : ∀ slot ∈ c.entries, slot.lastAccess ≤ c.lruCounter
  total : 0 < c.totalMax → c.entries.length ≤ c.totalMax
  shards : 0 < c.perShardMax → ∀ key, countInShard c.entries key ≤ c.perShardMax
  mem : c.mem = []

section Sound

variable {metric} {crypto} {c : State}

theorem toNat_succ (h : n.toNat + 1 < 2 ^ 64) : (n + 1).toNat = n.toNat + 1 := by
  rw [UInt64.toNat_add, UInt64.toNat_one, Nat.mod_eq_of_lt h]

theorem modify_map {α : Type} {g : Slot → α} (hf : ∀ slot, g (f slot) = g slot)
    (entries : List Slot) (idx : Nat) :
    (entries.modify idx f).map g = entries.map g := by
  apply ext_getElem?
  intro i
  rw [getElem?_map, getElem?_map, getElem?_modify]
  cases entries[i]? with
  | none => rfl
  | some slot =>
    by_cases h : idx = i
    · simp [h, hf]
    · simp [h]

theorem countInShard_eq (entries : List Slot) (key : UInt64) :
    countInShard entries key = (entries.map Slot.shardKey).countP fun k => k = key := by
  rw [countInShard, countP_map]
  rfl

theorem touch_entries (idx : Nat) (c : State) :
    (touch idx c).entries = c.entries.modify idx fun slot => { slot with lastAccess := c.lruCounter + 1 } := rfl

theorem touch_map_lastAccess (idx : Nat) (c : State) :
    (touch idx c).entries.map Slot.lastAccess = (c.entries.map Slot.lastAccess).set idx (c.lruCounter + 1) := by
  rw [touch_entries]
  apply ext_getElem?
  intro i
  rw [getElem?_map, getElem?_modify, getElem?_set, getElem?_map, length_map]
  by_cases hi : idx = i
  · subst hi
    cases h : c.entries[idx]? with
    | none =>
      have := getElem?_eq_none_iff.mp h
      simp [Nat.not_lt.mpr this]
    | some slot =>
      obtain ⟨hlt, -⟩ := List.getElem?_eq_some_iff.mp h
      simp [hlt]
  · simp [hi]

/-- A change that leaves the shards of the entries alone. -/
theorem Sound.restamp (h : Sound c) {entries : List Slot}
    (hkeys : entries.map Slot.shardKey = c.entries.map Slot.shardKey)
    (hdistinct : (entries.map Slot.lastAccess).Nodup)
    (hstamped : ∀ stamp ∈ entries.map Slot.lastAccess, stamp ≤ n) :
    Sound { c with entries := entries, lruCounter := n } where
  distinct := hdistinct
  stamped := forall_mem_map.mp hstamped
  total hpos := by
    have hlen := congrArg List.length hkeys
    rw [length_map, length_map] at hlen
    exact hlen.trans_le (h.total hpos)
  shards hpos key := by
    rw [countInShard_eq, hkeys, ← countInShard_eq]
    exact h.shards hpos key
  mem := h.mem

section Stamps

variable (h : Sound c) (hfew : c.lruCounter.toNat + 1 < 2 ^ 64)

include h hfew

theorem Sound.lt_succ {slot : Slot} (hslot : slot ∈ c.entries) : slot.lastAccess < c.lruCounter + 1 := by
  have := le_iff_toNat_le.mp (h.stamped slot hslot)
  rw [lt_iff_toNat_lt, toNat_succ hfew]
  omega

theorem Sound.fresh_stamp : c.lruCounter + 1 ∉ c.entries.map Slot.lastAccess := by
  intro hm
  obtain ⟨slot, hslot, heq⟩ := mem_map.mp hm
  exact UInt64.lt_irrefl _ (heq ▸ h.lt_succ hfew hslot)

theorem Sound.touch (idx : Nat) : Sound (touch idx c) := by
  refine h.restamp ?_ ?_ ?_
  · apply modify_map
    intro slot
    rfl
  · rw [← touch_entries, touch_map_lastAccess]
    exact h.distinct.set (h.fresh_stamp hfew)
  · rw [← touch_entries, touch_map_lastAccess]
    intro stamp hm
    rcases mem_or_eq_of_mem_set hm with hm | rfl
    · obtain ⟨old, hold, rfl⟩ := mem_map.mp hm
      exact UInt64.le_of_lt (h.lt_succ hfew hold)
    · exact UInt64.le_refl _

theorem Sound.below : ∀ slot ∈ c.entries, slot.lastAccess < uint64Max := by
  intro slot hslot
  have hle := le_iff_toNat_le.mp (h.stamped slot hslot)
  have hmax : uint64Max.toNat = 2 ^ 64 - 1 := by decide
  rw [lt_iff_toNat_lt]
  omega

end Stamps

theorem Sound.foldl_touch (places : List Nat) (h : Sound c)
    (hfew : c.lruCounter.toNat + places.length < 2 ^ 64) :
    Sound (places.foldl (fun c idx => Store.touch idx c) c) ∧
      (places.foldl (fun c idx => Store.touch idx c) c).lruCounter.toNat =
        c.lruCounter.toNat + places.length := by
  induction places generalizing c with
  | nil => exact ⟨h, rfl⟩
  | cons idx places ih =>
    rw [length_cons] at hfew ⊢
    have hcount : (Store.touch idx c).lruCounter.toNat = c.lruCounter.toNat + 1 := toNat_succ (by omega)
    obtain ⟨hsound, heq⟩ := ih (h.touch (by omega) idx) (by omega)
    exact ⟨hsound, by rw [foldl_cons, heq]; omega⟩

theorem insertInto_entries (e : Entry) (embedding : Embedding) : (insertInto metric e embedding c).entries =
    (enforceCapsOnInsert (metric.shardKey embedding) c).entries ++
      [fresh metric e embedding (c.lruCounter + 1)] := by
  simp only [insertInto, grown_entries, grown_lruCounter]
  rfl

theorem insertInto_lruCounter (e : Entry) (embedding : Embedding) :
    (insertInto metric e embedding c).lruCounter = c.lruCounter + 1 := by
  simp only [insertInto, grown_lruCounter]
  rfl

theorem insertInto_totalMax (e : Entry) (embedding : Embedding) :
    (insertInto metric e embedding c).totalMax = c.totalMax := by
  simp only [insertInto, grown]
  split <;> rfl

theorem insertInto_perShardMax (e : Entry) (embedding : Embedding) :
    (insertInto metric e embedding c).perShardMax = c.perShardMax := by
  simp only [insertInto, grown]
  split <;> rfl

theorem Sound.insertInto (h : Sound c) (hfew : c.lruCounter.toNat + 1 < 2 ^ 64) (e : Entry)
    (embedding : Embedding) :
    Sound (insertInto metric e embedding c) := by
  obtain ⟨left, htotal, hshard⟩ :=
    enforceCapsOnInsert_drops (metric.shardKey embedding) h.distinct (h.below hfew)
  have hsub : (enforceCapsOnInsert (metric.shardKey embedding) c).entries.Subperm c.entries :=
    hshard.subperm.trans htotal.subperm
  refine ⟨?_, ?_, ?_, ?_, ?_⟩
  · have hold := nodup_of_subperm (subperm_map hsub Slot.lastAccess) h.distinct
    rw [insertInto_entries, map_append, map_singleton, nodup_append_comm, singleton_append, nodup_cons]
    exact ⟨fun hm => h.fresh_stamp hfew ((subperm_map hsub Slot.lastAccess).subset hm), hold⟩
  · intro slot hslot
    rw [insertInto_entries, mem_append, mem_singleton] at hslot
    rw [insertInto_lruCounter]
    rcases hslot with hslot | rfl
    · exact UInt64.le_of_lt (h.lt_succ hfew (hsub.subset hslot))
    · exact UInt64.le_refl _
  · rw [insertInto_totalMax, insertInto_entries, length_append, length_singleton]
    intro hpos
    have hle := hshard.subperm.length_le
    by_cases hfull : c.totalMax ≤ c.entries.length
    · have := htotal.length_lt ⟨hpos, hfull⟩
      have := h.total hpos
      omega
    · have := htotal.subperm.length_le
      omega
  · rw [insertInto_perShardMax, insertInto_entries]
    intro hpos key
    have hle := hsub.countP_le fun slot => slot.shardKey = key
    have hcap := h.shards hpos key
    rw [countInShard] at hcap ⊢
    rw [countP_append]
    by_cases hkey : metric.shardKey embedding = key
    · subst hkey
      rw [countP_singleton]
      have hleft : left.countP (fun slot => slot.shardKey = metric.shardKey embedding) ≤
          c.entries.countP fun slot => slot.shardKey = metric.shardKey embedding := htotal.subperm.countP_le _
      by_cases hfull : c.perShardMax ≤ countInShard left (metric.shardKey embedding)
      · have := hshard.countP_lt ⟨hpos, hfull⟩
        simp only [fresh_shardKey, decide_true, if_true]
        omega
      · have := hshard.subperm.countP_le fun slot => slot.shardKey = metric.shardKey embedding
        rw [countInShard] at hfull
        simp only [fresh_shardKey, decide_true, if_true]
        omega
    · have hother : ¬decide ((fresh metric e embedding (c.lruCounter + 1)).shardKey = key) = true :=
        fun h => hkey (of_decide_eq_true h)
      rw [countP_singleton, if_neg hother]
      omega
  · have hmem : (Capacity.insertInto metric e embedding c).mem = c.mem := by
      simp only [Capacity.insertInto, grown_mem]
      rfl
    rw [hmem]
    exact h.mem

theorem Sound.acts (h : Sound c) (hfew : c.lruCounter.toNat + accesses metric crypto c op < 2 ^ 64)
    (hacts : Acts metric crypto c op c') :
    Sound c' ∧ c'.lruCounter.toNat = c.lruCounter.toNat + accesses metric crypto c op ∧
      c'.totalMax = c.totalMax ∧ c'.perShardMax = c.perShardMax := by
  rw [accesses] at hfew ⊢
  cases hacts with
  | uses hi =>
    rw [hi] at hfew ⊢
    obtain ⟨hsound, hcount⟩ := h.foldl_touch (reported metric c op) hfew
    have hconfig : ∀ (places : List Nat) (c : State),
      (places.foldl (fun c idx => Store.touch idx c) c).totalMax = c.totalMax ∧
        (places.foldl (fun c idx => Store.touch idx c) c).perShardMax = c.perShardMax := by
      intro places
      induction places with
      | nil => exact fun _ => ⟨rfl, rfl⟩
      | cons idx places ih => exact fun c => ih (Store.touch idx c)
    exact ⟨hsound, hcount, hconfig _ c⟩
  | inserts e embedding he hemb hr hi =>
    rw [hr, hi] at hfew ⊢
    have hcount : (Capacity.insertInto metric e embedding c).lruCounter.toNat = c.lruCounter.toNat + 1 := by
      rw [insertInto_lruCounter]
      exact toNat_succ hfew
    exact ⟨h.insertInto hfew e embedding, hcount, insertInto_totalMax e embedding,
      insertInto_perShardMax e embedding⟩
  | signals idx f _ hf _ hr hi =>
    rw [hr, hi]
    have hstamps : (c.entries.modify idx f).map Slot.lastAccess = c.entries.map Slot.lastAccess :=
      modify_map (fun slot => (hf slot).1) _ _
    refine ⟨h.restamp (modify_map (fun slot => (hf slot).2) _ _) ?_ ?_, rfl, rfl, rfl⟩
    · rw [hstamps]
      exact h.distinct
    · rw [hstamps]
      exact forall_mem_map.mpr h.stamped
  | clears _ hr hi =>
    rw [hr, hi]
    exact ⟨⟨nodup_nil, by simp, fun _ => Nat.zero_le _, fun _ _ => Nat.zero_le _, h.mem⟩, rfl, rfl, rfl⟩

theorem Sound.run (ops : List Op) (h : Sound c)
    (hfew : c.lruCounter.toNat + accessesOf metric crypto c ops < 2 ^ 64) :
    Sound (run metric crypto c ops) ∧ (run metric crypto c ops).lruCounter.toNat =
      c.lruCounter.toNat + accessesOf metric crypto c ops ∧
      (run metric crypto c ops).totalMax = c.totalMax ∧
      (run metric crypto c ops).perShardMax = c.perShardMax := by
  induction ops generalizing c with
  | nil => exact ⟨h, rfl, rfl, rfl⟩
  | cons op ops ih =>
    rw [accessesOf] at hfew ⊢
    have hacts : Acts metric crypto c op (step metric crypto c op) := step_acts h.mem op
    obtain ⟨hsound, hcount, htotal, hshard⟩ := h.acts (by omega) hacts
    obtain ⟨hsound', hcount', htotal', hshard'⟩ := ih hsound (by omega)
    exact ⟨hsound', hcount'.trans (by omega), htotal'.trans htotal, hshard'.trans hshard⟩

theorem accessesOf_append (ops : List Op) (op : Op) :
    accessesOf metric crypto c (ops ++ [op]) =
      accessesOf metric crypto c ops + accesses metric crypto (run metric crypto c ops) op := by
  induction ops generalizing c with
  | nil => exact Nat.add_comm _ _
  | cons first ops ih =>
    rw [cons_append, accessesOf, accessesOf, ih, Nat.add_assoc]
    rfl

end Sound

section Uses

structure Refreshes (c : State) (places : List Nat) (c' : State) : Prop where
  number : c'.entries.length = c.entries.length
  others : ∀ i, i ∉ places → c'.entries[i]? = c.entries[i]?
  stamped : ∀ k idx slot, places[k]? = some idx → c.entries[idx]? = some slot →
    ∃ slot', c'.entries[idx]? = some slot' ∧ core slot' = core slot ∧
      slot'.lastAccess.toNat = c.lruCounter.toNat + k + 1

variable {metric} {c : State}

theorem refreshes_foldl_touch {places : List Nat} (hnodup : places.Nodup)
    (hfew : c.lruCounter.toNat + places.length < 2 ^ 64) :
    Refreshes c places (places.foldl (fun c idx => touch idx c) c) := by
  induction places generalizing c with
  | nil => exact ⟨rfl, fun _ _ => rfl, by simp⟩
  | cons first places ih =>
    rw [length_cons] at hfew
    have hcount : (touch first c).lruCounter.toNat = c.lruCounter.toNat + 1 := toNat_succ (by omega)
    obtain ⟨hfirst, hrest⟩ := nodup_cons.mp hnodup
    obtain ⟨hnumber, hothers, hstamped⟩ := @ih (touch first c) hrest (by omega)
    have hget (i : Nat) : (touch first c).entries[i]? =
        (c.entries[i]?).map fun slot =>
          if first = i then { slot with lastAccess := c.lruCounter + 1 } else slot := by
      rw [touch_entries, getElem?_modify]
      by_cases hi : first = i
      · simp [hi]
      · simp [hi]
    refine ⟨hnumber.trans (length_modify ..), fun i hi => ?_, fun k idx slot hk hslot => ?_⟩
    · rw [mem_cons, not_or] at hi
      rw [foldl_cons, hothers i hi.2, hget]
      simp [Ne.symm hi.1]
    · cases k with
      | zero =>
        obtain rfl : first = idx := by simpa using hk
        refine ⟨{ slot with lastAccess := c.lruCounter + 1 }, ?_, rfl, hcount⟩
        rw [foldl_cons, hothers first hfirst, hget, hslot]
        simp
      | succ k =>
        rw [getElem?_cons_succ] at hk
        have hne : first ≠ idx := fun h => hfirst (h ▸ mem_of_getElem? hk)
        have hslot' : (touch first c).entries[idx]? = some slot := by
          rw [hget, hslot]
          simp [hne]
        obtain ⟨slot', hget', hcore, hstamp⟩ := hstamped k idx slot hk hslot'
        exact ⟨slot', hget', hcore, by omega⟩

theorem candidates_places_nodup (nowSec : UInt64) (embedding : Embedding)
    (threshold hammingRadius : UInt32) (entries : List Slot) :
    ((candidates metric nowSec embedding threshold hammingRadius entries).map Candidate.entryIdx).Nodup := by
  have hsub (ps : List (Slot × Nat)) : ((ps.filterMap fun p =>
      candidate metric nowSec embedding threshold hammingRadius p.1 p.2).map
      Candidate.entryIdx).Sublist (ps.map Prod.snd) := by
    induction ps with
    | nil => exact List.Sublist.slnil
    | cons p ps ih =>
      rw [filterMap_cons]
      cases h : candidate metric nowSec embedding threshold hammingRadius p.1 p.2 with
      | none => exact ih.cons _
      | some cand =>
        rw [map_cons, map_cons, (candidate_valid h).1]
        exact ih.cons_cons _
  rw [candidates]
  refine ((take_sublist _ _).map _).nodup ((hsub _).nodup ?_)
  rw [zipIdx_map_snd]
  exact nodup_range'

theorem topkPlaces_nodup (nowSec : UInt64) (embedding : Embedding)
    (threshold topK hammingRadius : UInt32) (capMatches : Nat) :
    (topkPlaces metric nowSec embedding threshold topK hammingRadius capMatches c).Nodup := by
  rw [topkPlaces]
  split
  · exact nodup_nil
  · have hperm : (sortCandidates metric
        (candidates metric nowSec embedding threshold hammingRadius c.entries)).Perm _ :=
      sortCandidates_perm _
    have hall := (hperm.map Candidate.entryIdx).nodup_iff.mpr (candidates_places_nodup ..)
    refine ((take_sublist _ _).map _).nodup ?_
    rw [select]
    split
    · exact ((take_sublist _ _).map _).nodup hall
    · exact hall

theorem reported_nodup (op : Op) : (reported metric c op).Nodup := by
  cases op with
  | get nowSec embedding threshold outCap =>
    rw [reported]
    cases getHit metric nowSec embedding threshold c with
    | none => exact nodup_nil
    | some hit => exact nodup_singleton _
  | getTopk nowSec embedding threshold topK hammingRadius capMatches => exact topkPlaces_nodup ..
  | inboundLookup nowSec reqCbor respBuf =>
    rw [reported]
    cases lookupRequestDecode reqCbor with
    | error err => exact nodup_nil
    | ok req => exact topkPlaces_nodup ..
  | _ => exact nodup_nil

end Uses

def start (perShardMax totalMax : Nat) : State :=
  State.zeroed initialEntryCapacity ⟨perShardMax, totalMax, [], [], 0, [], zero_nil⟩

theorem sound_start (perShardMax totalMax : Nat) : Sound (start perShardMax totalMax) :=
  ⟨nodup_nil, nofun, fun _ => Nat.zero_le _, fun _ _ => Nat.zero_le _, rfl⟩

/-- What a stored record drives out: the oldest entry of a full cache, then the oldest left of a
full shard. -/
def Replaces (e : Entry) (c c' : State) : Prop :=
  ∃ embedding left left' stamp, e.embedding = some embedding ∧
    Drops (fun _ => true) (0 < c.totalMax ∧ c.totalMax ≤ c.entries.length) c.entries left ∧
    Drops (fun slot => slot.shardKey = metric.shardKey embedding)
      (0 < c.perShardMax ∧ c.perShardMax ≤ countInShard left (metric.shardKey embedding)) left left' ∧
    c'.entries = left' ++ [fresh metric e embedding stamp] ∧ ∀ slot ∈ c.entries, slot.lastAccess < stamp

variable {metric} {crypto} in
theorem Acts.replaces (hacts : Acts metric crypto c op c') (h : Sound c)
    (hfew : c.lruCounter.toNat + accesses metric crypto c op < 2 ^ 64) (he : op.offered = some e)
    (hi : inserted metric crypto c op = true) : Replaces metric e c c' := by
  cases hacts with
  | uses hi' | signals _ _ _ _ _ _ hi' | clears _ _ hi' => exact absurd (hi.symm.trans hi') (by decide)
  | inserts e' embedding he' hemb hr _ =>
    obtain rfl : e = e' := Option.some.inj (he.symm.trans he')
    rw [accesses, hr, hi] at hfew
    obtain ⟨left, htotal, hshard⟩ :=
      enforceCapsOnInsert_drops (metric.shardKey embedding) h.distinct (h.below hfew)
    exact ⟨embedding, left, _, c.lruCounter + 1, hemb, htotal, hshard,
      insertInto_entries e embedding, fun slot hslot => h.lt_succ hfew hslot⟩

structure Obeys (c : State) (op : Op) : Prop where
  replaces : ∀ e, op.offered = some e → inserted metric crypto c op = true →
    Replaces metric e c (step metric crypto c op)
  refreshes : inserted metric crypto c op = false → op.signal = none → op ≠ .clear →
    Refreshes c (reported metric c op) (step metric crypto c op)
  signals : op.signal ≠ none →
    (step metric crypto c op).entries.map Slot.lastAccess = c.entries.map Slot.lastAccess

variable {metric} {crypto} in
theorem Sound.obeys (h : Sound c) (hfew : c.lruCounter.toNat + accesses metric crypto c op <
        2 ^ 64) : Obeys metric crypto c op := by
  have hacts : Acts metric crypto c op (step metric crypto c op) := step_acts h.mem op
  refine ⟨fun e he hi => hacts.replaces h hfew he hi, fun hi hs hc => ?_, fun hs => ?_⟩
  · rw [accesses, hi] at hfew
    generalize step metric crypto c op = c' at hacts
    cases hacts with
    | uses => exact refreshes_foldl_touch (reported_nodup op) hfew
    | inserts _ _ _ _ _ hi' => exact absurd (hi.symm.trans hi') (by decide)
    | signals _ _ _ _ hs' => exact absurd hs hs'
    | clears hc' => exact absurd hc' hc
  · obtain ⟨hr, hi⟩ : reported metric c op = [] ∧ inserted metric crypto c op = false := by
      cases op with
      | positive | negative | challenge => exact ⟨rfl, rfl⟩
      | _ => exact absurd rfl hs
    generalize step metric crypto c op = c' at hacts
    cases hacts with
    | uses =>
      rw [hr]
      rfl
    | inserts _ _ _ _ _ hi' => exact absurd (hi.symm.trans hi') (by decide)
    | signals idx f _ hf => exact modify_map (fun slot => (hf slot).1) _ _
    | clears hc =>
      rw [hc] at hs
      exact absurd rfl hs

/-- The caps hold after any calls, stamps are distinct, and every further call does what the policy
says. -/
theorem lru_policy (perShardMax totalMax : Nat) (ops : List Op)
    (hfew : accessesOf metric crypto (start perShardMax totalMax) ops < 2 ^ 64) :
    (0 < totalMax → (run metric crypto (start perShardMax totalMax) ops).entries.length ≤ totalMax) ∧
    (0 < perShardMax → ∀ key,
      countInShard (run metric crypto (start perShardMax totalMax) ops).entries key ≤ perShardMax) ∧
    ((run metric crypto (start perShardMax totalMax) ops).entries.map Slot.lastAccess).Nodup ∧
    (∀ slot ∈ (run metric crypto (start perShardMax totalMax) ops).entries,
      slot.lastAccess ≤ (run metric crypto (start perShardMax totalMax) ops).lruCounter) ∧
    (run metric crypto (start perShardMax totalMax) ops).totalMax = totalMax ∧
    (run metric crypto (start perShardMax totalMax) ops).perShardMax = perShardMax ∧
    ∀ op, accessesOf metric crypto (start perShardMax totalMax) (ops ++ [op]) < 2 ^ 64 →
      Obeys metric crypto (run metric crypto (start perShardMax totalMax) ops) op := by
  have hzero : (start perShardMax totalMax).lruCounter.toNat = 0 := rfl
  obtain ⟨hsound, hcount, htotal, hshard⟩ := (sound_start perShardMax totalMax).run ops
    (show _ + accessesOf metric crypto _ ops < 2 ^ 64 by rwa [hzero, Nat.zero_add])
  rw [hzero, Nat.zero_add] at hcount
  refine ⟨fun hpos => ?_, fun hpos => ?_, hsound.distinct, hsound.stamped, htotal, hshard,
    fun op hmore => ?_⟩
  · have := hsound.total (htotal.symm ▸ hpos)
    rwa [htotal] at this
  · have := hsound.shards (hshard.symm ▸ hpos)
    rwa [hshard] at this
  · rw [accessesOf_append] at hmore
    exact hsound.obeys (by rwa [hcount])

def unsigned : Primitives := ⟨fun _ => zero32, fun _ _ => zero32, fun _ _ _ => false⟩

def visits : List Op := [.put 0 Ranking.origin [1] (by decide), .get 0 Ranking.origin 0 1,
      .put 1 Ranking.origin [2] (by decide)]

theorem lru_policy_visits : accessesOf Ranking.byAge unsigned (start 0 1) visits = 3 ∧
    (run Ranking.byAge unsigned (start 0 1) visits).entries.length ≤ 1 ∧
    Obeys Ranking.byAge unsigned (run Ranking.byAge unsigned (start 0 1) visits)
      (.put 2 Ranking.origin [3] (by decide)) := by
  have hpolicy := lru_policy Ranking.byAge unsigned 0 1 visits (by decide +kernel)
  exact ⟨by decide +kernel, hpolicy.1 (by decide), hpolicy.2.2.2.2.2.2 _ (by decide +kernel)⟩

end AntsClient.Cache.Capacity
