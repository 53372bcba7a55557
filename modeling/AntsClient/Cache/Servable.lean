import AntsClient.Cache.Steps

namespace AntsClient.Cache.Servable

open Common Crypto Cbor Values Tokens Value Wire Records Store Steps Lib.Outcome List

def Named (e : Entry) : Prop := e.embeddingModel.bytes ≠ [] ∧ e.responseModel.bytes ≠ []

def Copy (b : Buf) : Prop := b = .null 0 ∨ ∃ x, x ≠ [] ∧ b = .data x

structure Kept (e : Entry) : Prop where
  sized : Sized e
  embedding : e.embedding.isSome
  embeddingModel : Copy e.embeddingModel
  response : Copy e.response
  responseModel : Copy e.responseModel
  attestation : Copy e.attestation
  validityClass : e.validityClass ≤ 4

section Kept

variable {D : Type} {metric : Metric D} {crypto : Primitives} {e : Entry} {b : Buf}

theorem copy_kept (h : b.len > 0 → b.isNull = false) : Copy (kept b) ∧ (kept b).bytes = b.bytes := by
  cases b with
  | null len =>
    obtain rfl : len = 0 := by
      by_contra hlen
      exact Bool.noConfusion (h (Nat.pos_of_ne_zero hlen))
    exact ⟨.inl rfl, rfl⟩
  | data x =>
    cases x with
    | nil => exact ⟨.inl rfl, rfl⟩
    | cons a x => exact ⟨.inr ⟨a :: x, cons_ne_nil a x, rfl⟩, rfl⟩

theorem Copy.isNull_iff (h : Copy b) : b.isNull = false ↔ b.bytes ≠ [] := by
  obtain rfl | ⟨x, hx, rfl⟩ := h
  · exact ⟨fun h => Bool.noConfusion h, fun h => absurd rfl h⟩
  · exact ⟨fun _ => hx, fun _ => rfl⟩

theorem Copy.consistent (h : Copy b) : b.len > 0 → b.isNull = false := by
  obtain rfl | ⟨x, -, rfl⟩ := h
  · exact fun hlen => absurd hlen (Nat.lt_irrefl 0)
  · exact fun _ => rfl

theorem fresh_kept (hsized : Sized e) (hvalid : Valid e) (embedding : Embedding) (stamp : UInt64) :
    Kept (fresh metric e embedding stamp).entry := by
  obtain ⟨hem, hem'⟩ := copy_kept fun _ => hvalid.embeddingModel
  obtain ⟨hrm, hrm'⟩ := copy_kept fun _ => hvalid.responseModel
  obtain ⟨hr, hr'⟩ := copy_kept hvalid.response
  obtain ⟨ha, ha'⟩ := copy_kept hvalid.attestation
  refine ⟨⟨?_, ?_, ?_, ?_⟩, rfl, hem, hr, hrm, ha, hvalid.validityClass⟩
  · exact hem' ▸ hsized.embeddingModel
  · exact hr' ▸ hsized.response
  · exact hrm' ▸ hsized.responseModel
  · exact ha' ▸ hsized.attestation

theorem Kept.valid_iff (h : Kept e) : Valid e ↔ Named e := by
  constructor
  · intro hvalid
    exact ⟨h.embeddingModel.isNull_iff.mp hvalid.embeddingModel,
      h.responseModel.isNull_iff.mp hvalid.responseModel⟩
  · intro hnamed
    exact ⟨h.embedding, h.embeddingModel.isNull_iff.mpr hnamed.1,
      h.responseModel.isNull_iff.mpr hnamed.2, h.response.consistent,
      h.attestation.consistent, h.validityClass⟩

theorem offered_sized {op : Op} (h : op.offered = some e) : Sized e := by
  cases op with
  | put nowSec embedding value sized =>
    obtain rfl := Option.some.inj h
    exact ⟨by simp [valueEntry, Buf.bytes, embModel],
      sized, by simp [valueEntry, Buf.bytes], by simp [valueEntry, Buf.bytes]⟩
  | putRecord e' sized =>
    obtain rfl := Option.some.inj h
    exact sized
  | inboundEntry entryCbor =>
    rw [Op.offered] at h
    cases hdec : entryDecode entryCbor with
    | error err =>
      rw [hdec] at h
      cases h
    | ok e' =>
      rw [hdec] at h
      obtain rfl := Option.some.inj h
      exact entryDecode_sized hdec
  | _ => cases h

def Reachable (metric : Metric D) (crypto : Primitives) (ops : List Op) (c : State) : Prop :=
  ∃ perShardMax totalMax mem c₀, init perShardMax totalMax mem = .ok c₀ ∧ run metric crypto c₀ ops = c

theorem init_entries {perShardMax totalMax : Nat} {mem : List Bool} {c : State}
    (h : init perShardMax totalMax mem = .ok c) :
    c.entries = [] := by
  rw [init] at h
  split at h
  · rw [← Except.ok.inj h]
    rfl
  · cases h

variable {ops : List Op} {c : State}

theorem Reachable.forall_entries {P : Entry → Prop} (h : Reachable metric crypto ops c)
    (hfresh : ∀ op ∈ ops, ∀ e embedding stamp, op.offered = some e → Valid e →
      P (fresh metric e embedding stamp).entry) :
    ∀ slot ∈ c.entries, P slot.entry := by
  obtain ⟨perShardMax, totalMax, mem, c₀, hinit, rfl⟩ := h
  apply run_entries
  · exact fun op hop e embedding stamp he hvalid =>
      hfresh op hop e embedding stamp he (entryValidate_iff.mp hvalid)
  · rw [init_entries hinit]
    exact fun slot hslot => absurd hslot not_mem_nil

theorem Reachable.kept (h : Reachable metric crypto ops c) : ∀ slot ∈ c.entries, Kept slot.entry :=
  h.forall_entries fun _ _ _ embedding stamp he hvalid => fresh_kept (offered_sized he) hvalid embedding stamp

theorem Reachable.named (h : Reachable metric crypto ops c)
    (hops : ∀ op ∈ ops, ∀ e, op.offered = some e → Named e) :
    ∀ slot ∈ c.entries, Named slot.entry := by
  refine h.forall_entries fun op hop e embedding stamp he hvalid => ?_
  obtain ⟨hem, hrm⟩ := hops op hop e he
  refine ⟨?_, ?_⟩
  · rw [← (copy_kept fun _ => hvalid.embeddingModel).2] at hem
    exact hem
  · rw [← (copy_kept fun _ => hvalid.responseModel).2] at hrm
    exact hrm

end Kept

variable {capMatches cap : Nat} {respBuf : Bytes} {c' : State}

section Topk

variable {D : Type} {metric : Metric D} {nowSec : UInt64} {embedding : Embedding}
  {threshold topK hammingRadius : UInt32} {c : State}

theorem mem_select {cand : Candidate D} {entries : List Slot}
    (h : cand ∈ select metric nowSec embedding threshold topK hammingRadius entries) :
    ∃ slot, entries[cand.entryIdx]? = some slot ∧ entryStillValid slot nowSec = true := by
  have hsorted : cand ∈ sortCandidates metric
      (candidates metric nowSec embedding threshold hammingRadius entries) := by
    rw [select] at h
    split at h
    · exact mem_of_mem_take h
    · exact h
  obtain ⟨p, hp, hcand⟩ := mem_filterMap.mp (mem_of_mem_take ((sortCandidates_perm _).mem_iff.mp hsorted))
  obtain ⟨hidx, hvalid⟩ := candidate_valid hcand
  refine ⟨p.1, ?_, hvalid⟩
  rw [hidx]
  exact mem_zipIdx_iff_getElem?.mp hp

theorem mem_found {m : Match}
    (h : m ∈ (getTopk metric nowSec embedding threshold topK hammingRadius capMatches c).1.found) :
    ∃ slot ∈ c.entries, m.entry = slot.entry ∧ entryStillValid slot nowSec = true := by
  rw [getTopk] at h
  split at h
  · cases h
  · dsimp only at h
    split at h
    · cases h
    · obtain ⟨cand, hcand, hm⟩ := mem_filterMap.mp h
      obtain ⟨slot, hslot, hvalid⟩ := mem_select (mem_of_mem_take hcand)
      rw [hslot] at hm
      obtain rfl := Option.some.inj hm
      exact ⟨slot, mem_of_getElem? hslot, rfl, hvalid⟩

theorem found_length : (getTopk metric nowSec embedding threshold topK hammingRadius capMatches
        c).1.found.length ≤ capMatches := by
  rw [getTopk]
  split
  · exact Nat.zero_le _
  · dsimp only
    split
    · exact Nat.zero_le _
    · exact (length_filterMap_le _ _).trans (length_take_le _ _)

theorem clampTopK_pos (topK : UInt32) :
    clampTopK topK > 0 ∧ (clampTopK topK).toNat ≤ handleLookupServerCap.toNat := by
  rw [clampTopK]
  split
  · exact ⟨by decide, le_rfl⟩
  · rename_i h
    rw [not_or] at h
    exact ⟨UInt32.pos_iff_ne_zero.mpr h.1, UInt32.le_iff_toNat_le.mp (UInt32.not_lt.mp h.2)⟩

theorem select_clamp_length (entries : List Slot) :
    (select metric nowSec embedding threshold (clampTopK topK) hammingRadius entries).length ≤
      handleLookupServerCap.toNat := by
  obtain ⟨hpos, hle⟩ := clampTopK_pos topK
  rw [select, if_pos hpos]
  exact (length_take_le _ _).trans hle

theorem getTopk_clamp (hcap : handleLookupServerCap.toNat ≤ cap) :
    getTopk metric nowSec embedding threshold (clampTopK topK) hammingRadius cap c =
      getTopk metric nowSec embedding threshold (clampTopK topK) hammingRadius
        handleLookupServerCap.toNat c := by
  have hlen := @select_clamp_length D metric nowSec embedding threshold topK hammingRadius c.entries
  simp only [getTopk, take_of_length_le hlen, take_of_length_le (hlen.trans hcap), if_neg (Nat.not_lt.mpr hlen),
    if_neg (Nat.not_lt.mpr (hlen.trans hcap))]

theorem getTopk_clamp_err (hradius : hammingRadius ≤ maxHammingRadius) :
    (getTopk metric nowSec embedding threshold (clampTopK topK) hammingRadius
      handleLookupServerCap.toNat c).1.err = none ∨
      (getTopk metric nowSec embedding threshold (clampTopK topK) hammingRadius
        handleLookupServerCap.toNat c).1 = ⟨some .notFound, 0, []⟩ := by
  have hlen := @select_clamp_length D metric nowSec embedding threshold topK hammingRadius c.entries
  rw [getTopk, if_neg (UInt32.not_lt.mpr hradius)]
  dsimp only
  split
  · exact .inr rfl
  · exact .inl (if_neg (Nat.not_lt.mpr hlen))

end Topk

section Lookup

variable {D : Type} {metric : Metric D} {crypto : Primitives} {nowSec : UInt64} {reqCbor : Bytes}
  {req : LookupRequest} {ops : List Op}
  {c : State}

def foundFor (metric : Metric D) (nowSec : UInt64) (req : LookupRequest) (cap : Nat) (c : State) : List Match :=
  (getTopk metric nowSec req.embedding req.threshold (clampTopK req.topK) req.hammingRadius cap c).1.found

def records (found : List Match) : List Match := found.map fun m => ⟨readBack m.entry, m.similarity⟩

/-- Given room, the request is answered with what `get_topk` returns for it. -/
def Serves (metric : Metric D) (nowSec : UInt64) (reqCbor : Bytes) (req : LookupRequest) (c : State) : Prop :=
  ∃ room, ∀ respBuf : Bytes, room ≤ respBuf.length → ∃ resp c',
    handleInboundLookup metric nowSec reqCbor respBuf c = .ok resp c' ∧
    ∀ cap, handleLookupServerCap.toNat ≤ cap →
      lookupResponseDecode resp cap = .ok (records (foundFor metric nowSec req cap c))

theorem foundFor_cap (hcap : handleLookupServerCap.toNat ≤ cap) :
    foundFor metric nowSec req cap c = foundFor metric nowSec req handleLookupServerCap.toNat c := by
  rw [foundFor, getTopk_clamp hcap, foundFor]

theorem foundFor_mem (mem : List Bool) (cap : Nat) :
    foundFor metric nowSec req cap { c with mem := mem } = foundFor metric nowSec req cap c := by
  rw [foundFor, foundFor, getTopk, getTopk]
  dsimp only
  split
  · rfl
  · split
    · rfl
    · rfl

theorem handleInboundLookup_eq (hreq : lookupRequestDecode reqCbor = .ok req)
    (hmem : c.mem.headD true = true) (respBuf : Bytes) :
    ∃ c', handleInboundLookup metric nowSec reqCbor respBuf c =
      orThrow (lookupResponseEncode (foundFor metric nowSec req handleLookupServerCap.toNat c) respBuf) c' := by
  have hmalloc : malloc c = .ok () { c with mem := c.mem.tail } := by rw [malloc, if_pos hmem]
  have herr := @getTopk_clamp_err D metric nowSec req.embedding req.threshold req.topK
    req.hammingRadius { c with mem := c.mem.tail }
    (lookupRequestDecode_radius hreq)
  have hthrow : orThrow (.ok req) c = .ok req c := rfl
  rw [← foundFor_mem c.mem.tail, foundFor, handleInboundLookup,
    if_neg (lookupRequestDecode_nonempty hreq), hreq]
  simp only [bind_ok hthrow, bind_ok hmalloc, get_bind_apply, set_bind]
  generalize getTopk metric nowSec req.embedding req.threshold (clampTopK req.topK)
    req.hammingRadius handleLookupServerCap.toNat
    { c with mem := c.mem.tail } = result at herr
  refine ⟨result.2, ?_⟩
  obtain herr | hnone := herr
  · rw [herr]
  · rw [hnone]

theorem Reachable.kept_found (h : Reachable metric crypto ops c) :
    ∀ m ∈ foundFor metric nowSec req cap c, Kept m.entry := by
  intro m hm
  obtain ⟨slot, hslot, heq, -⟩ := mem_found hm
  rw [heq]
  exact h.kept slot hslot

theorem Reachable.found_fits (h : Reachable metric crypto ops c) :
    (foundFor metric nowSec req handleLookupServerCap.toNat c).length ≤ handleLookupServerCap.toNat ∧
      (foundFor metric nowSec req handleLookupServerCap.toNat c).length < 2 ^ 64 ∧
      ∀ m ∈ foundFor metric nowSec req handleLookupServerCap.toNat c, Sized m.entry :=
  ⟨found_length, lt_of_le_of_lt found_length (by decide), fun m hm => (h.kept_found m hm).sized⟩

theorem lookup_accepted {resp : Bytes} (h : handleInboundLookup metric nowSec reqCbor respBuf c = .ok resp c') :
    ∃ req, lookupRequestDecode reqCbor = .ok req ∧ c.mem.headD true = true := by
  have hends : Ends (handleInboundLookup metric nowSec reqCbor respBuf) c fun r _ =>
      r = none ∨ ∃ req, lookupRequestDecode reqCbor = .ok req ∧ c.mem.headD true = true := by
    rw [handleInboundLookup]
    split
    · exact ends_throw_bind (.inl rfl)
    · refine (ends_orThrow _ c).bind (fun _ _ => .inl rfl) fun req c₁ hreq => ?_
      obtain ⟨rfl, hreq⟩ := hreq
      refine (ends_malloc_ok c₁).bind (fun _ _ => .inl rfl) fun _ c₂ hmem => ?_
      exact Ends.of_forall fun _ _ => .inr ⟨req, hreq req rfl, hmem (Option.some_ne_none _)⟩
  exact (hends.of_ok h).resolve_left (Option.some_ne_none _)

theorem lookup_reply (hreach : Reachable metric crypto ops c) {resp : Bytes}
    (h : handleInboundLookup metric nowSec reqCbor respBuf c = .ok resp c') :
    ∃ req, lookupResponseDecode resp handleLookupServerCap.toNat =
      .ok (records (foundFor metric nowSec req handleLookupServerCap.toNat c)) := by
  obtain ⟨req, hreq, hmem⟩ := lookup_accepted h
  obtain ⟨c'', hlookup⟩ := @handleInboundLookup_eq D metric nowSec reqCbor req c hreq hmem respBuf
  obtain ⟨hlen, hlt, hsized⟩ := @Reachable.found_fits D metric crypto nowSec req ops c hreach
  rw [hlookup] at h
  obtain ⟨-, hresp⟩ := (ends_orThrow _ c'').of_ok h
  obtain ⟨hvalid, rfl, -⟩ := (lookupResponseEncode_iff hlt hsized).mp (hresp resp rfl)
  exact ⟨req, lookupResponseDecode_encode hlt hlen hsized hvalid⟩

variable (h : Reachable metric crypto ops c) (hreq : lookupRequestDecode reqCbor = .ok req)
  (hmem : c.mem.headD true = true)

include h hreq hmem

theorem lookup_refused (hunnamed : ∃ m ∈ foundFor metric nowSec req handleLookupServerCap.toNat c,
      ¬ Named m.entry) (respBuf : Bytes) :
    ∃ c', handleInboundLookup metric nowSec reqCbor respBuf c = .error .invalidArg c' := by
  obtain ⟨c', hlookup⟩ := @handleInboundLookup_eq D metric nowSec reqCbor req c hreq hmem respBuf
  obtain ⟨m, hm, hname⟩ := hunnamed
  refine ⟨c', ?_⟩
  rw [hlookup, lookupResponseEncode,
    entriesValidate_error ⟨m, hm, fun hvalid => hname ((h.kept_found m hm).valid_iff.mp hvalid)⟩]
  rfl

theorem serves_of_named (hnamed : ∀ m ∈ foundFor metric nowSec req handleLookupServerCap.toNat c,
      Named m.entry) : Serves metric nowSec reqCbor req c := by
  obtain ⟨hlen, hlt, hsized⟩ := @Reachable.found_fits D metric crypto nowSec req ops c h
  have hvalid : ∀ m ∈ foundFor metric nowSec req handleLookupServerCap.toNat c, Valid m.entry :=
    fun m hm => (h.kept_found m hm).valid_iff.mpr (hnamed m hm)
  refine ⟨(encode (responseValue
    (foundFor metric nowSec req handleLookupServerCap.toNat c))).length, fun respBuf hroom => ?_⟩
  obtain ⟨c', hlookup⟩ := @handleInboundLookup_eq D metric nowSec reqCbor req c hreq hmem respBuf
  have hencode := (lookupResponseEncode_iff hlt hsized).mpr ⟨hvalid, rfl, hroom⟩
  refine ⟨_, c', by rw [hlookup, hencode]; rfl, fun cap hcap => ?_⟩
  rw [foundFor_cap hcap]
  exact lookupResponseDecode_encode hlt (hlen.trans hcap) hsized hvalid

theorem serves_iff :
    Serves metric nowSec reqCbor req c ↔
    ∀ m ∈ foundFor metric nowSec req handleLookupServerCap.toNat c, Named m.entry := by
  refine ⟨fun hserves => ?_, serves_of_named h hreq hmem⟩
  by_contra hnamed
  push Not at hnamed
  obtain ⟨room, hroom⟩ := hserves
  obtain ⟨resp, c', hok, -⟩ := hroom (replicate room 0) (by rw [length_replicate])
  obtain ⟨c'', herror⟩ := lookup_refused h hreq hmem hnamed (replicate room 0)
  rw [hok] at herror
  cases herror

/-- When every record offered has both of its model names, every lookup is served. -/
theorem lookups_served :
    ((∀ op ∈ ops, ∀ e, op.offered = some e → Named e) → Serves metric nowSec reqCbor req c) ∧
      (Serves metric nowSec reqCbor req c ↔
        ∀ m ∈ foundFor metric nowSec req handleLookupServerCap.toNat c, Named m.entry) := by
  refine ⟨fun hops => serves_of_named h hreq hmem fun m hm => ?_, serves_iff h hreq hmem⟩
  obtain ⟨slot, hslot, heq, -⟩ := mem_found hm
  rw [heq]
  exact h.named hops slot hslot

end Lookup

section Sample

def whole : Arith Int where
  add := (· + ·)
  sub := (· - ·)
  mul := (· * ·)
  div := (· / ·)
  lt x y := x < y
  le x y := x ≤ y
  ofFloat x := if x = 0x3f800000 then 1 else 0
  toFloat x := if x = 1 then 0x3f800000 else 0
  ofUInt64 x := x.toNat
  minusTwo := -2
  recencyFloor := 0
  projection _ := replicate embedDim 0

def basis (n : Nat) : List UInt32 := 0x3f800000 :: replicate n 0

def unit : Embedding := ⟨basis 1023, by rw [basis, length_cons, length_replicate]; rfl⟩

theorem whole_dot_zeros (n : Nat) (x : Int) : ((replicate n (0 : UInt32)).zip (replicate n 0)).foldl
    (fun dot p => whole.add dot (whole.mul (whole.ofFloat p.1) (whole.ofFloat p.2))) x = x := by
  induction n generalizing x with
  | zero => rfl
  | succ n ih =>
    rw [replicate_succ, zip_cons_cons, foldl_cons, ih]
    exact Int.add_zero x

theorem whole_dot_basis (n : Nat) : whole.dot (basis n) (basis n) = 1 := by
  rw [Arith.dot, basis, zip_cons_cons, foldl_cons, whole_dot_zeros]
  rfl

theorem whole_unit : whole.metric.cosine unit unit = 1 := by
  have hcosine (a b : Embedding) : whole.metric.cosine a b = whole.dot a.val b.val := rfl
  rw [hcosine, unit, whole_dot_basis]

theorem popcount_self (key : UInt64) : shardKeyPopcount (key ^^^ key) = 0 := by
  rw [UInt64.xor_self]
  rfl

variable {D : Type} {metric : Metric D} {nowSec : UInt64} {embedding : Embedding}
  {threshold topK hammingRadius : UInt32}

theorem candidate_of_valid {slot : Slot} (idx : Nat) (hvalid : entryStillValid slot nowSec = true)
    (hkey : slot.shardKey = metric.shardKey embedding)
    (hsim : metric.lt (metric.cosine slot.embedding embedding) (metric.ofFloat threshold) = false) :
    ∃ score, candidate metric nowSec embedding threshold hammingRadius slot idx =
      some ⟨idx, metric.cosine slot.embedding embedding, score⟩ := by
  rw [candidate, hvalid, hkey, popcount_self, hsim]
  exact ⟨_, rfl⟩

theorem found_of_candidates {c : State} {slot : Slot} {cap : Nat} {cand : Candidate D} (hcap : 0 < cap)
    (hcands : candidates metric nowSec embedding threshold hammingRadius c.entries = [cand])
    (hslot : c.entries[cand.entryIdx]? = some slot) (hradius : hammingRadius ≤ maxHammingRadius) :
    (getTopk metric nowSec embedding threshold topK hammingRadius cap c).1.found =
      [⟨slot.entry, metric.toFloat cand.similarity⟩] := by
  have hselect : select metric nowSec embedding threshold topK hammingRadius c.entries = [cand] := by
    rw [select, hcands]
    split
    · rename_i hpos
      exact take_of_length_le (Nat.succ_le_of_lt (UInt32.lt_iff_toNat_lt.mp hpos))
    · rfl
  rw [getTopk, if_neg (UInt32.not_lt.mpr hradius), hselect]
  dsimp only
  rw [if_neg (by simp), take_of_length_le (Nat.succ_le_of_lt hcap), filterMap_cons, hslot]
  rfl

theorem found_single {c : State} {slot : Slot} {cap : Nat} (hcap : 0 < cap) (hentries : c.entries = [slot])
    (hvalid : entryStillValid slot nowSec = true) (hkey : slot.shardKey = metric.shardKey embedding)
    (hsim : metric.lt (metric.cosine slot.embedding embedding) (metric.ofFloat threshold) = false)
    (hradius : hammingRadius ≤ maxHammingRadius) :
    (getTopk metric nowSec embedding threshold topK hammingRadius cap c).1.found =
      [⟨slot.entry, metric.toFloat (metric.cosine slot.embedding embedding)⟩] := by
  obtain ⟨score, hcand⟩ :=
    @candidate_of_valid D metric nowSec embedding threshold hammingRadius slot 0 hvalid hkey hsim
  have hcands : candidates metric nowSec embedding threshold hammingRadius c.entries =
      [⟨0, metric.cosine slot.embedding embedding, score⟩] := by
    rw [candidates, hentries, zipIdx_cons, zipIdx_nil, filterMap_cons]
    simp only [hcand]
    rfl
  exact found_of_candidates hcap hcands (by rw [hentries]; rfl) hradius

def request : LookupRequest := ⟨unit, 0x3f800000, 0, 0⟩

theorem request_decode : lookupRequestDecode (encode (requestValue request)) = .ok request :=
  lookupRequestDecode_encode (by decide)

def empty : State := State.zeroed initialEntryCapacity ⟨0, 0, [], [], 0, [], zero_nil⟩

theorem empty_init : init 0 0 [] = .ok empty := rfl

def stored (e : Entry) : State :=
  { empty with
    lruCounter := 1
    entries := [fresh whole.metric e unit 1]
    spare := empty.spare.tail
    spare_zero := empty.tail_zero }

theorem unit_similar :
    whole.metric.lt (whole.metric.cosine unit unit) (whole.metric.ofFloat 0x3f800000) = false := by
  rw [whole_unit]
  rfl

theorem stored_found {e : Entry} (hvalid : entryStillValid (fresh whole.metric e unit 1) 0 = true) :
    foundFor whole.metric 0 request handleLookupServerCap.toNat (stored e) =
      [⟨(fresh whole.metric e unit 1).entry, whole.metric.toFloat (whole.metric.cosine unit unit)⟩] := by
  have hkey := fresh_shardKey whole.metric e unit 1
  exact @found_single Int whole.metric 0 unit 0x3f800000 (clampTopK 0) 0 (stored e) _
    handleLookupServerCap.toNat (by decide) rfl
    hvalid hkey unit_similar (by decide)

/-- A value that `put` stores cannot be looked up by a peer: the empty name of its response model is
lost in the copy. -/
theorem put_not_served : lookupRequestDecode (encode (requestValue request)) = .ok request ∧ ∀ crypto respBuf,
    ∃ c, Reachable whole.metric crypto [.put 0 unit [0x61] (by decide)] c ∧ c.mem.headD true = true ∧
      ∃ c', handleInboundLookup whole.metric 0 (encode (requestValue request)) respBuf c =
        .error .invalidArg c' := by
  refine ⟨request_decode, fun crypto respBuf => ⟨stored (valueEntry 0 unit [0x61]), ?_⟩⟩
  have hreach : Reachable whole.metric crypto [.put 0 unit [0x61] (by decide)]
      (stored (valueEntry 0 unit [0x61])) :=
    ⟨0, 0, [], empty, empty_init, rfl⟩
  refine ⟨hreach, rfl, lookup_refused hreach request_decode rfl ?_ respBuf⟩
  rw [stored_found rfl]
  exact ⟨_, mem_singleton_self _, fun hnamed => hnamed.2 rfl⟩

def namedEntry : Entry := { valueEntry 0 unit [0x61] with responseModel := .data [0x6d] }

/-- A stored record with both names is returned to a peer. -/
theorem lookups_served_put : (∀ op ∈ [Op.putRecord namedEntry
        ⟨by decide, by decide, by decide, by decide⟩], ∀ e, op.offered = some e → Named e) ∧
    ∀ crypto, Serves whole.metric 0 (encode (requestValue request)) request (run whole.metric crypto empty
      [.putRecord namedEntry ⟨by decide, by decide, by decide, by decide⟩]) := by
  have hnamed : ∀ op ∈ [Op.putRecord namedEntry ⟨by decide, by decide, by decide, by decide⟩], ∀ e,
      op.offered = some e → Named e := by
    intro op hop e he
    obtain rfl := mem_singleton.mp hop
    obtain rfl := Option.some.inj he
    exact ⟨by decide, by decide⟩
  refine ⟨hnamed, fun crypto => ?_⟩
  exact (lookups_served ⟨0, 0, [], empty, empty_init, rfl⟩ request_decode rfl).1 hnamed

end Sample

end AntsClient.Cache.Servable
