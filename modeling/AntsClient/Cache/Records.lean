import AntsClient.Cache.Wire

namespace AntsClient.Cache.Records

open Common Cbor Codec Tokens EncoderSpec Values Walk Canonical Schema Sizes Value Crypto
  Chain.FieldReaders Wire List
open Crdt.Proof (runDec)

def recordPairs (e : Entry) : List (Value × Value) := [
  (.uint 1, .bytes (floatsToLeBytes e.floats)),
  (.uint 2, .text e.embeddingModel.bytes),
  (.uint 3, .bytes e.promptHash.val),
  (.uint 4, .bytes e.response.bytes),
  (.uint 5, .text e.responseModel.bytes),
  (.uint 6, .bytes e.producer.val),
  (.uint 7, .uint e.created.toNat),
  (.uint 8, .uint e.validityClass.toUInt64.toNat),
  (.uint 9, .bytes e.attestation.bytes)]

def payloadValue (e : Entry) : Value := .map (recordPairs e)

def entryValue (e : Entry) : Value := .map (recordPairs e ++ [(.uint 10, .bytes e.signature.val)])

def matchValue (m : Match) : Value :=
  .map [(.uint 1, .bytes (floatToLeBytes m.similarity)), (.uint 2, entryValue m.entry)]

def responseValue (found : List Match) : Value := .map [(.uint 1, .array (found.map matchValue))]

structure Sized (e : Entry) : Prop where
  embeddingModel : e.embeddingModel.bytes.length < 2 ^ 64
  response : e.response.bytes.length < 2 ^ 64
  responseModel : e.responseModel.bytes.length < 2 ^ 64
  attestation : e.attestation.bytes.length < 2 ^ 64

/-- A record as it is read back: its pointers are into the bytes that were received. -/
def readBack (e : Entry) : Entry := { e with
  embeddingModel := .data e.embeddingModel.bytes
  response := .data e.response.bytes
  responseModel := .data e.responseModel.bytes
  attestation := .data e.attestation.bytes }

section Values

variable {e : Entry} {found : List Match}

theorem tokens_entryValue (e : Entry) : tokens (entryValue e) =
    [.map 10, .uint 1, .bytes (floatsToLeBytes e.floats), .uint 2, .text e.embeddingModel.bytes,
      .uint 3, .bytes e.promptHash.val,
      .uint 4, .bytes e.response.bytes, .uint 5, .text e.responseModel.bytes, .uint 6, .bytes e.producer.val,
      .uint 7, .uint e.created.toNat, .uint 8, .uint e.validityClass.toUInt64.toNat, .uint 9,
      .bytes e.attestation.bytes,
      .uint 10, .bytes e.signature.val] := by
  simp [entryValue, recordPairs, tokens, tokensPairs]

theorem tokens_matchValue (m : Match) : tokens (matchValue m) =
    .map 2 :: .uint 1 :: .bytes (floatToLeBytes m.similarity) :: .uint 2 :: tokens (entryValue m.entry) := by
  simp [matchValue, tokens, tokensPairs]

theorem tokens_responseValue (found : List Match) : tokens (responseValue found) =
    .map 1 :: .uint 1 :: .array found.length :: found.flatMap fun m => tokens (matchValue m) := by
  rw [responseValue, tokens, tokensPairs, tokens_array, length_map, flatMap_map]
  simp [tokens, tokensPairs]

theorem floats_length_lt (e : Entry) : (floatsToLeBytes e.floats).length < 2 ^ 64 := by
  have hle : e.floats.length ≤ embedDim := by
    rw [Entry.floats]
    cases e.embedding with
    | none => exact Nat.zero_le _
    | some x => exact x.length_val.le
  rw [floatsToLeBytes_length]
  exact lt_of_le_of_lt (Nat.mul_le_mul_right 4 hle) (by decide)

theorem entryValue_within (h : Sized e) : Within 1 (entryValue e) := by
  apply within_fields [1, 2, 3, 4, 5, 6, 7, 8, 9, 10] rfl (by decide)
  simp [recordPairs, within_bytes (floats_length_lt e), within_text h.embeddingModel, within_bytes h.response,
    within_text h.responseModel, within_bytes h.attestation]

theorem entryValue_wellFormed (h : Sized e) : WellFormed (entryValue e) :=
  (entryValue_within h).wellFormed (by decide)

theorem responseValue_wellFormed (hlen : found.length < 2 ^ 64) (h : ∀ m ∈ found, Sized m.entry) :
    WellFormed (responseValue found) := by
  have hmatch : ∀ m ∈ found, Within 2 (matchValue m) := by
    intro m hm
    have hfloat : (floatToLeBytes m.similarity).length < 2 ^ 64 := by rw [floatToLeBytes_length]; decide
    apply within_fields [1, 2] rfl (by decide)
    simp [within_bytes hfloat, entryValue_within (h m hm)]
  have hwithin : Within 4 (responseValue found) :=
    within_fields [1] rfl (by decide) (by simpa using within_array_map hlen hmatch)
  exact hwithin.wellFormed (by decide)

end Values

variable {b : Bytes} {α : Type} {max : UInt64} {e : Entry}

section Encode

variable {found : List Match} {buf : Bytes}

theorem entryEmit_eq (e : Entry) : entryEmit e true = encCalls (calls (entryValue e)) := by
  simp only [calls, tokens_entryValue, map_cons, map_nil, Token.call, UInt64.ofNat_toNat, encCalls,
    encCall, entryEmit,
    if_true, bind_pure_unit]
  rfl

theorem entryEncode_iff (hsized : Sized e) :
    entryEncode e buf = .ok b ↔ entryValidate e = .ok () ∧ encode (entryValue e) = b ∧
    b.length ≤ buf.length := by
  rw [← encodeInto_iff (entryValue_wellFormed hsized), encodeInto, ← entryEmit_eq, entryEncode]
  cases h : entryValidate e with
  | error err => simp [bind, Except.bind]
  | ok u => simp [bind, Except.bind]

theorem encode_entryValue_length (e : Entry) : (encode (entryValue e)).length ≤
    4413 + e.embeddingModel.bytes.length + e.response.bytes.length + e.responseModel.bytes.length +
      e.attestation.bytes.length := by
  have hfloats : (floatsToLeBytes e.floats).length ≤ 4096 := by
    rw [floatsToLeBytes_length, Entry.floats]
    cases e.embedding with
    | none => exact Nat.zero_le _
    | some x =>
      rw [Option.map_some, Option.getD_some, x.length_val]
      decide
  refine (encode_length_le _).trans ?_
  rw [tokens_entryValue]
  simp only [flatMap_cons, flatMap_nil, payload, length_append, length_cons, length_nil,
    e.promptHash.length_val, e.producer.length_val, e.signature.length_val]
  generalize (floatsToLeBytes e.floats).length = n at hfloats ⊢
  linarith

theorem matchesEmit_eq (found : List Match) :
    matchesEmit found = encCalls (found.flatMap fun m => calls (matchValue m)) := by
  induction found with
  | nil => rfl
  | cons m rest ih =>
    have hcalls : calls (matchValue m) =
        .map 2 :: .uint 1 :: .bytes (floatToLeBytes m.similarity) :: .uint 2 :: calls (entryValue m.entry) := by
      rw [calls, tokens_matchValue]
      rfl
    rw [matchesEmit, ih, flatMap_cons, encCalls_append, entryEmit_eq, hcalls]
    simp only [encCalls, encCall, bind_assoc]

structure Valid (e : Entry) : Prop where
  embedding : e.embedding.isSome
  embeddingModel : e.embeddingModel.isNull = false
  responseModel : e.responseModel.isNull = false
  response : e.response.len > 0 → e.response.isNull = false
  attestation : e.attestation.len > 0 → e.attestation.isNull = false
  validityClass : e.validityClass ≤ 4

theorem entryValidate_iff : entryValidate e = .ok () ↔ Valid e := by
  rw [entryValidate]
  constructor
  · intro h
    split at h
    · cases h
    · rename_i hnull
      split at h
      · cases h
      · rename_i hresponse
        split at h
        · cases h
        · rename_i hattestation
          split at h
          · cases h
          · rename_i hclass
            simp only [not_or, Bool.not_eq_true, not_and] at hnull hresponse hattestation
            exact ⟨Option.isSome_iff_ne_none.mpr hnull.1, hnull.2.1, hnull.2.2, hresponse,
              hattestation, UInt32.not_lt.mp hclass⟩
  · intro h
    rw [if_neg, if_neg, if_neg, if_neg (UInt32.not_lt.mpr h.validityClass)]
    · exact fun ha => absurd (h.attestation ha.1) (by rw [ha.2]; exact Bool.noConfusion)
    · exact fun hr => absurd (h.response hr.1) (by rw [hr.2]; exact Bool.noConfusion)
    · simp [h.embeddingModel, h.responseModel, Option.isSome_iff_ne_none.mp h.embedding]

theorem entryValidate_error (h : ¬ Valid e) : entryValidate e = .error .invalidArg := by
  have hok : entryValidate e ≠ .ok () := fun hok => h (entryValidate_iff.mp hok)
  rw [entryValidate] at hok ⊢
  split_ifs at hok ⊢ <;> first | rfl | exact absurd rfl hok

theorem entriesValidate_error (h : ∃ m ∈ found, ¬ Valid m.entry) :
    entriesValidate found = .error .invalidArg := by
  induction found with
  | nil =>
    obtain ⟨m, hm, -⟩ := h
    cases hm
  | cons m rest ih =>
    rw [entriesValidate]
    by_cases hm : Valid m.entry
    · rw [entryValidate_iff.mpr hm]
      apply ih
      obtain ⟨m', hm', hinvalid⟩ := h
      obtain rfl | hmem := mem_cons.mp hm'
      · exact absurd hm hinvalid
      · exact ⟨m', hmem, hinvalid⟩
    · rw [entryValidate_error hm]
      rfl

theorem entriesValidate_iff : entriesValidate found = .ok () ↔ ∀ m ∈ found, Valid m.entry := by
  induction found with
  | nil => simp [entriesValidate]
  | cons m rest ih =>
    rw [entriesValidate, forall_mem_cons, ← ih, ← entryValidate_iff]
    cases h : entryValidate m.entry with
    | error err => simp [bind, Except.bind]
    | ok u => simp [bind, Except.bind]

theorem lookupResponseEncode_iff (hlen : found.length < 2 ^ 64) (hsized : ∀ m ∈ found, Sized m.entry) :
    lookupResponseEncode found buf = .ok b ↔ (∀ m ∈ found, Valid m.entry) ∧
    encode (responseValue found) = b ∧ b.length ≤ buf.length := by
  have hcalls : (do encMap 1; encUint 1; encArray (UInt64.ofNat found.length); matchesEmit found : EncM Unit) =
      encCalls (calls (responseValue found)) := by
    rw [matchesEmit_eq, calls, tokens_responseValue]
    simp only [map_cons, Token.call, encCalls, encCall, map_flatMap]
    rfl
  rw [← encodeInto_iff (responseValue_wellFormed hlen hsized), encodeInto, ← hcalls,
    ← entriesValidate_iff, lookupResponseEncode]
  cases h : entriesValidate found with
  | error err => simp [bind, Except.bind]
  | ok u => simp [bind, Except.bind]

end Encode

section Decode

variable {us : List Token} {found : List Match}

theorem takes_expectKey {key : UInt64} : Takes (expectKey key) (.uint key.toNat :: us) us () :=
  takes_expected takes_uint

theorem takes_decMapOf {pairs : UInt64} : Takes (decMapOf pairs) (.map pairs.toNat :: us) us () :=
  takes_expected takes_map

theorem takes_orNonCanonical {x : Option α} {a : α} (h : x = some a) : Takes (orNonCanonical x) us us a := by
  rw [h]
  exact takes_pure

theorem takes_decEmbedding {x : Embedding} : Takes decEmbedding (.bytes x.bytes :: us) us x :=
  takes_bytes.bind (takes_orNonCanonical (toEmbedding_eq_some.mpr rfl))

theorem takes_decHash {x : Bytes32} : Takes decHash (.bytes x.val :: us) us x :=
  takes_bytes.bind (takes_orNonCanonical (toBytes32_eq_some.mpr rfl))

theorem takes_decSignature {x : Signature} : Takes decSignature (.bytes x.val :: us) us x :=
  takes_bytes.bind (takes_orNonCanonical (toSignature_val x))

theorem takes_decFloat {x : UInt32} : Takes decFloat (.bytes (floatToLeBytes x) :: us) us x := by
  refine takes_bytes.bind (takes_orNonCanonical ?_)
  rw [if_pos (floatToLeBytes_length x), leBytesToFloat_floatToLeBytes]

theorem takes_decUintUpTo {v : UInt32} (h : v.toUInt64 ≤ max) :
    Takes (decUintUpTo max) (.uint v.toUInt64.toNat :: us) us v := by
  refine takes_uint.bind ?_
  rw [if_neg (UInt64.not_lt.mpr h), UInt32.toUInt32_toUInt64]
  exact takes_pure

theorem takes_atEof : Takes atEof [] [] () := by
  intro doc d hd
  refine ⟨d, ?_, hd⟩
  rw [atEof, if_pos]
  simpa [decEof] using hd.pos.ge

theorem takes_entryConsume (hemb : e.embedding.isSome) (hclass : e.validityClass ≤ 4) :
    Takes entryConsume (tokens (entryValue e) ++ us) us (readBack e) := by
  obtain ⟨x, hx⟩ := Option.isSome_iff_exists.mp hemb
  have hfloats : floatsToLeBytes e.floats = x.bytes := by
    rw [Entry.floats, hx]
    rfl
  have hback : readBack e = { readBack e with embedding := some x } := by rw [← hx]; rfl
  rw [tokens_entryValue, hfloats, hback]
  exact takes_decMapOf.bind
    (takes_expectKey.bind (takes_decEmbedding.bind (takes_expectKey.bind (takes_text.bind
    (takes_expectKey.bind (takes_decHash.bind
    (takes_expectKey.bind (takes_bytes.bind (takes_expectKey.bind (takes_text.bind
    (takes_expectKey.bind (takes_decHash.bind (takes_expectKey.bind (takes_uint.bind (takes_expectKey.bind
    ((takes_decUintUpTo hclass).bind
    (takes_expectKey.bind (takes_bytes.bind (takes_expectKey.bind (takes_decSignature.bind
    takes_pure))))))))))))))))))))

theorem takes_matchConsume {m : Match} (hemb : m.entry.embedding.isSome) (hclass : m.entry.validityClass ≤ 4) :
    Takes matchConsume (tokens (matchValue m) ++ us) us ⟨readBack m.entry, m.similarity⟩ := by
  rw [tokens_matchValue]
  exact takes_decMapOf.bind (takes_expectKey.bind (takes_decFloat.bind (takes_expectKey.bind
    ((takes_entryConsume hemb hclass).bind takes_pure))))

theorem takes_matchesConsume (h : ∀ m ∈ found, m.entry.embedding.isSome ∧ m.entry.validityClass ≤ 4) :
    Takes (matchesConsume found.length) ((found.flatMap fun m => tokens (matchValue m)) ++ us) us
      (found.map fun m => ⟨readBack m.entry, m.similarity⟩) :=
  Repeats.takes ⟨rfl, fun _ => rfl⟩ fun m hm _ => takes_matchConsume (h m hm).1 (h m hm).2

theorem lookupResponseDecode_encode {cap : Nat} (hlen : found.length < 2 ^ 64) (hcap : found.length ≤ cap)
    (hsized : ∀ m ∈ found, Sized m.entry) (h : ∀ m ∈ found, Valid m.entry) :
    lookupResponseDecode (encode (responseValue found)) cap =
      .ok (found.map fun m => ⟨readBack m.entry, m.similarity⟩) := by
  have hn : (UInt64.ofNat found.length).toNat = found.length := UInt64.toNat_ofNat_of_lt' hlen
  have hmatches := @takes_matchesConsume [] found fun m hm => ⟨(h m hm).embedding, (h m hm).validityClass⟩
  rw [append_nil] at hmatches
  refine runDec_of_takes (responseValue_wellFormed hlen hsized) (?_ : Takes _ _ [] _)
  rw [tokens_responseValue]
  refine takes_decMapOf.bind (takes_expectKey.bind ?_)
  have harray := @takes_array (found.flatMap fun m => tokens (matchValue m)) (UInt64.ofNat found.length)
  rw [hn] at harray
  refine harray.bind ?_
  rw [hn, Nat.min_eq_left hcap]
  refine hmatches.bind ?_
  rw [if_neg (Nat.not_lt.mpr hcap)]
  exact takes_atEof.bind takes_pure

end Decode

section Accept

theorem yields_expectKey (key : UInt64) : Yields (expectKey key) fun _ ts => ts = [.uint key.toNat] :=
  yields_expected (g := fun n => .uint n.toNat) yields_uint

theorem yields_decMapOf (pairs : UInt64) : Yields (decMapOf pairs) fun _ ts => ts = [.map pairs.toNat] :=
  yields_expected (g := fun n => .map n.toNat) yields_map

theorem yields_orNonCanonical {f : Bytes → Option α} {g : α → Bytes} (h : ∀ b a, f b = some a → b = g a) :
    Yields (do let b ← decBytes; orNonCanonical (f b)) fun a ts => ts = [.bytes (g a)] := by
  refine yields_bytes.step fun b => ?_
  cases hb : f b with
  | none => exact yields_throw
  | some a => exact yields_pure (by rw [h b a hb])

theorem yields_decEmbedding : Yields decEmbedding fun x ts => ts = [.bytes x.bytes] :=
  yields_orNonCanonical fun _ _ => toEmbedding_eq_some.mp

theorem yields_decHash : Yields decHash fun x ts => ts = [.bytes x.val] :=
  yields_orNonCanonical fun _ _ => toBytes32_eq_some.mp

theorem yields_decSignature : Yields decSignature fun x ts => ts = [.bytes x.val] := by
  refine yields_orNonCanonical fun b a h => ?_
  rw [toSignature] at h
  split at h
  · rw [← Option.some.inj h]
  · cases h

theorem yields_decUintUpTo (hmax : max ≤ 0xffffffff) :
    Yields (decUintUpTo max) fun v ts => ts = [.uint v.toUInt64.toNat] ∧ v.toUInt64 ≤ max := by
  refine yields_uint.step fun v => yields_guard fun h => ?_
  have hv : v ≤ max := UInt64.not_lt.mp h
  have hback : v.toUInt32.toUInt64 = v := by
    apply UInt64.toNat_inj.mp
    have hle : v.toNat ≤ 0xffffffff := UInt64.le_iff_toNat_le.mp (UInt64.le_trans hv hmax)
    rw [UInt32.toNat_toUInt64, UInt64.toNat_toUInt32]
    exact Nat.mod_eq_of_lt (Nat.lt_succ_of_le hle)
  exact yields_pure (by rw [hback]; exact ⟨rfl, hv⟩)

structure Accepted (e : Entry) : Prop where
  embedding : e.embedding.isSome
  back : readBack e = e
  validityClass : e.validityClass ≤ 4

theorem yields_entryConsume : Yields entryConsume fun e ts => ts = tokens (entryValue e) ∧ Accepted e := by
  refine (yields_decMapOf 10).step fun _ => (yields_expectKey 1).step fun _ =>
      yields_decEmbedding.step fun embedding =>
    (yields_expectKey 2).step fun _ => yields_text.step fun embeddingModel => (yields_expectKey 3).step fun _ =>
    yields_decHash.step fun promptHash => (yields_expectKey 4).step fun _ => yields_bytes.step fun response =>
    (yields_expectKey 5).step fun _ => yields_text.step fun responseModel => (yields_expectKey 6).step fun _ =>
    yields_decHash.step fun producer => (yields_expectKey 7).step fun _ => yields_uint.step fun created =>
    (yields_expectKey 8).step fun _ => (yields_decUintUpTo (by decide)).bind fun validityClass ts hclass => ?_
  obtain ⟨rfl, hle⟩ := hclass
  refine (yields_expectKey 9).step fun _ => yields_bytes.step fun attestation =>
      (yields_expectKey 10).step fun _ =>
    yields_decSignature.step fun signature => yields_pure ⟨?_, rfl, rfl, hle⟩
  rw [tokens_entryValue]
  rfl

theorem sized_of_valid (h : ∀ t ∈ tokens (entryValue e), t.Valid) : Sized e := by
  rw [tokens_entryValue] at h
  simp only [forall_mem_cons] at h
  exact ⟨h.2.2.2.2.1, h.2.2.2.2.2.2.2.2.1, h.2.2.2.2.2.2.2.2.2.2.1, h.2.2.2.2.2.2.2.2.2.2.2.2.2.2.2.2.2.2.1⟩

theorem yields_atEof : Yields atEof fun _ ts => ts = [] := by
  intro d a d' hd h
  rw [atEof] at h
  split at h
  · obtain ⟨-, rfl⟩ := EStateM.Result.ok.inj h
    exact ⟨⟨[], rfl, fun t ht => absurd ht not_mem_nil, readsAll_nil hd⟩, False.elim⟩
  · cases h

theorem runDec_yields {α : Type} {x : DecM α} {T : α → List Token → Prop} (hx : Yields x T) {b : Bytes} {a : α}
    (h : runDec x b = .ok a) : ∃ ts, T a ts ∧ ∀ t ∈ ts, t.Valid := by
  obtain ⟨d, hb⟩ := Crdt.Readers.runDec_eq_ok.mp h
  obtain ⟨⟨ts, hT, hvalid, -⟩, -⟩ := hx _ _ _ (Cbor.DecoderSpec.decInit_ok b) hb
  exact ⟨ts, hT, hvalid⟩

theorem entryDecode_sound (h : entryDecode b = .ok e) : b = encode (entryValue e) ∧ Accepted e ∧ Sized e := by
  obtain ⟨d, hb⟩ := Crdt.Readers.runDec_eq_ok.mp h
  obtain ⟨_, d₁, hconsume, hrest⟩ := bind_eq_ok.mp hb
  obtain ⟨_, d₂, heof, hreturn⟩ := bind_eq_ok.mp hrest
  cases hreturn
  obtain ⟨⟨ts, ⟨rfl, haccepted⟩, hvalid, hr⟩, -⟩ :=
    yields_entryConsume _ _ _ (Cbor.DecoderSpec.decInit_ok b) hconsume
  rw [atEof] at heof
  split at heof
  case isTrue hend =>
    cases heof
    have hle : b.length ≤ d.pos := by simpa [decEof, hr.buf, decInit] using hend
    have hwhole : encode (entryValue _) = b := at_zero hr.at_pos (hle.trans_eq (hr.pos.trans (Nat.zero_add _)))
    exact ⟨hwhole.symm, haccepted, sized_of_valid hvalid⟩
  case isFalse => cases heof

theorem entryDecode_sized (h : entryDecode b = .ok e) : Sized e := (entryDecode_sound h).2.2

theorem Accepted.valid (h : Accepted e) : Valid e := by
  have hdata : e = readBack e := h.back.symm
  refine ⟨h.embedding, ?_, ?_, fun _ => ?_, fun _ => ?_, h.validityClass⟩
  all_goals
    rw [hdata]
    rfl

theorem entryDecode_encode (hsized : Sized e) (hvalid : Valid e) :
    entryDecode (encode (entryValue e)) = .ok (readBack e) := by
  have hread := @takes_entryConsume e [] hvalid.embedding hvalid.validityClass
  rw [append_nil] at hread
  exact runDec_of_takes (entryValue_wellFormed hsized) (hread.bind (takes_atEof.bind takes_pure))

theorem payloadValue_wellFormed (h : Sized e) : WellFormed (payloadValue e) := by
  have hwithin : Within 1 (payloadValue e) := by
    apply within_fields [1, 2, 3, 4, 5, 6, 7, 8, 9] rfl (by decide)
    simp [recordPairs, within_bytes (floats_length_lt e), within_text h.embeddingModel, within_bytes h.response,
      within_text h.responseModel, within_bytes h.attestation]
  exact hwithin.wellFormed (by decide)

theorem payloadEmit_eq (e : Entry) : entryEmit e false = encCalls (calls (payloadValue e)) := by
  simp [calls, payloadValue, recordPairs, tokens, tokensPairs, Token.call, encCalls, encCall, entryEmit]

theorem payload_length_le (e : Entry) : (encode (payloadValue e)).length ≤ (encode (entryValue e)).length := by
  rw [payloadValue, entryValue, encode_map, encode_map, flatMap_append, length_append,
    length_append, length_append]
  have hpairs : (recordPairs e).length = 9 := rfl
  rw [length_append, hpairs, length_singleton, head_length_tiny 5 (by decide), head_length_tiny 5 (by decide)]
  omega

theorem payload_of_decode (h : entryDecode b = .ok e) :
    cacheEntryEmitSigningPayload e (List.replicate b.length 0) = .ok (encode (payloadValue e)) := by
  obtain ⟨rfl, haccepted, hsized⟩ := entryDecode_sound h
  have hemit : encodeInto (payloadValue e) (List.replicate (encode (entryValue e)).length 0) =
      .ok (encode (payloadValue e)) := by
    rw [encodeInto_iff (payloadValue_wellFormed hsized), length_replicate]
    exact ⟨rfl, payload_length_le e⟩
  rw [cacheEntryEmitSigningPayload, entryValidate_iff.mpr haccepted.valid, payloadEmit_eq]
  exact hemit

end Accept

section Request

def requestValue (req : LookupRequest) : Value := .map [
  (.uint 1, .bytes req.embedding.bytes),
  (.uint 2, .bytes (floatToLeBytes req.threshold)),
  (.uint 3, .uint req.topK.toUInt64.toNat),
  (.uint 4, .uint req.hammingRadius.toUInt64.toNat)]

variable {req : LookupRequest}

theorem tokens_requestValue (req : LookupRequest) : tokens (requestValue req) =
    [.map 4, .uint 1, .bytes req.embedding.bytes, .uint 2, .bytes (floatToLeBytes req.threshold), .uint 3,
      .uint req.topK.toUInt64.toNat, .uint 4, .uint req.hammingRadius.toUInt64.toNat] := by
  simp [requestValue, tokens, tokensPairs]

theorem requestValue_wellFormed (req : LookupRequest) : WellFormed (requestValue req) := by
  have hembedding : req.embedding.bytes.length < 2 ^ 64 := by rw [req.embedding.bytes_length]; decide
  have hthreshold : (floatToLeBytes req.threshold).length < 2 ^ 64 := by rw [floatToLeBytes_length]; decide
  have hwithin : Within 1 (requestValue req) := by
    apply within_fields [1, 2, 3, 4] rfl (by decide)
    simp [within_bytes hembedding, within_bytes hthreshold]
  exact hwithin.wellFormed (by decide)

theorem lookupRequestDecode_encode (h : req.hammingRadius ≤ maxHammingRadius) :
    lookupRequestDecode (encode (requestValue req)) = .ok req := by
  refine runDec_of_takes (requestValue_wellFormed req) (?_ : Takes _ _ [] _)
  rw [tokens_requestValue]
  have htopK : req.topK.toUInt64 ≤ 0xffffffff := by
    rw [UInt64.le_iff_toNat_le, UInt32.toNat_toUInt64]
    exact Nat.le_of_lt_succ req.topK.toNat_lt
  have hradius : req.hammingRadius.toUInt64 ≤ maxHammingRadius.toUInt64 := by
    rw [UInt64.le_iff_toNat_le, UInt32.toNat_toUInt64, UInt32.toNat_toUInt64]
    exact UInt32.le_iff_toNat_le.mp h
  exact takes_decMapOf.bind
    (takes_expectKey.bind (takes_decEmbedding.bind (takes_expectKey.bind (takes_decFloat.bind
    (takes_expectKey.bind
    ((takes_decUintUpTo htopK).bind (takes_expectKey.bind ((takes_decUintUpTo hradius).bind
    (takes_atEof.bind takes_pure)))))))))

theorem yields_decFloat : Yields decFloat fun x ts => ts = [.bytes (floatToLeBytes x)] := by
  refine yields_orNonCanonical fun b a h => ?_
  split at h
  case isTrue hlen => rw [← Option.some.inj h, floatToLeBytes_leBytesToFloat hlen]
  case isFalse => cases h

theorem lookupRequestDecode_radius (h : lookupRequestDecode b = .ok req) :
    req.hammingRadius ≤ maxHammingRadius := by
  obtain ⟨ts, hradius, -⟩ :=
      @runDec_yields _ _ (fun req _ => req.hammingRadius.toUInt64 ≤ maxHammingRadius.toUInt64) (by
    refine (yields_decMapOf 4).step fun _ => (yields_expectKey 1).step fun _ =>
        yields_decEmbedding.step fun embedding =>
      (yields_expectKey 2).step fun _ => yields_decFloat.step fun threshold =>
      (yields_expectKey 3).step fun _ =>
      (yields_decUintUpTo (by decide)).bind fun topK _ _ => (yields_expectKey 4).step fun _ =>
      (yields_decUintUpTo (by decide)).bind fun hammingRadius _ hle => yields_atEof.silent fun _ =>
      yields_pure hle.2) _ _ h
  rw [UInt64.le_iff_toNat_le, UInt32.toNat_toUInt64, UInt32.toNat_toUInt64] at hradius
  exact UInt32.le_iff_toNat_le.mpr hradius

theorem lookupRequestDecode_nonempty (h : lookupRequestDecode b = .ok req) : b.length ≠ 0 := by
  intro hb
  obtain rfl := length_eq_zero_iff.mp hb
  cases h

end Request

end AntsClient.Cache.Records
