import AntsClient.Cache.Publish
import AntsClient.Cache.Servable

namespace AntsClient.Cache.Sizing

open Common Cbor Codec Tokens EncoderSpec Values Walk Canonical Value Wire Records Publish Store Servable List

def entryEncodeOut (e : Entry) (buf : Bytes) (outLen : Nat) : Option Error × Nat :=
  match entryEncode e buf with
  | .ok b => (none, b.length)
  | .error err => (some err, outLen)

def Reports (e : Entry) (buf : Bytes) (outLen n : Nat) : Prop :=
  entryEncodeOut e buf outLen = (if n ≤ buf.length then none else some .bufferTooSmall, n)

def stringSize (b : Buf) : Nat := headSize b.bytes.length + b.bytes.length

/-- The size of a record by the lengths of its fields: 4245 bytes are the same for all. -/
def recordSize (e : Entry) : Nat :=
  4245 + stringSize e.embeddingModel + stringSize e.response + stringSize e.responseModel +
    headSize e.created.toNat +
    stringSize e.attestation

section Encode

variable {e : Entry} {buf : Bytes}

theorem encode_length (hvalid : Valid e) : (encode (entryValue e)).length = recordSize e := by
  obtain ⟨x, hx⟩ := Option.isSome_iff_exists.mp hvalid.embedding
  have hfloats : (floatsToLeBytes e.floats).length = 4096 := by
    rw [floatsToLeBytes_length, Entry.floats, hx, Option.map_some, Option.getD_some, x.length_val]
    rfl
  have hsmall {n : Nat} (h : n < 24) : headSize n = 1 := if_pos h
  have hclass : headSize e.validityClass.toUInt64.toNat = 1 := by
    apply hsmall
    have hle := UInt32.le_iff_toNat_le.mp hvalid.validityClass
    rw [UInt32.toNat_toUInt64]
    exact lt_of_le_of_lt hle (by decide)
  have hlong : headSize 4096 = 3 := by simp [headSize]
  have hkey : headSize 32 = 2 := by simp [headSize]
  have hsignature : headSize 64 = 2 := by simp [headSize]
  rw [encode, tokens_entryValue]
  simp only [flatMap_cons, flatMap_nil, Token.enc, length_append, length_nil, head_length, hclass,
    e.promptHash.length_val, e.producer.length_val, e.signature.length_val, hkey, hsignature,
    hsmall (by decide : 1 < 24), hsmall (by decide : 2 < 24), hsmall (by decide : 3 < 24),
    hsmall (by decide : 4 < 24),
    hsmall (by decide : 5 < 24), hsmall (by decide : 6 < 24), hsmall (by decide : 7 < 24),
    hsmall (by decide : 8 < 24),
    hsmall (by decide : 9 < 24), hsmall (by decide : 10 < 24), recordSize, stringSize]
  rw [← hfloats] at hlong
  generalize (floatsToLeBytes e.floats).length = n at hfloats hlong ⊢
  linarith

theorem entryEncode_eq (hsized : Sized e) (hvalid : Valid e) (hbuf : buf ≠ []) : entryEncode e buf =
    if recordSize e ≤ buf.length then .ok (encode (entryValue e)) else .error .bufferTooSmall := by
  have hwell := entryValue_wellFormed hsized
  by_cases hroom : recordSize e ≤ buf.length
  · rw [if_pos hroom, entryEncode_iff hsized]
    exact ⟨entryValidate_iff.mpr hvalid, rfl, (encode_length hvalid).trans_le hroom⟩
  · have hfull : encodeBuf (encCalls (calls (entryValue e))) buf = .error .bufferTooSmall := by
      apply encodeBuf_full
      · rw [calls_token hwell.inRange]
        exact (wellFormed_iff hwell.inRange).mp hwell
      · exact hbuf
      · rw [calls_token hwell.inRange]
        exact (Nat.not_le.mp hroom).trans_eq (encode_length hvalid).symm
    rw [if_neg hroom, entryEncode, entryValidate_iff.mpr hvalid, entryEmit_eq]
    exact hfull

theorem entryEncodeOut_eq (hsized : Sized e) (hvalid : Valid e) (hbuf : buf ≠ []) (outLen : Nat) :
    entryEncodeOut e buf outLen =
    if recordSize e ≤ buf.length then (none, recordSize e) else (some .bufferTooSmall, outLen) := by
  rw [entryEncodeOut, entryEncode_eq hsized hvalid hbuf]
  by_cases hroom : recordSize e ≤ buf.length
  · rw [if_pos hroom, if_pos hroom, ← encode_length hvalid]
  · rw [if_neg hroom, if_neg hroom]

def retryFails : ZeroRealloc → Failure
  | .freed => .doubleFree
  | .kept => .returned .malformed
  | .renewed => .returned .invalidArg

theorem encodeOnce_eq (zero : ZeroRealloc) (hsized : Sized e) (hvalid : Valid e) : encodeOnce zero e =
    if recordSize e ≤ 8192 then .ok (encode (entryValue e)) else .error (retryFails zero) := by
  have hbuf : replicate 8192 (0 : UInt8) ≠ [] :=
    ne_nil_of_length_pos (by rw [length_replicate]; norm_num)
  rw [encodeOnce, entryEncode_eq hsized hvalid hbuf, length_replicate]
  by_cases hroom : recordSize e ≤ 8192
  · rw [if_pos hroom, if_pos hroom]
    rfl
  · rw [if_neg hroom, if_neg hroom]
    cases zero with
    | freed | kept => rfl
    | renewed =>
      dsimp only
      rw [retryEncode, entryEncode, entryValidate_iff.mpr hvalid]
      rfl

section Init

variable {D : Type} {metric : Metric D} {lookup : UInt64 → Except Error Unit} {replicationFactor : UInt32}
  {zero : ZeroRealloc} (hsized : Sized e) (hvalid : Valid e) (hlookup : ∀ key, lookup key = .ok ())
  (hfactor : replicationFactor ≤ publishMaxReplication)

include hsized hvalid hlookup hfactor

theorem publishInit_eq : publishInit metric lookup true zero e replicationFactor =
    if recordSize e ≤ 8192 then .ok (started (encode (entryValue e))
      (if replicationFactor = 0 then defaultReplication else replicationFactor))
    else .error (retryFails zero) := by
  have hle : ¬(if replicationFactor = 0 then defaultReplication else replicationFactor) >
      publishMaxReplication := by
    split
    · decide
    · exact UInt32.not_lt.mpr hfactor
  obtain ⟨x, hx⟩ := Option.isSome_iff_exists.mp hvalid.embedding
  rw [publishInit, encodeOnce_eq zero hsized hvalid, if_neg hle]
  split
  · rw [hx]
    simp only [hlookup]
    rfl
  · rfl

/-- The size is reported only where the buffer has room, or where `*out_len` already held it; so a
record is published only if it fits the first buffer. -/
theorem size_reported_iff :
    (∀ buf outLen, buf ≠ [] →
      (Reports e buf outLen (recordSize e) ↔ recordSize e ≤ buf.length ∨ outLen = recordSize e)) ∧
    ((∃ st, publishInit metric lookup true zero e replicationFactor = .ok st ∧
        st.entryCbor = encode (entryValue e) ∧ st.entryCbor.length = recordSize e) ↔
      recordSize e ≤ 8192) := by
  constructor
  · intro buf outLen hbuf
    rw [Reports, entryEncodeOut_eq hsized hvalid hbuf]
    by_cases hroom : recordSize e ≤ buf.length
    · simp [hroom]
    · simp [hroom]
  · rw [publishInit_eq hsized hvalid hlookup hfactor]
    constructor
    · rintro ⟨st, h, -, -⟩
      by_contra hlong
      rw [if_neg hlong] at h
      cases h
    · intro hroom
      rw [if_pos hroom]
      exact ⟨_, rfl, rfl, encode_length hvalid⟩

end Init

end Encode

theorem named_sized : Sized namedEntry := ⟨by decide, by decide, by decide, by decide⟩

theorem named_valid : Valid namedEntry := ⟨rfl, rfl, rfl, fun _ => rfl, by decide, by decide⟩

theorem size_reported_named :
    ∃ st, publishInit whole.metric (fun _ => .ok ()) true .freed namedEntry 0 = .ok st ∧
    st.entryCbor = encode (entryValue namedEntry) ∧ st.entryCbor.length = recordSize namedEntry :=
  (size_reported_iff named_sized named_valid (fun _ => rfl) (by decide)).2.mpr (by decide)

def answered (n : Nat) : Entry := valueEntry 0 unit (replicate n 0x61)

theorem answered_response (n : Nat) : (answered n).response.bytes.length = n := length_replicate

theorem answered_size (n : Nat) : recordSize (answered n) = 4262 + headSize n + n := by
  have hrest : stringSize (answered n).embeddingModel = 14 ∧ stringSize (answered n).responseModel = 1 ∧
      headSize (answered n).created.toNat = 1 ∧ stringSize (answered n).attestation = 1 := ⟨rfl, rfl, rfl, rfl⟩
  obtain ⟨hmodel, hresponseModel, hcreated, hattestation⟩ := hrest
  rw [recordSize, hmodel, hresponseModel, hcreated, hattestation, stringSize, answered_response]
  omega

/-- Where `*out_len` is zero, no size is reported and nothing is published: glibc frees the buffer
twice, others return an error. -/
theorem size_not_reported : Valid (answered 5000) ∧ Sized (answered 5000) ∧
    (¬∃ n, ∀ buf, buf ≠ [] → Reports (answered 5000) buf 0 n) ∧
    publishInit whole.metric (fun _ => .ok ()) true .freed (answered 5000) 0 = .error .doubleFree ∧
    publishInit whole.metric (fun _ => .ok ()) true .kept (answered 5000) 0 = .error (.returned .malformed) ∧
    publishInit whole.metric (fun _ => .ok ()) true .renewed (answered 5000) 0 =
      .error (.returned .invalidArg) := by
  have hvalid : Valid (answered 5000) := ⟨rfl, rfl, rfl, fun _ => rfl, by decide, by decide⟩
  have hsized : Sized (answered 5000) := by
    refine ⟨by decide, ?_, by decide, by decide⟩
    rw [answered_response]
    decide
  have hsize : recordSize (answered 5000) = 9265 := by
    rw [answered_size]
    simp [headSize]
  have hinit (zero : ZeroRealloc) : publishInit whole.metric (fun _ => .ok ()) true zero (answered 5000) 0 =
      .error (retryFails zero) := by
    rw [publishInit_eq hsized hvalid (fun _ => rfl) (by decide), hsize, if_neg (by simp)]
  refine ⟨hvalid, hsized, ?_, hinit .freed, hinit .kept, hinit .renewed⟩
  · rintro ⟨n, hn⟩
    have h := hn [0] (cons_ne_nil _ _)
    rw [Reports, entryEncodeOut_eq hsized hvalid (cons_ne_nil _ _), hsize, if_neg (by simp)] at h
    obtain ⟨herr, rfl⟩ := Prod.mk.inj h
    simp at herr

end AntsClient.Cache.Sizing
