import AntsClient.Cbor.Sizes
import AntsClient.Chain.FieldReaders

namespace AntsClient.Gossip.Frames

open Common Cbor Codec Tokens EncoderSpec Values Walk Canonical Schema Sizes Value Crypto
  Chain.FieldReaders Crdt Proof Readers List

variable {ids : List Bytes32}

def msgPush : UInt64 := 0

def msgIhave : UInt64 := 1

def msgIwant : UInt64 := 2

def msgBlock : UInt64 := 3

def msgAttest : UInt64 := 4

def defaultMaxFrame : Nat := 4096

def pushOverheadMax : Nat := 16

def maxProof : Nat := defaultMaxFrame - pushOverheadMax

def chainMaxBlockFrame : Nat := 32768

def maxIds : Nat := 64

def frameBuf : Bytes := replicate defaultMaxFrame 0

def encPush (proof : Bytes) : EncM Unit := do
  encMap 2
  encUint 0
  encUint msgPush
  encUint 1
  encBytes proof

def pushEncode (proof buf : Bytes) : Except Error Bytes :=
  if proof.length = 0 then .error .invalidArg else encodeBuf (encPush proof) buf

def encIdList : List Bytes32 → EncM Unit
  | [] => pure ()
  | id :: ids => do
    encBytes id.val
    encIdList ids

def encIds (type : UInt64) (ids : List Bytes32) : EncM Unit := do
  encMap 2
  encUint 0
  encUint type
  encUint 1
  encArray (UInt64.ofNat ids.length)
  encIdList ids

def idsEncode (type : UInt64) (ids : List Bytes32) (buf : Bytes) : Except Error Bytes :=
  if ids.length = 0 ∨ ids.length > maxIds then .error .invalidArg else encodeBuf (encIds type ids) buf

def decPush : DecM Bytes := do
  decMapOf 2
  decExpectKey 0
  let type ← decUintVal
  if type ≠ msgPush then throw .unsupportedType
  decExpectKey 1
  let proof ← decBytesVal
  decFinish
  return proof

def pushDecode (buf : Bytes) : Except Error Bytes := do
  if buf.length = 0 then throw .invalidArg
  isCanonical buf
  runDec decPush buf

def decFrameType : DecM UInt64 := do
  let n ← orMalformed decMap
  if n ≠ 2 ∧ n ≠ 5 then throw .malformed
  decExpectKey 0
  decUintVal

def peekFrameType (buf : Bytes) : Except Error UInt64 := do
  isCanonical buf
  runDec decFrameType buf

def decIdList : Nat → DecM (List Bytes32)
  | 0 => return []
  | n + 1 => do
    let id ← decBytes32
    let ids ← decIdList n
    return id :: ids

def decIds (expectType : UInt64) (cap : Nat) : DecM (List Bytes32) := do
  decMapOf 2
  decExpectKey 0
  let type ← decUintVal
  if type ≠ expectType then throw .malformed
  decExpectKey 1
  decPeek .array
  let m ← orMalformed decArray
  if m = 0 ∨ m.toNat > cap then throw .malformed
  let ids ← decIdList m.toNat
  decFinish
  return ids

def idsDecode (buf : Bytes) (expectType : UInt64) (cap : Nat) : Except Error (List Bytes32) :=
  runDec (decIds expectType cap) buf

def decBlockFrame : DecM Bytes := do
  decMapOf 2
  let k ← orMalformed decUint
  if k ≠ 0 then throw .malformed
  let type ← orMalformed decUint
  if type ≠ msgBlock then throw .malformed
  let k ← orMalformed decUint
  if k ≠ 1 then throw .malformed
  let block ← orMalformed decBytes
  decFinish
  if block.length = 0 then throw .malformed
  return block

def blockDecode (frame : Bytes) : Except Error Bytes := do
  if frame.length > chainMaxBlockFrame then throw .malformed
  if isCanonical frame ≠ .ok () then throw .nonCanonical
  runDec decBlockFrame frame

structure Attest where
  height : UInt64
  blockHash : Bytes32
  signer : Bytes32
  sig : Signature

def decFixedBytes {α : Type} (wantKey : UInt64) (ofBytes : Bytes → Option α) : DecM α := do
  let k ← orMalformed decUint
  if k ≠ wantKey then throw .malformed
  let b ← orMalformed decBytes
  match ofBytes b with
  | none => throw .malformed
  | some x => return x

def decAttestFrame : DecM Attest := do
  decMapOf 5
  let k ← orMalformed decUint
  if k ≠ 0 then throw .malformed
  let type ← orMalformed decUint
  if type ≠ msgAttest then throw .malformed
  let k ← orMalformed decUint
  if k ≠ 1 then throw .malformed
  let height ← orMalformed decUint
  let blockHash ← decFixedBytes 2 toBytes32
  let signer ← decFixedBytes 3 toBytes32
  let sig ← decFixedBytes 4 toSignature
  decFinish
  return ⟨height, blockHash, signer, sig⟩

def attestDecode (frame : Bytes) : Except Error Attest := do
  if isCanonical frame ≠ .ok () then throw .nonCanonical
  runDec decAttestFrame frame

inductive Frame
  | push (proof : Bytes)
  | ihave (ids : List Bytes32)
  | iwant (ids : List Bytes32)
  deriving DecidableEq

variable {f : Frame}

def Frame.type : Frame → UInt64
  | .push _ => msgPush
  | .ihave _ => msgIhave
  | .iwant _ => msgIwant

def Frame.payload : Frame → Value
  | .push proof => .bytes proof
  | .ihave ids | .iwant ids => .array (ids.map fun id => .bytes id.val)

def Frame.value (f : Frame) : Value := .map [(.uint 0, .uint f.type.toNat), (.uint 1, f.payload)]

def Frame.bytes (f : Frame) : Bytes := encode f.value

def Frame.Sendable : Frame → Prop
  | .push proof => 0 < proof.length ∧ proof.length ≤ maxProof
  | .ihave ids | .iwant ids => 0 < ids.length ∧ ids.length ≤ maxIds

theorem tokens_ids (ids : List Bytes32) :
    (ids.map fun id => Value.bytes id.val).flatMap tokens = ids.map fun id => .bytes id.val := by
  rw [flatMap_map]
  exact map_eq_flatMap.symm

theorem tokens_frame (f : Frame) :
    tokens f.value = .map 2 :: .uint 0 :: .uint f.type.toNat :: .uint 1 :: tokens f.payload := by
  simp [Frame.value, tokens, tokensPairs]

theorem encIdList_eq (ids : List Bytes32) : encIdList ids = encCalls (ids.map fun id => .bytes id.val) := by
  induction ids with
  | nil => rfl
  | cons id ids ih =>
    rw [encIdList, ih]
    rfl

theorem encPush_eq (proof : Bytes) : encPush proof = encCalls (calls (Frame.push proof).value) := by
  simp only [calls, tokens_frame, Frame.payload, tokens, map_cons, map_nil, Token.call, encCalls,
    encCall, encPush,
    bind_pure_unit]
  rfl

theorem encIds_eq (h : f.payload = .array (ids.map fun id => .bytes id.val)) :
    encIds f.type ids = encCalls (calls f.value) := by
  simp only [calls, tokens_frame, h, tokens_array, tokens_ids, length_map, map_cons, map_map, Token.call,
    UInt64.ofNat_toNat, encCalls, encCall, encIds, encIdList_eq]
  rfl

theorem Frame.Sendable.wellFormed (h : f.Sendable) : WellFormed f.value := by
  have hpayload : Within 1 f.payload := by
    cases f with
    | push proof => exact within_bytes (lt_of_le_of_lt h.2 (by decide))
    | ihave ids | iwant ids => exact within_array_map (lt_of_le_of_lt h.2 (by decide)) fun id _ => within_bytes32 id
  have hwithin : Within 2 f.value := within_fields [0, 1] rfl (by decide) (by simp [hpayload])
  exact hwithin.wellFormed (by decide)

theorem ids_length (h : ids.length ≤ maxIds) :
    (encode (.array (ids.map fun id => .bytes id.val))).length ≤ maxProof := by
  have hbound : (((ids.map Bytes32.val).map Value.bytes).flatMap encode).length ≤
      (ids.map Bytes32.val).length * (3 + 32) := by
    refine encode_bytes_list_length ?_ (by norm_num)
    rw [forall_mem_map]
    exact fun id _ => id.length_val.le
  have hhead := head_length_le 4 (ids.map fun id => Value.bytes id.val).length
  rw [map_map, length_map] at hbound
  rw [encode_array, length_append]
  rw [maxIds] at h
  rw [maxProof, defaultMaxFrame, pushOverheadMax]
  change ((ids.map fun id => Value.bytes id.val).flatMap encode).length ≤ _ at hbound
  omega

theorem Frame.Sendable.length (h : f.Sendable) : f.bytes.length ≤ defaultMaxFrame := by
  have hpayload : (encode f.payload).length ≤ maxProof + 3 := by
    cases f with
    | push proof =>
      have hlt : proof.length < 65536 := lt_of_le_of_lt h.2 (by decide)
      exact (encode_bytes_length hlt).trans (by rw [Nat.add_comm]; exact Nat.add_le_add_right h.2 3)
    | ihave ids | iwant ids => exact (ids_length h.2).trans (Nat.le_add_right ..)
  have htype : f.type.toNat < 24 := by
    cases f with
    | push | ihave | iwant => exact of_decide_eq_true rfl
  rw [maxProof, pushOverheadMax] at hpayload
  simp only [Frame.bytes, Frame.value, encode_map, flatMap_cons, flatMap_nil, length_append, length_cons,
    length_nil, encode_key_length htype]
  simp (disch := decide) only [encode_key_length, head_length_tiny]
  rw [defaultMaxFrame] at *
  omega

theorem pushEncode_eq {proof : Bytes} (h : (Frame.push proof).Sendable) :
    pushEncode proof frameBuf = .ok (Frame.push proof).bytes := by
  rw [pushEncode, if_neg h.1.ne', encPush_eq]
  refine (encodeInto_iff h.wellFormed).mpr ⟨rfl, ?_⟩
  rw [frameBuf, length_replicate]
  exact h.length

theorem idsEncode_eq (hpayload : f.payload = .array (ids.map fun id => .bytes id.val))
    (hne : ids.length ≠ 0) (hle : ids.length ≤ maxIds) (h : f.Sendable) :
    idsEncode f.type ids frameBuf = .ok f.bytes := by
  rw [idsEncode, if_neg (by omega), encIds_eq hpayload]
  refine (encodeInto_iff h.wellFormed).mpr ⟨rfl, ?_⟩
  rw [frameBuf, length_replicate]
  exact h.length

theorem Frame.Sendable.canonical (h : f.Sendable) : isCanonical f.bytes = .ok () :=
  isCanonical_encode.mpr ⟨_, h.wellFormed, rfl⟩

theorem Frame.bytes_ne_nil (f : Frame) : f.bytes.length ≠ 0 := (encode_length_pos f.value).ne'

section Decode

variable {us : List Token}

theorem peekFrameType_eq (h : f.Sendable) : peekFrameType f.bytes = .ok f.type := by
  have htakes : Takes decFrameType (tokens f.value) (.uint 1 :: tokens f.payload) f.type := by
    rw [tokens_frame]
    refine Takes.bind (takes_orMalformed (@takes_map _ 2)) ?_
    rw [if_neg (by decide)]
    exact takes_decExpectKey.bind takes_decUintVal
  rw [peekFrameType, h.canonical]
  exact runDec_of_takes h.wellFormed htakes

theorem pushDecode_eq {proof : Bytes} (h : (Frame.push proof).Sendable) :
    pushDecode (Frame.push proof).bytes = .ok proof := by
  have htakes : Takes decPush (tokens (Frame.push proof).value) [] proof := by
    rw [tokens_frame]
    refine takes_decMapOf.bind (takes_keyed takes_decUintVal ?_)
    rw [Frame.type, if_neg (not_not.mpr rfl)]
    exact takes_keyed takes_decBytesVal (takes_decFinish.bind takes_pure)
  rw [pushDecode, if_neg (Frame.bytes_ne_nil _), h.canonical]
  exact runDec_of_takes h.wellFormed htakes

theorem takes_decIdList (ids : List Bytes32) :
    Takes (decIdList ids.length) ((ids.map fun id => .bytes id.val) ++ us) us ids := by
  induction ids with
  | nil => exact takes_pure
  | cons id ids ih => exact takes_decBytes32.bind (ih.bind takes_pure)

theorem idsDecode_eq (hpayload : f.payload = .array (ids.map fun id => .bytes id.val))
    (hne : ids.length ≠ 0) (hle : ids.length ≤ maxIds) (h : f.Sendable) :
    idsDecode f.bytes f.type maxIds = .ok ids := by
  obtain ⟨m, hm⟩ : ∃ m : UInt64, m.toNat = ids.length :=
    ⟨UInt64.ofNat ids.length, UInt64.toNat_ofNat_of_lt' (lt_of_le_of_lt hle (by decide))⟩
  have hm0 : m ≠ 0 := by
    rintro rfl
    exact hne hm.symm
  have htakes : Takes (decIds f.type maxIds) (tokens f.value) [] ids := by
    rw [tokens_frame, hpayload, tokens_array, tokens_ids, length_map, ← hm]
    refine takes_decMapOf.bind (takes_keyed takes_decUintVal ?_)
    rw [if_neg (not_not.mpr rfl)]
    refine takes_keyed (takes_decPeek (t := .array m.toNat)) ((takes_orMalformed takes_array).bind ?_)
    rw [if_neg (by simp [hm0, hm, hle]), hm]
    refine Takes.bind ?_ (takes_decFinish.bind takes_pure)
    simpa using @takes_decIdList [] ids
  exact runDec_of_takes h.wellFormed htakes

theorem Frame.bytes_inj {g : Frame} (hf : f.Sendable) (hg : g.Sendable) (h : f.bytes = g.bytes) : f = g := by
  have htype := peekFrameType_eq hf
  rw [h, peekFrameType_eq hg] at htype
  cases f with
  | push p =>
    cases g with
    | ihave | iwant => cases htype
    | push q =>
      have heq := pushDecode_eq hf
      rw [h, pushDecode_eq hg] at heq
      rw [Except.ok.inj heq]
  | ihave ids =>
    cases g with
    | push | iwant => cases htype
    | ihave ids' =>
      have hids : idsDecode (Frame.ihave ids).bytes msgIhave maxIds = .ok ids :=
        idsDecode_eq (f := .ihave ids) rfl hf.1.ne' hf.2 hf
      have hids' : idsDecode (Frame.ihave ids').bytes msgIhave maxIds = .ok ids' :=
        idsDecode_eq (f := .ihave ids') rfl hg.1.ne' hg.2 hg
      rw [h, hids'] at hids
      rw [Except.ok.inj hids]
  | iwant ids =>
    cases g with
    | push | ihave => cases htype
    | iwant ids' =>
      have hids : idsDecode (Frame.iwant ids).bytes msgIwant maxIds = .ok ids :=
        idsDecode_eq (f := .iwant ids) rfl hf.1.ne' hf.2 hf
      have hids' : idsDecode (Frame.iwant ids').bytes msgIwant maxIds = .ok ids' :=
        idsDecode_eq (f := .iwant ids') rfl hg.1.ne' hg.2 hg
      rw [h, hids'] at hids
      rw [Except.ok.inj hids]

theorem iwant_length_le {ids' : List Bytes32} (h : ids.length ≤ ids'.length) :
    (Frame.iwant ids).bytes.length ≤ (Frame.iwant ids').bytes.length := by
  have hids (ids : List Bytes32) :
      ((ids.map fun id => Value.bytes id.val).flatMap encode).length = ids.length * 34 := by
    induction ids with
    | nil => rfl
    | cons id ids ih =>
      rw [map_cons, flatMap_cons, length_append, ih, encode_bytes32_length_eq, length_cons]
      omega
  have hhead := head_length_mono 4 h
  simp only [Frame.bytes, Frame.value, Frame.payload, encode_map, encode_array, flatMap_cons,
    flatMap_nil, length_append,
    length_map, hids]
  simp only [Frame.type, length_cons, length_nil]
  omega

end Decode

end AntsClient.Gossip.Frames
