import AntsClient.Inference.Commits

namespace AntsClient.Inference.Wire

open Common Cbor Codec Tokens EncoderSpec Values Canonical Schema Sizes Value Crypto
  Chain.FieldReaders Crdt.Proof List

def msgReq : UInt64 := 11

def msgResp : UInt64 := 12

def maxInputBytes : Nat := 4096

def maxRespBytes : Nat := 131072

def maxReqBytes : Nat := maxInputBytes + 128

structure InferRequest where
  input : Bytes
  tier : UInt32
  reqNonce : Bytes32
  deriving DecidableEq

structure Answer where
  commit : Bytes
  sig : Signature
  envelope : Bytes
  deriving DecidableEq

structure MsgHead where
  type : UInt64
  txid : UInt32
  hasBody : Bool

def encHead (type : UInt64) (txid : UInt32) (hasBody : Bool) : EncM Unit := do
  encMap (if hasBody then 3 else 2)
  encUint 0
  encUint type
  encUint 1
  encUint txid.toUInt64
  if hasBody then encUint 2

def expectKey (want : UInt64) : DecM Unit := do
  let key ← decUint
  if key ≠ want then throw .nonCanonical

def finalise : DecM Unit := fun d =>
  match decFinalise d with
  | .ok _ => .ok () d
  | .error err => .error err d

def decHead : DecM MsgHead := do
  let n ← decMap
  if n ≠ 2 ∧ n ≠ 3 then throw .nonCanonical
  expectKey 0
  let type ← decUint
  expectKey 1
  let txid ← decUint
  if txid > 0xffffffff then throw .nonCanonical
  if n = 3 then expectKey 2
  return ⟨type, txid.toUInt32, n = 3⟩

def decBodyMap : DecM Unit := do
  let n ← decMap
  if n ≠ 3 then throw .nonCanonical

def peekType (buf : Bytes) : Except Error UInt64 := (runDec decHead buf).map MsgHead.type

def requestValid (r : InferRequest) : Bool :=
  0 < r.input.length && r.input.length ≤ maxInputBytes && r.tier ≤ 0x7fffffff

def encReq (txid : UInt32) (req : InferRequest) : EncM Unit := do
  encHead msgReq txid true
  encMap 3
  encUint 0
  encBytes req.input
  encUint 1
  encUint req.tier.toUInt64
  encUint 2
  encBytes req.reqNonce.val

def encodeReq (txid : UInt32) (req : InferRequest) (buf : Bytes) : Except Error Bytes :=
  if requestValid req then encodeBuf (encReq txid req) buf else .error .invalidArg

def decReq : DecM (UInt32 × InferRequest) := do
  let head ← decHead
  if head.type ≠ msgReq ∨ head.hasBody = false then throw .nonCanonical
  decBodyMap
  expectKey 0
  let input ← decBytes
  expectKey 1
  let tier ← decUint
  expectKey 2
  let nonce ← decBytes
  finalise
  if tier > 0x7fffffff then throw .malformed
  match toBytes32 nonce with
  | none => throw .malformed
  | some reqNonce =>
    let req : InferRequest := ⟨input, tier.toUInt32, reqNonce⟩
    if requestValid req then return (head.txid, req) else throw .malformed

def decodeReq (buf : Bytes) : Except Error (UInt32 × InferRequest) := runDec decReq buf

def answerValid (a : Answer) : Bool :=
  0 < a.commit.length && a.commit.length ≤ Commits.commitEncodedMax && 0 < a.envelope.length

def encAnswer (a : Answer) : EncM Unit := do
  encMap 3
  encUint 0
  encBytes a.commit
  encUint 1
  encBytes a.sig.val
  encUint 2
  encBytes a.envelope

def encResp (txid : UInt32) : Option Answer → EncM Unit
  | none => encHead msgResp txid false
  | some a => do
    encHead msgResp txid true
    encAnswer a

def encodeResp (txid : UInt32) (a : Option Answer) (buf : Bytes) : Except Error Bytes :=
  if a.all answerValid then encodeBuf (encResp txid a) buf else .error .invalidArg

def decAnswer : DecM Answer := do
  decBodyMap
  expectKey 0
  let commit ← decBytes
  expectKey 1
  let sig ← decBytes
  expectKey 2
  let envelope ← decBytes
  finalise
  match toSignature sig with
  | none => throw .malformed
  | some sig =>
    let a : Answer := ⟨commit, sig, envelope⟩
    if answerValid a then return a else throw .malformed

def decResp : DecM (UInt32 × Option Answer) := do
  let head ← decHead
  if head.type ≠ msgResp then throw .nonCanonical
  if head.hasBody then
    let a ← decAnswer
    return (head.txid, some a)
  else
    finalise
    return (head.txid, none)

def decodeResp (buf : Bytes) : Except Error (UInt32 × Option Answer) :=
  if buf.length > maxRespBytes then .error .bufferTooSmall else runDec decResp buf

def message (type : UInt64) (txid : UInt32) (body : Option Value) : Value :=
  .map ((.uint 0, .uint type.toNat) :: (.uint 1, .uint txid.toUInt64.toNat) ::
    body.toList.map fun b => (.uint 2, b))

def reqBody (req : InferRequest) : Value :=
  .map [(.uint 0, .bytes req.input), (.uint 1, .uint req.tier.toUInt64.toNat),
    (.uint 2, .bytes req.reqNonce.val)]

def answerBody (a : Answer) : Value :=
  .map [(.uint 0, .bytes a.commit), (.uint 1, .bytes a.sig.val), (.uint 2, .bytes a.envelope)]

variable {type : UInt64} {txid : UInt32} {req : InferRequest} {a : Answer}

theorem tokens_message_some (type : UInt64) (txid : UInt32) (body : Value) :
    tokens (message type txid (some body)) =
    .map 3 :: .uint 0 :: .uint type.toNat :: .uint 1 :: .uint txid.toUInt64.toNat :: .uint 2 ::
      tokens body := by
  simp [message, tokens, tokensPairs]

theorem tokens_message_none (type : UInt64) (txid : UInt32) : tokens (message type txid none) =
    [.map 2, .uint 0, .uint type.toNat, .uint 1, .uint txid.toUInt64.toNat] := by
  simp [message, tokens, tokensPairs]

theorem tokens_reqBody (req : InferRequest) : tokens (reqBody req) =
    [.map 3, .uint 0, .bytes req.input, .uint 1, .uint req.tier.toUInt64.toNat, .uint 2,
      .bytes req.reqNonce.val] := by
  simp [reqBody, tokens, tokensPairs]

theorem tokens_answerBody (a : Answer) : tokens (answerBody a) =
    [.map 3, .uint 0, .bytes a.commit, .uint 1, .bytes a.sig.val, .uint 2, .bytes a.envelope] := by
  simp [answerBody, tokens, tokensPairs]

theorem message_wellFormed {body : Option Value} (hbody : ∀ b ∈ body, Within 15 b) :
    WellFormed (message type txid body) := by
  have hwithin : Within 16 (message type txid body) := by
    cases body with
    | none => exact within_fields [0, 1] rfl (by decide) (by simp)
    | some b => exact within_fields [0, 1, 2] rfl (by decide) (by simpa using hbody)
  exact hwithin.wellFormed le_rfl

theorem reqBody_within (hinput : req.input.length < 2 ^ 64) : Within 15 (reqBody req) :=
  within_fields [0, 1, 2] rfl (by decide) (by simp [within_bytes hinput])

theorem answerBody_within (hcommit : a.commit.length < 2 ^ 64)
    (henvelope : a.envelope.length < 2 ^ 64) : Within 15 (answerBody a) :=
  within_fields [0, 1, 2] rfl (by decide) (by simp [within_bytes hcommit, within_bytes henvelope])

theorem message_length (type : UInt64) (txid : UInt32) (body : Value) :
    (encode (message type txid (some body))).length ≤ 22 + (encode body).length := by
  refine (encode_fields_length [0, 1, 2] rfl (by decide) [9, 9, (encode body).length]
    (by simp)).trans (le_of_eq ?_)
  simp only [sum_cons, sum_nil, length_cons, length_nil]
  omega

section Encode

theorem encReq_eq (txid : UInt32) (req : InferRequest) :
    encReq txid req = encCalls (calls (message msgReq txid (some (reqBody req)))) := by
  simp only [calls, tokens_message_some, tokens_reqBody, map_cons, map_nil, Token.call, UInt64.ofNat_toNat,
    encCalls, encCall, encReq, encHead, if_true, bind_assoc, bind_pure_unit]
  rfl

theorem encResp_eq (txid : UInt32) (a : Option Answer) :
    encResp txid a = encCalls (calls (message msgResp txid (a.map answerBody))) := by
  cases a with
  | none =>
    simp only [calls, Option.map_none, tokens_message_none, map_cons, map_nil, Token.call, UInt64.ofNat_toNat,
      encCalls, encCall, encResp, encHead, Bool.false_eq_true, if_false, bind_pure_unit]
    rfl
  | some a =>
    simp only [calls, Option.map_some, tokens_message_some, tokens_answerBody, map_cons, map_nil, Token.call,
      UInt64.ofNat_toNat, encCalls, encCall, encResp, encAnswer, encHead, if_true, bind_assoc, bind_pure_unit]
    rfl

theorem requestValid_iff : requestValid req = true ↔ 0 < req.input.length ∧
    req.input.length ≤ maxInputBytes ∧ req.tier ≤ 0x7fffffff := by
  simp [requestValid, and_assoc]

theorem answerValid_iff : answerValid a = true ↔
    0 < a.commit.length ∧ a.commit.length ≤ Commits.commitEncodedMax ∧ 0 < a.envelope.length := by
  simp [answerValid, and_assoc]

theorem reqBody_length (hinput : req.input.length ≤ maxInputBytes) :
    (encode (reqBody req)).length ≤ req.input.length + 51 := by
  have hbytes := encode_bytes_length (lt_of_le_of_lt hinput (by decide))
  refine (encode_fields_length [0, 1, 2] rfl (by decide) [3 + req.input.length, 9, 35]
    (by simp [hbytes])).trans (le_of_eq ?_)
  simp only [sum_cons, sum_nil, length_cons, length_nil]
  omega

theorem answerBody_length (hcommit : a.commit.length ≤ Commits.commitEncodedMax)
    (henvelope : a.envelope.length < 65536) :
    (encode (answerBody a)).length ≤ a.envelope.length + 333 := by
  have hcommit' := encode_bytes_length (lt_of_le_of_lt hcommit (by decide))
  have hsig := @encode_bytes_length a.sig.val (by simp [a.sig.length_val])
  have henvelope' := encode_bytes_length henvelope
  rw [a.sig.length_val] at hsig
  rw [Commits.commitEncodedMax] at hcommit
  simp (disch := decide) only [answerBody, encode_map, flatMap_cons, flatMap_nil, length_append,
    length_cons, length_nil, encode_key_length, head_length_tiny]
  omega

theorem encodeReq_eq {buf : Bytes} (hreq : requestValid req = true) (hbuf : maxReqBytes ≤ buf.length) :
    encodeReq txid req buf = .ok (encode (message msgReq txid (some (reqBody req)))) := by
  obtain ⟨-, hinput, -⟩ := requestValid_iff.mp hreq
  have hlength := (message_length msgReq txid (reqBody req)).trans
    (Nat.add_le_add_left (reqBody_length hinput) 22)
  rw [encodeReq, if_pos hreq, encReq_eq]
  refine (encodeInto_iff (message_wellFormed ?_)).mpr ⟨rfl, ?_⟩
  · rintro b ⟨⟩
    exact reqBody_within (lt_of_le_of_lt hinput (by decide))
  · rw [maxReqBytes] at hbuf
    omega

end Encode

section Decode

variable {us : List Token}

theorem takes_expectKey {key : UInt64} : Takes (expectKey key) (.uint key.toNat :: us) us () :=
  takes_expected takes_uint

theorem takes_finalise : Takes finalise [] [] () := by
  intro doc d hd
  refine ⟨d, ?_, hd⟩
  rw [finalise, hd.finalise]

theorem takes_decBodyMap : Takes decBodyMap (.map 3 :: us) us () := takes_expected (@takes_map us 3)

theorem takes_decHead_body :
    Takes decHead (.map 3 :: .uint 0 :: .uint type.toNat :: .uint 1 :: .uint txid.toUInt64.toNat ::
    .uint 2 :: us) us ⟨type, txid, true⟩ := by
  have htxid : ¬ txid.toUInt64 > 0xffffffff := UInt64.not_lt.mpr (Nat.le_of_lt_succ txid.toNat_lt)
  refine Takes.bind (@takes_map _ 3) ?_
  rw [if_neg (by decide)]
  refine takes_expectKey.bind (takes_uint.bind (takes_expectKey.bind (takes_uint.bind ?_)))
  rw [if_neg htxid, if_pos rfl]
  refine takes_expectKey.bind ?_
  rw [UInt32.toUInt32_toUInt64]
  exact takes_pure

theorem takes_decReq (hreq : requestValid req = true) :
    Takes decReq (tokens (message msgReq txid (some (reqBody req)))) [] (txid, req) := by
  obtain ⟨-, -, htier⟩ := requestValid_iff.mp hreq
  rw [tokens_message_some, tokens_reqBody]
  refine takes_decHead_body.bind ?_
  rw [if_neg (by simp)]
  refine takes_decBodyMap.bind (takes_expectKey.bind (takes_bytes.bind (takes_expectKey.bind (takes_uint.bind
    (takes_expectKey.bind (takes_bytes.bind (takes_finalise.bind ?_)))))))
  rw [if_neg (UInt64.not_lt.mpr htier), toBytes32_eq_some.mpr rfl, UInt32.toUInt32_toUInt64]
  dsimp only
  rw [if_pos hreq]
  exact takes_pure

theorem takes_decAnswer (ha : answerValid a = true) : Takes decAnswer (tokens (answerBody a)) [] a := by
  rw [tokens_answerBody]
  refine takes_decBodyMap.bind (takes_expectKey.bind (takes_bytes.bind (takes_expectKey.bind (takes_bytes.bind
    (takes_expectKey.bind (takes_bytes.bind (takes_finalise.bind ?_)))))))
  rw [toSignature_val]
  dsimp only
  rw [if_pos ha]
  exact takes_pure

theorem takes_decResp (ha : answerValid a = true) :
    Takes decResp (tokens (message msgResp txid (some (answerBody a)))) [] (txid, some a) := by
  rw [tokens_message_some]
  refine takes_decHead_body.bind ?_
  rw [if_neg (by simp), if_pos rfl]
  exact (takes_decAnswer ha).bind takes_pure

end Decode

theorem decodeReq_encode (hreq : requestValid req = true) :
    decodeReq (encode (message msgReq txid (some (reqBody req)))) = .ok (txid, req) := by
  obtain ⟨-, hinput, -⟩ := requestValid_iff.mp hreq
  refine runDec_of_takes (message_wellFormed ?_) (takes_decReq hreq)
  rintro b ⟨⟩
  exact reqBody_within (lt_of_le_of_lt hinput (by decide))

theorem resp_roundtrip {buf : Bytes} (ha : answerValid a = true) (hsize : a.envelope.length < 65536)
    (hbuf : maxRespBytes ≤ buf.length) :
    ∃ bytes, encodeResp txid (some a) buf = .ok bytes ∧ decodeResp bytes = .ok (txid, some a) := by
  obtain ⟨-, hcommit, -⟩ := answerValid_iff.mp ha
  have hlength := (message_length msgResp txid (answerBody a)).trans
    (Nat.add_le_add_left (answerBody_length hcommit hsize) 22)
  have hwf : WellFormed (message msgResp txid (some (answerBody a))) := by
    refine message_wellFormed ?_
    rintro b ⟨⟩
    exact answerBody_within (lt_of_le_of_lt hcommit (by decide)) (lt_of_lt_of_le hsize (by decide))
  have hmax : (encode (message msgResp txid (some (answerBody a)))).length ≤ maxRespBytes :=
    hlength.trans (by rw [maxRespBytes]; omega)
  refine ⟨encode (message msgResp txid (some (answerBody a))), ?_, ?_⟩
  · rw [encodeResp, Option.all_some, if_pos ha, encResp_eq]
    exact (encodeInto_iff hwf).mpr ⟨rfl, hmax.trans hbuf⟩
  · rw [decodeResp, if_neg (Nat.not_lt.mpr hmax)]
    exact runDec_of_takes hwf (takes_decResp ha)

end AntsClient.Inference.Wire
