import AntsClient.Cbor.Sizes
import AntsClient.Chain.FieldReaders

namespace AntsClient.Inference.Commits

-- `orchestration.c` and `chain.c` have the same static readers and writers of fields
open Common Cbor.Codec Cbor.Tokens Cbor.EncoderSpec Cbor.Values Value Cbor.Canonical Cbor.Schema
  Cbor.Sizes Crypto
  Chain.Blocks Chain.FieldReaders

structure Commit where
  root : Bytes32
  modelHash : Bytes32
  inputHash : Bytes32
  reqNonce : Bytes32
  agentMeas : Bytes32
  round : UInt64
  auditThreshold : UInt64
  m : UInt32
  length : UInt32
  tier : UInt8
  deriving DecidableEq

structure KeyPair where
  pub : Bytes32
  sign : Bytes → Signature

def commitCborPairs : UInt64 := 10

def commitEncodedMax : Nat := 256

def encCommit (c : Commit) : EncM Unit := do
  encMap commitCborPairs
  encKvBytes 1 c.root.val
  encKvBytes 2 c.modelHash.val
  encKvBytes 3 c.inputHash.val
  encKvBytes 4 c.reqNonce.val
  encKvBytes 5 c.agentMeas.val
  encKvUint 6 c.round
  encKvUint 7 c.auditThreshold
  encKvUint 8 c.m.toUInt64
  encKvUint 9 c.length.toUInt64
  encKvUint 10 c.tier.toUInt64

def commitEncode (c : Commit) (buf : Bytes) : Except Error Bytes := encodeBuf (encCommit c) buf

def decodeBounded (key max : UInt64) : DecM UInt64 := do
  let u ← decodeUintField key
  if u > max then throw .malformed
  return u

def decodeCommit : DecM Commit := do
  decodePairs commitCborPairs
  let root ← decodeBytesField 1
  let modelHash ← decodeBytesField 2
  let inputHash ← decodeBytesField 3
  let reqNonce ← decodeBytesField 4
  let agentMeas ← decodeBytesField 5
  let round ← decodeUintField 6
  let auditThreshold ← decodeUintField 7
  let m ← decodeBounded 8 0xffffffff
  let length ← decodeBounded 9 0xffffffff
  let tier ← decodeBounded 10 0xff
  decodeFinish
  return ⟨root, modelHash, inputHash, reqNonce, agentMeas, round, auditThreshold, m.toUInt32,
    length.toUInt32, tier.toUInt8⟩

def commitDecode (bytes : Bytes) : Except Error Commit := decodeBuf decodeCommit bytes

def commitSign (key : KeyPair) (c : Commit) : Except Error Signature :=
  (commitEncode c (List.replicate commitEncodedMax 0)).map key.sign

def commitVerifySig (crypto : Primitives) (c : Commit) (pub : Bytes32) (sig : Signature) : Except Error Bool :=
  (commitEncode c (List.replicate commitEncodedMax 0)).map fun bytes => crypto.ed25519Verify pub bytes sig.val

def commitValue (c : Commit) : Value :=
  .map [(.uint 1, .bytes c.root.val), (.uint 2, .bytes c.modelHash.val), (.uint 3, .bytes c.inputHash.val),
    (.uint 4, .bytes c.reqNonce.val), (.uint 5, .bytes c.agentMeas.val), (.uint 6, .uint c.round.toNat),
    (.uint 7, .uint c.auditThreshold.toNat), (.uint 8, .uint c.m.toUInt64.toNat),
    (.uint 9, .uint c.length.toUInt64.toNat),
    (.uint 10, .uint c.tier.toUInt64.toNat)]

theorem tokens_commit (c : Commit) : tokens (commitValue c) =
    [.map 10, .uint 1, .bytes c.root.val, .uint 2, .bytes c.modelHash.val, .uint 3, .bytes c.inputHash.val,
      .uint 4, .bytes c.reqNonce.val, .uint 5, .bytes c.agentMeas.val, .uint 6, .uint c.round.toNat,
      .uint 7, .uint c.auditThreshold.toNat, .uint 8, .uint c.m.toUInt64.toNat, .uint 9,
      .uint c.length.toUInt64.toNat,
      .uint 10, .uint c.tier.toUInt64.toNat] := by
  simp [commitValue, tokens, tokensPairs]

theorem encCommit_eq (c : Commit) : encCommit c = encCalls (calls (commitValue c)) := by
  simp only [calls, tokens_commit, List.map_cons, List.map_nil, Token.call, UInt64.ofNat_toNat,
    encCalls, encCall,
    encCommit, commitCborPairs, encKvBytes, encKvUint, bind_assoc, bind_pure_unit]
  rfl

theorem commit_wellFormed (c : Commit) : WellFormed (commitValue c) := by
  have hwithin : Within 1 (commitValue c) :=
    within_fields [1, 2, 3, 4, 5, 6, 7, 8, 9, 10] rfl (by decide) (by simp)
  exact hwithin.wellFormed (by decide)

theorem commit_length_le (c : Commit) : (encode (commitValue c)).length ≤ commitEncodedMax := by
  refine (encode_fields_length [1, 2, 3, 4, 5, 6, 7, 8, 9, 10] rfl (by decide)
    [35, 35, 35, 35, 35, 9, 9, 9, 9, 9] ?_).trans
    (by decide)
  simp

variable {c : Commit} {buf bytes : Bytes} {u : UInt64}

theorem commitEncode_iff : commitEncode c buf = .ok bytes ↔ encode (commitValue c) = bytes ∧
    bytes.length ≤ buf.length := by
  rw [commitEncode, encCommit_eq]
  exact encodeInto_iff (commit_wellFormed c)

theorem commitEncode_eq (c : Commit) (h : commitEncodedMax ≤ buf.length) :
    commitEncode c buf = .ok (encode (commitValue c)) :=
  commitEncode_iff.mpr ⟨rfl, (commit_length_le c).trans h⟩

theorem commitSign_eq (key : KeyPair) (c : Commit) :
    commitSign key c = .ok (key.sign (encode (commitValue c))) := by
  rw [commitSign, commitEncode_eq c (le_of_eq List.length_replicate.symm)]
  rfl

theorem commitVerifySig_eq (crypto : Primitives) (c : Commit) (pub : Bytes32) (sig : Signature) :
    commitVerifySig crypto c pub sig = .ok (crypto.ed25519Verify pub (encode (commitValue c)) sig.val) := by
  rw [commitVerifySig, commitEncode_eq c (le_of_eq List.length_replicate.symm)]
  rfl

theorem takes_decodeBounded {key max : UInt64} {us : List Token} (h : ¬ u > max) :
    Takes (decodeBounded key max) (.uint key.toNat :: .uint u.toNat :: us) us u := by
  refine takes_decodeUintField.bind ?_
  rw [if_neg h]
  exact takes_pure

theorem takes_decodeCommit (c : Commit) : Takes decodeCommit (tokens (commitValue c)) [] c := by
  have hm : ¬ c.m.toUInt64 > 0xffffffff := UInt64.not_lt.mpr (Nat.le_of_lt_succ c.m.toNat_lt)
  have hlength : ¬ c.length.toUInt64 > 0xffffffff := UInt64.not_lt.mpr (Nat.le_of_lt_succ c.length.toNat_lt)
  have htier : ¬ c.tier.toUInt64 > 0xff := UInt64.not_lt.mpr (Nat.le_of_lt_succ c.tier.toNat_lt)
  rw [tokens_commit]
  refine takes_decodePairs.bind
    (takes_decodeBytesField.bind (takes_decodeBytesField.bind (takes_decodeBytesField.bind
    (takes_decodeBytesField.bind
    (takes_decodeBytesField.bind (takes_decodeUintField.bind (takes_decodeUintField.bind
      ((takes_decodeBounded hm).bind ((takes_decodeBounded hlength).bind ((takes_decodeBounded htier).bind
        (takes_decodeFinish.bind ?_)))))))))))
  rw [UInt32.toUInt32_toUInt64, UInt32.toUInt32_toUInt64, UInt8.toUInt8_toUInt64]
  exact takes_pure

theorem commitDecode_encode (c : Commit) : commitDecode (encode (commitValue c)) = .ok c :=
  decodeBuf_of_takes (commit_wellFormed c) (takes_decodeCommit c)

theorem toUInt64_toUInt32 (h : ¬ u > 0xffffffff) : u.toUInt32.toUInt64 = u := by
  have hlt : u.toNat < 2 ^ 32 := Nat.lt_succ_of_le (UInt64.not_lt.mp h)
  apply UInt64.toNat.inj
  rw [UInt32.toNat_toUInt64, UInt64.toNat_toUInt32]
  exact Nat.mod_eq_of_lt hlt

theorem toUInt64_toUInt8 (h : ¬ u > 0xff) : u.toUInt8.toUInt64 = u := by
  have hlt : u.toNat < 2 ^ 8 := Nat.lt_succ_of_le (UInt64.not_lt.mp h)
  apply UInt64.toNat.inj
  rw [UInt8.toNat_toUInt64, UInt64.toNat_toUInt8]
  exact Nat.mod_eq_of_lt hlt

theorem yields_decodeBounded (key max : UInt64) :
    Yields (decodeBounded key max) fun u ts => ¬ u > max ∧ ts = [.uint key.toNat, .uint u.toNat] := by
  refine (yields_decodeUintField key).seq fun u => yields_guard fun hu => ?_
  exact yields_pure ⟨hu, rfl⟩

theorem yields_decodeCommit : Yields decodeCommit (fun c ts => True ∧ ts = tokens (commitValue c)) True := by
  refine (yields_decodePairs _).seq fun _ => (yields_decodeBytesField 1).seq fun root =>
    (yields_decodeBytesField 2).seq fun modelHash => (yields_decodeBytesField 3).seq fun inputHash =>
      (yields_decodeBytesField 4).seq fun reqNonce => (yields_decodeBytesField 5).seq fun agentMeas =>
        (yields_decodeUintField 6).seq fun round => (yields_decodeUintField 7).seq fun auditThreshold => ?_
  apply (yields_decodeBounded 8 0xffffffff).bind
  rintro m _ ⟨hm, rfl⟩
  apply (yields_decodeBounded 9 0xffffffff).bind
  rintro length _ ⟨hlength, rfl⟩
  apply (yields_decodeBounded 10 0xff).bind
  rintro tier _ ⟨htier, rfl⟩
  refine yields_decodeFinish ⟨trivial, ?_⟩
  -- no number is cut when it is narrowed to the width of its field
  rw [tokens_commit, toUInt64_toUInt32 hm, toUInt64_toUInt32 hlength, toUInt64_toUInt8 htier]
  rfl

theorem commitDecode_sound (h : commitDecode bytes = .ok c) : encode (commitValue c) = bytes :=
  (decodeBuf_sound yields_decodeCommit h).2

/-- A commit is encoded within the stated size and decoded to itself, and what is decoded is encoded
to the same bytes, over which a signature is checked. -/
theorem commit_codec_bijection (crypto : Primitives) :
    (∀ (c : Commit) (buf : Bytes), commitEncodedMax ≤ buf.length →
      ∃ bytes, commitEncode c buf = .ok bytes ∧ bytes.length ≤ commitEncodedMax ∧ commitDecode bytes = .ok c) ∧
    ∀ bytes c, commitDecode bytes = .ok c →
      (∀ buf : Bytes, bytes.length ≤ buf.length → commitEncode c buf = .ok bytes) ∧
        ∀ pub sig, commitVerifySig crypto c pub sig = .ok (crypto.ed25519Verify pub bytes sig.val) := by
  constructor
  · intro c buf hbuf
    exact ⟨encode (commitValue c), commitEncode_eq c hbuf, commit_length_le c, commitDecode_encode c⟩
  · intro bytes c h
    obtain rfl := commitDecode_sound h
    exact ⟨fun buf hbuf => commitEncode_iff.mpr ⟨rfl, hbuf⟩, commitVerifySig_eq crypto c⟩

def variedCommit : Commit :=
  ⟨digest 1, digest 2, digest 3, digest 4, digest 5, 0x100, 0xffffffffffffffff, 24, 0x10000, 2⟩

def keyedCrypto : Primitives := ⟨fun _ => zero32, fun _ _ => zero32, fun pub _ sig => sig.take 32 = pub.val⟩

theorem commit_codec_bijection_varied : ∃ bytes,
    commitEncode variedCommit (List.replicate 256 0) = .ok bytes ∧
      commitDecode bytes = .ok variedCommit ∧ commitEncode variedCommit bytes = .ok bytes ∧
      commitVerifySig keyedCrypto variedCommit (digest 6) (signature 6 7) = .ok true := by
  obtain ⟨hencode, hdecode⟩ := commit_codec_bijection keyedCrypto
  obtain ⟨bytes, henc, -, hdec⟩ := hencode variedCommit (List.replicate 256 0) List.length_replicate.ge
  obtain ⟨hagain, hverify⟩ := hdecode bytes _ hdec
  exact ⟨bytes, henc, hdec, hagain bytes le_rfl, hverify (digest 6) (signature 6 7)⟩

end AntsClient.Inference.Commits
