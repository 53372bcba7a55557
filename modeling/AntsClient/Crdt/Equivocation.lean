import AntsClient.Cbor.Sizes
import AntsClient.Chain.FieldReaders
import AntsClient.Crdt.Operations

namespace AntsClient.Crdt.Equivocation

open Common Cbor Codec Tokens Values Walk Schema Sizes Value Crypto Crdt Proof Readers Operations
  Chain.FieldReaders List

structure Signed where
  stmt : Stmt
  sig : Signature

def stmtValue (st : Stmt) : Value :=
  .map [(.uint 0, .uint st.domain.toNat), (.uint 1, .uint st.epoch.toNat),
    (.uint 2, .uint st.slot.toNat), (.uint 3, .bytes st.payload)]

def Signed.body (s : Signed) : Bytes := encode (stmtValue s.stmt)

def evidenceValue (a b : Signed) : Value :=
  .array [.array [.bytes a.body, .bytes a.sig.val], .array [.bytes b.body, .bytes b.sig.val]]

def proofValue (subject : Bytes32) (epoch : UInt64) (a b : Signed) : Value :=
  .map [(.uint 0, .bytes subject.val), (.uint 1, .uint faultEquivocation.toNat),
    (.uint 2, .uint epoch.toNat), (.uint 3, evidenceValue a b)]

def equivocation (subject : Bytes32) (epoch : UInt64) (a b : Signed) : Bytes :=
  encode (proofValue subject epoch a b)

structure Conflict (crypto : Primitives) (subject : Bytes32) (epoch : UInt64) (a b : Signed) : Prop where
  epoch : a.stmt.epoch = epoch ∧ b.stmt.epoch = epoch
  domain : a.stmt.domain = b.stmt.domain
  slot : a.stmt.slot = b.stmt.slot
  payload : a.stmt.payload ≠ b.stmt.payload
  size : a.stmt.payload.length < 65536 ∧ b.stmt.payload.length < 65536
  signed : crypto.ed25519Verify subject a.body a.sig.val = true ∧
    crypto.ed25519Verify subject b.body b.sig.val = true

variable {crypto : Primitives} {subject : Bytes32} {epoch : UInt64} {a b : Signed} {st : Stmt}

theorem tokens_stmt (st : Stmt) :
    tokens (stmtValue st) = [.map 4, .uint 0, .uint st.domain.toNat, .uint 1, .uint st.epoch.toNat,
    .uint 2, .uint st.slot.toNat, .uint 3, .bytes st.payload] := by
  simp [stmtValue, tokens, tokensPairs]

theorem tokens_evidence (a b : Signed) : tokens (evidenceValue a b) =
    [.array 2, .array 2, .bytes a.body, .bytes a.sig.val, .array 2, .bytes b.body, .bytes b.sig.val] := by
  simp [evidenceValue, tokens, tokensList]

theorem tokens_proof (subject : Bytes32) (epoch : UInt64) (a b : Signed) :
    tokens (proofValue subject epoch a b) =
    [.map 4, .uint 0, .bytes subject.val, .uint 1, .uint faultEquivocation.toNat, .uint 2,
      .uint epoch.toNat, .uint 3] ++
      tokens (evidenceValue a b) := by
  simp [proofValue, tokens, tokensPairs]

theorem stmt_wellFormed (h : st.payload.length < 2 ^ 64) : WellFormed (stmtValue st) := by
  have hwithin : Within 1 (stmtValue st) :=
    within_fields [0, 1, 2, 3] rfl (by decide) (by simp [within_bytes h])
  exact hwithin.wellFormed (by decide)

theorem body_length_le {s : Signed} (h : s.stmt.payload.length < 65536) :
    s.body.length ≤ 35 + s.stmt.payload.length := by
  have hpayload := encode_bytes_length h
  refine (encode_fields_length [0, 1, 2, 3] rfl (by decide) [9, 9, 9, 3 + s.stmt.payload.length]
    (by simp [hpayload])).trans ?_
  simp only [sum_cons, sum_nil, length_cons, length_nil]
  omega

theorem body_length {s : Signed} (h : s.stmt.payload.length < 65536) : s.body.length < 2 ^ 64 :=
  (body_length_le h).trans_lt (by omega)

theorem payload_le_body (s : Signed) : s.stmt.payload.length ≤ s.body.length := by
  simp only [Signed.body, encode, tokens_stmt, flatMap_cons, length_append, Token.enc]
  omega

theorem proof_wellFormed (ha : a.body.length < 2 ^ 64) (hb : b.body.length < 2 ^ 64) :
    WellFormed (proofValue subject epoch a b) := by
  have hsigned {s : Signed} (h : s.body.length < 2 ^ 64) :
      Within 1 (.array [.bytes s.body, .bytes s.sig.val]) :=
    within_array (by simp) (by simp [within_bytes h])
  have hevidence : Within 2 (evidenceValue a b) := within_array (by simp) (by simp [hsigned ha, hsigned hb])
  have hwithin : Within 3 (proofValue subject epoch a b) :=
    within_fields [0, 1, 2, 3] rfl (by decide) (by simp [hevidence])
  exact hwithin.wellFormed (by decide)

theorem decodeStatement_body {s : Signed} (h : s.body.length < 2 ^ 64) :
    decodeStatement s.body = .ok s.stmt := by
  have hwf : WellFormed (stmtValue s.stmt) := stmt_wellFormed ((payload_le_body s).trans_lt h)
  have htakes : Takes decStmt (tokens (stmtValue s.stmt)) [] s.stmt := by
    rw [tokens_stmt]
    exact takes_decMapOf.bind
      (takes_keyed takes_decUintVal (takes_keyed takes_decUintVal (takes_keyed takes_decUintVal
      (takes_keyed takes_decBytesVal (takes_decFinish.bind takes_pure)))))
  have hcanonical : isCanonical s.body = .ok () := isCanonical_encode.mpr ⟨_, hwf, rfl⟩
  rw [decodeStatement, if_neg (not_not.mpr hcanonical)]
  exact runDec_of_takes hwf htakes

theorem faultProofDecode_equivocation (ha : a.body.length < 2 ^ 64) (hb : b.body.length < 2 ^ 64) :
    faultProofDecode (equivocation subject epoch a b) =
      .ok ⟨subject, faultEquivocation, epoch, encode (evidenceValue a b)⟩ := by
  have hwf : WellFormed (proofValue subject epoch a b) := proof_wellFormed ha hb
  have hleft := left_encode hwf
  rw [tokens_proof] at hleft
  obtain ⟨d, hd, hrest⟩ := @takes_decEnvelope _ subject (fun s => s.length = 32) faultEquivocation epoch
    (by simp [subject.length_val]) _ _ hleft
  have hlt := hrest
  rw [tokens_evidence] at hlt
  rw [equivocation, faultProofDecode, if_neg (encode_length_pos _).ne', isCanonical_encode.mpr ⟨_, hwf, rfl⟩]
  simp only [hd, if_neg (Nat.not_le.mpr hlt.pos_lt), toBytes32_eq_some.mpr rfl, hrest.rest]
  rfl

theorem takes_decStmtElement {us : List Token} (s : Signed) :
    Takes decStmtElement (.array 2 :: .bytes s.body :: .bytes s.sig.val :: us) us (s.body, s.sig.val) := by
  refine takes_decArrayOf.bind (takes_decBytesVal.bind (Takes.bind (takes_decBytesVal.bind ?_) takes_pure))
  have hlength : s.sig.val.length = sigSize := s.sig.length_val
  rw [if_neg (not_not.mpr hlength)]
  exact takes_pure

theorem decEquivocation_eq (ha : a.body.length < 2 ^ 64) (hb : b.body.length < 2 ^ 64) :
    runDec decEquivocation (equivocation subject epoch a b) =
      .ok ((a.body, a.sig.val), (b.body, b.sig.val)) := by
  have htakes : Takes decEquivocation (tokens (proofValue subject epoch a b)) []
      ((a.body, a.sig.val), (b.body, b.sig.val)) := by
    rw [tokens_proof, tokens_evidence]
    exact (takes_decEnvelope rfl).bind
      (takes_decArrayOf.bind ((takes_decStmtElement a).bind ((takes_decStmtElement b).bind
      (takes_decFinish.bind takes_pure))))
  exact runDec_of_takes (proof_wellFormed ha hb) htakes

theorem equivocation_accepted_of (ha : a.body.length < 2 ^ 64) (hb : b.body.length < 2 ^ 64)
    (hepoch : a.stmt.epoch = epoch ∧ b.stmt.epoch = epoch) (hdomain : a.stmt.domain = b.stmt.domain)
    (hslot : a.stmt.slot = b.stmt.slot) (hpayload : a.stmt.payload ≠ b.stmt.payload)
    (hsigned : crypto.ed25519Verify subject a.body a.sig.val = true ∧
      crypto.ed25519Verify subject b.body b.sig.val = true) :
    verify crypto (equivocation subject epoch a b) = .ok () := by
  rw [verify, verifyLevel_of_decode (faultProofDecode_equivocation ha hb), if_pos rfl, verifyEquivocation]
  refine except_bind_eq_ok.mpr ⟨_, decEquivocation_eq ha hb, except_bind_eq_ok.mpr ⟨_, decodeStatement_body ha,
    except_bind_eq_ok.mpr ⟨_, decodeStatement_body hb, ?_⟩⟩⟩
  refine except_guard_iff.mpr ⟨by simp [hepoch.1, hepoch.2], except_guard_iff.mpr ⟨by simp [hdomain, hslot],
    except_guard_iff.mpr ⟨hpayload, except_guard_iff.mpr ⟨by simp [hsigned.1], ?_⟩⟩⟩⟩
  rw [if_neg (by simp [hsigned.2])]
  rfl

theorem equivocation_accepted (h : Conflict crypto subject epoch a b) :
    verify crypto (equivocation subject epoch a b) = .ok () :=
  equivocation_accepted_of (body_length h.size.1) (body_length h.size.2) h.epoch h.domain h.slot
    h.payload h.signed

theorem equivocation_inj {a' b' : Signed} (ha : a.stmt.payload.length < 65536)
    (hb : b.stmt.payload.length < 65536)
    (ha' : a'.stmt.payload.length < 65536) (hb' : b'.stmt.payload.length < 65536)
    (h : equivocation subject epoch a b = equivocation subject epoch a' b') :
    a.stmt = a'.stmt ∧ b.stmt = b'.stmt := by
  have hread := @decEquivocation_eq subject epoch a b (body_length ha) (body_length hb)
  rw [h, decEquivocation_eq (body_length ha') (body_length hb')] at hread
  obtain ⟨⟨hbody, -⟩, hbody', -⟩ :
      (a'.body = a.body ∧ a'.sig.val = a.sig.val) ∧ b'.body = b.body ∧ b'.sig.val = b.sig.val := by
    simpa using hread
  have hstmt := decodeStatement_body (body_length ha')
  have hstmt' := decodeStatement_body (body_length hb')
  rw [hbody, decodeStatement_body (body_length ha)] at hstmt
  rw [hbody', decodeStatement_body (body_length hb)] at hstmt'
  exact ⟨Except.ok.inj hstmt, Except.ok.inj hstmt'⟩

theorem equivocation_length_le (ha : a.stmt.payload.length < 65536 - 35)
    (hb : b.stmt.payload.length < 65536 - 35) :
    (equivocation subject epoch a b).length ≤ 300 + a.stmt.payload.length + b.stmt.payload.length := by
  have hbody := @body_length_le a (by omega)
  have hbody' := @body_length_le b (by omega)
  have hbytes := @encode_bytes_length a.body (by omega)
  have hbytes' := @encode_bytes_length b.body (by omega)
  have hsig := @encode_bytes_length a.sig.val (by rw [a.sig.length_val]; norm_num)
  have hsig' := @encode_bytes_length b.sig.val (by rw [b.sig.length_val]; norm_num)
  have hsubject := encode_bytes32_length subject
  have hepoch := encode_uint_length epoch.toNat
  have htype := encode_uint_length faultEquivocation.toNat
  rw [a.sig.length_val] at hsig
  rw [b.sig.length_val] at hsig'
  simp only [equivocation, proofValue, evidenceValue, encode_map, encode_array, flatMap_cons, flatMap_nil,
    length_append, length_cons, length_nil]
  simp (disch := decide) only [encode_key_length, head_length_tiny]
  omega

def knows (subject : Bytes32) (signed : List Signed) (peer : Bytes32) (msg sig : Bytes) : Bool :=
  peer = subject && signed.any fun s => msg = s.body && sig = s.sig.val

theorem knows_of_mem {signed : List Signed} {s : Signed} (h : s ∈ signed) :
    knows subject signed subject s.body s.sig.val = true := by
  rw [knows, Bool.and_eq_true, any_eq_true]
  exact ⟨decide_eq_true rfl, s, h, by simp⟩

end AntsClient.Crdt.Equivocation
