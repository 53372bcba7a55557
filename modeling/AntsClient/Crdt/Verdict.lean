import AntsClient.Crdt.Converge
import AntsClient.Crdt.Equivocation

namespace AntsClient.Crdt.Verdict

open Common Cbor Codec Tokens DecoderSpec EncoderSpec Values Walk Schema Value Crypto Crdt Proof
  Readers Operations Converge Equivocation

variable {crypto : Primitives} {subject : Bytes32} {epoch : UInt64} {a b : Signed} {st : Stmt}
  {buf body π : Bytes} {view : FaultProofView}

section Encoders

def stmtCalls (st : Stmt) : List Call :=
  [.map 4, .uint 0, .uint st.domain, .uint 1, .uint st.epoch, .uint 2, .uint st.slot, .uint 3,
    .bytes st.payload]

def proofCalls (subject : Bytes32) (epoch : UInt64) (a b : Signed) : List Call :=
  [.map 4, .uint 0, .bytes subject.val, .uint 1, .uint faultEquivocation, .uint 2, .uint epoch,
    .uint 3, .array 2, .array 2,
    .bytes a.body, .bytes a.sig.val, .array 2, .bytes b.body, .bytes b.sig.val]

theorem stmtCalls_token (st : Stmt) : (stmtCalls st).map Call.token = tokens (stmtValue st) := by
  rw [tokens_stmt]
  rfl

theorem proofCalls_token :
    (proofCalls subject epoch a b).map Call.token = tokens (proofValue subject epoch a b) := by
  rw [tokens_proof, tokens_evidence]
  rfl

theorem statementEncode_iff {st : Stmt} {buf body : Bytes} :
    statementEncode st.domain st.epoch st.slot st.payload buf = .ok body ↔
      steps (tokens (stmtValue st)) [] = .ok [] ∧ encode (stmtValue st) = body ∧ body ≠ [] ∧
      body.length ≤ buf.length := by
  have hcalls : encStatement st.domain st.epoch st.slot st.payload = encCalls (stmtCalls st) := by
    simp only [encStatement, stmtCalls, encCalls, encCall, bind_pure_unit]
  rw [statementEncode, hcalls, encodeBuf_iff, stmtCalls_token]
  rfl

theorem equivocationEncode_iff {buf π : Bytes} :
    equivocationEncode subject epoch a.body a.sig b.body b.sig buf = .ok π ↔
      steps (tokens (proofValue subject epoch a b)) [] = .ok [] ∧
      equivocation subject epoch a b = π ∧ π ≠ [] ∧ π.length ≤ buf.length := by
  have hcalls : encEquivocation subject epoch a.body a.sig b.body b.sig =
      encCalls (proofCalls subject epoch a b) := by
    simp only [encEquivocation, encStmtElement, proofCalls, encCalls, encCall, bind_pure_unit, bind_assoc]
  have hpos : ¬ (a.body.length = 0 ∨ b.body.length = 0) := by
    have ha := encode_length_pos (stmtValue a.stmt)
    have hb := encode_length_pos (stmtValue b.stmt)
    rw [Signed.body, Signed.body]
    omega
  rw [equivocationEncode, if_neg hpos, hcalls, encodeBuf_iff, proofCalls_token]
  rfl

theorem statementEncode_body {s : Signed} (h : s.body.length < 2 ^ 64) (hbuf : s.body.length ≤ buf.length) :
    statementEncode s.stmt.domain s.stmt.epoch s.stmt.slot s.stmt.payload buf = .ok s.body := by
  have hwf : WellFormed (stmtValue s.stmt) := stmt_wellFormed ((payload_le_body s).trans_lt h)
  refine statementEncode_iff.mpr ⟨(wellFormed_iff hwf.inRange).mp hwf, rfl, ?_, hbuf⟩
  exact List.length_pos_iff.mp (encode_length_pos _)

theorem equivocationEncode_proof (ha : a.body.length < 2 ^ 64) (hb : b.body.length < 2 ^ 64)
    (hbuf : (equivocation subject epoch a b).length ≤ buf.length) :
    equivocationEncode subject epoch a.body a.sig b.body b.sig buf = .ok (equivocation subject epoch a b) := by
  have hwf : WellFormed (proofValue subject epoch a b) := proof_wellFormed ha hb
  refine equivocationEncode_iff.mpr ⟨(wellFormed_iff hwf.inRange).mp hwf, rfl, ?_, hbuf⟩
  exact List.length_pos_iff.mp (encode_length_pos _)

theorem body_le_proof : a.body.length ≤ (equivocation subject epoch a b).length ∧
    b.body.length ≤ (equivocation subject epoch a b).length := by
  simp only [equivocation, encode, tokens_proof, tokens_evidence, List.flatMap_cons,
    List.flatMap_append, List.length_append, Token.enc]
  omega

end Encoders

section Readers

def envTokens (subject : Bytes) (faultType epoch : UInt64) : List Token :=
  [.map 4, .uint 0, .bytes subject, .uint 1, .uint faultType.toNat, .uint 2, .uint epoch.toNat, .uint 3]

theorem yields_decEnvelope : Yields (decEnvelope fun _ => true) fun out ts =>
    ts = envTokens out.1 out.2.1 out.2.2 :=
  (yields_decMapOf 4).step fun _ => yields_keyed 0 yields_decBytesVal fun _ =>
      yields_keyed 1 yields_decUintVal fun _ =>
    yields_keyed 2 yields_decUintVal fun _ => (yields_decExpectKey 3).step fun _ => yields_pure rfl

theorem takes_decEnvelope_any {us : List Token} {subj : Bytes} {faultType : UInt64} :
    Takes (decEnvelope fun _ => true) (envTokens subj faultType epoch ++ us) us (subj, faultType, epoch) :=
  takes_decMapOf.bind (takes_keyed takes_decBytesVal (takes_keyed takes_decUintVal (takes_keyed takes_decUintVal
    (takes_decExpectKey.bind takes_pure))))

theorem decEnvelope_any {subjectOk : Bytes → Bool} {d d' : Dec} {out : Bytes × UInt64 × UInt64}
    (h : decEnvelope subjectOk d = .ok out d') : decEnvelope (fun _ => true) d = .ok out d' := by
  rw [decEnvelope] at h ⊢
  obtain ⟨_, d₁, h₁, h⟩ := bind_eq_ok.mp h
  obtain ⟨_, d₂, h₂, h⟩ := bind_eq_ok.mp h
  obtain ⟨subj, d₃, h₃, h⟩ := bind_eq_ok.mp h
  rw [bind_ok h₁, bind_ok h₂, bind_ok h₃]
  by_cases hok : subjectOk subj = true
  · rw [if_neg (by simp [hok])] at h
    exact h
  · rw [if_pos (by simp [hok])] at h
    cases h

theorem yields_decStmt : Yields decStmt (fun st ts => True ∧ ts = tokens (stmtValue st)) True := by
  refine (yields_decMapOf 4).step fun _ => yields_keyed 0 yields_decUintVal fun domain =>
      yields_keyed 1 yields_decUintVal fun epoch =>
    yields_keyed 2 yields_decUintVal fun slot => yields_keyed 3 yields_decBytesVal fun payload =>
      yields_decFinish ⟨trivial, ?_⟩
  rw [tokens_stmt]
  rfl

theorem decodeStatement_sound (h : decodeStatement body = .ok st) : encode (stmtValue st) = body := by
  rw [decodeStatement] at h
  split at h
  · cases h
  · obtain ⟨d, hd⟩ := runDec_eq_ok.mp h
    exact (yields_decStmt.encode hd).2

theorem yields_decStmtElement : Yields decStmtElement fun out ts => out.2.length = sigSize ∧
    ts = [.array 2, .bytes out.1, .bytes out.2] := by
  refine (yields_decArrayOf 2).step fun _ => yields_decBytesVal.step fun body => ?_
  have hsig : Yields decSig fun sig ts => sig.length = sigSize ∧ ts = [.bytes sig] := by
    refine yields_decBytesVal.step fun sig => ?_
    by_cases hlen : sig.length = sigSize
    · rw [if_neg (not_not.mpr hlen)]
      exact yields_pure ⟨hlen, rfl⟩
    · rw [if_pos hlen]
      exact yields_throw
  refine hsig.bind ?_
  rintro sig _ ⟨hlen, rfl⟩
  exact yields_pure ⟨hlen, rfl⟩

theorem yields_decEquivocation :
    Yields decEquivocation (fun out ts => out.1.2.length = sigSize ∧ out.2.2.length = sigSize ∧
    ∃ subj faultType epoch, ts = envTokens subj faultType epoch ++
      [.array 2, .array 2, .bytes out.1.1, .bytes out.1.2,
      .array 2, .bytes out.2.1, .bytes out.2.2]) True := by
  refine yields_decEnvelope.seq fun env => (yields_decArrayOf 2).step fun _ => yields_decStmtElement.bind ?_
  rintro ⟨bodyA, sigA⟩ _ ⟨hsigA, rfl⟩
  refine yields_decStmtElement.bind ?_
  rintro ⟨bodyB, sigB⟩ _ ⟨hsigB, rfl⟩
  exact yields_decFinish ⟨hsigA, hsigB, env.1, env.2.1, env.2.2, rfl⟩

end Readers

theorem faultProofDecode_envelope (h : faultProofDecode π = .ok view) :
    ∃ d, decEnvelope (fun _ => true) (decInit π) = .ok (view.subject.val, view.faultType, view.epoch) d := by
  rw [faultProofDecode] at h
  split at h
  · cases h
  split at h
  · cases h
  split at h
  · cases h
  rename_i subj faultType epoch d henv
  split at h
  · cases h
  split at h
  · cases h
  rename_i subject hsubj
  obtain rfl := Except.ok.inj h
  obtain rfl := toBytes32_eq_some.mp hsubj
  exact ⟨d, decEnvelope_any henv⟩

theorem verifyEquivocation_sound (hview : faultProofDecode π = .ok view)
    (htype : view.faultType = faultEquivocation)
    (h : verifyEquivocation crypto π view.subject view.epoch = .ok ()) :
    ∃ a b : Signed, equivocation view.subject view.epoch a b = π ∧ a.stmt.epoch = view.epoch ∧
    b.stmt.epoch = view.epoch ∧
      a.stmt.domain = b.stmt.domain ∧ a.stmt.slot = b.stmt.slot ∧ a.stmt.payload ≠ b.stmt.payload ∧
      crypto.ed25519Verify view.subject a.body a.sig.val = true ∧
      crypto.ed25519Verify view.subject b.body b.sig.val = true := by
  obtain ⟨⟨⟨bodyA, sigA⟩, bodyB, sigB⟩, hread, h⟩ := except_bind_eq_ok.mp h
  obtain ⟨stA, hstA, h⟩ := except_bind_eq_ok.mp h
  obtain ⟨stB, hstB, h⟩ := except_bind_eq_ok.mp h
  obtain ⟨hepoch, h⟩ := except_guard_iff.mp h
  obtain ⟨hplace, h⟩ := except_guard_iff.mp h
  obtain ⟨hpayload, h⟩ := except_guard_iff.mp h
  obtain ⟨hverA, h⟩ := except_guard_iff.mp h
  have hverA : crypto.ed25519Verify view.subject bodyA sigA = true := by simpa using hverA
  have hverB : crypto.ed25519Verify view.subject bodyB sigB = true := by
    by_contra hno
    rw [if_pos (by simp [hno])] at h
    cases h
  obtain ⟨d, hd⟩ := runDec_eq_ok.mp hread
  obtain ⟨ts, ⟨hsigA, hsigB, subj, faultType, epoch, rfl⟩, hvalid, hbytes, hsteps⟩ :=
    yields_decEquivocation.whole hd
  -- the walk of the verifier and the one of the envelope decoder saw the same fields
  obtain ⟨d₁, henv⟩ := faultProofDecode_envelope hview
  obtain ⟨d₂, henv', -⟩ := takes_decEnvelope_any _ _ (left_of_steps hvalid hbytes hsteps)
  obtain ⟨rfl, rfl, rfl⟩ : subj = view.subject.val ∧ faultType = view.faultType ∧ epoch = view.epoch := by
    simpa using (EStateM.Result.ok.inj (henv'.symm.trans henv)).1
  obtain rfl := decodeStatement_sound hstA
  obtain rfl := decodeStatement_sound hstB
  rw [not_or, not_not, not_not] at hepoch hplace
  refine ⟨⟨stA, ⟨sigA, hsigA⟩⟩, ⟨stB, ⟨sigB, hsigB⟩⟩, ?_, hepoch.1, hepoch.2, hplace.1, hplace.2,
    hpayload, hverA, hverB⟩
  rw [equivocation, encode, tokens_proof, tokens_evidence, ← htype]
  exact hbytes

/-- An accepted equivocation is what the encoder writes for two statements of one place with
different payloads and valid signatures. -/
theorem equivocation_verdict {π : Bytes} (hsize : π.length < 2 ^ 64) :
    (verify crypto π = .ok () ∧ ∃ view, faultProofDecode π = .ok view ∧ view.faultType = faultEquivocation) ↔
      ∃ (subject : Bytes32) (domain epoch slot : UInt64) (p q : Bytes) (sigA sigB : Signature)
      (bodyA bodyB : Bytes), p ≠ q ∧
        (∀ buf, bodyA.length ≤ buf.length → statementEncode domain epoch slot p buf = .ok bodyA) ∧
        (∀ buf, bodyB.length ≤ buf.length → statementEncode domain epoch slot q buf = .ok bodyB) ∧
        (∀ buf, π.length ≤ buf.length → equivocationEncode subject epoch bodyA sigA bodyB sigB buf = .ok π) ∧
        crypto.ed25519Verify subject bodyA sigA.val = true ∧
        crypto.ed25519Verify subject bodyB sigB.val = true := by
  constructor
  · rintro ⟨haccept, view, hview, htype⟩
    rw [verify, verifyLevel_of_decode hview, if_pos htype] at haccept
    obtain ⟨a, b, rfl, hepochA, hepochB, hdomain, hslot, hpayload, hverA, hverB⟩ :=
      verifyEquivocation_sound hview htype haccept
    obtain ⟨hlea, hleb⟩ := @body_le_proof view.subject view.epoch a b
    have ha : a.body.length < 2 ^ 64 := hlea.trans_lt hsize
    have hb : b.body.length < 2 ^ 64 := hleb.trans_lt hsize
    refine ⟨view.subject, a.stmt.domain, view.epoch, a.stmt.slot, a.stmt.payload, b.stmt.payload,
      a.sig, b.sig, a.body,
      b.body, hpayload, ?_, ?_, fun buf hbuf => equivocationEncode_proof ha hb hbuf, hverA, hverB⟩
    · intro buf hbuf
      rw [← hepochA]
      exact statementEncode_body ha hbuf
    · intro buf hbuf
      rw [hdomain, hslot, ← hepochB]
      exact statementEncode_body hb hbuf
  · rintro ⟨subject, domain, epoch, slot, p, q, sigA, sigB, bodyA, bodyB, hne, hbodyA, hbodyB,
      hproof, hverA, hverB⟩
    let a : Signed := ⟨⟨domain, epoch, slot, p⟩, sigA⟩
    let b : Signed := ⟨⟨domain, epoch, slot, q⟩, sigB⟩
    obtain ⟨-, rfl, -⟩ := (@statementEncode_iff a.stmt _ _).mp (hbodyA _ le_rfl)
    obtain ⟨-, rfl, -⟩ := (@statementEncode_iff b.stmt _ _).mp (hbodyB _ le_rfl)
    obtain ⟨-, rfl, -⟩ := (@equivocationEncode_iff subject epoch a b _ _).mp (hproof _ le_rfl)
    obtain ⟨hlea, hleb⟩ := @body_le_proof subject epoch a b
    refine ⟨?_, _, faultProofDecode_equivocation (hlea.trans_lt hsize) (hleb.trans_lt hsize), rfl⟩
    exact equivocation_accepted_of (hlea.trans_lt hsize) (hleb.trans_lt hsize) ⟨rfl, rfl⟩ rfl rfl
      hne ⟨hverA, hverB⟩

theorem equivocation_verdict_sample :
    ∃ (subject : Bytes32) (epoch : UInt64) (sigA sigB : Signature) (bodyA bodyB : Bytes),
    equivocationEncode subject epoch bodyA sigA bodyB sigB sampleProof = .ok sampleProof ∧
      sampleCrypto.ed25519Verify subject bodyA sigA.val = true ∧
      sampleCrypto.ed25519Verify subject bodyB sigB.val = true := by
  obtain ⟨subject, domain, epoch, slot, p, q, sigA, sigB, bodyA, bodyB, -, -, -, hproof, hverA, hverB⟩ :=
    (@equivocation_verdict sampleCrypto sampleProof (by decide +kernel)).mp
      ⟨sampleProof_accepted.1, _, sampleProof_accepted.2, rfl⟩
  exact ⟨subject, epoch, sigA, sigB, bodyA, bodyB, hproof _ le_rfl, hverA, hverB⟩

end AntsClient.Crdt.Verdict
