import AntsClient.Inference.AnswerCheck
import AntsClient.Inference.Audit
import AntsClient.Inference.Wire

namespace AntsClient.Inference.Exchange

open Common Cbor Codec Values Walk Canonical Value Crypto Lib.Trace Commits Envelope Openings
  Reference Serve AnswerCheck Audit Betting Wire List

def respOverhead : Nat := 512

variable (crypto : Primitives)

def serveReference (st : State) (round : UInt64) (req : InferRequest) (envelope : Bytes) :
    Except Error Answer := do
  if req.tier < 1 ∨ req.tier > 3 then throw .invalidArg
  let resp ← serve crypto st ⟨req.input, req.tier.toUInt8, req.reqNonce, round⟩ envelope
  let commit ← commitEncode resp.commit (replicate commitEncodedMax 0)
  return ⟨commit, resp.commitSig, resp.answer⟩

inductive Reaction
  | send (msg : Bytes)
  | reset (code : Nat)
  deriving DecidableEq

/-- The answer to a complete request. The callback is given the scratch buffer of the
envelope, and declines with `none`. -/
def inboundAnswer (serveFn : InferRequest → Bytes → Option Answer) (buf envelope out : Bytes) : Reaction :=
  match decodeReq buf with
  | .error _ => .reset 1
  | .ok (txid, req) =>
    let answer := serveFn req envelope
    match encodeResp txid answer out with
    | .ok msg => .send msg
    | .error _ =>
      if answer.isSome then
        -- an answer that does not encode is declined instead
        match encodeResp txid none out with
        | .ok msg => .send msg
        | .error _ => .reset 2
      else .reset 2

structure Outbound where
  txid : UInt32
  input : Bytes
  tier : UInt32
  reqNonce : Bytes32
  oversized : Bool
  buf : Option Bytes

inductive Result
  | noAnswer
  | answered (commit : Commit) (envelope : Bytes)
  | declined
  | rejected
  deriving DecidableEq

/-- The verdict on a complete response; `peerId` is the authenticated key, unless the connection is
torn down. -/
def outboundConclude (peerId : Option Bytes32) (o : Outbound) : Result :=
  match peerId with
  | none => .noAnswer
  | some producerPub =>
    match if o.oversized then none else o.buf.bind fun buf => (decodeResp buf).toOption with
    | none => .rejected
    | some (txid, answer) =>
      if txid ≠ o.txid then .rejected
      else match answer with
        | none => .declined
        | some a =>
          if o.tier > 0xff then .rejected
          else match answerCheck crypto a.commit a.sig producerPub a.envelope o.input o.tier.toUInt8
              o.reqNonce with
            | .ok (some commit) => .answered commit a.envelope
            | _ => .rejected

def Consistent (key : KeyPair) : Prop := ∀ msg, crypto.ed25519Verify key.pub msg (key.sign msg).val = true

/-- The reference gives, for the prefix it is called on, the committed distribution, and
that is what it is compared with. -/
def Confirms (refFn : Bytes → UInt64 → Except Error (List Int32)) (env : AnswerEnv) : Probe → Prop
  | .call p prefixBytes => refFn prefixBytes (UInt64.ofNat p) = .ok (readDist (env.dists.getD p []))
  | .compare p reference committed => committed = readDist (env.dists.getD p []) ∧ reference = committed

variable {crypto} {st : State}

theorem outboundConclude_answered {producerPub : Bytes32} {o : Outbound} {buf : Bytes} {a : Answer}
    {commit : Commit}
    (hbuf : o.buf = some buf) (hsize : o.oversized = false)
    (hdec : decodeResp buf = .ok (o.txid, some a)) (htier : o.tier ≤ 0xff)
    (hcheck : answerCheck crypto a.commit a.sig producerPub a.envelope o.input o.tier.toUInt8
      o.reqNonce = .ok (some commit)) :
    outboundConclude crypto (some producerPub) o = .answered commit a.envelope := by
  have htier' : ¬ o.tier > 0xff := UInt32.not_lt.mpr htier
  simp only [outboundConclude, hsize, hbuf, hdec, hcheck, htier', Except.toOption, Option.bind_some,
    Bool.false_eq_true, if_false,
    ne_eq, not_true_eq_false]

section Answer

variable {input : Bytes} {model : Model}

theorem exists_answerRoot (model : Model) (input : Bytes) :
    ∃ root, distsRoot crypto (answerOf model input).dists = .ok root := by
  obtain ⟨hpos, hle, -⟩ := genCount_bounds (promptEff_le input.length).2
  have hlength : (answerOf model input).dists.length = genCount (promptEff input.length) := by
    simp [answerOf, answerDists]
  rw [answerRoot_eq]
  refine exists_merkleRoot ?_ ?_
  · rw [← length_pos_iff, length_map, leafData_length, hlength]
    exact hpos
  · rw [length_map, leafData_length, hlength]
    exact hle.trans (by decide)

theorem dist_length_le {d : Bytes} (hd : d ∈ (answerOf model input).dists) : d.length ≤ 1024 := by
  obtain ⟨p, -, rfl⟩ := mem_answerDists hd
  have hvocab := model.vocab_le
  rw [refVocabMax] at hvocab
  rw [serializeDist_length, distAt, model.forward_length]
  omega

theorem answer_length_le (hinput : input.length ≤ maxInputBytes) :
    (encode (envValue (answerOf model input))).length ≤ 20557 := by
  obtain ⟨-, hle, -⟩ := genCount_bounds (promptEff_le input.length).2
  have hlength : (answerOf model input).tokens.length ≤ 16 := (answerTokens_length _ _).trans_le hle
  have h := env_length_le (@answerOf_shaped model input) (lt_of_le_of_lt hinput (by decide))
    (fun d hd => dist_length_le hd) (by decide)
  have hinput' : (answerOf model input).input.length ≤ 4096 := hinput
  omega

theorem answer_wellFormed (hinput : input.length ≤ maxInputBytes) :
    WellFormed (envValue (answerOf model input)) :=
  env_wellFormed (answerOf_shaped input) (lt_of_le_of_lt hinput (by decide))
    fun _ hd => lt_of_le_of_lt (dist_length_le hd) (by decide)

theorem answer_decode (hinput : input.length ≤ maxInputBytes) :
    answerEnvelopeDecode (encode (envValue (answerOf model input))) = .ok (answerOf model input) :=
  answerEnvelopeDecode_encode (answerOf_shaped input) (lt_of_le_of_lt hinput (by decide))
    fun _ hd => lt_of_le_of_lt (dist_length_le hd) (by decide)

/-- The auditor's reference, on the prefix that the answer gives for a position, is the
producer's distribution. -/
theorem reference_openedPrefix {p : Nat} (hinput : input ≠ [])
    (hp : p < genCount (promptEff input.length)) (position : UInt64) :
    reference model (openedPrefix (answerOf model input) p) position = .ok (distAt model input p) := by
  obtain ⟨hle, hlt⟩ := promptEff_le input.length
  obtain ⟨-, -, hroom⟩ := genCount_bounds hlt
  have hpos := promptEff_pos (length_pos_iff.mpr hinput)
  have hopened : openedPrefix (answerOf model input) p = input.take (promptEff input.length) ++
      answerTokens model input p := by
    rw [openedPrefix, answerOf, answerTokens_take hp.le]
  have hlength : (openedPrefix (answerOf model input) p).length = promptEff input.length + p := by
    rw [hopened, length_append, length_take, min_eq_left hle, answerTokens_length]
  have htokens : tokensOf model (openedPrefix (answerOf model input) p) = prefixAt model input p := by
    rw [hopened, tokensOf_append, tokensOf_answerTokens, prefixAt_eq, prompt]
  rw [reference, referenceDistribution, if_neg (by omega), if_neg (by omega),
    if_neg (Nat.not_lt.mpr model.vocab_le), htokens]
  rfl

theorem answer_confirmed {D : Type} [Double D] {commit : Commit} {beacon : Bytes32}
    {params : EProcess D} (hinput : input ≠ [])
    (hmax : input.length ≤ maxInputBytes) {probe : Probe}
    (h : probe ∈ traceOf (audit crypto (reference model) commit
      (encode (envValue (answerOf model input))) beacon params)) :
    Confirms (reference model) (answerOf model input) probe := by
  obtain ⟨r, htraces⟩ := (@audit_traces D _ crypto (reference model) commit
    (encode (envValue (answerOf model input))) beacon
    params).of_traceOf
  rcases htraces with hnil | ⟨env, henv, -, -, hreads⟩
  · rw [hnil] at h
    cases h
  · obtain rfl : answerOf model input = env := Except.ok.inj ((answer_decode hmax).symm.trans henv)
    have hdist {p : Nat} (hp : p < (answerOf model input).tokens.length) :
        p < genCount (promptEff input.length) ∧
          readDist ((answerOf model input).dists.getD p []) = distAt model input p := by
      have hlt : p < genCount (promptEff input.length) := hp.trans_eq (answerTokens_length _ _)
      exact ⟨hlt, (congrArg readDist (answerDists_getD hlt)).trans (readDist_serializeDist _)⟩
    cases hreads probe h with
    | call hp =>
      obtain ⟨hlt, hread⟩ := hdist hp
      exact (reference_openedPrefix hinput hlt _).trans (congrArg _ hread.symm)
    | compare hp href =>
      obtain ⟨hlt, hread⟩ := hdist hp
      rw [reference_openedPrefix hinput hlt] at href
      exact ⟨rfl, (Except.ok.inj href).symm.trans hread.symm⟩

end Answer

section Honest

variable {req : InferRequest} {round : UInt64} {root : Bytes32}

def served (round : UInt64) (req : InferRequest) : Request := ⟨req.input, req.tier.toUInt8, req.reqNonce, round⟩

def honestAnswer (crypto : Primitives) (st : State) (req : Request) (root : Bytes32) : Answer :=
  let commit := encode (commitValue (commitOf crypto st req root))
  ⟨commit, st.producer.sign commit, encode (envValue (answerOf st.model req.input))⟩

theorem tier_cases {tier : UInt32} (h : 1 ≤ tier ∧ tier ≤ 3) : tier = 1 ∨ tier = 2 ∨ tier = 3 := by
  obtain ⟨h₁, h₃⟩ := h
  rw [UInt32.le_iff_toNat_le] at h₁ h₃
  simp only [← UInt32.toNat_inj]
  have : (1 : UInt32).toNat = 1 ∧ (2 : UInt32).toNat = 2 ∧ (3 : UInt32).toNat = 3 := by decide
  omega

theorem requestValid_of (hinput : 1 ≤ req.input.length ∧ req.input.length ≤ maxInputBytes)
    (htier : 1 ≤ req.tier ∧ req.tier ≤ 3) : requestValid req = true :=
  requestValid_iff.mpr ⟨hinput.1, hinput.2, UInt32.le_trans htier.2 (by decide)⟩

theorem serveReference_eq {envelope : Bytes} (hinput : 1 ≤ req.input.length ∧ req.input.length ≤ maxInputBytes)
    (htier : 1 ≤ req.tier ∧ req.tier ≤ 3)
    (hroot : distsRoot crypto (answerOf st.model req.input).dists = .ok root)
    (hbuf : maxRespBytes - respOverhead ≤ envelope.length) :
    serveReference crypto st round req envelope = .ok (honestAnswer crypto st (served round req) root) := by
  have hbuf' : (encode (envValue (answerOf st.model req.input))).length ≤ envelope.length :=
    ((answer_length_le hinput.2).trans (by decide)).trans hbuf
  have henc : encodeBuf (encEnvelope (answerOf st.model req.input)) envelope =
      .ok (encode (envValue (answerOf st.model req.input))) := by
    rw [encEnvelope_eq]
    exact (encodeInto_iff (answer_wellFormed hinput.2)).mpr ⟨rfl, hbuf'⟩
  have htier' : (served round req).tier = 1 ∨ (served round req).tier = 2 ∨ (served round req).tier = 3 :=
    (tier_cases htier).imp (congrArg UInt32.toUInt8)
      (Or.imp (congrArg UInt32.toUInt8) (congrArg UInt32.toUInt8))
  have hserve := (@serve_iff crypto st (served round req) envelope _).mpr
    ⟨length_pos_iff.mp hinput.1, htier', root, hroot, _, henc, rfl⟩
  rw [serveReference, except_guard_iff]
  refine ⟨?_, except_bind_eq_ok.mpr ⟨_, hserve, ?_⟩⟩
  · rw [not_or, UInt32.not_lt, UInt32.not_lt]
    exact htier
  · rw [commitEncode_eq _ (le_of_eq length_replicate.symm)]
    rfl

theorem honest_accepted (hkey : Consistent crypto st.producer) {req : Request}
    (hinput : req.input.length ≤ maxInputBytes)
    (hroot : distsRoot crypto (answerOf st.model req.input).dists = .ok root) :
    Accepted crypto (honestAnswer crypto st req root).commit (honestAnswer crypto st req root).sig
      st.producer.pub
      (honestAnswer crypto st req root).envelope req.input req.tier req.reqNonce (commitOf crypto st req root)
      (answerOf st.model req.input) := by
  obtain ⟨hcount, hmax, hne⟩ := ofNat_count req.input
  obtain ⟨-, -, hroom⟩ := genCount_bounds (promptEff_le req.input.length).2
  refine ⟨commitDecode_encode _, hkey _, rfl, rfl, rfl, answer_decode hinput, rfl, ?_,
    ⟨hne, hcount.trans_le hmax, hne, UInt32.le_refl _⟩, ?_, ?_, ?_, hroot⟩
  · exact (answerTokens_length _ _).trans hcount.symm
  · rw [policyBroken, commitOf, buildCommit]
    by_cases h : req.tier = 1 <;> simp [h]
  · cases hdists : (answerOf st.model req.input).dists with
    | nil => decide
    | cons d ds =>
      have hd := dist_length_le (hdists ▸ mem_cons_self : d ∈ (answerOf st.model req.input).dists)
      rw [headD_cons, refVocabMax]
      omega
  · exact (congrArg _ hcount).trans_le hroom

theorem honestAnswer_valid {req : Request} : answerValid (honestAnswer crypto st req root) = true :=
  answerValid_iff.mpr ⟨encode_length_pos _, commit_length_le _, encode_length_pos _⟩

/-- An exchange with the reference producer goes through, and its answer stands up to an audit by
the same model. -/
theorem honest_exchange {txid : UInt32} {reqBuf envelope out : Bytes} (hkey : Consistent crypto st.producer)
    (hinput : 1 ≤ req.input.length ∧ req.input.length ≤ maxInputBytes) (htier : 1 ≤ req.tier ∧ req.tier ≤ 3)
    (hreqBuf : maxReqBytes ≤ reqBuf.length) (henvelope : maxRespBytes - respOverhead ≤ envelope.length)
    (hout : maxRespBytes ≤ out.length) :
    ∃ reqMsg answer respMsg commit env,
      encodeReq txid req reqBuf = .ok reqMsg ∧ decodeReq reqMsg = .ok (txid, req) ∧
      serveReference crypto st round req envelope = .ok answer ∧
      encodeResp txid (some answer) out = .ok respMsg ∧ decodeResp respMsg = .ok (txid, some answer) ∧
      answerCheck crypto answer.commit answer.sig st.producer.pub answer.envelope req.input
        req.tier.toUInt8 req.reqNonce =
        .ok (some commit) ∧
      inboundAnswer (fun req envelope => (serveReference crypto st round req envelope).toOption)
        reqMsg envelope out =
        .send respMsg ∧
      outboundConclude crypto (some st.producer.pub)
        ⟨txid, req.input, req.tier, req.reqNonce, false, some respMsg⟩ =
        .answered commit answer.envelope ∧
      answerEnvelopeDecode answer.envelope = .ok env ∧
      ∀ (D : Type) [Double D] (beacon : Bytes32) (params : EProcess D),
        ∀ probe ∈ traceOf (audit crypto (reference st.model) commit answer.envelope beacon params),
          Confirms (reference st.model) env probe := by
  have hne : req.input ≠ [] := length_pos_iff.mp hinput.1
  have hreq := requestValid_of hinput htier
  obtain ⟨root, hroot⟩ := @exists_answerRoot crypto st.model req.input
  have hserve := @serveReference_eq crypto st req round root envelope hinput htier hroot henvelope
  have hsize : (honestAnswer crypto st (served round req) root).envelope.length < 65536 :=
    lt_of_le_of_lt (answer_length_le hinput.2) (by decide)
  obtain ⟨respMsg, henc, hdec⟩ := @resp_roundtrip txid _ out honestAnswer_valid hsize hout
  have hcheck := answerCheck_iff.mpr
    ⟨hne, _, @honest_accepted crypto st root hkey (served round req) hinput.2 hroot⟩
  have hdecReq : decodeReq _ = .ok (txid, req) := decodeReq_encode hreq
  refine ⟨_, _, respMsg, _, _, encodeReq_eq hreq hreqBuf, hdecReq, hserve, henc, hdec, hcheck, ?_,
    ?_, answer_decode hinput.2,
    fun D _ beacon params probe hprobe => answer_confirmed hne hinput.2 hprobe⟩
  · simp only [inboundAnswer, hdecReq, hserve, Except.toOption, henc]
  · exact outboundConclude_answered rfl rfl hdec (UInt32.le_trans htier.2 (by decide)) hcheck

section Sample

def lenientCrypto : Primitives := { sampleCrypto with
  ed25519Verify := fun pub _ sig => pub = sampleProducer.pub && sig = (sampleProducer.sign []).val }

def sampleInfer : InferRequest := ⟨sampleInput, 2, zero32⟩

theorem lenient_consistent : Consistent lenientCrypto sampleProducer := by
  intro msg
  have hsign : sampleProducer.sign msg = sampleProducer.sign [] := rfl
  simp [lenientCrypto, hsign]

theorem honest_exchange_sample :
    ∃ reqMsg respMsg commit envelope, encodeReq 5 sampleInfer (replicate maxReqBytes 0) = .ok reqMsg ∧
      inboundAnswer (fun req envelope => (serveReference lenientCrypto sampleState 7 req envelope).toOption)
        reqMsg (replicate maxRespBytes 0) (replicate maxRespBytes 0) = .send respMsg ∧
      outboundConclude lenientCrypto (some sampleProducer.pub)
        ⟨5, sampleInput, 2, zero32, false, some respMsg⟩ =
        .answered commit envelope := by
  have hlength : maxRespBytes ≤ (replicate maxRespBytes (0 : UInt8)).length := length_replicate.ge
  obtain ⟨reqMsg, answer, respMsg, commit, -, hreq, -, -, -, -, -, hin, hout, -⟩ :=
    @honest_exchange lenientCrypto sampleState sampleInfer 7 5 (replicate maxReqBytes 0)
      (replicate maxRespBytes 0) (replicate maxRespBytes 0) lenient_consistent (by decide) (by decide)
      length_replicate.ge ((Nat.sub_le _ _).trans hlength) hlength
  exact ⟨reqMsg, respMsg, commit, answer.envelope, hreq, hin, hout⟩

end Sample

end Honest

end AntsClient.Inference.Exchange
