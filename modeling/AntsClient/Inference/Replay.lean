import AntsClient.Inference.AnswerCheck
import AntsClient.Inference.Audit

namespace AntsClient.Inference.Replay

open Common Cbor.Values Value Crypto Lib.Trace Envelope Openings Reference Serve AnswerCheck Betting Audit

/-- The reference is called on the prefix from which the producer computed the distribution, and its
result is compared with that. -/
def Replays (model : Model) (input : Bytes) : Probe → Prop
  | .call p prefixBytes => tokensOf model prefixBytes = prefixAt model input p
  | .compare p _ committed => committed = distAt model input p

/-- The envelope has the producer's prompt, as far as it is used, and tokens before the position,
modulo the vocabulary. -/
def Agrees (model : Model) (input : Bytes) (env : AnswerEnv) (p : Nat) : Prop :=
  prompt model env.input = prompt model input ∧
    tokensOf model (env.tokens.take p) = tokensOf model (answerTokens model input p)

/-- No two of the byte strings collide that are hashed for the root of the served answer
and for that of the envelope. -/
def CollisionFree (crypto : Primitives) (model : Model) (input answer : Bytes) : Prop :=
  ∀ env, answerEnvelopeDecode answer = .ok env →
    Set.InjOn crypto.blake3 (rootInputs crypto env.dists ∪ rootInputs crypto (answerOf model input).dists)

variable {D : Type} [Double D] {crypto : Primitives}
  {refFn : Bytes → UInt64 → Except Error (List Int32)} {st : State}
  {req : Request} {buf answer : Bytes} {resp : Response} {beacon : Bytes32} {params : EProcess D}

/-- In an audit of a served commit the distributions are the producer's, and the probes read the
envelope. -/
theorem audit_of_serve (hserve : serve crypto st req buf = .ok resp)
    (hfree : CollisionFree crypto st.model req.input answer) :
    traceOf (audit crypto refFn resp.commit answer beacon params) = [] ∨
      ∃ env, answerEnvelopeDecode answer = .ok env ∧
        env.dists = (answerOf st.model req.input).dists ∧
        env.tokens.length = genCount (promptEff req.input.length) ∧
        ∀ probe ∈ traceOf (audit crypto refFn resp.commit answer beacon params),
          Reads refFn env probe := by
  obtain ⟨-, -, root, hroot, answer', -, rfl⟩ := serve_iff.mp hserve
  obtain ⟨hcount, -, -⟩ := ofNat_count req.input
  obtain ⟨r, h⟩ := (@audit_traces D _ crypto refFn (commitOf crypto st req root) answer beacon
    params).of_traceOf
  refine h.imp_right ?_
  rintro ⟨env, henv, hlength, hroot', hreads⟩
  have hdists : env.dists = (answerOf st.model req.input).dists :=
    distsRoot_inj (answerEnvelopeDecode_sound henv).1.dists_ne_nil
      (answerOf_shaped req.input).dists_ne_nil hroot' hroot (hfree env henv)
  exact ⟨env, henv, hdists, hlength.trans hcount, hreads⟩

section Opened

variable {model : Model} {input : Bytes} {env : AnswerEnv} {p : Nat}

theorem tokensOf_openedPrefix (p : Nat) :
    tokensOf model (openedPrefix env p) = prompt model env.input ++ tokensOf model (env.tokens.take p) :=
  tokensOf_append _ _

/-- The prompts have one length when the prefixes of a position do. -/
theorem openedPrefix_iff (hp : p ≤ env.tokens.length) :
    tokensOf model (openedPrefix env p) = prefixAt model input p ↔ Agrees model input env p := by
  rw [tokensOf_openedPrefix, prefixAt_eq, ← tokensOf_answerTokens, Agrees]
  constructor
  · intro heq
    refine List.append_inj' heq ?_
    rw [tokensOf, tokensOf, List.length_map, List.length_map, answerTokens_length, List.length_take,
      min_eq_left hp]
  · rintro ⟨hprompt, htokens⟩
    rw [hprompt, htokens]

theorem Agrees.mono {k : Nat} (h : Agrees model input env k) (hp : p ≤ k) :
    Agrees model input env p := by
  obtain ⟨hprompt, htokens⟩ := h
  have htake := congrArg (List.take p) htokens
  rw [← tokensOf_take, ← tokensOf_take, List.take_take, min_eq_left hp, answerTokens_take hp] at htake
  exact ⟨hprompt, htake⟩

end Opened

/-- A call of the reference replays the producer's computation exactly when the envelope agrees with
the producer for its position, and every comparison is with the producer's distribution; an envelope
that agrees for the last position is replayed whole. -/
theorem audit_replays_iff (hserve : serve crypto st req buf = .ok resp)
    (hfree : CollisionFree crypto st.model req.input answer) :
    (∀ p prefixBytes,
      .call p prefixBytes ∈ traceOf (audit crypto refFn resp.commit answer beacon params) →
        (Replays st.model req.input (.call p prefixBytes) ↔
          ∀ env, answerEnvelopeDecode answer = .ok env → Agrees st.model req.input env p)) ∧
      (∀ p refDist committed,
        .compare p refDist committed ∈ traceOf (audit crypto refFn resp.commit answer beacon params) →
          Replays st.model req.input (.compare p refDist committed)) ∧
      ((∀ env, answerEnvelopeDecode answer = .ok env →
          Agrees st.model req.input env (genCount (promptEff req.input.length) - 1)) →
        ∀ probe ∈ traceOf (audit crypto refFn resp.commit answer beacon params),
          Replays st.model req.input probe) := by
  have hof := @audit_of_serve D _ crypto refFn st req buf answer resp beacon params hserve hfree
  generalize traceOf (audit crypto refFn resp.commit answer beacon params) = trace at hof ⊢
  rcases hof with rfl | ⟨env, henv, hdists, hlength, hreads⟩
  · exact ⟨by simp, by simp, by simp⟩
  have hcall {p : Nat} {prefixBytes : Bytes} (h : .call p prefixBytes ∈ trace) :
      p < env.tokens.length ∧
        (Replays st.model req.input (.call p prefixBytes) ↔ Agrees st.model req.input env p) := by
    cases hreads _ h with
    | call hlt => exact ⟨hlt, openedPrefix_iff hlt.le⟩
  have hcompare {p : Nat} {refDist committed : List Int32} (h : .compare p refDist committed ∈ trace) :
      Replays st.model req.input (.compare p refDist committed) := by
    cases hreads _ h with
    | compare hlt href =>
      rw [Replays, hdists, answerOf, answerDists_getD (hlength ▸ hlt), readDist_serializeDist]
  refine ⟨fun p prefixBytes h => (hcall h).2.trans ⟨fun hagrees env' henv' => ?_, fun hall => hall env henv⟩,
    fun _ _ _ => hcompare, fun hall probe h => ?_⟩
  · obtain rfl : env = env' := Except.ok.inj (henv.symm.trans henv')
    exact hagrees
  · cases probe with
    | compare p refDist committed => exact hcompare h
    | call p prefixBytes =>
      obtain ⟨hlt, hiff⟩ := hcall h
      exact hiff.mpr ((hall env henv).mono (by omega))

section Sample

/-- Exact arithmetic in place of the rounded one, with the double for `exp (-20)`. -/
def Exact : Type := ℚ

instance : Double Exact where
  add := Rat.add
  sub := Rat.sub
  mul := Rat.mul
  div := Rat.div
  neg := Rat.neg
  ofRat q := q
  ofQ24 q := mkRat q.toInt 16777216
  exp (x : ℚ) := if x = 0 then (1 : ℚ) else if x = -20 then
    mkRat 4983563664716391 2417851639229258349412352 else (0 : ℚ)
  lt (x y : ℚ) := decide (x < y)
  le (x y : ℚ) := decide (x ≤ y)

def sampleRequest : Request := ⟨sampleInput, 2, zero32, 7⟩

def sampleResponse : Response :=
  ⟨sampleCommit, sampleProducer.sign [], sampleProducer.pub, encode (envValue (sampleEnv (List.replicate 8 0)))⟩

def sampleParams : EProcess Exact :=
  ⟨mkRat 1 100, mkRat 1 20, mkRat 1 1, Double.ofRat 1, Double.ofRat (1 / 2), Double.ofRat (1 / 4), 0⟩

theorem sampleParams_init : @eprocessInit Exact _ (mkRat 1 100) (mkRat 1 20) (mkRat 1 1) = .ok sampleParams :=
  if_neg (by decide)

def sampleAudit (tokens : Bytes) : AuditM Verdict :=
  audit sampleCrypto (reference repeater) sampleCommit (encode (envValue (sampleEnv tokens)))
    zero32 sampleParams

theorem sample_served : answerOf repeater sampleInput = sampleEnv (List.replicate 8 0) ∧
    serve sampleCrypto sampleState sampleRequest (List.replicate 256 0) = .ok sampleResponse := by
  decide +kernel

theorem sample_collisionFree {tokens : Bytes} (h : tokens.length = 8) :
    CollisionFree sampleCrypto repeater sampleInput (encode (envValue (sampleEnv tokens))) := by
  intro env henv
  obtain rfl : sampleEnv tokens = env := Except.ok.inj ((sampleEnv_decode h).symm.trans henv)
  rw [sample_served.1]
  exact sampleDists_collisionFree

/-- With other tokens in the envelope, the audit calls the reference on other prefixes,
and finds the honest commit to be fraud. -/
theorem retokened_fraud :
    serve sampleCrypto sampleState sampleRequest (List.replicate 256 0) = .ok sampleResponse ∧
      @eprocessInit Exact _ (mkRat 1 100) (mkRat 1 20) (mkRat 1 1) = .ok sampleParams ∧
      CollisionFree sampleCrypto repeater sampleInput (encode (envValue (sampleEnv (List.replicate 8 1)))) ∧
      (∃ probe ∈ traceOf (sampleAudit (List.replicate 8 1)), ¬ Replays repeater sampleInput probe) ∧
      (outcome (sampleAudit (List.replicate 8 0) [])).1 = some .continued ∧
      (outcome (sampleAudit (List.replicate 8 1) [])).1 = some .fraud := by
  refine ⟨sample_served.2, sampleParams_init, sample_collisionFree rfl, ?_, by decide +kernel, by decide +kernel⟩
  refine ⟨.call 1 (sampleInput ++ [1]), by decide +kernel, ?_⟩
  rw [Replays]
  decide +kernel

/-- The last token of an envelope is read nowhere; another one does not disturb the audit. -/
theorem audit_replays_iff_sample : (traceOf (sampleAudit [0, 0, 0, 0, 0, 0, 0, 1])).length = 16 ∧
    ∀ probe ∈ traceOf (sampleAudit [0, 0, 0, 0, 0, 0, 0, 1]), Replays repeater sampleInput probe := by
  have hreplays := @audit_replays_iff Exact _ sampleCrypto (reference repeater) sampleState sampleRequest
    (List.replicate 256 0) (encode (envValue (sampleEnv [0, 0, 0, 0, 0, 0, 0, 1]))) sampleResponse zero32
    sampleParams sample_served.2 (sample_collisionFree rfl)
  refine ⟨by decide +kernel, hreplays.2.2 fun env henv => ?_⟩
  obtain rfl : sampleEnv [0, 0, 0, 0, 0, 0, 0, 1] = env :=
    Except.ok.inj ((sampleEnv_decode rfl).symm.trans henv)
  exact ⟨rfl, by decide +kernel⟩

end Sample

end AntsClient.Inference.Replay
