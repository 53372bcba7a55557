import AntsClient.Inference.Commits
import AntsClient.Inference.Openings
import AntsClient.Inference.Reference

namespace AntsClient.Inference.Serve

open Common Cbor Codec Values Value Crypto Lib.Continuation Commits Envelope Openings Reference List

def tier1AuditThreshold : UInt64 := 0x800000000000000

def uint64Max : UInt64 := 0xffffffffffffffff

structure State where
  model : Model
  modelHash : Bytes32
  producer : KeyPair

structure Request where
  input : Bytes
  tier : UInt8
  reqNonce : Bytes32
  round : UInt64

structure Response where
  commit : Commit
  commitSig : Signature
  producerPub : Bytes32
  answer : Bytes
  deriving DecidableEq

structure Generation where
  tokens : List Nat
  genTokens : Bytes
  leaves : List Bytes32

variable (crypto : Primitives)

/-- Each position commits its distribution as a leaf; the token of the largest logit is the answer.
-/
def genLoop (model : Model) : Nat → Nat → Generation → Except Error Generation
  | 0, _, g => .ok g
  | rounds + 1, j, g =>
    let dist := model.forward g.tokens
    let tok := argmaxQ24 dist
    (leafHash crypto (serializeDist dist) (UInt64.ofNat j)).bind fun leaf =>
      genLoop model rounds (j + 1) ⟨g.tokens ++ [tok], g.genTokens ++ [UInt8.ofNat tok], g.leaves ++ [leaf]⟩

def buildCommit (st : State) (req : Request) (n : Nat) (root : Bytes32) : Commit where
  root := root
  modelHash := st.modelHash
  inputHash := crypto.blake3 req.input
  reqNonce := req.reqNonce
  agentMeas := zero32
  round := req.round
  auditThreshold := if req.tier = 1 then tier1AuditThreshold else uint64Max
  m := UInt32.ofNat n
  length := UInt32.ofNat n
  tier := req.tier

def serve (st : State) (req : Request) (answerBuf : Bytes) : Except Error Response := do
  if req.input.length = 0 then throw .invalidArg
  if req.tier ≠ 1 ∧ req.tier ≠ 2 ∧ req.tier ≠ 3 then throw .invalidArg
  let eff := promptEff req.input.length
  let n := genCount eff
  let g ← genLoop crypto st.model n 0 ⟨tokensOf st.model (req.input.take eff), [], []⟩
  let root ← merkleRoot crypto g.leaves
  let commit := buildCommit crypto st req n root
  let sig ← commitSign st.producer commit
  -- the distributions are computed a second time rather than buffered
  let dists := (range n).map fun j => serializeDist (st.model.forward (g.tokens.take (eff + j)))
  let answer ← encodeBuf (encEnvelope ⟨req.input, g.genTokens, dists⟩) answerBuf
  return ⟨commit, sig, st.producer.pub, answer⟩

def commitOf (st : State) (req : Request) (root : Bytes32) : Commit :=
  buildCommit crypto st req (genCount (promptEff req.input.length)) root

variable {crypto} {st : State} {req : Request}

theorem genLoop_eq (model : Model) (input : Bytes) (rounds j : Nat) :
    genLoop crypto model rounds j ⟨prefixAt model input j, answerTokens model input j,
      (leafData 0 (answerDists model input j)).map (Tree.leafHash crypto)⟩ =
    .ok ⟨prefixAt model input (j + rounds), answerTokens model input (j + rounds),
      (leafData 0 (answerDists model input (j + rounds))).map (Tree.leafHash crypto)⟩ := by
  induction rounds generalizing j with
  | zero => rfl
  | succ rounds ih =>
    have hne : ¬ (serializeDist (model.forward (prefixAt model input j))).length = 0 :=
      length_eq_zero_iff.not.mpr (dist_ne_nil input j)
    have htokens : answerTokens model input (j + 1) =
        answerTokens model input j ++ [UInt8.ofNat (argmaxQ24 (model.forward (prefixAt model input j)))] := by
      rw [answerTokens, generated_succ, map_append]
      rfl
    have hdists : answerDists model input (j + 1) =
        answerDists model input j ++ [serializeDist (model.forward (prefixAt model input j))] := by
      rw [answerDists, range_succ, map_append]
      rfl
    have hlen : (answerDists model input j).length = j := by simp [answerDists]
    have hnext := ih (j + 1)
    rw [htokens, hdists, leafData_concat, map_append, hlen, Nat.zero_add, Nat.add_right_comm,
      Nat.add_assoc] at hnext
    rw [genLoop, leafHash, if_neg hne]
    exact hnext

theorem genLoop_start (model : Model) (input : Bytes) (n : Nat) :
    genLoop crypto model n 0 ⟨tokensOf model (input.take (promptEff input.length)), [], []⟩ =
      .ok ⟨prefixAt model input n, answerTokens model input n,
        (leafData 0 (answerDists model input n)).map (Tree.leafHash crypto)⟩ := by
  have h := @genLoop_eq crypto model input n 0
  rw [Nat.zero_add, answerTokens_zero] at h
  exact h

theorem recomputed_dists (model : Model) (input : Bytes) (n : Nat) :
    ((range n).map fun j => serializeDist (model.forward
      ((prefixAt model input n).take (promptEff input.length + j)))) = answerDists model input n := by
  refine map_congr_left fun j hj => ?_
  have htake : (prefixAt model input n).take ((prompt model input).length + j) = prefixAt model input j :=
    extend_take (mem_range.mp hj).le
  rw [prompt_length] at htake
  rw [htake]
  rfl

theorem answerRoot_eq (model : Model) (input : Bytes) : distsRoot crypto (answerOf model input).dists =
    merkleRoot crypto ((leafData 0 (answerOf model input).dists).map (Tree.leafHash crypto)) := by
  refine distsRoot_eq fun d hd => ?_
  obtain ⟨p, -, rfl⟩ := mem_answerDists hd
  exact dist_ne_nil _ _

/-- What the producer serves, whatever the model: the commit to the greedy answer, and
that answer. -/
theorem serve_iff {buf : Bytes} {resp : Response} : serve crypto st req buf = .ok resp ↔
    req.input ≠ [] ∧ (req.tier = 1 ∨ req.tier = 2 ∨ req.tier = 3) ∧
      ∃ root, distsRoot crypto (answerOf st.model req.input).dists = .ok root ∧
        ∃ answer, encodeBuf (encEnvelope (answerOf st.model req.input)) buf = .ok answer ∧
          ⟨commitOf crypto st req root, st.producer.sign (encode (commitValue (commitOf crypto st req root))),
            st.producer.pub, answer⟩ = resp := by
  rw [serve, except_guard_iff, except_guard_iff, length_eq_zero_iff, answerRoot_eq]
  refine and_congr_right fun _ => and_congr (by tauto) ?_
  simp only [bind, pure, Except.pure, except_bind_eq_ok, genLoop_start, commitSign_eq,
    Except.ok.injEq, exists_eq_left', recomputed_dists]
  rfl

end AntsClient.Inference.Serve
