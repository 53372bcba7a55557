import AntsClient.Inference.Betting
import AntsClient.Inference.Challenge
import AntsClient.Inference.Serve
import AntsClient.Lib.Trace

namespace AntsClient.Inference.Audit

open Common Crypto Lib.Trace Commits Envelope Openings Reference Challenge Betting

/-- What an audit does at an opened position: it calls `ref_fn` and compares the two distributions.
-/
inductive Probe
  | call (position : Nat) (prefixBytes : Bytes)
  | compare (position : Nat) (reference committed : List Int32)
  deriving DecidableEq

abbrev AuditM := TraceM Error Probe

def openedPrefix (env : AnswerEnv) (p : Nat) : Bytes :=
  env.input.take (promptEff env.input.length) ++ env.tokens.take p

/-- The distributions of a model, as the `ref_fn` of an auditor that has loaded it. -/
def reference (model : Model) (prefixBytes : Bytes) (position : UInt64) : Except Error (List Int32) :=
  referenceDistribution model prefixBytes position refVocabMax

section

variable {D : Type} [Double D] (crypto : Primitives) (refFn : Bytes → UInt64 → Except Error (List Int32))

def openPosition (env : AnswerEnv) (ep : EProcess D) (position : UInt64) : AuditM (EProcess D × Verdict) := do
  let p := position.toNat
  if p ≥ env.tokens.length ∨ promptEff env.input.length + p > refSeqlenMax then throw .malformed
  record (.call p (openedPrefix env p))
  let refDist ← orThrow (refFn (openedPrefix env p) position)
  let dist := env.dists.getD p []
  if dist.length / 4 ≠ refDist.length ∨ dist.length / 4 > refVocabMax then throw .malformed
  record (.compare p refDist (readDist dist))
  let score ← orThrow (discrepancy refDist (readDist dist))
  orThrow (eprocessUpdate ep score)

def openPositions (env : AnswerEnv) : EProcess D → List UInt64 → AuditM Verdict
  | _, [] => return .continued
  | ep, p :: ps => do
    let (ep', v) ← openPosition refFn env ep p
    if v = .fraud then return .fraud
    openPositions env ep' ps

def audit (commit : Commit) (answer : Bytes) (beacon : Bytes32) (eprocessParams : EProcess D) :
    AuditM Verdict := do
  if answer.length = 0 then throw .invalidArg
  let env ← orThrow (answerEnvelopeDecode answer)
  if env.tokens.length = 0 ∨ env.tokens.length ≠ commit.length.toNat then throw .malformed
  let root ← orThrow (distsRoot crypto env.dists)
  if root ≠ commit.root then throw .malformed
  if !challengeIsAudited crypto beacon commit.root commit.auditThreshold then return .continued
  let positions ← orThrow (challengePositions crypto beacon commit.root commit.m commit.length refSeqlenMax)
  openPositions refFn env eprocessParams positions

end

section Trace

variable {D : Type} [Double D] {crypto : Primitives} {refFn : Bytes → UInt64 → Except Error (List Int32)}
  {env : AnswerEnv}

inductive Reads (refFn : Bytes → UInt64 → Except Error (List Int32)) (env : AnswerEnv) : Probe → Prop
  | call {position : UInt64} (hlt : position.toNat < env.tokens.length) :
      Reads refFn env (.call position.toNat (openedPrefix env position.toNat))
  | compare {position : UInt64} {refDist : List Int32} (hlt : position.toNat < env.tokens.length)
      (href : refFn (openedPrefix env position.toNat) position = .ok refDist) :
      Reads refFn env (.compare position.toNat refDist (readDist (env.dists.getD position.toNat [])))

theorem openPosition_traces (ep : EProcess D) (position : UInt64) :
    Traces (openPosition refFn env ep position) fun _ new => ∀ probe ∈ new, Reads refFn env probe := by
  rw [openPosition]
  split
  · exact traces_throw_bind (by simp)
  rename_i hbound
  have hlt : position.toNat < env.tokens.length := Nat.not_le.mp fun h => hbound (.inl h)
  have hcall : Reads refFn env (.call position.toNat (openedPrefix env position.toNat)) := .call hlt
  refine traces_record_bind (traces_orThrow_bind (by simpa using hcall) fun refDist href => ?_)
  dsimp only
  split
  · exact traces_throw_bind (by simpa using hcall)
  have hboth : ∀ probe ∈ [.call position.toNat (openedPrefix env position.toNat),
      .compare position.toNat refDist (readDist (env.dists.getD position.toNat []))],
      Reads refFn env probe :=
    List.forall_mem_cons.mpr ⟨hcall, List.forall_mem_singleton.mpr (.compare hlt href)⟩
  exact traces_record_bind (traces_orThrow_bind hboth fun score _ =>
    traces_orThrow hboth fun _ _ => hboth)

theorem openPositions_traces (ep : EProcess D) (positions : List UInt64) :
    Traces (openPositions refFn env ep positions) fun _ new =>
      ∀ probe ∈ new, Reads refFn env probe := by
  induction positions generalizing ep with
  | nil => exact traces_pure (by simp)
  | cons p ps ih =>
    rw [openPositions]
    refine (openPosition_traces ep p).bind (fun new hreads => hreads) ?_
    rintro ⟨ep', v⟩ new hreads
    dsimp only
    split
    · exact traces_pure (by simpa using hreads)
    · exact (ih ep').mono fun _ new' hreads' => List.forall_mem_append.mpr ⟨hreads, hreads'⟩

/-- An audit does nothing before the envelope has passed the integrity gate and the
commit is selected. -/
theorem audit_traces (commit : Commit) (answer : Bytes) (beacon : Bytes32) (params : EProcess D) :
    Traces (audit crypto refFn commit answer beacon params) fun _ new => new = [] ∨
      ∃ env, answerEnvelopeDecode answer = .ok env ∧ env.tokens.length = commit.length.toNat ∧
        distsRoot crypto env.dists = .ok commit.root ∧ ∀ probe ∈ new, Reads refFn env probe := by
  rw [audit]
  split
  · refine traces_throw_bind ?_
    exact .inl rfl
  refine traces_orThrow_bind ?_ fun env henv => ?_
  · exact .inl rfl
  dsimp only
  split
  · refine traces_throw_bind ?_
    exact .inl rfl
  rename_i hlength
  refine traces_orThrow_bind ?_ fun root hroot => ?_
  · exact .inl rfl
  split
  · refine traces_throw_bind ?_
    exact .inl rfl
  rename_i heq
  rw [not_not.mp heq] at hroot
  split
  · refine traces_pure ?_
    exact .inl rfl
  refine traces_orThrow_bind ?_ fun positions _ => ?_
  · exact .inl rfl
  refine (openPositions_traces params positions).mono fun _ new hnew => .inr ?_
  exact ⟨env, henv, not_not.mp (not_or.mp hlength).2, hroot, hnew⟩

end Trace

end AntsClient.Inference.Audit
