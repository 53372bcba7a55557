import AntsClient.Inference.Replay

namespace AntsClient.Inference.Scorable

open Common Cbor.Values Value Crypto Lib.Trace Commits Envelope Reference Serve AnswerCheck
  Challenge Betting Audit List UInt64

def Scores (D : Type) [Double D] (refDist committed : List Int32) : Prop :=
  ∃ score : D, discrepancy refDist committed = .ok score ∧ ∀ ep :
    EProcess D, ∃ r, eprocessUpdate ep score = .ok r

def Steps (D : Type) [Double D] (trace : List Probe) : Prop :=
  ∀ p refDist committed, .compare p refDist committed ∈ trace → Scores D refDist committed

def width (env : AnswerEnv) : Nat := (env.dists.headD []).length / 4

def Scored (audit : AuditM Verdict) : Prop := ∃ verdict, (outcome (audit [])).1 = some verdict

variable {D : Type} [Double D] {crypto : Primitives} {model : Model} {env : AnswerEnv}

section Positions

theorem bucket_bounds {m length : UInt32} {j : UInt64} (hml : m ≤ length) (hj : j.toNat < m.toNat) :
    (j * length.toUInt64 / m.toUInt64).toNat < ((j + 1) * length.toUInt64 / m.toUInt64).toNat ∧
      ((j + 1) * length.toUInt64 / m.toUInt64).toNat ≤ length.toNat := by
  have hm : m.toNat < 2 ^ 32 := m.toNat_lt
  have hl : length.toNat < 2 ^ 32 := length.toNat_lt
  have hle : m.toNat ≤ length.toNat := UInt32.le_iff_toNat_le.mp hml
  have hsucc : (j + 1).toNat = j.toNat + 1 := by
    rw [UInt64.toNat_add, UInt64.toNat_one]
    exact Nat.mod_eq_of_lt (by omega)
  have hlo : (j * length.toUInt64 / m.toUInt64).toNat = j.toNat * length.toNat / m.toNat := by
    rw [UInt64.toNat_div, UInt64.toNat_mul, UInt32.toNat_toUInt64, UInt32.toNat_toUInt64, Nat.mod_eq_of_lt]
    exact Nat.lt_of_lt_of_le (Nat.mul_lt_mul'' (hj.trans hm) hl) (by norm_num)
  have hhi : ((j + 1) * length.toUInt64 / m.toUInt64).toNat = (j.toNat + 1) * length.toNat / m.toNat := by
    rw [UInt64.toNat_div, UInt64.toNat_mul, UInt32.toNat_toUInt64, UInt32.toNat_toUInt64, hsucc,
      Nat.mod_eq_of_lt]
    exact Nat.lt_of_lt_of_le (Nat.mul_lt_mul'' (Nat.lt_of_le_of_lt hj hm) hl) (by norm_num)
  rw [hlo, hhi]
  constructor
  · -- the numerators are a whole divisor apart
    calc j.toNat * length.toNat / m.toNat < j.toNat * length.toNat / m.toNat + 1 := Nat.lt_succ_self _
      _ = (j.toNat * length.toNat + m.toNat) / m.toNat := (Nat.add_div_right _ (by omega)).symm
      _ ≤ (j.toNat + 1) * length.toNat / m.toNat := Nat.div_le_div_right (by rw [Nat.succ_mul]; omega)
  · refine Nat.div_le_of_le_mul ?_
    exact Nat.mul_le_mul_right _ hj

theorem drawn_lt {lo hi w : UInt64} (h : lo.toNat < hi.toNat) : (lo + w % (hi - lo)).toNat < hi.toNat := by
  have hsub : (hi - lo).toNat = hi.toNat - lo.toNat :=
    UInt64.toNat_sub_of_le _ _ (UInt64.le_iff_toNat_le.mpr h.le)
  have hmod := Nat.mod_lt w.toNat (Nat.sub_pos_of_lt h)
  rw [UInt64.toNat_add, UInt64.toNat_mod, hsub]
  refine Nat.lt_of_le_of_lt (Nat.mod_le _ _) ?_
  omega

theorem drawPositions_lt {m length : UInt32} (hml : m ≤ length) {rounds : Nat} {j : UInt64}
    (hj : j.toNat + rounds ≤ m.toNat)
    {ks : Keystream} : ∀ p ∈ drawPositions crypto m length rounds j ks, p.toNat < length.toNat := by
  induction rounds generalizing j ks with
  | zero => exact fun _ h => absurd h not_mem_nil
  | succ rounds ih =>
    obtain ⟨hlt, hle⟩ := @bucket_bounds m length j hml (by omega)
    have hm : m.toNat < 2 ^ 32 := m.toNat_lt
    rw [drawPositions]
    refine forall_mem_cons.mpr ⟨(drawn_lt hlt).trans_le hle, ih ?_⟩
    rw [UInt64.toNat_add, UInt64.toNat_one, Nat.mod_eq_of_lt (by omega)]
    omega

theorem challengePositions_ok {beacon root : Bytes32} {m length : UInt32} {cap : Nat} (hm : m ≠ 0)
    (hml : m ≤ length)
    (hcap : length.toNat ≤ cap) :
    ∃ positions, challengePositions crypto beacon root m length cap = .ok positions ∧
      positions ≠ [] ∧ ∀ p ∈ positions, p.toNat < length.toNat := by
  have hmpos : 0 < m.toNat := Nat.pos_of_ne_zero fun h => hm (UInt32.toNat_inj.mp h)
  have hle : m.toNat ≤ length.toNat := UInt32.le_iff_toNat_le.mp hml
  have hl : length ≠ 0 := by
    rintro rfl
    exact absurd hle (Nat.not_le.mpr hmpos)
  rw [challengePositions, if_neg (by simp [hm, hl]), if_neg (by split <;> omega)]
  split
  · refine ⟨_, rfl, ?_, fun p hp => ?_⟩
    · rw [ne_eq, map_eq_nil_iff, range_eq_nil]
      omega
    · obtain ⟨k, hk, rfl⟩ := mem_map.mp hp
      rw [toNat_ofNat']
      exact Nat.lt_of_le_of_lt (Nat.mod_le _ _) (mem_range.mp hk)
  · refine ⟨_, rfl, ?_, drawPositions_lt hml (by simp)⟩
    obtain ⟨k, hk⟩ := Nat.exists_eq_succ_of_ne_zero hmpos.ne'
    rw [hk, drawPositions]
    exact cons_ne_nil _ _

end Positions

theorem reference_ok {input : Bytes} (hne : input ≠ []) (hlen : input.length ≤ refSeqlenMax)
    (position : UInt64) :
    reference model input position = .ok (model.forward (tokensOf model input)) := by
  rw [reference, referenceDistribution, if_neg (by simpa using hne), if_neg (Nat.not_lt.mpr hlen),
    if_neg (Nat.not_lt.mpr model.vocab_le)]

structure Fits (env : AnswerEnv) : Prop where
  shaped : Shaped env
  input_ne : env.input ≠ []
  room : promptEff env.input.length + env.tokens.length ≤ refSeqlenMax

theorem Fits.openedPrefix (h : Fits env) {p : Nat} (hp : p < env.tokens.length) :
    openedPrefix env p ≠ [] ∧ (openedPrefix env p).length ≤ refSeqlenMax := by
  have hpos : 0 < promptEff env.input.length := promptEff_pos (length_pos_iff.mpr h.input_ne)
  have hlen : (Audit.openedPrefix env p).length = promptEff env.input.length + p := by
    rw [Audit.openedPrefix, length_append, length_take, length_take, min_eq_left (promptEff_le _).1,
      min_eq_left hp.le]
  have hroom := h.room
  refine ⟨length_pos_iff.mp ?_, ?_⟩ <;> omega

theorem Fits.dist_width (h : Fits env) {p : Nat} (hp : p < env.tokens.length) :
    (env.dists.getD p []).length / 4 = width env := by
  obtain ⟨-, hcount, n, -, -, huniform⟩ := h.shaped
  have hp' : p < env.dists.length := hcount ▸ hp
  have hhead : (env.dists.headD []).length = n := by
    cases hd : env.dists with
    | nil => simp [hd] at hp'
    | cons d ds => exact huniform d (hd ▸ mem_cons_self)
  rw [width, hhead, ← getElem_eq_getD (h := hp') [], huniform _ (getElem_mem hp')]

/-- At a position of the answer, the audit fails for the width of the distributions, or
else in a step of the score. -/
theorem openPosition_fails (hfits : Fits env) (ep : EProcess D) {position : UInt64}
    (hp : position.toNat < env.tokens.length) :
    Traces (openPosition (reference model) env ep position) fun r new =>
      (width env ≠ model.vocab → r = none) ∧ (width env = model.vocab → r = none → ¬ Steps D new) := by
  obtain ⟨hne, hlen⟩ := hfits.openedPrefix hp
  have hroom := hfits.room
  rw [openPosition]
  dsimp only
  rw [if_neg (by omega), reference_ok hne hlen, hfits.dist_width hp]
  refine traces_record_bind ?_
  rw [orThrow_ok_bind, model.forward_length]
  split
  · rename_i hwidth
    refine traces_throw_bind ⟨fun _ => rfl, fun heq => ?_⟩
    exact absurd heq (by have := model.vocab_le; omega)
  rename_i hwidth
  have heq : width env = model.vocab := not_not.mp (not_or.mp hwidth).1
  refine traces_record_bind ?_
  by_cases hscores : Scores D (model.forward (tokensOf model (openedPrefix env position.toNat)))
    (readDist (env.dists.getD position.toNat []))
  · obtain ⟨score, hscore, hupdate⟩ := hscores
    obtain ⟨r, hr⟩ := hupdate ep
    rw [hscore, orThrow_ok_bind, hr]
    exact traces_pure ⟨fun h => absurd heq h, fun _ h => by cases h⟩
  · -- the comparison that is not scored is in the trace
    refine Traces.mono (T := fun _ _ => True) ?_ fun r new _ => ⟨fun h => absurd heq h, fun _ _ hsteps => ?_⟩
    · exact traces_orThrow_bind trivial fun _ _ => traces_orThrow trivial fun _ _ => trivial
    · exact hscores (hsteps position.toNat _ _ (by simp))

theorem Steps.right {a b : List Probe} (h : Steps D (a ++ b)) : Steps D b :=
  fun p refDist committed hmem => h p refDist committed (mem_append_right a hmem)

theorem openPositions_fails (hfits : Fits env) (ep : EProcess D) {positions : List UInt64}
    (hlt : ∀ p ∈ positions, p.toNat < env.tokens.length) :
    Traces (openPositions (reference model) env ep positions) fun r new =>
      (width env ≠ model.vocab → positions ≠ [] → r = none) ∧
      (width env = model.vocab → r = none → ¬ Steps D new) := by
  induction positions generalizing ep with
  | nil => exact traces_pure ⟨fun _ h => absurd rfl h, fun _ h => by cases h⟩
  | cons p ps ih =>
    obtain ⟨hp, hps⟩ := forall_mem_cons.mp hlt
    rw [openPositions]
    apply (openPosition_fails hfits ep hp).bind
    · intro new hnew
      exact ⟨fun _ _ => rfl, fun heq _ => hnew.2 heq rfl⟩
    · rintro ⟨ep', v⟩ new hnew
      have heq : width env = model.vocab := by
        by_contra h
        cases hnew.1 h
      dsimp only
      split
      · exact traces_pure ⟨fun h => absurd heq h, fun _ h => by cases h⟩
      · apply (ih ep' hps).mono
        intro r new' hnew'
        exact ⟨fun h => absurd heq h, fun _ hr hsteps => hnew'.2 heq hr hsteps.right⟩

variable {commitBytes envelope input : Bytes} {sig : Signature}
  {producerPub reqNonce beacon : Bytes32} {tier : UInt8}
  {commit : Commit} {params : EProcess D}

theorem fits_of_accepted (hinput : input ≠ [])
    (h : Accepted crypto commitBytes sig producerPub envelope input tier reqNonce commit env) :
    Fits env where
  shaped := (answerEnvelopeDecode_sound h.opened).1
  input_ne := h.input_eq ▸ hinput
  room := by
    rw [h.input_eq, h.length_eq]
    exact h.room

theorem audit_accepted {refFn : Bytes → UInt64 → Except Error (List Int32)}
    (h : Accepted crypto commitBytes sig producerPub envelope input tier reqNonce commit env) :
    ∃ positions, audit crypto refFn commit envelope beacon params =
      (if challengeIsAudited crypto beacon commit.root commit.auditThreshold then
        openPositions refFn env params positions
        else pure .continued) ∧ positions ≠ [] ∧ ∀ p ∈ positions, p.toNat < env.tokens.length := by
  obtain ⟨hl, hmax, hm, hml⟩ := h.bounds
  obtain ⟨positions, hpositions, hne, hlt⟩ :=
    @challengePositions_ok crypto beacon commit.root _ _ refSeqlenMax hm hml hmax
  refine ⟨positions, ?_, hne, h.length_eq ▸ hlt⟩
  have hpos : envelope.length ≠ 0 := by
    obtain ⟨-, henc⟩ := answerEnvelopeDecode_sound h.opened
    have := Cbor.Walk.encode_length_pos (envValue env)
    rw [henc] at this
    exact this.ne'
  have hlength : commit.length.toNat ≠ 0 := fun h0 => hl (UInt32.toNat_inj.mp h0)
  rw [audit, if_neg hpos, h.opened, orThrow_ok_bind]
  dsimp only
  rw [if_neg (by rw [h.length_eq]; simpa using hlength), h.root_eq, orThrow_ok_bind,
    if_neg (by simp), hpositions, orThrow_ok_bind]
  cases challengeIsAudited crypto beacon commit.root commit.auditThreshold <;> rfl

/-- An accepted answer gets a verdict exactly when it is not selected or its distributions are as
wide as the model's vocabulary: the requester only bounds their width. -/
theorem audit_scores_iff (h : answerCheck crypto commitBytes sig producerPub envelope input tier
        reqNonce = .ok (some commit))
    (hsteps : Steps D (traceOf (audit crypto (reference model) commit envelope beacon params))) :
    Scored (audit crypto (reference model) commit envelope beacon params) ↔
      challengeIsAudited crypto beacon commit.root commit.auditThreshold = false ∨
        ∀ env, answerEnvelopeDecode envelope = .ok env → width env = model.vocab := by
  obtain ⟨hinput, env, hacc⟩ := answerCheck_iff.mp h
  obtain ⟨positions, haudit, hne, hlt⟩ :=
    @audit_accepted D _ crypto env commitBytes envelope input sig producerPub reqNonce
    beacon tier commit params (reference model) hacc
  rw [haudit] at hsteps ⊢
  generalize challengeIsAudited crypto beacon commit.root commit.auditThreshold = audited at *
  cases audited with
  | false => exact iff_of_true ⟨.continued, rfl⟩ (.inl rfl)
  | true =>
    obtain ⟨new, htrace, hwide, hscored⟩ :=
      @openPositions_fails D _ model env (fits_of_accepted hinput hacc) params positions hlt []
    have hall : (∀ env, answerEnvelopeDecode envelope = .ok env → width env = model.vocab) ↔
        width env = model.vocab := by
      simp [hacc.opened]
    have hsteps' : Steps D new := by simpa [traceOf, htrace] using hsteps
    rw [hall]
    simp only [Bool.true_eq_false, false_or, if_true, Scored]
    constructor
    · rintro ⟨verdict, hverdict⟩
      by_contra hneq
      rw [hwide hneq hne] at hverdict
      cases hverdict
    · intro heq
      exact Option.ne_none_iff_exists'.mp fun hnone => hscored heq hnone hsteps'

section Sample

def undecided : Model where
  vocab := 3
  forward _ := [0, 0, 0]
  vocab_pos := by decide
  vocab_le := by decide
  forward_length _ := rfl

def narrowAudit : AuditM Verdict :=
  audit sampleCrypto (reference undecided) sampleCommit
    (encode (envValue (sampleEnv (replicate 8 0)))) zero32 Replay.sampleParams

/-- An auditor whose model has the hash in the commit refuses the accepted answer. -/
theorem narrow_refused :
    sampleCheck (replicate 8 0) = .ok (some sampleCommit) ∧
      sampleCommit.modelHash = ({ sampleState with model := undecided } : State).modelHash ∧
      narrowAudit [] = .error .malformed [.call 0 sampleInput] ∧
      Steps Replay.Exact (traceOf narrowAudit) ∧ ¬ Scored narrowAudit := by
  have haudit : narrowAudit [] = .error .malformed [.call 0 sampleInput] := by decide +kernel
  refine ⟨sampleCheck_eq rfl, rfl, haudit, ?_, ?_⟩
  · intro p refDist committed hmem
    rw [traceOf, haudit] at hmem
    simp [outcome] at hmem
  · rintro ⟨verdict, hverdict⟩
    rw [haudit] at hverdict
    cases hverdict

theorem scores_of_bounds {refDist committed : List Int32} {score : D}
    (h : discrepancy refDist committed = .ok score)
    (hbounds : Double.le (Double.ofRat 0) score && Double.le score (Double.ofRat 1)) :
    Scores D refDist committed :=
  ⟨score, h, fun ep => ⟨_, if_neg (by simpa using hbounds)⟩⟩

theorem audit_scores_iff_sample : Scored (Replay.sampleAudit (replicate 8 0)) := by
  have hsteps : Steps Replay.Exact (traceOf (Replay.sampleAudit (replicate 8 0))) := by
    intro p refDist committed hmem
    have htrace : traceOf (Replay.sampleAudit (replicate 8 0)) = (range 8).flatMap fun p =>
        [.call p (sampleInput ++ replicate p 0), .compare p [0, -335544320] [0, -335544320]] := by
          decide +kernel
    rw [htrace] at hmem
    obtain ⟨-, rfl, rfl⟩ : p < 8 ∧ refDist = [0, -335544320] ∧ committed = [0, -335544320] := by
      simpa using hmem
    exact scores_of_bounds rfl (by decide +kernel)
  refine (audit_scores_iff (sampleCheck_eq rfl) hsteps).mpr (.inr fun env henv => ?_)
  obtain rfl : sampleEnv (replicate 8 0) = env := Except.ok.inj ((sampleEnv_decode rfl).symm.trans henv)
  decide +kernel

end Sample

end AntsClient.Inference.Scorable
