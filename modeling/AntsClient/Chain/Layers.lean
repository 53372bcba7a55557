import AntsClient.Chain.Confirmed

namespace AntsClient.Chain.Layers

open Common Cbor Codec Tokens Values Schema Value Crypto Blocks BlockValues FieldReaders BlockCodec
  Confirmed Fabrication Crdt Proof Readers List

/-- A finding as Layer 1 reads it: its severity is any number. -/
structure RawFinding where
  subject : Bytes32
  ruleId : UInt64
  windowS : UInt64
  count : UInt64
  severity : UInt64

def RawFinding.tokens (f : RawFinding) : List Token :=
  [.map 5, .uint 1, .bytes f.subject.val, .uint 2, .uint f.ruleId.toNat, .uint 3,
    .uint f.windowS.toNat, .uint 4,
    .uint f.count.toNat, .uint 5, .uint f.severity.toNat]

def RawFinding.narrow (f : RawFinding) : PatternFinding :=
  ⟨f.subject, f.ruleId, f.windowS, f.count, f.severity.toUInt32⟩

section Severities

/-- The walk of `parse_block_summary`, keeping the severities that it reads and drops. -/
def decSeverity : DecM UInt64 := do
  decMapOf 5
  decExpectKey 1
  let _ ← decBytes32
  decExpectKey 2
  let _ ← decUintVal
  decExpectKey 3
  let _ ← decUintVal
  decExpectKey 4
  let _ ← decUintVal
  decExpectKey 5
  decUintVal

def decSeverities : Nat → DecM (List UInt64)
  | 0 => pure []
  | n + 1 => do
    let severity ← decSeverity
    let rest ← decSeverities n
    return severity :: rest

def decSummarySeverities : DecM (List UInt64) := do
  decMapOf 4
  decExpectKey 1
  let _ ← decUintVal
  decExpectKey 2
  let _ ← decUintVal
  decExpectKey 3
  let _ ← decBytes32
  decExpectKey 4
  let nf ← orMalformed decArray
  decSeverities nf.toNat

def blockSeverities (block : Bytes) : Except Error (List UInt64) := do
  let summary ← runDec decBlock block
  runDec decSummarySeverities summary

end Severities

def rawSummaryTokens (epoch cutoffTime : UInt64) (root : Bytes32) (findings : List RawFinding) : List Token :=
  [.map 4, .uint 1, .uint epoch.toNat, .uint 2, .uint cutoffTime.toNat, .uint 3, .bytes root.val, .uint 4,
    .array findings.length] ++ findings.flatMap RawFinding.tokens

def rawBlockTokens (height : UInt64) (prev : Bytes32) (degraded : Bool) (summary : Bytes) : List Token :=
  [.map 4, .uint 1, .uint height.toNat, .uint 2, .bytes prev.val, .uint 3, .bool degraded, .uint 4,
    .bytes summary]

theorem yields_decFinding : Yields decFinding fun _ ts => ∃ f : RawFinding, ts = f.tokens :=
  (yields_decMapOf 5).step fun _ => yields_keyed 1 yields_decBytes32 fun subject =>
      yields_keyed 2 yields_decUintVal fun ruleId =>
    yields_keyed 3 yields_decUintVal fun windowS => yields_keyed 4 yields_decUintVal fun count =>
      yields_keyed 5 yields_decUintVal fun severity =>
        yields_pure ⟨⟨subject, ruleId, windowS, count, severity⟩, rfl⟩

theorem yields_decSummary : Yields decSummary (fun out ts => ∃ cutoffTime findings,
    ts = rawSummaryTokens out.1 cutoffTime out.2 findings) True := by
  refine (yields_decMapOf 4).step fun _ => yields_keyed 1 yields_decUintVal fun epoch =>
    yields_keyed 2 yields_decUintVal fun cutoffTime => yields_keyed 3 yields_decBytes32 fun root =>
      yields_keyed 4 (yields_orMalformed yields_array) fun nf =>
        (yields_repeatWalk yields_decFinding nf.toNat).bind ?_
  rintro _ ts ⟨findings, hlen, rfl⟩
  refine yields_decFinish ⟨cutoffTime, findings, ?_⟩
  rw [append_nil, rawSummaryTokens, hlen]
  rfl

theorem yields_decBlock : Yields decBlock (fun summary ts => ∃ height prev degraded,
    ts = rawBlockTokens height prev degraded summary) True :=
  (yields_decMapOf 4).step fun _ => yields_keyed 1 yields_decUintVal fun height =>
      yields_keyed 2 yields_decBytes32 fun prev =>
    yields_keyed 3 (yields_orMalformed yields_bool) fun degraded => yields_keyed 4 yields_decBytesVal fun _ =>
      yields_decFinish ⟨height, prev, degraded, rfl⟩

variable {epoch cutoffTime : UInt64} {root : Bytes32} {findings : List RawFinding}

section Takes

variable {us : List Token}

theorem takes_decSeverity (f : RawFinding) (us : List Token) :
    Takes decSeverity (f.tokens ++ us) us f.severity :=
  takes_decMapOf.bind (takes_keyed takes_decBytes32 (takes_keyed takes_decUintVal (takes_keyed takes_decUintVal
    (takes_keyed takes_decUintVal (takes_decExpectKey.bind takes_decUintVal)))))

theorem takes_decSeverities (findings : List RawFinding) :
    Takes (decSeverities findings.length) (findings.flatMap RawFinding.tokens ++ us) us
      (findings.map RawFinding.severity) :=
  Repeats.takes ⟨rfl, fun _ => rfl⟩ fun f _ => takes_decSeverity f

theorem takes_decSummarySeverities
    (hlen : findings.length < 2 ^ 64) :
    Takes decSummarySeverities (rawSummaryTokens epoch cutoffTime root findings) []
      (findings.map RawFinding.severity) := by
  have hn : (UInt64.ofNat findings.length).toNat = findings.length := ofNat_toNat hlen
  rw [rawSummaryTokens, ← hn, ← append_nil (findings.flatMap _)]
  refine takes_decMapOf.bind
    (takes_keyed takes_decUintVal (takes_keyed takes_decUintVal (takes_keyed takes_decBytes32
    (takes_keyed (takes_orMalformed takes_array) ?_))))
  rw [hn]
  exact takes_decSeverities findings

end Takes

theorem parseBlockSummary_reads {b : Bytes} (h : parseBlockSummary b = .ok (epoch, root)) :
    ∃ summary height prev degraded cutoffTime findings, runDec decBlock b = .ok summary ∧
      Left b (decInit b) (rawBlockTokens height prev degraded summary) ∧
      Left summary (decInit summary) (rawSummaryTokens epoch cutoffTime root findings) := by
  obtain ⟨-, h⟩ := except_guard_iff.mp h
  obtain ⟨summary, hblock, h⟩ := except_bind_eq_ok.mp h
  obtain ⟨-, hsummary⟩ := except_guard_iff.mp h
  obtain ⟨d, hd⟩ := runDec_eq_ok.mp hblock
  obtain ⟨d', hd'⟩ := runDec_eq_ok.mp hsummary
  obtain ⟨ts, ⟨height, prev, degraded, rfl⟩, hvalid, hbytes, hsteps⟩ := yields_decBlock.whole hd
  obtain ⟨us, ⟨cutoffTime, findings, rfl⟩, hvalid', hbytes', hsteps'⟩ := yields_decSummary.whole hd'
  exact ⟨summary, height, prev, degraded, cutoffTime, findings, hblock, left_of_steps hvalid hbytes hsteps,
    left_of_steps hvalid' hbytes' hsteps'⟩

theorem tokens_narrow {f : RawFinding} (h : severityValid f.severity = true) :
    tokens (findingValue f.narrow) = f.tokens := by
  rw [tokens_finding, RawFinding.narrow, severityValid_narrow h, RawFinding.tokens]

theorem encode_narrow {summary : Bytes}
    (h : Left summary (decInit summary) (rawSummaryTokens epoch cutoffTime root findings))
    (hsev : ∀ f ∈ findings, severityValid f.severity = true) :
    encode (summaryValue ⟨epoch, cutoffTime, root, findings.map RawFinding.narrow⟩) = summary := by
  have htokens : tokens (summaryValue ⟨epoch, cutoffTime, root, findings.map RawFinding.narrow⟩) =
      rawSummaryTokens epoch cutoffTime root findings := by
    rw [tokens_summary, rawSummaryTokens, length_map, flatMap_map]
    congr 1
    apply flatMap_congr
    intro f hf
    exact tokens_narrow (hsev f hf)
  rw [encode, htokens]
  exact h.rest.symm

/-- Layer 1 accepts what the chain decodes, the chain decodes what Layer 1 accepts if it knows the
severities, and their Merkle checks agree. -/
theorem layers_agree (crypto : Primitives) :
    (∀ b findingsCap blk, blockDecode b findingsCap = .ok blk →
      parseBlockSummary b = .ok (blk.summary.epoch, blk.summary.confirmedProofs)) ∧
    (∀ b epoch root, parseBlockSummary b = .ok (epoch, root) → ∃ severities,
      blockSeverities b = .ok severities ∧
      ((∀ u ∈ severities, severityValid u = true) → ∀ findingsCap, severities.length ≤ findingsCap →
        ∃ blk, blockDecode b findingsCap = .ok blk ∧ blk.summary.epoch = epoch ∧
        blk.summary.confirmedProofs = root)) ∧
    ∀ leaf index n path root, index < n → n ≤ 2 ^ 32 →
      (path.length = cpPathLen n index n * 32 ∧ cpFoldToRoot crypto leaf index n path = root ↔
        confirmedVerify crypto leaf index n path root = .ok true) := by
  refine ⟨?_, ?_, ?_⟩
  · intro b findingsCap blk h
    obtain ⟨-, d, hd⟩ := decodeBuf_eq_ok.mp h
    obtain ⟨ts, ⟨-, rfl⟩, hvalid, hbytes, -⟩ := (yields_decodeBlock findingsCap).whole hd
    rw [tokens_block] at hvalid
    have hsize : (encode (summaryValue blk.summary)).length < 2 ^ 64 := hvalid (.bytes _) (by simp)
    rw [← hbytes]
    exact parseBlockSummary_of_sized hsize
  · intro b epoch root h
    obtain ⟨summary, height, prev, degraded, cutoffTime, findings, hblock, hleft, hleft'⟩ :=
      parseBlockSummary_reads h
    have hsize : summary.length < 2 ^ 64 := hleft.valid (.bytes summary) (by simp [rawBlockTokens])
    have hlen : findings.length < 2 ^ 64 := hleft'.valid (.array findings.length) (by simp [rawSummaryTokens])
    refine ⟨findings.map RawFinding.severity, ?_, ?_⟩
    · obtain ⟨d, hd, -⟩ := takes_decSummarySeverities hlen _ _ hleft'
      exact except_bind_eq_ok.mpr ⟨summary, hblock, runDec_eq_ok.mpr ⟨d, hd⟩⟩
    · intro hsev findingsCap hcap
      have hsev : ∀ f ∈ findings, severityValid f.severity = true := forall_mem_map.mp hsev
      have hsummary := encode_narrow hleft' hsev
      let blk : Block := ⟨height, prev, degraded, ⟨epoch, cutoffTime, root, findings.map RawFinding.narrow⟩⟩
      have hb : encode (blockValue blk) = b := by
        rw [encode, tokens_block, hsummary]
        exact hleft.rest.symm
      refine ⟨blk, ?_, rfl, rfl⟩
      rw [← hb]
      refine blockDecode_of_valid (hsummary.symm ▸ hsize) ?_ ?_
      · refine forall_mem_map.mpr fun f hf => ?_
        rw [RawFinding.narrow, severityValid_narrow (hsev f hf)]
        exact hsev f hf
      · rwa [length_map] at hcap ⊢
  · intro leaf index n path root hindex hn
    rw [confirmedVerify_iff, cpPathLen_eq]
    exact ⟨fun h => ⟨hindex, hn, h.1, h.2⟩, fun h => ⟨h.2.2.1, h.2.2.2⟩⟩

theorem layers_agree_sample : parseBlockSummary (encode (blockValue sampleBlock)) = .ok (9, zero32) ∧
    (∃ blk, blockDecode (encode (blockValue sampleBlock)) 1 = .ok blk ∧ blk.summary.epoch = 9) ∧
    confirmedVerify fabricatedCrypto (sampleIds.getD 1 zero32) 1 2 (sampleLeaves.headD zero32).val
      fabricatedBlock.summary.confirmedProofs = .ok true := by
  obtain ⟨hparse, hdecode, hpath⟩ := layers_agree fabricatedCrypto
  have hread : blockDecode (encode (blockValue sampleBlock)) 1 = .ok sampleBlock := by decide +kernel
  have hknown : blockSeverities (encode (blockValue sampleBlock)) =
    .ok [severityMedium.toUInt64] := by decide +kernel
  obtain ⟨severities, hsev, hblk⟩ := hdecode _ 9 zero32 (hparse _ 1 sampleBlock hread)
  obtain rfl : severities = [severityMedium.toUInt64] := Except.ok.inj (hsev.symm.trans hknown)
  have hmedium : ∀ u ∈ [severityMedium.toUInt64], severityValid u = true := forall_mem_singleton.mpr (by decide)
  obtain ⟨blk, hok, hepoch, -⟩ := hblk hmedium 1 le_rfl
  exact ⟨hparse _ 1 sampleBlock hread, ⟨blk, hok, hepoch⟩,
    (hpath _ 1 2 _ _ (by decide) (by decide)).mp (by decide +kernel)⟩

end AntsClient.Chain.Layers
