import AntsClient.Chain.BlockValues
import AntsClient.Chain.FieldReaders

namespace AntsClient.Chain.BlockCodec

open Common Cbor Tokens Values Walk Schema Value Crypto Blocks BlockValues FieldReaders Crdt Proof Readers

variable {findingsCap : Nat} {s : EpochSummary} {b : Block}

theorem tokens_finding (f : PatternFinding) : tokens (findingValue f) =
    [.map 5, .uint 1, .bytes f.subject.val, .uint 2, .uint f.ruleId.toNat, .uint 3,
      .uint f.windowS.toNat, .uint 4,
      .uint f.count.toNat, .uint 5, .uint f.severity.toUInt64.toNat] := by
  simp [findingValue, tokens, tokensPairs]

theorem tokens_summary (s : EpochSummary) : tokens (summaryValue s) =
    [.map 4, .uint 1, .uint s.epoch.toNat, .uint 2, .uint s.cutoffTime.toNat, .uint 3,
      .bytes s.confirmedProofs.val, .uint 4,
      .array s.findings.length] ++ s.findings.flatMap fun f => tokens (findingValue f) := by
  simp [summaryValue, tokens, tokensPairs, tokensList_eq, List.flatMap_map]

theorem tokens_block (b : Block) : tokens (blockValue b) =
    [.map 4, .uint 1, .uint b.height.toNat, .uint 2, .bytes b.prevBlockHash.val, .uint 3,
      .bool b.degradedSeed, .uint 4,
      .bytes (encode (summaryValue b.summary))] := by
  simp [blockValue, tokens, tokensPairs]

variable {buf bytes : Bytes}

section Sound

theorem severityValid_narrow {u : UInt64} (h : severityValid u = true) : u.toUInt32.toUInt64 = u := by
  simp only [severityValid, Bool.and_eq_true, decide_eq_true_eq] at h
  have hlt : u.toNat < 5 := UInt64.lt_iff_toNat_lt.mp h.2
  rw [← UInt64.toNat_inj, UInt32.toNat_toUInt64, UInt64.toNat_toUInt32]
  omega

theorem yields_decodeFinding : Yields decodeFinding fun f ts =>
    severityValid f.severity.toUInt64 ∧ ts = tokens (findingValue f) := by
  refine (yields_decodePairs 5).seq fun _ => (yields_decodeBytesField 1).seq fun subject =>
    (yields_decodeUintField 2).seq fun ruleId => (yields_decodeUintField 3).seq fun windowS =>
      (yields_decodeUintField 4).seq fun count => (yields_decodeUintField 5).seq fun u => ?_
  by_cases hu : severityValid u = true
  · rw [if_neg (by simp [hu])]
    refine yields_pure ?_
    rw [tokens_finding, severityValid_narrow hu]
    exact ⟨hu, rfl⟩
  · rw [if_pos (by simpa using hu)]
    exact yields_throw

theorem findings_repeats : Repeats decodeFindings decodeFinding := ⟨rfl, fun _ => rfl⟩

theorem yields_decodeFindings (n : Nat) : Yields (decodeFindings n) fun fs ts =>
    fs.length = n ∧ (∀ f ∈ fs, severityValid f.severity.toUInt64) ∧ ts = fs.flatMap fun f =>
    tokens (findingValue f) := by
  refine (findings_repeats.yields (f := id)
    (yields_decodeFinding.mono fun f ts h => ⟨f, h.1, rfl, h.2⟩) n).mono ?_
  rintro _ ts ⟨fs, hlen, hsev, rfl, hts⟩
  rw [List.map_id]
  exact ⟨hlen, hsev, hts⟩

theorem yields_decodeSummary (findingsCap : Nat) : Yields (decodeSummary findingsCap) (fun s ts =>
    (s.findings.length ≤ findingsCap ∧ ∀ f ∈ s.findings, severityValid f.severity.toUInt64) ∧
    ts = tokens (summaryValue s)) True := by
  refine (yields_decodePairs 4).seq fun _ => (yields_decodeUintField 1).seq fun epoch =>
    (yields_decodeUintField 2).seq fun cutoffTime => (yields_decodeBytesField 3).seq fun confirmedProofs =>
      yields_field 4 yields_array fun n => yields_guard fun hn => ?_
  refine (yields_decodeFindings n.toNat).bind fun fs ts hfs => yields_decodeFinish ?_
  obtain ⟨hlen, hsev, rfl⟩ := hfs
  refine ⟨⟨hlen.symm ▸ Nat.not_lt.mp hn, hsev⟩, ?_⟩
  rw [tokens_summary, List.append_nil, hlen]
  rfl

theorem epochSummaryDecode_sound (h : epochSummaryDecode buf findingsCap = .ok s) :
    (s.findings.length ≤ findingsCap ∧ ∀ f ∈ s.findings, severityValid f.severity.toUInt64) ∧
    encode (summaryValue s) = buf :=
  decodeBuf_sound (yields_decodeSummary findingsCap) h

theorem yields_decodeBlock (findingsCap : Nat) : Yields (decodeBlock findingsCap) (fun b ts =>
    (b.summary.findings.length ≤ findingsCap ∧ ∀ f ∈ b.summary.findings, severityValid f.severity.toUInt64) ∧
      ts = tokens (blockValue b)) True := by
  refine (yields_decodePairs 4).seq fun _ => (yields_decodeUintField 1).seq fun height =>
    (yields_decodeBytesField 2).seq fun prev => yields_field 3 yields_bool fun degraded =>
      yields_field 4 yields_bytes fun summaryBytes => ?_
  cases hs : epochSummaryDecode summaryBytes findingsCap with
  | error err => exact yields_throw
  | ok summary =>
    obtain ⟨hvalid, rfl⟩ := epochSummaryDecode_sound hs
    refine yields_decodeFinish ⟨hvalid, ?_⟩
    rw [tokens_block]
    rfl

theorem blockDecode_sound (h : blockDecode bytes findingsCap = .ok b) :
    (b.summary.findings.length ≤ findingsCap ∧ ∀ f ∈ b.summary.findings, severityValid f.severity.toUInt64) ∧
      encode (blockValue b) = bytes :=
  decodeBuf_sound (yields_decodeBlock findingsCap) h

end Sound

section Complete

variable {us : List Token}

theorem takes_decodeFinding {f : PatternFinding} (h : severityValid f.severity.toUInt64) :
    Takes decodeFinding (tokens (findingValue f) ++ us) us f := by
  rw [tokens_finding]
  refine takes_decodePairs.bind
    (takes_decodeBytesField.bind (takes_decodeUintField.bind (takes_decodeUintField.bind
    (takes_decodeUintField.bind (takes_decodeUintField.bind ?_)))))
  rw [if_neg (by simp [h]), UInt32.toUInt32_toUInt64]
  exact takes_pure

theorem takes_decodeFindings {fs : List PatternFinding} (h : ∀ f ∈ fs, severityValid f.severity.toUInt64) :
    Takes (decodeFindings fs.length) ((fs.flatMap fun f => tokens (findingValue f)) ++ us) us fs := by
  have hall : Takes (decodeFindings fs.length) (fs.flatMap _ ++ us) us (fs.map id) :=
    findings_repeats.takes fun f hf _ => takes_decodeFinding (h f hf)
  rwa [List.map_id] at hall

theorem takes_decodeSummary (hlen : s.findings.length < 2 ^ 64)
    (hsev : ∀ f ∈ s.findings, severityValid f.severity.toUInt64 = true)
    (hcap : s.findings.length ≤ findingsCap) :
    Takes (decodeSummary findingsCap) (tokens (summaryValue s)) [] s := by
  have hn : (UInt64.ofNat s.findings.length).toNat = s.findings.length := ofNat_toNat hlen
  rw [tokens_summary, ← hn, ← List.append_nil (s.findings.flatMap _)]
  refine takes_decodePairs.bind
    (takes_decodeUintField.bind (takes_decodeUintField.bind (takes_decodeBytesField.bind
    (takes_field takes_array ?_))))
  rw [hn, if_neg (Nat.not_lt.mpr hcap)]
  exact (takes_decodeFindings hsev).bind (takes_decodeFinish.bind takes_pure)

theorem epochSummaryDecode_of_valid (hlen : s.findings.length < 2 ^ 64)
    (hsev : ∀ f ∈ s.findings, severityValid f.severity.toUInt64 = true)
    (hcap : s.findings.length ≤ findingsCap) :
    epochSummaryDecode (encode (summaryValue s)) findingsCap = .ok s :=
  decodeBuf_of_takes (summary_wellFormed hlen) (takes_decodeSummary hlen hsev hcap)

theorem blockDecode_of_valid (hsize : (encode (summaryValue b.summary)).length < 2 ^ 64)
    (hsev : ∀ f ∈ b.summary.findings, severityValid f.severity.toUInt64 = true)
    (hcap : b.summary.findings.length ≤ findingsCap) :
    blockDecode (encode (blockValue b)) findingsCap = .ok b := by
  have htakes : Takes (decodeBlock findingsCap) (tokens (blockValue b)) [] b := by
    rw [tokens_block]
    refine takes_decodePairs.bind
      (takes_decodeUintField.bind (takes_decodeBytesField.bind (takes_field takes_bool
      (takes_field takes_bytes ?_))))
    rw [epochSummaryDecode_of_valid (findings_lt_of_summary hsize) hsev hcap]
    exact takes_decodeFinish.bind takes_pure
  exact decodeBuf_of_takes (block_wellFormed hsize) htakes

theorem blockDecode_encode (hb : Encodable b.summary)
    (hcap : b.summary.findings.length ≤ findingsCap) :
    blockDecode (encode (blockValue b)) findingsCap = .ok b := by
  have hsev : ∀ f ∈ b.summary.findings, severityValid f.severity.toUInt64 = true := by simpa using hb.2
  exact blockDecode_of_valid (summary_inBounds hb.1) hsev hcap

end Complete

/-- What is encoded into a buffer of the stated size is decoded to the same block, and what is
decoded is encoded to the same bytes, so that its hash is the one of the bytes received. -/
theorem block_codec_bijection (crypto : Primitives) :
    (∀ b : Block, b.summary.findings.length ≤ maxPatternFindings →
      (∀ f ∈ b.summary.findings, severityValid f.severity.toUInt64 = true) → ∀ buf :
      Bytes, buf.length = blockBound b →
        ∃ bytes, blockEncode b buf = .ok bytes ∧
          ∀ findingsCap, b.summary.findings.length ≤ findingsCap → blockDecode bytes findingsCap = .ok b) ∧
    ∀ bytes findingsCap b, findingsCap ≤ maxPatternFindings → blockDecode bytes findingsCap = .ok b →
      (∀ buf : Bytes, bytes.length ≤ buf.length → blockEncode b buf = .ok bytes) ∧
        blockHash crypto b = .ok (crypto.blake3 bytes) := by
  refine ⟨fun b hlen hsev buf hbuf => ?_, fun bytes findingsCap b hcap h => ?_⟩
  · have hb : Encodable b.summary := ⟨hlen, by simpa using hsev⟩
    refine ⟨encode (blockValue b), blockEncode_iff.mpr ⟨hb, rfl, ?_⟩, fun findingsCap hcap =>
      blockDecode_encode hb hcap⟩
    rw [hbuf]
    exact block_length_le hlen
  · obtain ⟨⟨hlen, hsev⟩, rfl⟩ := blockDecode_sound h
    have hb : Encodable b.summary := ⟨hlen.trans hcap, by simpa using hsev⟩
    refine ⟨fun buf hbuf => blockEncode_iff.mpr ⟨hb, rfl, hbuf⟩, ?_⟩
    rw [blockHash_eq, if_pos hb]

def sampleBlock : Block where
  height := 300
  prevBlockHash := zero32
  degradedSeed := false
  summary := ⟨9, 777600, zero32, [⟨zero32, 1, patternWindowS, 4, severityMedium⟩]⟩

theorem block_codec_bijection_sample :
    ∃ bytes, blockEncode sampleBlock (List.replicate 240 0) = .ok bytes ∧
    blockDecode bytes 1 = .ok sampleBlock ∧
      blockHash ⟨fun _ => zero32, fun _ _ => zero32, fun _ _ _ => false⟩ sampleBlock = .ok zero32 := by
  obtain ⟨hencode, hdecode⟩ := block_codec_bijection ⟨fun _ => zero32, fun _ _ => zero32, fun _ _ _ => false⟩
  obtain ⟨bytes, henc, hdec⟩ :=
    hencode sampleBlock (by decide) (by decide) (List.replicate 240 0) List.length_replicate
  exact ⟨bytes, henc, hdec 1 (by decide), (hdecode bytes 1 sampleBlock (by decide) (hdec 1 (by decide))).2⟩

section Layer1

variable {us : List Token}

theorem takes_decBlock (b : Block) :
    Takes decBlock (tokens (blockValue b)) [] (encode (summaryValue b.summary)) := by
  rw [tokens_block]
  exact takes_decMapOf.bind (takes_keyed takes_decUintVal (takes_keyed takes_decBytes32
    (takes_keyed (takes_orMalformed takes_bool)
    (takes_keyed takes_decBytesVal (takes_decFinish.bind takes_pure)))))

theorem takes_decFinding (f : PatternFinding) (us : List Token) :
    Takes decFinding (tokens (findingValue f) ++ us) us () := by
  rw [tokens_finding]
  exact takes_decMapOf.bind
    (takes_keyed takes_decBytes32 (takes_keyed takes_decUintVal (takes_keyed takes_decUintVal
    (takes_keyed takes_decUintVal (takes_keyed takes_decUintVal takes_pure)))))

theorem takes_decSummary (hs : s.findings.length < 2 ^ 64) :
    Takes decSummary (tokens (summaryValue s)) [] (s.epoch, s.confirmedProofs) := by
  have hn : (UInt64.ofNat s.findings.length).toNat = s.findings.length := ofNat_toNat hs
  rw [tokens_summary, ← hn, ← List.append_nil (s.findings.flatMap _)]
  refine takes_decMapOf.bind
    (takes_keyed takes_decUintVal (takes_keyed takes_decUintVal (takes_keyed takes_decBytes32
    (takes_keyed (takes_orMalformed takes_array) ?_))))
  rw [hn]
  exact (takes_repeatWalk takes_decFinding).bind (takes_decFinish.bind takes_pure)

theorem parseBlockSummary_of_sized (hsize : (encode (summaryValue b.summary)).length < 2 ^ 64) :
    parseBlockSummary (encode (blockValue b)) = .ok (b.summary.epoch, b.summary.confirmedProofs) := by
  have hlen := findings_lt_of_summary hsize
  have hblock := block_wellFormed hsize
  have hsummary := summary_wellFormed hlen
  rw [parseBlockSummary, if_neg (not_not.mpr (isCanonical_encode.mpr ⟨_, hblock, rfl⟩)),
    runDec_of_takes hblock (takes_decBlock b)]
  refine (if_neg (not_not.mpr (isCanonical_encode.mpr ⟨_, hsummary, rfl⟩))).trans ?_
  exact runDec_of_takes hsummary (takes_decSummary hlen)

theorem parseBlockSummary_encode (h : blockEncode b buf = .ok bytes) :
    parseBlockSummary bytes = .ok (b.summary.epoch, b.summary.confirmedProofs) := by
  obtain ⟨hb, rfl, -⟩ := blockEncode_iff.mp h
  exact parseBlockSummary_of_sized (summary_inBounds hb.1)

end Layer1

end AntsClient.Chain.BlockCodec
