import AntsClient.Cbor.Canonical
import AntsClient.Cbor.Sizes
import AntsClient.Chain.BlockSpec

namespace AntsClient.Chain.BlockValues

open Common Cbor Head Tokens Values Canonical Sizes Value Crypto Blocks BlockSpec List

variable {s : EpochSummary} {b : Block}

def findingValue (f : PatternFinding) : Value :=
  .map [(.uint 1, .bytes f.subject.val), (.uint 2, .uint f.ruleId.toNat), (.uint 3, .uint f.windowS.toNat),
    (.uint 4, .uint f.count.toNat), (.uint 5, .uint f.severity.toUInt64.toNat)]

def summaryValue (s : EpochSummary) : Value :=
  .map [(.uint 1, .uint s.epoch.toNat), (.uint 2, .uint s.cutoffTime.toNat),
    (.uint 3, .bytes s.confirmedProofs.val),
    (.uint 4, .array (s.findings.map findingValue))]

def blockValue (b : Block) : Value :=
  .map [(.uint 1, .uint b.height.toNat), (.uint 2, .bytes b.prevBlockHash.val), (.uint 3, .bool b.degradedSeed),
    (.uint 4, .bytes (encode (summaryValue b.summary)))]

theorem calls_finding (f : PatternFinding) : calls (findingValue f) = findingCalls f := by
  simp [calls, findingValue, tokens, tokensPairs, Token.call, findingCalls]

theorem calls_summary (s : EpochSummary) : calls (summaryValue s) = summaryCalls s := by
  have hf (fs : List PatternFinding) : (fs.map findingValue).flatMap calls = fs.flatMap findingCalls := by
    simp only [flatMap_map, calls_finding]
  have hc (vs : List Value) : (tokensList vs).map Token.call = vs.flatMap calls := by
    rw [tokensList_eq, map_flatMap]
    rfl
  simp [calls, summaryValue, tokens, tokensPairs, Token.call, summaryCalls, hc, hf]

theorem calls_block (b : Block) : calls (blockValue b) = blockCalls b (encode (summaryValue b.summary)) := by
  simp [calls, blockValue, tokens, tokensPairs, Token.call, blockCalls]

theorem finding_within (f : PatternFinding) : Within 1 (findingValue f) :=
  within_fields [1, 2, 3, 4, 5] rfl (by decide) (by simp)

theorem findings_inBounds {n : Nat} (h : n ≤ maxPatternFindings) : n < 2 ^ 64 :=
  lt_of_le_of_lt h (by norm_num [maxPatternFindings])

theorem summary_wellFormed (h : s.findings.length < 2 ^ 64) : WellFormed (summaryValue s) := by
  have hfindings : Within 2 (.array (s.findings.map findingValue)) :=
    within_array_map h fun f _ => finding_within f
  have hwithin : Within 3 (summaryValue s) := within_fields [1, 2, 3, 4] rfl (by decide) (by simp [hfindings])
  exact hwithin.wellFormed (by decide)

theorem block_wellFormed (h : (encode (summaryValue b.summary)).length < 2 ^ 64) :
    WellFormed (blockValue b) := by
  have hwithin : Within 1 (blockValue b) :=
    within_fields [1, 2, 3, 4] rfl (by decide) (by simp [within_bytes h])
  exact hwithin.wellFormed (by decide)

theorem length_le_encode (vs : List Value) : vs.length ≤ (vs.flatMap encode).length := by
  induction vs with
  | nil => exact le_rfl
  | cons v vs ih =>
    have hpos := Cbor.Walk.encode_length_pos v
    rw [flatMap_cons, length_append, length_cons]
    omega

theorem findings_lt_of_summary (h : (encode (summaryValue s)).length < 2 ^ 64) :
    s.findings.length < 2 ^ 64 := by
  have hle := length_le_encode (s.findings.map findingValue)
  rw [length_map] at hle
  simp only [summaryValue, encode_map, encode_array, flatMap_cons, flatMap_nil, length_append] at h
  omega

theorem finding_length (f : PatternFinding) : (encode (findingValue f)).length ≤ 96 := by
  refine (encode_fields_length [1, 2, 3, 4, 5] rfl (by decide) [35, 9, 9, 9, 9] ?_).trans (by decide)
  simp

theorem summary_length_le (h : s.findings.length ≤ maxPatternFindings) :
    (encode (summaryValue s)).length ≤ epochSummaryBound s := by
  have hfindings := encode_list_length fun f (_ : f ∈ s.findings) => finding_length f
  have hhead : (head 4 (s.findings.map findingValue).length).length ≤ 3 := by
    refine head_length_short 4 ?_
    rw [length_map]
    exact lt_of_le_of_lt h (by norm_num [maxPatternFindings])
  have harray : (encode (.array (s.findings.map findingValue))).length ≤ 3 + s.findings.length * 96 := by
    rw [encode_array, length_append]
    omega
  refine (encode_fields_length [1, 2, 3, 4] rfl (by decide) [9, 9, 35, 3 + s.findings.length * 96]
    (by simp [harray])).trans ?_
  simp only [epochSummaryBound, sum_cons, sum_nil, length_cons, length_nil]
  omega

theorem summary_fits (h : s.findings.length ≤ maxPatternFindings) :
    (encode (summaryValue s)).length ≤ epochSummaryEncodedMax := by
  refine (summary_length_le h).trans ?_
  rw [epochSummaryBound, epochSummaryEncodedMax]
  omega

theorem block_length_le (h : b.summary.findings.length ≤ maxPatternFindings) :
    (encode (blockValue b)).length ≤ blockBound b := by
  have hmax : epochSummaryEncodedMax < 65536 := by norm_num [epochSummaryEncodedMax, maxPatternFindings]
  have hbytes := encode_bytes_length (lt_of_le_of_lt (summary_fits h) hmax)
  have hsummary := summary_length_le h
  refine (encode_fields_length [1, 2, 3, 4] rfl (by decide)
    [9, 35, 1, 3 + (encode (summaryValue b.summary)).length]
    (by simp [hbytes, encode_bool_length])).trans ?_
  simp only [blockBound, sum_cons, sum_nil, length_cons, length_nil]
  omega

theorem block_fits (h : b.summary.findings.length ≤ maxPatternFindings) :
    (encode (blockValue b)).length ≤ blockEncodedMax := by
  refine (block_length_le h).trans ?_
  rw [blockBound, blockEncodedMax, epochSummaryBound, epochSummaryEncodedMax]
  omega

def Encodable (s : EpochSummary) : Prop :=
  s.findings.length ≤ maxPatternFindings ∧ s.findings.all fun f => severityValid f.severity.toUInt64

instance (s : EpochSummary) : Decidable (Encodable s) := inferInstanceAs (Decidable (_ ∧ _))

/-- The capacities that the header states are enough: a buffer of that size takes
every summary whose findings are valid. -/
theorem epochSummaryEncode_eq (s : EpochSummary) : epochSummaryEncode s (replicate epochSummaryEncodedMax 0) =
    if Encodable s then .ok (encode (summaryValue s)) else .error .invalidArg := by
  rw [epochSummaryEncode]
  by_cases hl : s.findings.length > maxPatternFindings
  · rw [if_pos hl, if_neg fun h => absurd h.1 (Nat.not_le.mpr hl)]
  have hle := Nat.not_lt.mp hl
  rw [if_neg hl]
  by_cases hv : s.findings.all fun f => severityValid f.severity.toUInt64
  · rw [if_neg (by simp [hv]), if_pos ⟨hle, hv⟩, encSummary_eq, ← calls_summary]
    refine (encodeInto_iff (summary_wellFormed (findings_inBounds hle))).mpr ⟨rfl, ?_⟩
    rw [length_replicate]
    exact summary_fits hle
  · rw [if_pos (by simpa using hv), if_neg fun h => hv h.2]

theorem summary_inBounds (h : s.findings.length ≤ maxPatternFindings) :
    (encode (summaryValue s)).length < 2 ^ 64 :=
  lt_of_le_of_lt (summary_fits h) (by norm_num [epochSummaryEncodedMax, maxPatternFindings])

theorem blockEncode_iff {buf bytes : Bytes} : blockEncode b buf = .ok bytes ↔
    Encodable b.summary ∧ encode (blockValue b) = bytes ∧ bytes.length ≤ buf.length := by
  rw [blockEncode, epochSummaryEncode_eq]
  by_cases h : Encodable b.summary
  · simp only [h, if_true, true_and]
    rw [encBlock_eq, ← calls_block]
    exact encodeInto_iff (block_wellFormed (summary_inBounds h.1))
  · simp only [h, if_false, false_and, reduceCtorEq]

theorem blockEncode_eq (b : Block) : blockEncode b (replicate blockEncodedMax 0) =
    if Encodable b.summary then .ok (encode (blockValue b)) else .error .invalidArg := by
  by_cases h : Encodable b.summary
  · rw [if_pos h, blockEncode_iff, length_replicate]
    exact ⟨h, rfl, block_fits h.1⟩
  · rw [if_neg h, blockEncode, epochSummaryEncode_eq]
    simp only [if_neg h]

theorem blockHash_eq (crypto : Primitives) (b : Block) :
    blockHash crypto b = if Encodable b.summary then
    .ok (crypto.blake3 (encode (blockValue b))) else .error .invalidArg := by
  rw [blockHash, blockEncode_eq]
  split <;> rfl

theorem findingValue_inj {f f' : PatternFinding} (h : findingValue f = findingValue f') : f = f' := by
  obtain ⟨subject, ruleId, windowS, count, severity⟩ := f
  obtain ⟨subject', ruleId', windowS', count', severity'⟩ := f'
  simpa [findingValue, UInt64.toNat_inj, UInt32.toNat_inj, ← Bytes32.ext_iff] using h

theorem summaryValue_inj {s' : EpochSummary} (h : summaryValue s = summaryValue s') : s = s' := by
  obtain ⟨epoch, cutoffTime, confirmedProofs, findings⟩ := s
  obtain ⟨epoch', cutoffTime', confirmedProofs', findings'⟩ := s'
  have hmap : Function.Injective (List.map findingValue) := map_injective_iff.mpr fun _ _ => findingValue_inj
  simpa [summaryValue, UInt64.toNat_inj, ← Bytes32.ext_iff, hmap.eq_iff] using h

theorem blockEncode_inj {b' : Block} {bytes : Bytes}
    (h : blockEncode b (replicate blockEncodedMax 0) = .ok bytes)
    (h' : blockEncode b' (replicate blockEncodedMax 0) = .ok bytes) : b = b' := by
  obtain ⟨hb, hbytes, -⟩ := blockEncode_iff.mp h
  obtain ⟨hb', hbytes', -⟩ := blockEncode_iff.mp h'
  have hv : blockValue b = blockValue b' :=
    encode_inj (block_wellFormed (summary_inBounds hb.1)).inRange
      (block_wellFormed (summary_inBounds hb'.1)).inRange
      (hbytes.trans hbytes'.symm)
  obtain ⟨height, prev, degraded, summary⟩ := b
  obtain ⟨height', prev', degraded', summary'⟩ := b'
  simp only [blockValue, Value.map.injEq, List.cons.injEq, Prod.mk.injEq, Value.uint.injEq, Value.bytes.injEq,
    Value.bool.injEq, UInt64.toNat_inj, ← Bytes32.ext_iff, true_and, and_true] at hv
  obtain ⟨rfl, rfl, rfl, hs⟩ := hv
  obtain rfl := summaryValue_inj (encode_inj (summary_wellFormed (findings_inBounds hb.1)).inRange
    (summary_wellFormed (findings_inBounds hb'.1)).inRange hs)
  rfl

end AntsClient.Chain.BlockValues
