import AntsClient.Cbor.EncoderSpec
import AntsClient.Chain.Blocks

namespace AntsClient.Chain.BlockSpec

open Common Cbor Tokens EncoderSpec Blocks

def findingCalls (f : PatternFinding) : List Call :=
  [.map 5, .uint 1, .bytes f.subject.val, .uint 2, .uint f.ruleId, .uint 3, .uint f.windowS,
    .uint 4, .uint f.count,
    .uint 5, .uint f.severity.toUInt64]

def summaryCalls (s : EpochSummary) : List Call :=
  .map 4 :: .uint 1 :: .uint s.epoch :: .uint 2 :: .uint s.cutoffTime :: .uint 3 ::
    .bytes s.confirmedProofs.val ::
    .uint 4 :: .array (UInt64.ofNat s.findings.length) :: s.findings.flatMap findingCalls

def blockCalls (b : Block) (summary : Bytes) : List Call :=
  [.map 4, .uint 1, .uint b.height, .uint 2, .bytes b.prevBlockHash.val, .uint 3, .bool b.degradedSeed, .uint 4,
    .bytes summary]

theorem encFinding_eq (f : PatternFinding) : encFinding f = encCalls (findingCalls f) := by
  simp only [encFinding, encKvBytes, encKvUint, findingCalls, encCalls, encCall, bind_assoc, bind_pure_unit]

theorem encFindings_eq (fs : List PatternFinding) : encFindings fs = encCalls (fs.flatMap findingCalls) := by
  induction fs with
  | nil => rfl
  | cons f fs ih => rw [encFindings, encFinding_eq, ih, List.flatMap_cons, encCalls_append]

theorem encSummary_eq (s : EpochSummary) : encSummary s = encCalls (summaryCalls s) := by
  simp only [encSummary, encKvBytes, encKvUint, encFindings_eq, summaryCalls, encCalls, encCall, bind_assoc]

theorem encBlock_eq (b : Block) (summary : Bytes) : encBlock b summary = encCalls (blockCalls b summary) := by
  simp only [encBlock, encKvBytes, encKvUint, blockCalls, encCalls, encCall, bind_assoc, bind_pure_unit]

def callBytes (cs : List Call) : Bytes := (cs.map Call.token).flatMap Token.enc

end AntsClient.Chain.BlockSpec
