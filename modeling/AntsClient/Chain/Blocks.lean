import AntsClient.Cbor.Codec
import AntsClient.Chain.Merkle

namespace AntsClient.Chain.Blocks

open Common Cbor.Codec Crypto Merkle

structure PatternFinding where
  subject : Bytes32
  ruleId : UInt64
  windowS : UInt64
  count : UInt64
  severity : UInt32
  deriving DecidableEq

structure EpochSummary where
  epoch : UInt64
  cutoffTime : UInt64
  confirmedProofs : Bytes32
  findings : List PatternFinding
  deriving DecidableEq

structure Block where
  height : UInt64
  prevBlockHash : Bytes32
  degradedSeed : Bool
  summary : EpochSummary
  deriving DecidableEq

structure Event where
  subject : Bytes32
  timestamp : UInt64
  faultType : UInt64
  deriving DecidableEq

def severitySoft : UInt32 := 1

def severityMedium : UInt32 := 2

def severityHard : UInt32 := 3

def severityReservedMin : UInt32 := 5

def maxPatternFindings : Nat := 256

def epochSummaryEncodedMax : Nat := 80 + maxPatternFindings * 96

def blockEncodedMax : Nat := 64 + epochSummaryEncodedMax

def severityValid (s : UInt64) : Bool := s ≥ severitySoft.toUInt64 && s < severityReservedMin.toUInt64

def encKvUint (key val : UInt64) : EncM Unit := do
  encUint key
  encUint val

def encKvBytes (key : UInt64) (b : Bytes) : EncM Unit := do
  encUint key
  encBytes b

def encFinding (f : PatternFinding) : EncM Unit := do
  encMap 5
  encKvBytes 1 f.subject.val
  encKvUint 2 f.ruleId
  encKvUint 3 f.windowS
  encKvUint 4 f.count
  encKvUint 5 f.severity.toUInt64

def encFindings : List PatternFinding → EncM Unit
  | [] => pure ()
  | f :: fs => do
    encFinding f
    encFindings fs

def encSummary (s : EpochSummary) : EncM Unit := do
  encMap 4
  encKvUint 1 s.epoch
  encKvUint 2 s.cutoffTime
  encKvBytes 3 s.confirmedProofs.val
  encUint 4
  encArray (UInt64.ofNat s.findings.length)
  encFindings s.findings

def epochSummaryEncode (s : EpochSummary) (buf : Bytes) : Except Error Bytes :=
  if s.findings.length > maxPatternFindings then .error .invalidArg
  else if !s.findings.all fun f => severityValid f.severity.toUInt64 then .error .invalidArg
  else encodeBuf (encSummary s) buf

def epochSummaryBound (s : EpochSummary) : Nat := 80 + s.findings.length * 96

def encBlock (b : Block) (summary : Bytes) : EncM Unit := do
  encMap 4
  encKvUint 1 b.height
  encKvBytes 2 b.prevBlockHash.val
  encUint 3
  encBool b.degradedSeed
  encUint 4
  encBytes summary

def blockBound (b : Block) : Nat := 64 + epochSummaryBound b.summary

def blockEncode (b : Block) (buf : Bytes) : Except Error Bytes :=
  match epochSummaryEncode b.summary (List.replicate epochSummaryEncodedMax 0) with
  | .error err => .error err
  | .ok summary => encodeBuf (encBlock b summary) buf

def normDecode {α : Type} (x : DecM α) : DecM α := fun d =>
  match x d with
  | .ok a d' => .ok a d'
  | .error err d' => .error (if err = .nonCanonical then .nonCanonical else .malformed) d'

def expectKey (want : UInt64) : DecM Unit := do
  let key ← normDecode decUint
  if key ≠ want then throw .malformed

def decodeUintField (key : UInt64) : DecM UInt64 := do
  expectKey key
  normDecode decUint

def decodeBytesField (key : UInt64) : DecM Bytes32 := do
  expectKey key
  let p ← normDecode decBytes
  match toBytes32 p with
  | none => throw .malformed
  | some x => return x

def decodePairs (pairs : UInt64) : DecM Unit := do
  let n ← normDecode decMap
  if n ≠ pairs then throw .malformed

def decodeFinding : DecM PatternFinding := do
  decodePairs 5
  let subject ← decodeBytesField 1
  let ruleId ← decodeUintField 2
  let windowS ← decodeUintField 3
  let count ← decodeUintField 4
  let u ← decodeUintField 5
  if !severityValid u then throw .unsupportedType
  return ⟨subject, ruleId, windowS, count, u.toUInt32⟩

def decodeFindings : Nat → DecM (List PatternFinding)
  | 0 => return []
  | n + 1 => do
    let f ← decodeFinding
    let fs ← decodeFindings n
    return f :: fs

def decodeFinish : DecM Unit := fun d =>
  match decFinalise d with
  | .ok _ => .ok () d
  | .error err => .error (if err = .nonCanonical then .nonCanonical else .malformed) d

def decodeSummary (findingsCap : Nat) : DecM EpochSummary := do
  decodePairs 4
  let epoch ← decodeUintField 1
  let cutoffTime ← decodeUintField 2
  let confirmedProofs ← decodeBytesField 3
  expectKey 4
  let n ← normDecode decArray
  if n.toNat > findingsCap then throw .bufferTooSmall
  let findings ← decodeFindings n.toNat
  decodeFinish
  return ⟨epoch, cutoffTime, confirmedProofs, findings⟩

def decodeBuf {α : Type} (x : DecM α) (buf : Bytes) : Except Error α :=
  if buf.length = 0 then .error .invalidArg
  else match x (decInit buf) with
    | .ok a _ => .ok a
    | .error err _ => .error err

def epochSummaryDecode (buf : Bytes) (findingsCap : Nat) : Except Error EpochSummary :=
  decodeBuf (decodeSummary findingsCap) buf

def decodeBlock (findingsCap : Nat) : DecM Block := do
  decodePairs 4
  let height ← decodeUintField 1
  let prev ← decodeBytesField 2
  expectKey 3
  let degraded ← normDecode decBool
  expectKey 4
  let summaryBytes ← normDecode decBytes
  match epochSummaryDecode summaryBytes findingsCap with
  | .error err => throw err
  | .ok summary =>
    decodeFinish
    return ⟨height, prev, degraded, summary⟩

def blockDecode (buf : Bytes) (findingsCap : Nat) : Except Error Block :=
  decodeBuf (decodeBlock findingsCap) buf

def patternWindowS : UInt64 := 2592000

def severityForCount (count : Nat) : UInt32 :=
  if count ≥ 6 then severityHard else if count ≥ 3 then severityMedium else severitySoft

def eventInWindow (e : Event) (now : UInt64) : Bool := e.timestamp ≤ now && now - e.timestamp < patternWindowS

/-- The scan over the events: the first one of each subject makes its finding, if
any event of the subject is in the window. -/
def scanEvents (events : List Event) (now : UInt64) : List Event → List Event → List PatternFinding
  | _, [] => []
  | seen, e :: rest =>
    let count := events.countP fun e' => e'.subject = e.subject && eventInWindow e' now
    if seen.any (fun e' => e'.subject = e.subject) || count < 1 then scanEvents events now (seen ++ [e]) rest
    else ⟨e.subject, 1, patternWindowS, UInt64.ofNat count, severityForCount count⟩ ::
      scanEvents events now (seen ++ [e]) rest

def insertFinding (key : PatternFinding) : List PatternFinding → List PatternFinding
  | [] => [key]
  | f :: fs => if memcmp f.subject.val key.subject.val = .gt then f :: insertFinding key fs else key :: f :: fs

def sortFindings (fs : List PatternFinding) : List PatternFinding :=
  (fs.foldl (fun sorted key => insertFinding key sorted) []).reverse

def patternScan (events : List Event) (now : UInt64) (cap : Nat) : Except Error (List PatternFinding) :=
  let findings := scanEvents events now [] events
  if findings.length > cap then .error .bufferTooSmall else .ok (sortFindings findings)

variable (crypto : Primitives)

def blockHash (b : Block) : Except Error Bytes32 :=
  (blockEncode b (List.replicate blockEncodedMax 0)).map crypto.blake3

def blockPropose (height : UInt64) (prev : Bytes32) (epoch cutoffTime : UInt64) (degradedSeed : Bool)
    (contentIds : List Bytes32) (events : List Event) (findingsCap : Nat) : Except Error Block := do
  let root ← confirmedRoot crypto contentIds
  let findings ← patternScan events cutoffTime findingsCap
  if findings.length > maxPatternFindings then throw .invalidArg
  return ⟨height, prev, degradedSeed, epoch, cutoffTime, root, findings⟩

end AntsClient.Chain.Blocks
