import AntsClient.Chain.Blocks
import AntsClient.Reputation.Bag

namespace AntsClient.Reputation.Summaries

open Common Cbor.Codec Crypto Lib.Saturating Receipts Bag Chain.Blocks

structure SummaryBucket where
  bucketIndex : UInt64
  totalDecayedUncs : UInt64
  deriving DecidableEq

structure Summary where
  peerId : Bytes32
  bagRoot : Bytes32
  evalTimeUnixS : UInt64
  bucketWidthS : UInt64
  buckets : List SummaryBucket
  sig : Signature
  deriving DecidableEq

def summaryMaxBuckets : Nat := 256

def summaryBodyEncodedMax : Nat := 5120

def summaryEncodedMax : Nat := 5248

def summaryBodyPairs : UInt64 := 5

def summaryFullPairs : UInt64 := 6

def bucketCanonical (prev : Option UInt64) (b : SummaryBucket) : Bool :=
  !(b.totalDecayedUncs = 0) && !(prev.any fun i => b.bucketIndex ≤ i)

def bucketsCanonical : Option UInt64 → List SummaryBucket → Bool
  | _, [] => true
  | prev, b :: bs => bucketCanonical prev b && bucketsCanonical (some b.bucketIndex) bs

def summaryStructCanonical (s : Summary) : Bool :=
  !(s.bucketWidthS = 0 || s.buckets.length > summaryMaxBuckets) && bucketsCanonical none s.buckets

section Codec

def encBuckets : List SummaryBucket → EncM Unit
  | [] => pure ()
  | b :: bs => do
    encArray 2
    encUint b.bucketIndex
    encUint b.totalDecayedUncs
    encBuckets bs

def summaryEncodeBodyPairs (s : Summary) : EncM Unit := do
  encKvBytes 1 s.peerId.val
  encKvBytes 2 s.bagRoot.val
  encKvUint 3 s.evalTimeUnixS
  encKvUint 4 s.bucketWidthS
  encUint 5
  encArray (UInt64.ofNat s.buckets.length)
  encBuckets s.buckets

def encSummaryBody (s : Summary) : EncM Unit := do
  encMap summaryBodyPairs
  summaryEncodeBodyPairs s

def encSummaryFull (s : Summary) : EncM Unit := do
  encMap summaryFullPairs
  summaryEncodeBodyPairs s
  encKvBytes 6 s.sig.val

def summaryBodyEncode (s : Summary) (buf : Bytes) : Except Error Bytes :=
  if !summaryStructCanonical s then .error .nonCanonical else encodeBuf (encSummaryBody s) buf

def summaryEncode (s : Summary) (buf : Bytes) : Except Error Bytes :=
  if !summaryStructCanonical s then .error .nonCanonical else encodeBuf (encSummaryFull s) buf

def decodeBuckets : Option UInt64 → Nat → DecM (List SummaryBucket)
  | _, 0 => return []
  | prev, n + 1 => do
    let pairN ← normDecode decArray
    if pairN ≠ 2 then throw .malformed
    let index ← normDecode decUint
    let total ← normDecode decUint
    if !bucketCanonical prev ⟨index, total⟩ then throw .nonCanonical
    let bs ← decodeBuckets (some index) n
    return ⟨index, total⟩ :: bs

def decodeSig (key : UInt64) : DecM Signature := do
  expectKey key
  let p ← normDecode decBytes
  match toSignature p with
  | none => throw .malformed
  | some sig => return sig

def decodeSummary (bucketsCap : Nat) : DecM Summary := do
  decodePairs summaryFullPairs
  let peerId ← decodeBytesField 1
  let bagRoot ← decodeBytesField 2
  let evalTime ← decodeUintField 3
  let width ← decodeUintField 4
  if width = 0 then throw .malformed
  expectKey 5
  let n ← normDecode decArray
  if n.toNat > summaryMaxBuckets then throw .malformed
  if n.toNat > bucketsCap then throw .bufferTooSmall
  let buckets ← decodeBuckets none n.toNat
  let sig ← decodeSig 6
  decodeFinish
  return ⟨peerId, bagRoot, evalTime, width, buckets, sig⟩

def summaryDecode (buf : Bytes) (bucketsCap : Nat) : Except Error Summary :=
  decodeBuf (decodeSummary bucketsCap) buf

end Codec

variable (crypto : Primitives)

def summaryVerify (s : Summary) : Except Error Bool :=
  if !summaryStructCanonical s then .ok false
  else do
    let body ← summaryBodyEncode s (List.replicate summaryBodyEncodedMax 0)
    return crypto.ed25519Verify s.peerId body s.sig.val

section Build

variable (bucketsCap : Nat)

/-- What is written of the current bucket when it is left; a bucket of total zero is omitted. -/
def flush (out : List SummaryBucket) : Option SummaryBucket → Except Error (List SummaryBucket)
  | none => .ok out
  | some cur =>
    if cur.totalDecayedUncs > 0 then
      if out.length = bucketsCap ∨
        out.length = summaryMaxBuckets then .error .bufferTooSmall else .ok (out ++ [cur])
    else .ok out

variable (peerId : Bytes32) (evalTime width : UInt64) (params : Params)

def buildLoop : List Receipt → Option SummaryBucket → List SummaryBucket → Except Error (List SummaryBucket)
  | [], cur, out => flush bucketsCap out cur
  | r :: rs, cur, out => do
    let ok ← receiptVerify crypto r
    if !ok || r.server ≠ peerId || r.timestampUnixS > evalTime then buildLoop rs cur out
    else
      let index := r.timestampUnixS / width
      let contribution := receiptAContribution r.toReceiptBody evalTime params
      match cur.filter fun b => b.bucketIndex = index with
      | some b => buildLoop rs (some ⟨index, satAdd b.totalDecayedUncs contribution⟩) out
      | none =>
        let out ← flush bucketsCap out cur
        buildLoop rs (some ⟨index, satAdd 0 contribution⟩) out

def summaryBuild (receipts : List Receipt) : Except Error (List SummaryBucket) := do
  if receipts.length > maxReceipts ∨ width = 0 then throw .invalidArg
  if params.binWidthS = 0 ∨ params.decayRatioAQ32 = 0 then throw .invalidArg
  if receipts.length = 0 then return []
  let ordered ← receiptsCanonicalOrdered crypto receipts
  if !ordered then throw .nonCanonical
  buildLoop crypto bucketsCap peerId evalTime width params receipts none []

end Build

def summaryAuditBucket (s : Summary) (bucketIndex : UInt64) (openings : List Opening) (nBag : Nat)
    (params : Params) :
    Except Error Bool := do
  if openings.length > maxReceipts ∨ nBag > maxReceipts ∨ s.buckets.length > summaryMaxBuckets ∨
      s.bucketWidthS = 0 then
    throw .invalidArg
  if params.binWidthS = 0 ∨ params.decayRatioAQ32 = 0 then throw .invalidArg
  -- the first bucket of that index is the one audited
  match s.buckets.find? fun b => b.bucketIndex = bucketIndex with
  | none => throw .invalidArg
  | some stated =>
    match ← openLoop crypto nBag s.peerId s.bagRoot s.evalTimeUnixS params
      (fun r => r.timestampUnixS / s.bucketWidthS = bucketIndex) [] openings 0 with
    | none => return false
    | some acc => return acc ≥ stated.totalDecayedUncs

end AntsClient.Reputation.Summaries
