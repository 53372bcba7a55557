import AntsClient.Cbor.Codec
import AntsClient.Crypto
import AntsClient.Lib.Saturating

namespace AntsClient.Reputation.Receipts

open Common Cbor.Codec Crypto Lib.Saturating

@[ext]
structure Nonce where
  val : Bytes
  length_val : val.length = 16

instance decidableEqNonce : DecidableEq Nonce := fun a b => decidable_of_iff (a.val = b.val) Nonce.ext_iff.symm

structure ReceiptBody where
  server : Bytes32
  client : Bytes32
  ncsValue : UInt64
  timestampUnixS : UInt64
  nonce : Nonce
  deriving DecidableEq

structure Receipt extends ReceiptBody where
  serverSig : Signature
  clientSig : Signature
  deriving DecidableEq

structure Params where
  decayRatioAQ32 : UInt64
  decayRatioTQ32 : UInt64
  kappaUncsPerBin : UInt64
  binWidthS : UInt64
  deriving DecidableEq

def fpBits : UInt64 := 32

def fpOne : UInt64 := 1 <<< fpBits

def receiptBodyEncodedMax : Nat := 128

def maxReceipts : Nat := 4096

def fpMul (a b : UInt64) : UInt64 := if a ≥ fpOne then b else if b ≥ fpOne then a else (a * b) >>> fpBits

def decayLoop (ratio : UInt64) : Nat → UInt64 → UInt64
  | 0, acc => acc
  | k + 1, acc => if fpMul acc ratio = 0 then 0 else decayLoop ratio k (fpMul acc ratio)

def decayFactor (ratio ageBins : UInt64) : UInt64 :=
  if ratio ≥ fpOne ∨ ageBins = 0 then fpOne else decayLoop ratio ageBins.toNat fpOne

def applyDecay (value factor : UInt64) : UInt64 :=
  if factor ≥ fpOne then value
  else
    let hi := value >>> 32
    let lo := value &&& 0xffffffff
    let loTerm := (lo * factor) >>> fpBits
    if hi ≠ 0 ∧ factor > uint64Max / hi then uint64Max
    else
      let hiTerm := hi * factor
      if hiTerm + loTerm < hiTerm then uint64Max else hiTerm + loTerm

def receiptAContribution (r : ReceiptBody) (now : UInt64) (params : Params) : UInt64 :=
  applyDecay r.ncsValue (decayFactor params.decayRatioAQ32 ((now - r.timestampUnixS) / params.binWidthS))

def encBody (r : ReceiptBody) : EncM Unit := do
  encMap 5
  encUint 1
  encBytes r.server.val
  encUint 2
  encBytes r.client.val
  encUint 3
  encUint r.ncsValue
  encUint 4
  encUint r.timestampUnixS
  encUint 5
  encBytes r.nonce.val

def receiptBodyEncode (r : ReceiptBody) (buf : Bytes) : Except Error Bytes := encodeBuf (encBody r) buf

variable (crypto : Primitives)

def receiptVerify (r : Receipt) : Except Error Bool := do
  let body ← receiptBodyEncode r.toReceiptBody (List.replicate receiptBodyEncodedMax 0)
  return crypto.ed25519Verify r.server body r.serverSig.val &&
    crypto.ed25519Verify r.client body r.clientSig.val

/-- The first pass: which receipts count, and the sum of their contributions. -/
def passA (serverId : Bytes32) (now : UInt64) (params : Params) :
    List Receipt → UInt64 → Except Error (List Bool × UInt64)
  | [], a => .ok ([], a)
  | r :: rs, a => do
    let ok ← receiptVerify crypto r
    if ok && r.server = serverId && !(r.timestampUnixS > now) then
      let (valid, total) ← passA serverId now params rs
        (satAdd a (receiptAContribution r.toReceiptBody now params))
      return (true :: valid, total)
    else
      let (valid, total) ← passA serverId now params rs a
      return (false :: valid, total)

/-- The second pass, over the receipts that count: each bin is summed at its first
receipt, clipped and decayed. -/
def passT (now : UInt64) (params : Params) : List Receipt → List Receipt → UInt64 → UInt64
  | _, [], t => t
  | earlier, r :: rs, t =>
    let bin (r : Receipt) := r.timestampUnixS / params.binWidthS
    if earlier.any fun r' => bin r' = bin r then passT now params (earlier ++ [r]) rs t
    else
      let binTotal := ((r :: rs).filter fun r' => bin r' = bin r).foldl
        (fun total r' => satAdd total r'.ncsValue) 0
      let clipped := if binTotal < params.kappaUncsPerBin then binTotal else params.kappaUncsPerBin
      let factor := decayFactor params.decayRatioTQ32 (now / params.binWidthS - bin r)
      passT now params (earlier ++ [r]) rs (satAdd t (applyDecay clipped factor))

def compute (serverId : Bytes32) (receipts : List Receipt) (now : UInt64) (params : Params) :
    Except Error (UInt64 × UInt64) := do
  if receipts.length > maxReceipts then throw .invalidArg
  if params.binWidthS = 0 ∨ params.decayRatioAQ32 = 0 ∨ params.decayRatioTQ32 = 0 then throw .invalidArg
  let (valid, a) ← passA crypto serverId now params receipts 0
  let counted := ((receipts.zip valid).filter Prod.snd).map Prod.fst
  return (a, passT now params [] counted 0)

end AntsClient.Reputation.Receipts
