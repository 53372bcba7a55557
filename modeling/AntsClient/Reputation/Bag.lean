import AntsClient.Crypto.Tree
import AntsClient.Reputation.Receipts

namespace AntsClient.Reputation.Bag

open Common Crypto Crypto.Tree Lib MerkleTree MerklePath Saturating Receipts

def bagRootContext : String := "ants-v1-receipt-bag-root"

structure Opening where
  receipt : Receipt
  index : Nat
  path : Option Bytes
  deriving DecidableEq

def repMerklePathLen (index nLeaves : Nat) : Nat := pathLen nLeaves index nLeaves

variable (crypto : Primitives)

def receiptLeafHash (r : Receipt) : Except Error Bytes32 := do
  let body ← receiptBodyEncode r.toReceiptBody (List.replicate receiptBodyEncodedMax 0)
  return leafHash crypto (body ++ r.serverSig.val ++ r.clientSig.val)

def repSubtreeRootRange (receipts : List Receipt) (lo hi : Nat) : Except Error Bytes32 := do
  let leaves ← ((receipts.drop lo).take (hi - lo)).mapM (receiptLeafHash crypto)
  return (build (nodeHash crypto) leaves).getD zero32

def orderedFrom (prev : Receipt) (prevLeaf : Bytes32) : List Receipt → Except Error Bool
  | [] => .ok true
  | r :: rs => do
    let curLeaf ← receiptLeafHash crypto r
    if r.timestampUnixS < prev.timestampUnixS then return false
    if r.timestampUnixS = prev.timestampUnixS ∧ memcmp curLeaf.val prevLeaf.val ≠ .gt then return false
    orderedFrom r curLeaf rs

def receiptsCanonicalOrdered : List Receipt → Except Error Bool
  | [] => .ok true
  | r :: rs => do
    let leaf ← receiptLeafHash crypto r
    orderedFrom crypto r leaf rs

def deriveBagRoot (peerId merkleRoot : Bytes32) : Bytes32 :=
  crypto.blake3DeriveKey bagRootContext (peerId.val ++ merkleRoot.val)

def bagRoot (receipts : List Receipt) (peerId : Bytes32) : Except Error Bytes32 := do
  if receipts.length > maxReceipts then throw .invalidArg
  if receipts.length = 0 then return deriveBagRoot crypto peerId (emptyRoot crypto)
  let ordered ← receiptsCanonicalOrdered crypto receipts
  if !ordered then throw .nonCanonical
  let merkleRoot ← repSubtreeRootRange crypto receipts 0 receipts.length
  return deriveBagRoot crypto peerId merkleRoot

def bagVerifyInclusion (receipt : Receipt) (index n : Nat) (path : Option Bytes) (peerId bagRoot : Bytes32) :
    Except Error Bool := do
  if n = 0 ∨ index ≥ n then throw .invalidArg
  match path with
  | none => throw .invalidArg
  | some path =>
    if n > maxReceipts then throw .invalidArg
    if path.length ≠ repMerklePathLen index n * 32 then throw .invalidArg
    let leaf ← receiptLeafHash crypto receipt
    -- the fold consumes as many hashes as the path was found to have
    let cur := foldPath (nodeHash crypto) (hashAt path) n index n 0 leaf
    return deriveBagRoot crypto peerId cur = bagRoot

section Bound

variable (n : Nat) (peerId bagRoot : Bytes32) (now : UInt64) (params : Params)

/-- The loop over the openings; `none` is the verdict that rejects them. -/
def boundLoop : List Nat → List Opening → UInt64 → Except Error (Option UInt64)
  | _, [], acc => .ok (some acc)
  | earlier, op :: ops, acc => do
    if op.index ≥ n then return none
    if earlier.any fun j => j = op.index then return none
    let sigOk ← receiptVerify crypto op.receipt
    if !sigOk then return none
    if op.receipt.server ≠ peerId then return none
    if op.receipt.timestampUnixS > now then return none
    if op.path.all fun path => path.length ≠ repMerklePathLen op.index n * 32 then return none
    let incOk ← bagVerifyInclusion crypto op.receipt op.index n op.path peerId bagRoot
    if !incOk then return none
    boundLoop (earlier ++ [op.index]) ops
      (satAdd acc (receiptAContribution op.receipt.toReceiptBody now params))

/-- The same loop with one more check on the receipts, made before the one on the path. -/
def openLoop (also : Receipt → Bool) : List Nat → List Opening → UInt64 → Except Error (Option UInt64)
  | _, [], acc => .ok (some acc)
  | earlier, op :: ops, acc => do
    if op.index ≥ n then return none
    if earlier.any fun j => j = op.index then return none
    let sigOk ← receiptVerify crypto op.receipt
    if !sigOk then return none
    if op.receipt.server ≠ peerId then return none
    if op.receipt.timestampUnixS > now then return none
    if !also op.receipt then return none
    if op.path.all fun path => path.length ≠ repMerklePathLen op.index n * 32 then return none
    let incOk ← bagVerifyInclusion crypto op.receipt op.index n op.path peerId bagRoot
    if !incOk then return none
    openLoop also (earlier ++ [op.index]) ops
      (satAdd acc (receiptAContribution op.receipt.toReceiptBody now params))

def bagVerifyBound (openings : List Opening) (b : UInt64) : Except Error Bool := do
  if openings.length > maxReceipts ∨ n > maxReceipts then throw .invalidArg
  if params.binWidthS = 0 ∨ params.decayRatioAQ32 = 0 then throw .invalidArg
  match ← boundLoop crypto n peerId bagRoot now params [] openings 0 with
  | none => return false
  | some acc => return acc ≥ b

end Bound

end AntsClient.Reputation.Bag
