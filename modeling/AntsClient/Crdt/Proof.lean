import AntsClient.Cbor.Codec
import AntsClient.Crypto

namespace AntsClient.Crdt.Proof

open Common Cbor.Codec Crypto

def sigSize : Nat := 64

def orMalformed {α : Type} (x : DecM α) : DecM α := fun d =>
  match x d with
  | .ok a d' => .ok a d'
  | .error _ d' => .error .malformed d'

def decFinish : DecM Unit := fun d =>
  match decFinalise d with
  | .ok _ => .ok () d
  | .error _ => .error .malformed d

def decPeek (ty : ItemType) : DecM Unit := fun d =>
  if decPeekType d = .ok ty then .ok () d else .error .malformed d

def decExpectKey (expected : UInt64) : DecM Unit := do
  decPeek .uint
  let k ← orMalformed decUint
  if k ≠ expected then throw .malformed

def decUintVal : DecM UInt64 := do
  decPeek .uint
  orMalformed decUint

def decBytesVal : DecM Bytes := do
  decPeek .bytes
  orMalformed decBytes

def decBytes32 : DecM Bytes32 := do
  let b ← decBytesVal
  match toBytes32 b with
  | none => throw .malformed
  | some x => return x

def decMapOf (pairs : UInt64) : DecM Unit := do
  let n ← orMalformed decMap
  if n ≠ pairs then throw .malformed

def decArrayOf (elems : UInt64) : DecM Unit := do
  let n ← orMalformed decArray
  if n ≠ elems then throw .malformed

def runDec {α : Type} (x : DecM α) (buf : Bytes) : Except Error α :=
  match x (decInit buf) with
  | .ok a _ => .ok a
  | .error err _ => .error err

structure Stmt where
  domain : UInt64
  epoch : UInt64
  slot : UInt64
  payload : Bytes
  deriving DecidableEq

def decStmt : DecM Stmt := do
  decMapOf 4
  decExpectKey 0
  let domain ← decUintVal
  decExpectKey 1
  let epoch ← decUintVal
  decExpectKey 2
  let slot ← decUintVal
  decExpectKey 3
  let payload ← decBytesVal
  decFinish
  return ⟨domain, epoch, slot, payload⟩

def decodeStatement (body : Bytes) : Except Error Stmt :=
  if isCanonical body ≠ .ok () then .error .malformed else runDec decStmt body

def encStatement (domain epoch slot : UInt64) (payload : Bytes) : EncM Unit := do
  encMap 4
  encUint 0
  encUint domain
  encUint 1
  encUint epoch
  encUint 2
  encUint slot
  encUint 3
  encBytes payload

def statementEncode (domain epoch slot : UInt64) (payload buf : Bytes) : Except Error Bytes :=
  encodeBuf (encStatement domain epoch slot payload) buf

def faultEquivocation : UInt64 := 0

def faultInvalidTransition : UInt64 := 1

def faultReservedMin : UInt64 := 2

/-- The envelope up to its evidence; the readers that re-walk it accept a subject
of any length. -/
def decEnvelope (subjectOk : Bytes → Bool) : DecM (Bytes × UInt64 × UInt64) := do
  decMapOf 4
  decExpectKey 0
  let subject ← decBytesVal
  if !subjectOk subject then throw .malformed
  decExpectKey 1
  let faultType ← decUintVal
  decExpectKey 2
  let epoch ← decUintVal
  decExpectKey 3
  return (subject, faultType, epoch)

structure FaultProofView where
  subject : Bytes32
  faultType : UInt64
  epoch : UInt64
  evidence : Bytes
  deriving DecidableEq

def faultProofDecode (buf : Bytes) : Except Error FaultProofView :=
  if buf.length = 0 then .error .invalidArg
  else match isCanonical buf with
    | .error err => .error err
    | .ok _ =>
      match decEnvelope (fun s => s.length = 32) (decInit buf) with
      | .error err _ => .error err
      | .ok (subj, faultType, epoch) d =>
        if d.pos ≥ buf.length then .error .malformed
        else match toBytes32 subj with
          | none => .error .malformed
          | some subject => .ok ⟨subject, faultType, epoch, buf.drop d.pos⟩

def encStmtElement (body : Bytes) (sig : Signature) : EncM Unit := do
  encArray 2
  encBytes body
  encBytes sig.val

def encEquivocation (subject : Bytes32) (epoch : UInt64) (bodyA : Bytes) (sigA : Signature) (bodyB : Bytes)
    (sigB : Signature) : EncM Unit := do
  encMap 4
  encUint 0
  encBytes subject.val
  encUint 1
  encUint faultEquivocation
  encUint 2
  encUint epoch
  encUint 3
  encArray 2
  encStmtElement bodyA sigA
  encStmtElement bodyB sigB

def equivocationEncode (subject : Bytes32) (epoch : UInt64) (bodyA : Bytes) (sigA : Signature) (bodyB : Bytes)
    (sigB : Signature) (buf : Bytes) : Except Error Bytes :=
  if bodyA.length = 0 ∨ bodyB.length = 0 then .error .invalidArg
  else encodeBuf (encEquivocation subject epoch bodyA sigA bodyB sigB) buf

def decSig : DecM Bytes := do
  let sig ← decBytesVal
  if sig.length ≠ sigSize then throw .malformed
  return sig

def decStmtElement : DecM (Bytes × Bytes) := do
  decArrayOf 2
  let body ← decBytesVal
  let sig ← decSig
  return (body, sig)

def decEquivocation : DecM ((Bytes × Bytes) × (Bytes × Bytes)) := do
  let _ ← decEnvelope fun _ => true
  decArrayOf 2
  let a ← decStmtElement
  let b ← decStmtElement
  decFinish
  return (a, b)

variable (crypto : Primitives)

def verifyEquivocation (buf : Bytes) (subject : Bytes32) (envEpoch : UInt64) : Except Error Unit := do
  let ((bodyA, sigA), (bodyB, sigB)) ← runDec decEquivocation buf
  let stA ← decodeStatement bodyA
  let stB ← decodeStatement bodyB
  if stA.epoch ≠ envEpoch ∨ stB.epoch ≠ envEpoch then throw .malformed
  if stA.domain ≠ stB.domain ∨ stA.slot ≠ stB.slot then throw .malformed
  if stA.payload = stB.payload then throw .malformed
  if !crypto.ed25519Verify subject bodyA sigA then throw .malformed
  if !crypto.ed25519Verify subject bodyB sigB then throw .malformed

def cpLeafHash (id : Bytes32) : Bytes32 := crypto.blake3 (0x00 :: id.val)

def cpNodeHash (left right : Bytes32) : Bytes32 := crypto.blake3 (0x01 :: (left.val ++ right.val))

def cpMerkleMaxDepth : Nat := 32

/-- The loops over a tree path run while `count > 1`, and `count` rounds are always enough. -/
def cpPathLen : Nat → Nat → Nat → Nat
  | 0, _, _ => 0
  | fuel + 1, idx, count =>
    if count > 1 then
      (if idx % 2 = 1 then 1 else if idx + 1 < count then 1 else 0) + cpPathLen fuel (idx / 2) ((count + 1) / 2)
    else 0

def cpSibling (path : Bytes) (consumed : Nat) : Bytes32 :=
  (toBytes32 (slice path (consumed * 32) (consumed * 32 + 32))).getD zero32

def cpFold (path : Bytes) : Nat → Nat → Nat → Nat → Bytes32 → Bytes32
  | 0, _, _, _, cur => cur
  | fuel + 1, idx, count, consumed, cur =>
    if count > 1 then
      if idx % 2 = 1 then
        cpFold path fuel (idx / 2) ((count + 1) / 2) (consumed + 1)
          (cpNodeHash crypto (cpSibling path consumed) cur)
      else if idx + 1 < count then
        cpFold path fuel (idx / 2) ((count + 1) / 2) (consumed + 1)
          (cpNodeHash crypto cur (cpSibling path consumed))
      else cpFold path fuel (idx / 2) ((count + 1) / 2) consumed cur
    else cur

def cpFoldToRoot (leafId : Bytes32) (index nLeaves : Nat) (path : Bytes) : Bytes32 :=
  cpFold crypto path nLeaves index nLeaves 0 (cpLeafHash crypto leafId)

def decFinding : DecM Unit := do
  decMapOf 5
  decExpectKey 1
  let _ ← decBytes32
  decExpectKey 2
  let _ ← decUintVal
  decExpectKey 3
  let _ ← decUintVal
  decExpectKey 4
  let _ ← decUintVal
  decExpectKey 5
  let _ ← decUintVal

def decBlock : DecM Bytes := do
  decMapOf 4
  decExpectKey 1
  let _ ← decUintVal
  decExpectKey 2
  let _ ← decBytes32
  decExpectKey 3
  let _ ← orMalformed decBool
  decExpectKey 4
  let summary ← decBytesVal
  decFinish
  return summary

def decSummary : DecM (UInt64 × Bytes32) := do
  decMapOf 4
  decExpectKey 1
  let epoch ← decUintVal
  decExpectKey 2
  let _ ← decUintVal
  decExpectKey 3
  let root ← decBytes32
  decExpectKey 4
  let nf ← orMalformed decArray
  repeatWalk decFinding nf.toNat
  decFinish
  return (epoch, root)

def parseBlockSummary (block : Bytes) : Except Error (UInt64 × Bytes32) := do
  if isCanonical block ≠ .ok () then throw .malformed
  let summary ← runDec decBlock block
  if isCanonical summary ≠ .ok () then throw .malformed
  runDec decSummary summary

structure Transition where
  block : Bytes
  sig : Bytes
  cited : Bytes
  leafIndex : Nat
  nLeaves : Nat
  path : Bytes
  deriving DecidableEq

def encTransition (subject : Bytes32) (epoch : UInt64) (block : Bytes) (sig : Signature) (cited : Bytes)
    (leafIndex nLeaves : UInt64) (path : Bytes) : EncM Unit := do
  encMap 4
  encUint 0
  encBytes subject.val
  encUint 1
  encUint faultInvalidTransition
  encUint 2
  encUint epoch
  encUint 3
  encArray 6
  encBytes block
  encBytes sig.val
  encBytes cited
  encUint leafIndex
  encUint nLeaves
  encBytes path

def invalidTransitionEncode (subject : Bytes32) (epoch : UInt64) (block : Bytes) (sig : Signature)
    (cited : Bytes)
    (leafIndex nLeaves : UInt64) (path buf : Bytes) : Except Error Bytes :=
  if block.length = 0 ∨ cited.length = 0 then .error .invalidArg
  else if nLeaves = 0 ∨ leafIndex ≥ nLeaves then .error .invalidArg
  else encodeBuf (encTransition subject epoch block sig cited leafIndex nLeaves path) buf

def decTransition : DecM Transition := do
  decArrayOf 6
  let block ← decBytesVal
  let sig ← decBytesVal
  let cited ← decBytesVal
  let leafIndex ← decUintVal
  let nLeaves ← decUintVal
  let path ← decBytesVal
  decFinish
  return ⟨block, sig, cited, leafIndex.toNat, nLeaves.toNat, path⟩

def judgeCited (verify : Bytes → Except Error Unit) (cited : Bytes) : Except Error Unit :=
  match faultProofDecode cited with
  | .error _ => .ok ()
  | .ok view =>
    if view.faultType = faultInvalidTransition then .error .malformed
    else if view.faultType ≥ faultReservedMin then .error .notImplemented
    else match verify cited with
      | .ok _ => .error .malformed
      | .error .malformed | .error .nonCanonical => .ok ()
      | .error .unsupportedType | .error .notImplemented => .error .notImplemented
      | .error _ => .error .malformed

def verifyInvalidTransition (verify : Bytes → Except Error Unit) (evidence : Bytes) (subject : Bytes32)
    (envEpoch : UInt64) : Except Error Unit := do
  let t ← runDec decTransition evidence
  if t.block.length = 0 ∨ t.sig.length ≠ sigSize ∨ t.cited.length = 0 then throw .malformed
  if t.nLeaves = 0 ∨ t.nLeaves > 2 ^ cpMerkleMaxDepth then throw .malformed
  if t.leafIndex ≥ t.nLeaves then throw .malformed
  if t.path.length ≠ cpPathLen t.nLeaves t.leafIndex t.nLeaves * 32 then throw .malformed
  let (sumEpoch, root) ← parseBlockSummary t.block
  if sumEpoch ≠ envEpoch then throw .malformed
  if !crypto.ed25519Verify subject (crypto.blake3 t.block).val t.sig then throw .malformed
  if cpFoldToRoot crypto (crypto.blake3 t.cited) t.leafIndex t.nLeaves t.path ≠ root then throw .malformed
  judgeCited verify t.cited

/-- `ants_crdt_verify` and the verifier of a transition call each other; a cited transition is
refused, so two levels are all. -/
def verifyLevel : Nat → Bytes → Except Error Unit
  | 0, _ => .error .overflow
  | level + 1, buf =>
    if buf.length = 0 then .error .invalidArg
    else match faultProofDecode buf with
      | .error err => .error err
      | .ok view =>
        if view.faultType = faultEquivocation then verifyEquivocation crypto buf view.subject view.epoch
        else if view.faultType = faultInvalidTransition then
          verifyInvalidTransition crypto (verifyLevel level) view.evidence view.subject view.epoch
        else .error .unsupportedType

def verify (buf : Bytes) : Except Error Unit := verifyLevel crypto 2 buf

end AntsClient.Crdt.Proof
