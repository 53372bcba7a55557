import AntsClient.Crdt.Proof
import AntsClient.Lib.LinearProbe

namespace AntsClient.Crdt.Container

open Common Cbor.Codec Crypto Proof

structure Elem where
  contentId : Bytes32
  subject : Bytes32
  epoch : Nat
  proof : Bytes
  deriving DecidableEq

/-- `struct ants_crdt`: an empty slot is one whose proof is `NULL`, an empty place
of the retired index one that is all zero. -/
structure GSet where
  slots : List (Option Elem)
  count : Nat
  floor : Nat
  retired : List Bytes32
  nRetired : Nat
  retiredZero : Bool
  deriving DecidableEq

/-- A set and the verdicts of the allocator to come; past the end of the list every
allocation succeeds. -/
structure Store where
  set : GSet
  mem : List Bool
  deriving DecidableEq

abbrev StoreM := EStateM Error Store

def initialCap : Nat := 16

def alloc : StoreM Unit := fun s =>
  match s.mem with
  | [] => .ok () s
  | true :: mem => .ok () { s with mem := mem }
  | false :: mem => .error .malformed { s with mem := mem }

def getSet : StoreM GSet := fun s => .ok s.set s

def updateSet (f : GSet → GSet) : StoreM Unit := fun s => .ok () { s with set := f s.set }

def idHash (id : Bytes32) : Nat := leNat (id.val.take 8)

/-- The probe loop over the keys of the slots; a table with an empty slot never uses up its rounds.
-/
def probeLoop {σ : Type} (key? : σ → Option Bytes32) (slots : List σ) (id : Bytes32) : Nat → Nat → Nat × Bool
  | 0, i => (i, false)
  | fuel + 1, i =>
    match slots[i]?.bind key? with
    | none => (i, false)
    | some id' => if id' = id then (i, true) else probeLoop key? slots id fuel ((i + 1) &&& (slots.length - 1))

def elemKey (slot : Option Elem) : Option Bytes32 := slot.map Elem.contentId

def crdtProbe (slots : List (Option Elem)) (id : Bytes32) : Nat × Bool :=
  probeLoop elemKey slots id slots.length (idHash id &&& (slots.length - 1))

def subjectKey (place : Bytes32) : Option Bytes32 := if place = zero32 then none else some place

def retiredProbe (tab : List Bytes32) (subject : Bytes32) : Nat × Bool :=
  probeLoop subjectKey tab subject tab.length (idHash subject &&& (tab.length - 1))

def retiredHas (set : GSet) (subject : Bytes32) : Bool :=
  if subject = zero32 then set.retiredZero
  else if set.retired.length = 0 then false
  else (retiredProbe set.retired subject).2

def doubleWhile (small : Nat → Bool) : Nat → Nat → Nat
  | 0, cap => cap
  | bound + 1, cap => if small cap then doubleWhile small bound (cap * 2) else cap

def retiredRehash (tab : List Bytes32) (cap : Nat) : List Bytes32 :=
  tab.foldl (fun nt s => if s = zero32 then nt else nt.set (retiredProbe nt s).1 s) (List.replicate cap zero32)

def retiredReserve (extra : Nat) : StoreM Unit := do
  let set ← getSet
  let need := set.nRetired + extra
  if need * 2 ≤ set.retired.length then return ()
  let cap := doubleWhile (fun cap => need * 2 > cap) need
    (if set.retired.length ≠ 0 then set.retired.length else 16)
  alloc
  updateSet fun set => { set with retired := retiredRehash set.retired cap }

def retiredAdd (set : GSet) (subject : Bytes32) : GSet :=
  if subject = zero32 then { set with retiredZero := true }
  else if (retiredProbe set.retired subject).2 then set
  else { set with
    retired := set.retired.set (retiredProbe set.retired subject).1 subject
    nRetired := set.nRetired + 1 }

def rehash (slots : List (Option Elem)) (cap : Nat) : List (Option Elem) :=
  slots.foldl (fun ns slot => match slot with
    | none => ns
    | some e => ns.set (crdtProbe ns e.contentId).1 slot) (List.replicate cap none)

def crdtGrow : StoreM Unit := do
  alloc
  updateSet fun set => { set with slots := rehash set.slots (set.slots.length * 2) }

def crdtInsertElem (e : Elem) : StoreM Bool := do
  let set ← getSet
  if e.epoch < set.floor then
    if retiredHas set e.subject then return false
    retiredReserve 1
    updateSet fun set => retiredAdd set e.subject
    return true
  if (set.count + 1) * 10 ≥ set.slots.length * 7 then crdtGrow
  let set ← getSet
  if (crdtProbe set.slots e.contentId).2 then return false
  alloc
  updateSet fun set => { set with
    slots := set.slots.set (crdtProbe set.slots e.contentId).1 (some e)
    count := set.count + 1 }
  return true

def initial : GSet := ⟨List.replicate initialCap none, 0, 0, [], 0, false⟩

variable (crypto : Primitives)

def contentId (proof : Bytes) : Bytes32 := crypto.blake3 proof

def insert (proof : Bytes) : StoreM Bool := do
  if proof.length = 0 then throw .invalidArg
  match verify crypto proof with
  | .error err => throw err
  | .ok _ =>
    match faultProofDecode proof with
    | .error err => throw err
    | .ok view => crdtInsertElem ⟨contentId crypto proof, view.subject, view.epoch.toNat, proof⟩

def contains (set : GSet) (id : Bytes32) : Bool := (crdtProbe set.slots id).2

def isSlashed (set : GSet) (subject : Bytes32) : Bool :=
  set.slots.any (fun slot => slot.any fun e => e.subject = subject) || retiredHas set subject

def pruneFloor (set : GSet) : Nat := set.floor

def size (set : GSet) : Nat := set.count

def mergeElems : List (Option Elem) → StoreM Unit
  | [] => pure ()
  | none :: slots => mergeElems slots
  | some e :: slots => do
    let _ ← crdtInsertElem e
    mergeElems slots

def merge (src : GSet) : StoreM Unit := mergeElems src.slots

def crdtCapFor (n : Nat) : Nat := doubleWhile (fun cap => n * 10 ≥ cap * 7) n initialCap

def survives (minEpochKeep : Nat) (slot : Option Elem) : Bool := slot.any fun e => e.epoch ≥ minEpochKeep

def pruneSlot (minEpochKeep : Nat) (acc : List (Option Elem) × GSet) (slot : Option Elem) :
    List (Option Elem) × GSet :=
  match slot with
  | none => acc
  | some e =>
    if e.epoch ≥ minEpochKeep then (acc.1.set (crdtProbe acc.1 e.contentId).1 slot, acc.2)
    else (acc.1, retiredAdd acc.2 e.subject)

def rebuild (minEpochKeep survivors : Nat) (set : GSet) : GSet :=
  let (ns, set') := set.slots.foldl (pruneSlot minEpochKeep) (List.replicate (crdtCapFor survivors) none, set)
  { set' with slots := ns, count := survivors, floor := max set'.floor minEpochKeep }

def prune (minEpochKeep : Nat) : StoreM Nat := do
  let set ← getSet
  let survivors := set.slots.countP (survives minEpochKeep)
  alloc
  retiredReserve (set.count - survivors)
  updateSet (rebuild minEpochKeep survivors)
  return set.slots.countP fun slot => slot.any fun e => e.epoch < minEpochKeep

def enumerate {σ : Type} (fn : Bytes32 → Bytes → σ → σ × Bool) : List (Option Elem) → σ → σ
  | [], ctx => ctx
  | none :: slots, ctx => enumerate fn slots ctx
  | some e :: slots, ctx =>
    match fn e.contentId e.proof ctx with
    | (ctx, true) => enumerate fn slots ctx
    | (ctx, false) => ctx

def snapshotBound (set : GSet) : Nat :=
  set.slots.foldl (fun total slot => total + slot.elim 0 fun e => 9 + e.proof.length) 9

def encProofs : List (Option Elem) → EncM Unit
  | [] => pure ()
  | none :: slots => encProofs slots
  | some e :: slots => do
    encBytes e.proof
    encProofs slots

def snapshotEncode (set : GSet) (buf : Bytes) : Except Error Bytes :=
  encodeBuf (do
    encArray (UInt64.ofNat set.count)
    encProofs set.slots) buf

def snapshotLoop : Nat → Dec → Nat × Nat → StoreM (Dec × Nat × Nat)
  | 0, d, acc => pure (d, acc)
  | n + 1, d, (added, rejected) =>
    match decBytesVal d with
    | .error err _ => throw err
    | .ok p d' =>
      match verify crypto p with
      | .error _ => snapshotLoop n d' (added, rejected + 1)
      | .ok _ => do
        let ins ← insert crypto p
        snapshotLoop n d' (if ins then added + 1 else added, rejected)

def snapshotMerge (buf : Bytes) : StoreM (Nat × Nat) := do
  if buf.length = 0 then throw .invalidArg
  match isCanonical buf with
  | .error err => throw err
  | .ok _ =>
    match decArray (decInit buf) with
    | .error _ _ => throw .malformed
    | .ok n d => do
      let (d', counts) ← snapshotLoop crypto n.toNat d (0, 0)
      if decFinalise d' ≠ .ok () then throw .malformed
      return counts

end AntsClient.Crdt.Container
