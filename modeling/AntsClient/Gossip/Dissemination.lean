import AntsClient.Crdt.Container
import AntsClient.Gossip.Frames

namespace AntsClient.Gossip.Dissemination

open Common Crypto Crdt.Proof Crdt.Container Frames

def maxView : Nat := 64

def defaultFanout : Nat := 6

def chainDedupSlots : Nat := 128

def chainDedupS : UInt64 := 10

structure ChainSeen where
  hash : Bytes32
  untilUs : UInt64

abbrev ChainFn := Option Bytes32 → UInt64 → Bytes → Except Error Unit

/-- `struct gossip_state`; the counters and the hooks that only report are left out, and
what they are told is in the events. -/
structure Engine where
  store : Store
  selfId : Bytes32
  fanout : Nat
  maxFrameBytes : Nat
  view : List Bytes32
  rotation : Nat
  announceMinEpoch : UInt64
  chainFn : Option ChainFn
  chainSeen : List ChainSeen

/-- What an engine does beside changing its state: it notes a new proof, starts to forward one, and
sends a frame. -/
inductive Event
  | observed (proof : Bytes)
  | forwarded (proof : Bytes)
  | sent (peer : Bytes32) (frame : Bytes)
  deriving DecidableEq

structure Ctx where
  engine : Engine
  events : List Event

abbrev GossipM := EStateM Error Ctx

def getEngine : GossipM Engine := fun c => .ok c.engine c

def updateEngine (f : Engine → Engine) : GossipM Unit := fun c => .ok () { c with engine := f c.engine }

def emit (events : List Event) : GossipM Unit := fun c => .ok () { c with events := c.events ++ events }

def orFail {α : Type} : Except Error α → GossipM α
  | .ok a => pure a
  | .error err => throw err

def attempt {α : Type} (x : StoreM α) : GossipM (Except Error α) := fun c =>
  match x c.engine.store with
  | .ok a store => .ok (.ok a) { c with engine.store := store }
  | .error err store => .ok (.error err) { c with engine.store := store }

structure Config where
  fanout : Nat
  maxFrameBytes : Nat

def init (store : Store) (selfId : Bytes32) (cfg : Option Config) : Except Error Engine :=
  if cfg.any fun c => c.fanout > maxView then .error .invalidArg
  else .ok {
    store := store
    selfId := selfId
    fanout := (cfg.bind fun c => if c.fanout ≠ 0 then some c.fanout else none).getD defaultFanout
    maxFrameBytes := (cfg.bind fun c =>
    if c.maxFrameBytes ≠ 0 then some c.maxFrameBytes else none).getD defaultMaxFrame
    view := []
    rotation := 0
    announceMinEpoch := 0
    chainFn := none
    chainSeen := List.replicate chainDedupSlots ⟨zero32, 0⟩ }

def addPeer (e : Engine) (peerId : Bytes32) : Except Error Engine :=
  if peerId = e.selfId then .ok e
  else if peerId ∈ e.view then .ok e
  else if e.view.length ≥ maxView then .error .bufferTooSmall
  else .ok { e with view := e.view ++ [peerId] }

def removePeer (e : Engine) (peerId : Bytes32) : Engine :=
  match e.view.findIdx? (· = peerId), e.view.getLast? with
  | some idx, some last => { e with view := (e.view.set idx last).dropLast }
  | _, _ => e

/-- The scan of the view from the cursor: the peers sent to, and how many were considered. -/
def fanoutScan (view : List Bytes32) (rotation want : Nat) (exclude : Option Bytes32) :
    Nat → Nat → Nat → List Bytes32 × Nat
  | 0, scanned, _ => ([], scanned)
  | left + 1, scanned, sent =>
    if sent < want then
      match view[(rotation + scanned) % view.length]? with
      | none => ([], scanned)
      | some peer =>
        if exclude = some peer then fanoutScan view rotation want exclude left (scanned + 1) sent
        else
          let (peers, total) := fanoutScan view rotation want exclude left (scanned + 1) (sent + 1)
          (peer :: peers, total)
    else ([], scanned)

def fanoutPick (e : Engine) (exclude : Option Bytes32) : List Bytes32 × Nat :=
  fanoutScan e.view e.rotation (if e.fanout < e.view.length then e.fanout else e.view.length)
    exclude e.view.length 0 0

def fanoutSend (frame : Bytes) (exclude : Option Bytes32) : GossipM Nat := do
  let e ← getEngine
  if e.view.length = 0 then return 0
  let (peers, scanned) := fanoutPick e exclude
  emit (peers.map fun peer => .sent peer frame)
  updateEngine fun e => { e with rotation := (e.rotation + scanned) % e.view.length }
  return peers.length

def forwardProof (proof : Bytes) (exclude : Option Bytes32) : GossipM Nat := do
  emit [.forwarded proof]
  let e ← getEngine
  if e.view.length = 0 ∨ proof.length > maxProof then return 0
  match pushEncode proof frameBuf with
  | .error _ => return 0
  | .ok frame => fanoutSend frame exclude

variable (crypto : Primitives)

def submit (proof : Bytes) : GossipM Nat := do
  if proof.length = 0 then throw .invalidArg
  match ← attempt (insert crypto proof) with
  | .error err => throw err
  | .ok false => return 0
  | .ok true =>
    emit [.observed proof]
    forwardProof proof none

def tooOld (minEpoch : UInt64) (proof : Bytes) : Bool :=
  match faultProofDecode proof with
  | .error _ => true
  | .ok view => view.epoch < minEpoch

def collectIdsVisit (minEpoch : UInt64) (id : Bytes32) (proof : Bytes) (ids : List Bytes32) :
    List Bytes32 × Bool :=
  if ids.length ≥ maxIds then (ids, false)
  else if minEpoch ≠ 0 ∧ tooOld minEpoch proof then (ids, true)
  else (ids ++ [id], ids.length + 1 < maxIds)

def setAnnounceMinEpoch (e : Engine) (minEpoch : UInt64) : Engine := { e with announceMinEpoch := minEpoch }

def digest (e : Engine) : List Bytes32 := enumerate (collectIdsVisit e.announceMinEpoch) e.store.set.slots []

def announce : GossipM Nat := do
  let e ← getEngine
  if e.view.length = 0 then return 0
  if (digest e).length = 0 then return 0
  let frame ← orFail (idsEncode msgIhave (digest e) frameBuf)
  fanoutSend frame none

abbrev Tally := Nat × Nat

def handlePush (fromPeer : Option Bytes32) (frame : Bytes) : GossipM Tally := do
  let proof ← orFail (pushDecode frame)
  match ← attempt (insert crypto proof) with
  | .error .invalidArg => throw .invalidArg
  | .error _ => return (0, 1)
  | .ok false => return (0, 0)
  | .ok true =>
    emit [.observed proof]
    let _ ← forwardProof proof fromPeer
    return (1, 0)

def wanted (e : Engine) (ids : List Bytes32) : List Bytes32 := ids.filter fun id => !contains e.store.set id

def handleIhave (fromPeer : Option Bytes32) (frame : Bytes) : GossipM Tally := do
  let ids ← orFail (idsDecode frame msgIhave maxIds)
  match fromPeer with
  | none => return (0, 0)
  | some peer =>
    let e ← getEngine
    if (wanted e ids).length = 0 then return (0, 0)
    let frameOut ← orFail (idsEncode msgIwant (wanted e ids) frameBuf)
    emit [.sent peer frameOut]
    return (0, 0)

def serveIwantVisit (want : List Bytes32) (id : Bytes32) (proof : Bytes) (frames : List Bytes) :
    List Bytes × Bool :=
  if id ∈ want then
    if proof.length ≤ maxProof then
      match pushEncode proof frameBuf with
      | .error _ => (frames, true)
      | .ok frame => (frames ++ [frame], true)
    else (frames, true)
  else (frames, true)

def handleIwant (fromPeer : Option Bytes32) (frame : Bytes) : GossipM Tally := do
  let want ← orFail (idsDecode frame msgIwant maxIds)
  match fromPeer with
  | none => return (0, 0)
  | some peer =>
    let e ← getEngine
    emit ((enumerate (serveIwantVisit want) e.store.set.slots []).map fun frame => .sent peer frame)
    return (0, 0)

def chainIsSeen (seen : List ChainSeen) (hash : Bytes32) (nowUs : UInt64) : Bool :=
  seen.any fun slot => slot.untilUs > nowUs && slot.hash = hash

/-- The slot that is reused: the first that has expired, or else the one closest to it. -/
def chainMarkAt (nowUs : UInt64) : List ChainSeen → Nat → Nat × UInt64 → Nat
  | [], _, best => best.1
  | slot :: seen, i, best =>
    if slot.untilUs ≤ nowUs then i
    else chainMarkAt nowUs seen (i + 1) (if slot.untilUs < best.2 then (i, slot.untilUs) else best)

def chainMark (seen : List ChainSeen) (hash : Bytes32) (nowUs : UInt64) : List ChainSeen :=
  match seen with
  | [] => []
  | first :: _ => seen.set (chainMarkAt nowUs seen 0 (0, first.untilUs)) ⟨hash, nowUs + chainDedupS * 1000000⟩

def chainFrameCheck (type : UInt64) (frame : Bytes) : Except Error Unit :=
  if type = msgBlock then (blockDecode frame).map fun _ => () else (attestDecode frame).map fun _ => ()

def handleChain (nowUs : UInt64) (fromPeer : Option Bytes32) (type : UInt64) (frame : Bytes) :
    GossipM Tally := do
  let e ← getEngine
  match e.chainFn with
  | none => throw .unsupportedType
  | some chainFn =>
    orFail (chainFrameCheck type frame)
    let hash := crypto.blake3 frame
    if chainIsSeen e.chainSeen hash nowUs then return (0, 0)
    match chainFn fromPeer type frame with
    | .error .unsupportedType => return (0, 0)
    | .error _ => return (0, 1)
    | .ok _ =>
      updateEngine fun e => { e with chainSeen := chainMark e.chainSeen hash nowUs }
      let _ ← fanoutSend frame fromPeer
      return (1, 0)

def onMessage (nowUs : UInt64) (fromPeer : Option Bytes32) (frame : Bytes) : GossipM Tally := do
  if frame.length = 0 then throw .invalidArg
  let e ← getEngine
  if frame.length > chainMaxBlockFrame then throw .malformed
  let type ← orFail (peekFrameType frame)
  if type ≠ msgBlock ∧ frame.length > e.maxFrameBytes then throw .malformed
  if type = msgBlock ∨ type = msgAttest then handleChain crypto nowUs fromPeer type frame
  else if type = msgPush then handlePush crypto fromPeer frame
  else if type = msgIhave then handleIhave fromPeer frame
  else if type = msgIwant then handleIwant fromPeer frame
  else throw .unsupportedType

end AntsClient.Gossip.Dissemination
