import AntsClient.Cache.Store
import AntsClient.Dht.Lookup
import AntsClient.Transport.Events

namespace AntsClient.Cache.Publish

open Common Wire Transport.Events Store
open Dht.Lookup (Peer)

def publishMaxReplication : UInt32 := 8

def defaultReplication : UInt32 := 3

inductive Phase
  | lookup
  | deliver
  | done
  deriving DecidableEq

inductive Status
  | empty
  | dialing
  | awaitingFin
  | acked
  | failed
  deriving DecidableEq

structure Slot where
  status : Status
  peer : Peer
  conn : Option Conn
  stream : Option Stream
  deriving DecidableEq

structure Call where
  status : Option Error
  peersAcked : UInt32
  deriving DecidableEq

/-- `struct publish_state`, with the calls of `complete_fn`. A handle is the number of its
allocation. -/
structure State where
  phase : Phase
  entryCbor : Bytes
  lookupActive : Bool
  slots : List Slot
  replicationFactor : UInt32
  completionFired : Bool
  ackedCount : UInt32
  failedCount : UInt32
  heap : Nat
  calls : List Call

inductive Tally
  | none
  | acked
  | failed
  deriving DecidableEq

def State.add (st : State) : Tally → State
  | .none => st
  | .acked => { st with ackedCount := st.ackedCount + 1 }
  | .failed => { st with failedCount := st.failedCount + 1 }

section Add

variable (st : State) (tally : Tally)

@[simp]
theorem State.add_slots : (st.add tally).slots = st.slots := by cases tally <;> rfl

@[simp]
theorem State.add_heap : (st.add tally).heap = st.heap := by cases tally <;> rfl

@[simp]
theorem State.add_phase : (st.add tally).phase = st.phase := by cases tally <;> rfl

@[simp]
theorem State.add_calls : (st.add tally).calls = st.calls := by cases tally <;> rfl

@[simp]
theorem State.add_fired : (st.add tally).completionFired = st.completionFired := by cases tally <;> rfl

end Add

def maybeComplete (st : State) : State :=
  if st.completionFired then st
  else if st.phase ≠ .deliver then st
  else if st.ackedCount + st.failedCount < UInt32.ofNat st.slots.length then st
  else { st with
    completionFired := true
    phase := .done
    calls := st.calls ++ [⟨if st.ackedCount > 0 then none else some .peerUnreachable, st.ackedCount⟩] }

/-- `realloc(buf, 0)` frees the block and returns NULL, as glibc does, keeps it and returns NULL, or
returns a new one. -/
inductive ZeroRealloc
  | freed
  | kept
  | renewed
  deriving DecidableEq

/-- `doubleFree` is no error code: the behaviour is undefined, and glibc aborts. -/
inductive Failure
  | returned (err : Error)
  | doubleFree
  deriving DecidableEq

/-- The second attempt. `written` is still zero when the block is reallocated; a NULL is taken for a
block that is left. -/
def retryEncode (e : Entry) : ZeroRealloc → Except Failure Bytes
  | .freed => .error .doubleFree
  | .kept => .error (.returned .malformed)
  | .renewed => (entryEncode e []).mapError .returned

def encodeOnce (zero : ZeroRealloc) (e : Entry) : Except Failure Bytes :=
  match entryEncode e (List.replicate 8192 0) with
  | .error .bufferTooSmall => retryEncode e zero
  | result => result.mapError .returned

def started (entryCbor : Bytes) (replicationFactor : UInt32) : State where
  phase := .lookup
  entryCbor := entryCbor
  lookupActive := true
  slots := []
  replicationFactor := replicationFactor
  completionFired := false
  ackedCount := 0
  failedCount := 0
  heap := 0
  calls := []

def publishInit {D : Type} (metric : Metric D) (lookup : UInt64 → Except Error Unit) (allocated : Bool)
    (zero : ZeroRealloc) (e : Entry) (replicationFactor : UInt32) : Except Failure State := do
  let replicationFactor := if replicationFactor = 0 then defaultReplication else replicationFactor
  if replicationFactor > publishMaxReplication then throw (.returned .invalidArg)
  if !allocated then throw (.returned .malformed)
  let entryCbor ← encodeOnce zero e
  match e.embedding with
  | none => throw (.returned .invalidArg)
  | some embedding =>
    (lookup (metric.shardKey embedding)).mapError .returned
    return started entryCbor replicationFactor

def dial (dialed : Bool) (heap : Nat) (s : Slot) : Slot × Tally :=
  if s.status ≠ .empty then (s, .none)
  else if dialed then ({ s with conn := some heap, status := .dialing }, .none)
  else ({ s with status := .failed }, .failed)

def dialFrom (dials : Nat → Bool) (i : Nat) (st : State) : State :=
  match st.slots[i]? with
  | none => st
  | some s =>
    let (s, tally) := dial (dials i) st.heap s
    { st with slots := st.slots.set i s, heap := st.heap + 1 }.add tally

def publishTick (dials : Nat → Bool) (st : State) : State :=
  if st.phase ≠ .deliver then st
  else maybeComplete ((List.range st.slots.length).foldl (fun st i => dialFrom dials i st) st)

inductive DhtKind
  | lookupComplete
  | lookupTimeout
  | other
  deriving DecidableEq

/-- `ours` says whether the event names the lookup of this operation. -/
structure DhtEvent where
  kind : DhtKind
  ours : Bool
  peers : List Peer

def handleDhtEvent (event : DhtEvent) (st : State) : State :=
  if event.kind = .other ∨ !event.ours ∨ !st.lookupActive then st
  else if st.phase ≠ .lookup then { st with lookupActive := false }
  else maybeComplete { st with
    lookupActive := false
    slots := (event.peers.take (min (event.peers.length % 2 ^ 32) st.replicationFactor.toNat)).map
      fun peer => ⟨.empty, peer, none, none⟩
    phase := .deliver }

def findSlotByConn (slots : List Slot) (conn : Conn) : Option Nat := slots.findIdx? fun s => s.conn = some conn

def findSlotByStream (slots : List Slot) : Option Stream → Option Nat
  | none => none
  | some stream => slots.findIdx? fun s => s.stream = some stream

def findSlot (slots : List Slot) (e : Event) : Option Nat :=
  (findSlotByConn slots e.conn).orElse fun _ => findSlotByStream slots e.stream

/-- How far the answer to CONN_READY comes: the stream is not opened, the entry is not
sent on it, or it is. -/
inductive Opening
  | refused
  | unsent
  | sent
  deriving DecidableEq

def onEvent (e : Event) (opening : Opening) (heap : Nat) (s : Slot) : Slot × Tally :=
  match e.kind with
  | .connReady =>
    if s.status ≠ .dialing then (s, .none)
    else match opening with
      | .refused => ({ s with status := .failed }, .failed)
      | .unsent => ({ s with stream := none, status := .failed }, .failed)
      | .sent => ({ s with stream := some ⟨heap, true⟩, status := .awaitingFin }, .none)
  | .streamFin => if s.status = .awaitingFin then ({ s with status := .acked }, .acked) else (s, .none)
  | .streamReset => if s.status ≠ .acked then ({ s with status := .failed }, .failed) else (s, .none)
  | .connClosed =>
    if s.status ≠ .acked then ({ s with status := .failed, stream := none, conn := none }, .failed)
    else ({ s with stream := none, conn := none }, .none)
  | _ => (s, .none)

def handleTransportEvent (e : Event) (opening : Opening) (st : State) : State :=
  if st.phase ≠ .deliver then st
  else match findSlot st.slots e with
    | none => st
    | some i => match st.slots[i]? with
      | none => st
      | some s =>
        let (s, tally) := onEvent e opening st.heap s
        maybeComplete ({ st with slots := st.slots.set i s, heap := st.heap + 1 }.add tally)

inductive Input
  | tick (dials : Nat → Bool)
  | dht (event : DhtEvent)
  | transport (e : Event) (opening : Opening)

def step (st : State) : Input → State
  | .tick dials => publishTick dials st
  | .dht event => handleDhtEvent event st
  | .transport e opening => handleTransportEvent e opening st

def run (st : State) (inputs : List Input) : State := inputs.foldl step st

end AntsClient.Cache.Publish
