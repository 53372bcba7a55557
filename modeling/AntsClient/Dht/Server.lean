import AntsClient.Dht.Wire
import AntsClient.Lib.Slots

namespace AntsClient.Dht.Server

open Common Crypto Dht.Wire
open Dht.Lookup (Peer xorDistance distCmp keyLe)

def respBufSize : Nat := 4096

def maxAnnounces : Nat := 32

def closestCap : Nat := 20

structure Announce where
  shardKey : UInt64
  announcer : Peer
  lastSeenUs : UInt64
  deriving DecidableEq

/-- The server half of `struct ants_dht_state`: the token secret, the peers by bucket and the
announce set. -/
structure ServerState where
  secret : Bytes32
  buckets : List (List Peer)
  announces : List (Option Announce)
  deriving DecidableEq

structure Held where
  peerId : Bytes32
  recvBuf : Option Bytes
  deriving DecidableEq

inductive Reaction
  | send (msg : Bytes)
  | reset (code : Nat)
  deriving DecidableEq

section Closest

def closestPos (dist : Bytes32) (top : List (Peer × Bytes32)) : Nat :=
  top.findIdx fun c => distCmp dist c.2 = .lt

def closestInsert (target : Bytes32) (top : List (Peer × Bytes32)) (peer : Peer) : List (Peer × Bytes32) :=
  let dist := xorDistance target peer.peerId
  let pos := closestPos dist top
  if pos = closestCap then top else (top.insertIdx pos (peer, dist)).take closestCap

def findKclosestPeers (buckets : List (List Peer)) (target : Bytes32) : List Peer :=
  (buckets.flatten.foldl (closestInsert target) []).map Prod.fst

end Closest

section Announces

def isAnnounce (shardKey : UInt64) (peerId : Bytes32) (slot : Option Announce) : Bool :=
  slot.any fun a => a.shardKey = shardKey ∧ a.announcer.peerId = peerId

def lastSeen (announces : List (Option Announce)) (i : Nat) : UInt64 :=
  (announces[i]?.join.map Announce.lastSeenUs).getD 0

def oldest (announces : List (Option Announce)) : Nat :=
  (List.range announces.length).foldl
    (fun o i => if lastSeen announces i < lastSeen announces o then i else o) 0

def upsertAnnounce (shardKey : UInt64) (announcer : Peer) (nowUs : UInt64)
    (announces : List (Option Announce)) :
    List (Option Announce) :=
  match announces.findIdx? (isAnnounce shardKey announcer.peerId) with
  | some i => announces.set i (some ⟨shardKey, announcer, nowUs⟩)
  | none =>
    match announces.findIdx? Option.isNone with
    | some i => announces.set i (some ⟨shardKey, announcer, nowUs⟩)
    | none => announces.set (oldest announces) (some ⟨shardKey, announcer, nowUs⟩)

def announceLookup (announces : List (Option Announce)) (shardKey : UInt64) : List Peer :=
  ((announces.filterMap id).filter fun a => a.shardKey = shardKey).map Announce.announcer |>.take closestCap

end Announces

variable (crypto : Primitives)

def computeToken (secret peerId : Bytes32) : AdmissionToken :=
  ⟨(crypto.blake3 (secret.val ++ peerId.val)).val.take
    16, by rw [List.length_take, (crypto.blake3 _).length_val]; rfl⟩

def tokenIsValid (secret peerId : Bytes32) (token : AdmissionToken) : Bool :=
  computeToken crypto secret peerId = token

def respBuf : Bytes := List.replicate respBufSize 0

def handlePing (buf : Bytes) : Except Error Bytes := do
  let txid ← decodePingReq buf
  encodePingResp txid respBuf

def handleFindNode (s : ServerState) (buf : Bytes) : Except Error Bytes := do
  let req ← decodeFindNodeReq buf
  encodeFindNodeResp ⟨req.txid, findKclosestPeers s.buckets req.target⟩ respBuf

def handleGetPeers (s : ServerState) (peerId : Bytes32) (buf : Bytes) : Except Error Bytes := do
  let req ← decodeGetPeersReq buf
  let announced := announceLookup s.announces req.key
  -- without an announcer, the peers closest to the digest of the key
  let peers := if announced.length = 0 then
    findKclosestPeers s.buckets (crypto.blake3 (keyLe req.key)) else announced
  encodeGetPeersResp ⟨req.txid, peers, computeToken crypto s.secret peerId⟩ respBuf

/-- The announcer is the peer of the stream; its address is not known. -/
def handleAnnouncePeer (nowUs : UInt64) (s : ServerState) (peerId : Bytes32) (buf : Bytes) :
    Except Error Bytes × ServerState :=
  match decodeAnnouncePeerReq buf with
  | .error err => (.error err, s)
  | .ok req =>
    (encodeAnnouncePeerResp req.txid respBuf,
      if tokenIsValid crypto s.secret peerId req.token then
        { s with announces := upsertAnnounce req.key ⟨peerId, []⟩ nowUs s.announces }
      else s)

def reply (resp : Except Error Bytes) : Reaction :=
  match resp with
  | .ok msg => .send msg
  | .error _ => .reset 2

def processFin (nowUs : UInt64) (slot : Held) (s : ServerState) : Option Reaction × ServerState :=
  match slot.recvBuf with
  | none => (none, s)
  | some buf =>
    if buf.length = 0 then (none, s)
    else
      match peekType buf with
      | .error _ => (none, s)
      | .ok type =>
        match type with
        | .ping => (some (reply (handlePing buf)), s)
        | .findNode => (some (reply (handleFindNode s buf)), s)
        | .getPeers => (some (reply (handleGetPeers crypto s slot.peerId buf)), s)
        | .announcePeer =>
          let (resp, s) := handleAnnouncePeer crypto nowUs s slot.peerId buf
          (some (reply resp), s)
        | _ => (some (.reset 1), s)

def init (secret : Bytes32) : ServerState :=
  ⟨secret, List.replicate 256 [], List.replicate maxAnnounces none⟩

def listedPeers (s : ServerState) (key : UInt64) : List Peer :=
  if (announceLookup s.announces key).length = 0 then findKclosestPeers s.buckets (crypto.blake3 (keyLe key))
  else announceLookup s.announces key

variable {crypto}

theorem handleGetPeers_eq {buf : Bytes} {req : GetPeersReq} (hreq : decodeGetPeersReq buf = .ok req)
    (s : ServerState) (peerId : Bytes32) :
    handleGetPeers crypto s peerId buf =
      encodeGetPeersResp ⟨req.txid, listedPeers crypto s req.key,
        computeToken crypto s.secret peerId⟩ respBuf := by
  rw [handleGetPeers, hreq]
  rfl

end AntsClient.Dht.Server
