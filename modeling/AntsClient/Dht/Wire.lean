import AntsClient.Dht.Lookup
import AntsClient.Inference.Wire

namespace AntsClient.Dht.Wire

open Common Cbor.Codec Crypto Crdt.Proof Dht.Lookup Inference.Wire

inductive MsgType
  | ping
  | findNode
  | getPeers
  | announcePeer
  | pingResp
  | findNodeResp
  | getPeersResp
  | announcePeerResp
  deriving DecidableEq

def MsgType.code : MsgType → UInt64
  | .ping => 1
  | .findNode => 2
  | .getPeers => 3
  | .announcePeer => 4
  | .pingResp => 5
  | .findNodeResp => 6
  | .getPeersResp => 7
  | .announcePeerResp => 8

def msgTypes : List MsgType :=
  [.ping, .findNode, .getPeers, .announcePeer, .pingResp, .findNodeResp, .getPeersResp, .announcePeerResp]

def maxPeersPerMsg : Nat := 20

structure AdmissionToken where
  val : Bytes
  length_val : val.length = 16
  deriving DecidableEq

def toAdmissionToken (b : Bytes) : Option AdmissionToken := if h : b.length = 16 then some ⟨b, h⟩ else none

structure FindNodeReq where
  txid : UInt32
  target : Bytes32
  deriving DecidableEq

structure GetPeersReq where
  txid : UInt32
  key : UInt64
  deriving DecidableEq

structure AnnouncePeerReq where
  txid : UInt32
  key : UInt64
  token : AdmissionToken
  deriving DecidableEq

structure FindNodeResp where
  txid : UInt32
  peers : List Peer
  deriving DecidableEq

structure GetPeersResp where
  txid : UInt32
  peers : List Peer
  token : AdmissionToken
  deriving DecidableEq

/-- The keys `"id"`, `"addr"`, `"target"`, `"key"`, `"peers"` and `"token"` of the bodies. -/
def idKey : Bytes := [0x69, 0x64]

def addrKey : Bytes := [0x61, 0x64, 0x64, 0x72]

def targetKey : Bytes := [0x74, 0x61, 0x72, 0x67, 0x65, 0x74]

def keyKey : Bytes := [0x6b, 0x65, 0x79]

def peersKey : Bytes := [0x70, 0x65, 0x65, 0x72, 0x73]

def tokenKey : Bytes := [0x74, 0x6f, 0x6b, 0x65, 0x6e]

def cString (b : Bytes) : Bytes := b.takeWhile (· ≠ 0)

def encodeEnvelopeHead (type : MsgType) (txid : UInt32) (hasBody : Bool) : EncM Unit :=
  encHead type.code txid hasBody

def encodePeer (peer : Peer) : EncM Unit := do
  encMap 2
  encText idKey
  encBytes peer.peerId.val
  encText addrKey
  encText (cString peer.multiaddr)

def encodePeers : List Peer → EncM Unit
  | [] => pure ()
  | peer :: peers => do
    encodePeer peer
    encodePeers peers

def encodePeersArray (peers : List Peer) : EncM Unit := do
  encArray (UInt64.ofNat peers.length)
  encodePeers peers

/-- Returns the transaction and whether a body follows; the type is compared before the rest of
the head is read. -/
def decodeEnvelopeHead (expected : MsgType) : DecM (UInt32 × Bool) := do
  let n ← decMap
  if n ≠ 2 ∧ n ≠ 3 then throw .nonCanonical
  expectKey 0
  let type ← decUint
  if type ≠ expected.code then throw .nonCanonical
  expectKey 1
  let txid ← decUint
  if txid > 0xffffffff then throw .nonCanonical
  if n = 3 then expectKey 2
  return (txid.toUInt32, n = 3)

def expectTextKey (expected : Bytes) : DecM Unit := do
  let key ← decText
  if key ≠ expected then throw .nonCanonical

def decodeBody (hasBody : Bool) (pairs : UInt64) : DecM Unit := do
  if hasBody = false then throw .nonCanonical
  let n ← decMap
  if n ≠ pairs then throw .nonCanonical

def decodeToken : DecM AdmissionToken := do
  let b ← decBytes
  match toAdmissionToken b with
  | none => throw .nonCanonical
  | some token => return token

def decType : DecM MsgType := do
  let n ← decMap
  if n ≠ 2 ∧ n ≠ 3 then throw .nonCanonical
  expectKey 0
  let type ← decUint
  match msgTypes.find? fun t => t.code = type with
  | none => throw .nonCanonical
  | some t => return t

def peekType (buf : Bytes) : Except Error MsgType := runDec decType buf

def decodeBare (type : MsgType) (buf : Bytes) : Except Error UInt32 := runDec (do
  let (txid, hasBody) ← decodeEnvelopeHead type
  if hasBody then throw .nonCanonical
  finalise
  return txid) buf

def decodePingReq (buf : Bytes) : Except Error UInt32 := decodeBare .ping buf

def decodeFindNodeReq (buf : Bytes) : Except Error FindNodeReq := runDec (do
  let (txid, hasBody) ← decodeEnvelopeHead .findNode
  decodeBody hasBody 1
  expectTextKey targetKey
  let b ← decBytes
  match toBytes32 b with
  | none => throw .nonCanonical
  | some target =>
    finalise
    return ⟨txid, target⟩) buf

def decodeGetPeersReq (buf : Bytes) : Except Error GetPeersReq := runDec (do
  let (txid, hasBody) ← decodeEnvelopeHead .getPeers
  decodeBody hasBody 1
  expectTextKey keyKey
  let key ← decUint
  finalise
  return ⟨txid, key⟩) buf

def decodeAnnouncePeerReq (buf : Bytes) : Except Error AnnouncePeerReq := runDec (do
  let (txid, hasBody) ← decodeEnvelopeHead .announcePeer
  decodeBody hasBody 2
  expectTextKey keyKey
  let key ← decUint
  expectTextKey tokenKey
  let token ← decodeToken
  finalise
  return ⟨txid, key, token⟩) buf

def encodeBare (type : MsgType) (txid : UInt32) (buf : Bytes) : Except Error Bytes :=
  encodeBuf (encodeEnvelopeHead type txid false) buf

def encodePingResp (txid : UInt32) (buf : Bytes) : Except Error Bytes := encodeBare .pingResp txid buf

def encodeFindNodeResp (msg : FindNodeResp) (buf : Bytes) : Except Error Bytes :=
  if msg.peers.length > maxPeersPerMsg then .error .invalidArg
  else encodeBuf (do
    encodeEnvelopeHead .findNodeResp msg.txid true
    encMap 1
    encText peersKey
    encodePeersArray msg.peers) buf

def encodeGetPeersResp (msg : GetPeersResp) (buf : Bytes) : Except Error Bytes :=
  if msg.peers.length > maxPeersPerMsg then .error .invalidArg
  else encodeBuf (do
    encodeEnvelopeHead .getPeersResp msg.txid true
    encMap 2
    encText peersKey
    encodePeersArray msg.peers
    encText tokenKey
    encBytes msg.token.val) buf

def encodeAnnouncePeerResp (txid : UInt32) (buf : Bytes) : Except Error Bytes :=
  encodeBare .announcePeerResp txid buf

theorem dec_guard {α : Type} {p : Prop} [Decidable p] {err : Error} {f : Unit → DecM α} {x : DecM α}
    {a : α} {d d' : Dec} :
    (if p then throw err >>= f else x) d = .ok a d' ↔ ¬p ∧ x d = .ok a d' := by
  by_cases h : p
  · simp only [h, if_true, not_true_eq_false, false_and, iff_false]
    exact nofun
  · simp [h]

end AntsClient.Dht.Wire
