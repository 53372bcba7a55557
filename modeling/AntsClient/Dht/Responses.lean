import AntsClient.Dht.Server

namespace AntsClient.Dht.Responses

open Common Cbor.Codec Cbor.Tokens Cbor.EncoderSpec Cbor.Values Value Cbor.Canonical Cbor.Schema
  Cbor.Sizes Crypto Crdt.Proof Wire
  Server List
open Inference.Wire hiding peekType
open Dht.Lookup
open Chain.FieldReaders

variable {peer : Peer} {type : UInt64} {token : AdmissionToken}

def multiaddrMaxLen : Nat := 256

def decodePeer : DecM Peer := do
  let n ← decMap
  if n ≠ 2 then throw .nonCanonical
  expectTextKey idKey
  let b ← decBytes
  match toBytes32 b with
  | none => throw .nonCanonical
  | some peerId =>
    expectTextKey addrKey
    let addr ← decText
    if addr.length ≥ multiaddrMaxLen then throw .bufferTooSmall
    return ⟨peerId, addr⟩

def decodePeers : Nat → DecM (List Peer)
  | 0 => return []
  | n + 1 => do
    let peer ← decodePeer
    let peers ← decodePeers n
    return peer :: peers

def decodePeersArray : DecM (List Peer) := do
  let n ← decArray
  if n.toNat > maxPeersPerMsg then throw .bufferTooSmall
  decodePeers n.toNat

def decodeFindNodeResp (buf : Bytes) : Except Error FindNodeResp := runDec (do
  let (txid, hasBody) ← decodeEnvelopeHead .findNodeResp
  decodeBody hasBody 1
  expectTextKey peersKey
  let peers ← decodePeersArray
  finalise
  return ⟨txid, peers⟩) buf

def decodeGetPeersResp (buf : Bytes) : Except Error GetPeersResp := runDec (do
  let (txid, hasBody) ← decodeEnvelopeHead .getPeersResp
  decodeBody hasBody 2
  expectTextKey peersKey
  let peers ← decodePeersArray
  expectTextKey tokenKey
  let token ← decodeToken
  finalise
  return ⟨txid, peers, token⟩) buf

def Multiaddr : Type := { b : Bytes // cString b = b ∧ b.length < multiaddrMaxLen }

def Stored (peer : Peer) : Prop :=
  cString peer.multiaddr = peer.multiaddr ∧ peer.multiaddr.length < multiaddrMaxLen

def peerValue (peer : Peer) : Value :=
  .map [(.text idKey, .bytes peer.peerId.val), (.text addrKey, .text (cString peer.multiaddr))]

def peersBody (peers : List Peer) (token : Option AdmissionToken) : Value :=
  .map ((.text peersKey, .array (peers.map peerValue)) :: token.toList.map fun t =>
    (.text tokenKey, .bytes t.val))

def peerSize (peer : Peer) : Nat := 43 + headSize peer.multiaddr.length + peer.multiaddr.length

def respSize (txid : UInt32) (peers : List Peer) (token : Option AdmissionToken) : Nat :=
  12 + headSize txid.toNat + headSize peers.length + (peers.map peerSize).sum + (token.map fun _ => 23).getD 0

section Codec

variable {us : List Token} {peers : List Peer} {txid : UInt32}

def peerTokens (peer : Peer) : List Token :=
  [.map 2, .text idKey, .bytes peer.peerId.val, .text addrKey, .text (cString peer.multiaddr)]

theorem tokens_peer (peer : Peer) : tokens (peerValue peer) = peerTokens peer := by
  simp [peerValue, peerTokens, tokens, tokensPairs]

theorem tokens_peersBody (peers : List Peer) (token : Option AdmissionToken) : tokens (peersBody peers token) =
    .map (token.toList.length + 1) :: .text peersKey :: .array peers.length :: (peers.flatMap peerTokens ++
      token.toList.flatMap fun t => [.text tokenKey, .bytes t.val]) := by
  cases token <;> simp [peersBody, tokens, tokensPairs, tokensList_eq, flatMap_map, tokens_peer]

theorem peerValue_within (h : Stored peer) : Within 1 (peerValue peer) := by
  have haddr : (cString peer.multiaddr).length < 2 ^ 64 := by
    rw [h.1]
    exact h.2.trans (by decide)
  refine within_map (by simp) (by simp only [Value.keys, List.map]; decide) ?_
  simp [within_text haddr, within_text (by decide : idKey.length < 2 ^ 64),
    within_text (by decide : addrKey.length < 2 ^ 64)]

theorem headSize_small {n : Nat} (h : n < 24) : headSize n = 1 := if_pos h

theorem peerTokens_length (h : Stored peer) : ((peerTokens peer).flatMap Token.enc).length = peerSize peer := by
  have hid : headSize 32 = 2 := by simp [headSize]
  simp only [peerTokens, flatMap_cons, flatMap_nil, Token.enc, length_append, length_nil, head_length, h.1,
    peer.peerId.length_val, hid, peerSize]
  simp only [idKey, addrKey, length_cons, length_nil]
  rw [headSize_small (by decide : 2 < 24), headSize_small (by decide : 0 + 1 + 1 + 1 + 1 < 24)]
  omega

theorem peers_length (hpeers : ∀ p ∈ peers, Stored p) :
    ((peers.flatMap peerTokens).flatMap Token.enc).length = (peers.map peerSize).sum := by
  rw [flatMap_assoc, length_flatMap]
  congr 1
  apply map_congr_left
  intro p hp
  exact peerTokens_length (hpeers p hp)

theorem encode_length {token : Option AdmissionToken} (txid : UInt32) (htype : type.toNat < 24)
    (hpeers : ∀ p ∈ peers, Stored p) :
    (encode (message type txid (some (peersBody peers token)))).length = respSize txid peers token := by
  have htail : ((token.toList.flatMap fun t => [Token.text tokenKey, .bytes t.val]).flatMap Token.enc).length =
      (token.map fun _ => 23).getD 0 := by
    cases token with
    | none => rfl
    | some t => simp [Token.enc, head_length, t.length_val, tokenKey, headSize]
  have hmap : headSize (token.toList.length + 1) = 1 := by cases token <;> rfl
  rw [encode, tokens_message_some, tokens_peersBody]
  simp only [flatMap_cons, flatMap_append, length_append, Token.enc, head_length,
    peers_length hpeers, htail, hmap,
    headSize_small htype, UInt32.toNat_toUInt64, respSize]
  simp only [peersKey, length_cons, length_nil, headSize_small (by decide : 0 < 24),
    headSize_small (by decide : 1 < 24),
    headSize_small (by decide : 2 < 24), headSize_small (by decide : 3 < 24),
    headSize_small (by decide : 0 + 1 + 1 + 1 + 1 + 1 < 24)]
  omega

theorem encodePeers_eq (peers : List Peer) :
    encodePeers peers = encCalls ((peers.flatMap peerTokens).map Token.call) := by
  induction peers with
  | nil => rfl
  | cons p peers ih =>
    rw [encodePeers, ih]
    simp [encodePeer, peerTokens, Token.call, encCalls, encCall]

theorem encodeFindNodeResp_eq (hlen : peers.length ≤ maxPeersPerMsg) (buf : Bytes) :
    encodeFindNodeResp ⟨txid, peers⟩ buf =
    encodeInto (message MsgType.findNodeResp.code txid (some (peersBody peers none))) buf := by
  rw [encodeFindNodeResp, if_neg (Nat.not_lt.mpr hlen), encodeInto, calls, tokens_message_some,
    tokens_peersBody]
  simp [encodeEnvelopeHead, encHead, encodePeersArray, encodePeers_eq, Token.call, encCalls, encCall]

theorem encodeGetPeersResp_eq (hlen : peers.length ≤ maxPeersPerMsg) (buf : Bytes) :
    encodeGetPeersResp ⟨txid, peers, token⟩ buf =
      encodeInto (message MsgType.getPeersResp.code txid (some (peersBody peers (some token)))) buf := by
  rw [encodeGetPeersResp, if_neg (Nat.not_lt.mpr hlen), encodeInto, calls, tokens_message_some,
    tokens_peersBody]
  simp [encodeEnvelopeHead, encHead, encodePeersArray, encodePeers_eq, Token.call, encCalls,
    encCall, encCalls_append]

theorem takes_expectTextKey {key : Bytes} : Takes (expectTextKey key) (.text key :: us) us () := by
  refine takes_text.bind ?_
  rw [if_neg (not_not.mpr rfl)]
  exact takes_pure

theorem takes_decodePeer (h : Stored peer) : Takes decodePeer (peerTokens peer ++ us) us peer := by
  rw [peerTokens, h.1]
  refine Takes.bind (@takes_map _ 2) ?_
  rw [if_neg (not_not.mpr rfl)]
  refine takes_expectTextKey.bind (takes_bytes.bind ?_)
  rw [toBytes32_eq_some.mpr rfl]
  refine takes_expectTextKey.bind (takes_text.bind ?_)
  rw [if_neg (Nat.not_le.mpr h.2)]
  exact takes_pure

theorem takes_decodePeers (hpeers : ∀ p ∈ peers, Stored p) :
    Takes (decodePeers peers.length) (peers.flatMap peerTokens ++ us) us peers := by
  induction peers with
  | nil => exact takes_pure
  | cons p peers ih =>
    obtain ⟨hp, hpeers⟩ := forall_mem_cons.mp hpeers
    rw [flatMap_cons, append_assoc]
    exact (takes_decodePeer hp).bind ((ih hpeers).bind takes_pure)

theorem takes_decodeEnvelopeHead (type : MsgType) : Takes (decodeEnvelopeHead type)
    (.map 3 :: .uint 0 :: .uint type.code.toNat :: .uint 1 :: .uint txid.toUInt64.toNat ::
      .uint 2 :: us) us (txid, true) := by
  have htxid : ¬ txid.toUInt64 > 0xffffffff := UInt64.not_lt.mpr (Nat.le_of_lt_succ txid.toNat_lt)
  refine Takes.bind (@takes_map _ 3) ?_
  rw [if_neg (by decide)]
  refine takes_expectKey.bind (takes_uint.bind ?_)
  rw [if_neg (not_not.mpr rfl)]
  refine takes_expectKey.bind (takes_uint.bind ?_)
  rw [if_neg htxid, if_pos rfl]
  refine takes_expectKey.bind ?_
  rw [UInt32.toUInt32_toUInt64]
  exact takes_pure

theorem takes_decodeBody (pairs : UInt64) : Takes (decodeBody true pairs) (.map pairs.toNat :: us) us () := by
  refine takes_map.bind ?_
  rw [if_neg (not_not.mpr rfl)]
  exact takes_pure

theorem takes_decodeToken : Takes decodeToken (.bytes token.val :: us) us token := by
  refine takes_bytes.bind ?_
  rw [toAdmissionToken, dif_pos token.length_val]
  exact takes_pure

variable (hpeers : ∀ p ∈ peers, Stored p) (hlen : peers.length ≤ maxPeersPerMsg)

include hpeers hlen

theorem peersBody_within {token : Option AdmissionToken} : Within 15 (peersBody peers token) := by
  have harray : Within 2 (.array (peers.map peerValue)) :=
    within_array_map (lt_of_le_of_lt hlen (by decide)) fun p hp => peerValue_within (hpeers p hp)
  have hkey : Within 2 (.text peersKey) := within_text (by decide)
  have hwithin : Within 3 (peersBody peers token) := by
    cases token with
    | none => exact within_map (by simp) (by simp [Value.keys]) (by simp [hkey, harray])
    | some t =>
      have htoken : t.val.length < 2 ^ 64 := by rw [t.length_val]; decide
      refine within_map (by simp) (by simp only [Option.toList_some, Value.keys, List.map]; decide) ?_
      simp [hkey, harray, within_text (by decide : tokenKey.length < 2 ^ 64), within_bytes htoken]
  exact ⟨hwithin.inRange, hwithin.keysAscend, hwithin.depth.trans (by decide)⟩

theorem resp_wellFormed {token : Option AdmissionToken} :
    WellFormed (message type txid (some (peersBody peers token))) := by
  apply message_wellFormed
  rintro _ ⟨⟩
  exact peersBody_within hpeers hlen

theorem encodeInto_resp {token : Option AdmissionToken} (htype : type.toNat < 24) {b : Bytes} :
    encodeInto (message type txid (some (peersBody peers token))) respBuf = .ok b ↔
      encode (message type txid (some (peersBody peers token))) = b ∧
      respSize txid peers token ≤ respBufSize := by
  rw [encodeInto_iff (resp_wellFormed hpeers hlen), ← encode_length txid htype hpeers, respBuf,
    length_replicate]
  constructor
  · rintro ⟨rfl, h⟩
    exact ⟨rfl, h⟩
  · rintro ⟨rfl, h⟩
    exact ⟨rfl, h⟩

theorem takes_decodePeersArray :
    Takes decodePeersArray (.array peers.length :: (peers.flatMap peerTokens ++ us)) us peers := by
  have hn : (UInt64.ofNat peers.length).toNat = peers.length := by
    rw [UInt64.toNat_ofNat', Nat.mod_eq_of_lt]
    exact lt_of_le_of_lt hlen (by simp [maxPeersPerMsg])
  have harray := @takes_array (peers.flatMap peerTokens ++ us) (UInt64.ofNat peers.length)
  rw [hn] at harray
  refine harray.bind ?_
  rw [hn, if_neg (Nat.not_lt.mpr hlen)]
  exact takes_decodePeers hpeers

theorem decodeFindNodeResp_encode :
    decodeFindNodeResp (encode (message MsgType.findNodeResp.code txid
      (some (peersBody peers none)))) = .ok ⟨txid, peers⟩ := by
  apply @runDec_of_takes [] _ _ _ _ (resp_wellFormed hpeers hlen)
  rw [tokens_message_some, tokens_peersBody]
  exact (takes_decodeEnvelopeHead .findNodeResp).bind ((takes_decodeBody 1).bind (takes_expectTextKey.bind
    ((takes_decodePeersArray hpeers hlen).bind (takes_finalise.bind takes_pure))))

theorem decodeGetPeersResp_encode :
    decodeGetPeersResp (encode (message MsgType.getPeersResp.code txid (some (peersBody peers (some token))))) =
      .ok ⟨txid, peers, token⟩ := by
  apply @runDec_of_takes [] _ _ _ _ (resp_wellFormed hpeers hlen)
  rw [tokens_message_some, tokens_peersBody]
  exact (takes_decodeEnvelopeHead .getPeersResp).bind ((takes_decodeBody 2).bind (takes_expectTextKey.bind
    ((takes_decodePeersArray hpeers hlen).bind
    (takes_expectTextKey.bind (takes_decodeToken.bind (takes_finalise.bind takes_pure))))))

end Codec

section Answers

variable {s : ServerState} {buf : Bytes}

def Storable (s : ServerState) : Prop :=
  (∀ p ∈ s.buckets.flatten, Stored p) ∧ ∀ a, some a ∈ s.announces → Stored a.announcer

def Answers (crypto : Primitives) (nowUs : UInt64) (peerId : Bytes32) (s : ServerState) (buf : Bytes) : Prop :=
  (∀ req, decodeFindNodeReq buf = .ok req → ∃ msg,
    processFin crypto nowUs ⟨peerId, some buf⟩ s = (some (.send msg), s) ∧
    decodeFindNodeResp msg = .ok ⟨req.txid, findKclosestPeers s.buckets req.target⟩) ∧
  ∀ req, decodeGetPeersReq buf = .ok req → ∃ msg,
    processFin crypto nowUs ⟨peerId, some buf⟩ s = (some (.send msg), s) ∧
    decodeGetPeersResp msg = .ok ⟨req.txid, listedPeers crypto s req.key, computeToken crypto s.secret peerId⟩

def Fits (crypto : Primitives) (peerId : Bytes32) (s : ServerState) (buf : Bytes) : Prop :=
  (∀ req, decodeFindNodeReq buf = .ok req →
    respSize req.txid (findKclosestPeers s.buckets req.target) none ≤ respBufSize) ∧
  ∀ req, decodeGetPeersReq buf = .ok req →
    respSize req.txid (listedPeers crypto s req.key) (some (computeToken crypto s.secret peerId)) ≤ respBufSize

theorem foldl_closestInsert (target : Bytes32) (l : List Peer) (top : List (Peer × Bytes32))
    (hlen : top.length ≤ closestCap) :
    (l.foldl (closestInsert target) top).length ≤ closestCap ∧
    ∀ c ∈ l.foldl (closestInsert target) top, c ∈ top ∨ c.1 ∈ l := by
  induction l generalizing top with
  | nil => exact ⟨hlen, fun c hc => .inl hc⟩
  | cons p l ih =>
    have hstep : (closestInsert target top p).length ≤ closestCap ∧
        ∀ c ∈ closestInsert target top p, c ∈ top ∨ c.1 = p := by
      rw [closestInsert]
      split
      · exact ⟨hlen, fun c hc => .inl hc⟩
      · refine ⟨length_take_le _ _, ?_⟩
        intro c hc
        obtain rfl | hc := eq_or_mem_of_mem_insertIdx (mem_of_mem_take hc)
        · exact .inr rfl
        · exact .inl hc
    obtain ⟨hlen', hmem⟩ := ih _ hstep.1
    refine ⟨hlen', ?_⟩
    intro c hc
    obtain hc | hc := hmem c hc
    · apply (hstep.2 c hc).imp id
      intro h
      rw [h]
      exact mem_cons_self
    · exact .inr (mem_cons_of_mem _ hc)

theorem findKclosestPeers_stored (hs : Storable s) (target : Bytes32) :
    (∀ p ∈ findKclosestPeers s.buckets target, Stored p) ∧
    (findKclosestPeers s.buckets target).length ≤ maxPeersPerMsg := by
  obtain ⟨hlen, hmem⟩ := foldl_closestInsert target s.buckets.flatten [] (Nat.zero_le _)
  refine ⟨?_, by rw [findKclosestPeers, length_map]; exact hlen⟩
  intro p hp
  obtain ⟨c, hc, rfl⟩ := mem_map.mp hp
  exact hs.1 _ ((hmem c hc).resolve_left not_mem_nil)

theorem listedPeers_stored {crypto : Primitives} (hs : Storable s) (key : UInt64) :
    (∀ p ∈ listedPeers crypto s key, Stored p) ∧ (listedPeers crypto s key).length ≤ maxPeersPerMsg := by
  rw [listedPeers]
  split
  · exact findKclosestPeers_stored hs _
  · refine ⟨?_, length_take_le _ _⟩
    intro p hp
    obtain ⟨a, ha, rfl⟩ := mem_map.mp (mem_of_mem_take hp)
    obtain ⟨slot, hslot, rfl⟩ := mem_filterMap.mp (mem_filter.mp ha).1
    exact hs.2 a hslot

theorem peek_of_decode {α : Type} {type : MsgType} {f : UInt32 × Bool → DecM α} {a : α}
    (h : runDec (decodeEnvelopeHead type >>= f) buf = .ok a) : peekType buf = .ok type := by
  obtain ⟨d', h⟩ := Crdt.Readers.runDec_eq_ok.mp h
  obtain ⟨x, d, h, -⟩ := bind_eq_ok.mp h
  obtain ⟨n, d₀, hmap, h⟩ := bind_eq_ok.mp h
  obtain ⟨hn, h⟩ := dec_guard.mp h
  obtain ⟨u, d₁, hkey, h⟩ := bind_eq_ok.mp h
  obtain ⟨code, d₂, htype, h⟩ := bind_eq_ok.mp h
  obtain ⟨hcode, -⟩ := dec_guard.mp h
  rw [not_not] at hcode
  subst hcode
  have hfind : (msgTypes.find? fun t => t.code = type.code) = some type := by cases type <;> decide
  apply Crdt.Readers.runDec_eq_ok.mpr
  refine ⟨d₂, bind_eq_ok.mpr ⟨n, d₀, hmap,
    dec_guard.mpr ⟨hn, bind_eq_ok.mpr ⟨(), d₁, hkey, bind_eq_ok.mpr ⟨_, d₂, htype, ?_⟩⟩⟩⟩⟩
  rw [hfind]
  rfl

theorem ne_nil_of_peek {type : MsgType} (h : peekType buf = .ok type) : ¬buf.length = 0 := by
  intro h0
  rw [length_eq_zero_iff.mp h0] at h
  have hempty : peekType [] = .error .malformed := by decide
  rw [hempty] at h
  cases h

theorem code_small (type : MsgType) : type.code.toNat < 24 := by cases type <;> decide

theorem reply_eq_send {resp : Except Error Bytes} {msg : Bytes} : reply resp = .send msg ↔ resp = .ok msg := by
  cases resp <;> simp [reply]

variable {crypto : Primitives} {nowUs : UInt64} {peerId : Bytes32}

theorem findNode_answered_iff (hs : Storable s) {req : FindNodeReq} (hreq : decodeFindNodeReq buf = .ok req) :
    (∃ msg, processFin crypto nowUs ⟨peerId, some buf⟩ s = (some (.send msg), s) ∧
      decodeFindNodeResp msg = .ok ⟨req.txid, findKclosestPeers s.buckets req.target⟩) ↔
        respSize req.txid (findKclosestPeers s.buckets req.target) none ≤ respBufSize := by
  obtain ⟨hpeers, hlen⟩ := findKclosestPeers_stored hs req.target
  have hpeek : peekType buf = .ok .findNode := peek_of_decode hreq
  have hhandle : handleFindNode s buf =
      encodeFindNodeResp ⟨req.txid, findKclosestPeers s.buckets req.target⟩ respBuf := by
    rw [handleFindNode, hreq]
    rfl
  simp only [processFin, ne_nil_of_peek hpeek, if_false, hpeek, Prod.mk.injEq, Option.some.injEq,
    and_true, reply_eq_send, hhandle,
    encodeFindNodeResp_eq hlen, encodeInto_resp hpeers hlen (code_small .findNodeResp)]
  constructor
  · rintro ⟨_, ⟨-, hfits⟩, -⟩
    exact hfits
  · intro hfits
    exact ⟨_, ⟨rfl, hfits⟩, decodeFindNodeResp_encode hpeers hlen⟩

theorem getPeers_answered_iff {req : GetPeersReq} (hreq : decodeGetPeersReq buf = .ok req)
    (hpeers : ∀ p ∈ listedPeers crypto s req.key, Stored p)
    (hlen : (listedPeers crypto s req.key).length ≤ maxPeersPerMsg) :
    (∃ msg, processFin crypto nowUs ⟨peerId, some buf⟩ s = (some (.send msg), s) ∧
      decodeGetPeersResp msg = .ok
        ⟨req.txid, listedPeers crypto s req.key, computeToken crypto s.secret peerId⟩) ↔
        respSize req.txid (listedPeers crypto s req.key)
          (some (computeToken crypto s.secret peerId)) ≤ respBufSize := by
  have hpeek : peekType buf = .ok .getPeers := peek_of_decode hreq
  simp only [processFin, ne_nil_of_peek hpeek, if_false, hpeek, Prod.mk.injEq, Option.some.injEq,
    and_true, reply_eq_send,
    handleGetPeers_eq hreq, encodeGetPeersResp_eq hlen, encodeInto_resp hpeers hlen (code_small .getPeersResp)]
  constructor
  · rintro ⟨_, ⟨-, hfits⟩, -⟩
    exact hfits
  · intro hfits
    exact ⟨_, ⟨rfl, hfits⟩, decodeGetPeersResp_encode hpeers hlen⟩

end Answers

section Bootstrap

open Dht.Lookup

def maxBootstrapPeers : Nat := 8

structure BootstrapEntry where
  conn : Conn
  promoted : Bool
  multiaddr : Bytes

structure Instance where
  localPeerId : Bytes32
  bootstraps : List (Option BootstrapEntry)
  server : ServerState

/-- `/ip4/` or `/ip6/`, up to 63 bytes for `inet_pton`, `/udp/`, a port, which grows with every
digit, and no slash or `/quic-v1` with anything behind it. -/
def parseMultiaddr (inetPton : Bool → Bytes → Bool) (ma : Bytes) : Bool :=
  let isIp6 := ma.take 5 = [0x2f, 0x69, 0x70, 0x36, 0x2f]
  if ma.take 5 ≠ [0x2f, 0x69, 0x70, 0x34, 0x2f] ∧ ¬isIp6 then false
  else
    let addr := ((ma.drop 5).takeWhile (· ≠ 0x2f)).take 63
    let rest := (ma.drop 5).drop addr.length
    let port := (rest.drop 5).takeWhile fun c => 0x30 ≤ c ∧ c ≤ 0x39
    let tail := (rest.drop 5).drop port.length
    addr ≠ [] ∧ rest.take 5 = [0x2f, 0x75, 0x64, 0x70, 0x2f] ∧ port ≠ [] ∧
      (port.foldl (fun n c => n * 10 + (c.toNat - 0x30)) 0) ≤ 65535 ∧
      (tail.take 1 = [0x2f] → tail.take 8 = [0x2f, 0x71, 0x75, 0x69, 0x63, 0x2d, 0x76, 0x31]) ∧
        inetPton isIp6 addr

def bootstrap (inetPton : Bool → Bytes → Bool) (conn : Conn) (multiaddr : Bytes) (s : Instance) :
    Except Error Unit × Instance :=
  if multiaddr.length = 0 ∨ multiaddr.length ≥ multiaddrMaxLen then (.error .invalidArg, s)
  else
    match s.bootstraps.findIdx? Option.isNone with
    | none => (.error .bufferTooSmall, s)
    | some i =>
      if parseMultiaddr inetPton multiaddr then
        (.ok (), { s with bootstraps := s.bootstraps.set i (some ⟨conn, false, multiaddr⟩) })
      else (.error .invalidArg, s)

def bucketIndexForPeer (localPeerId peerId : Bytes32) : Option Nat :=
  let dist := (xorDistance localPeerId peerId).val
  (dist.findIdx? (· ≠ 0)).map fun i => (31 - i) * 8 + (dist[i]?.getD 0).toNat.log2

/-- `kbucket_insert`; a peer that finds its bucket full stays outside. -/
def kbucketInsert (localPeerId : Bytes32) (peer : Peer) (buckets : List (List Peer)) : List (List Peer) :=
  match bucketIndexForPeer localPeerId peer.peerId with
  | none => buckets
  | some b => buckets.modify b fun bucket =>
    if bucket.any fun e => e.peerId = peer.peerId then peer :: bucket.eraseP fun e => e.peerId = peer.peerId
    else if bucket.length ≥ closestCap then bucket
    else peer :: bucket

def handleBootstrapConnReady (conn : Conn) (peerId : Bytes32) (s : Instance) : Instance :=
  match s.bootstraps.findIdx? fun slot => slot.any fun be => be.conn = conn ∧ be.promoted = false with
  | none => s
  | some i =>
    match s.bootstraps[i]?.join with
    | none => s
    | some be =>
      { s with
        bootstraps := s.bootstraps.set i (some { be with promoted := true })
        server := { s.server with
        buckets := kbucketInsert s.localPeerId ⟨peerId, be.multiaddr⟩ s.server.buckets } }

def handleBootstrapConnClosed (conn : Conn) (s : Instance) : Instance :=
  { s with bootstraps := s.bootstraps.map fun slot => slot.filter fun be => be.conn ≠ conn }

def visit (inetPton : Bool → Bytes → Bool) (s : Instance) (conn : Conn) (peer : Peer) : Instance :=
  handleBootstrapConnClosed conn
    (handleBootstrapConnReady conn peer.peerId (bootstrap inetPton conn peer.multiaddr s).2)

def fresh (localPeerId secret : Bytes32) : Instance :=
  ⟨localPeerId, List.replicate maxBootstrapPeers none, Server.init secret⟩

/-- An address of 255 bytes, which are `/ip4/1.2.3.4/udp/1/quic-v1/` and a tail that is not read. -/
def longAddress : Bytes :=
  [0x2f, 0x69, 0x70, 0x34, 0x2f, 0x31, 0x2e, 0x32, 0x2e, 0x33, 0x2e, 0x34, 0x2f, 0x75, 0x64, 0x70,
    0x2f, 0x31, 0x2f, 0x71, 0x75, 0x69,
    0x63, 0x2d, 0x76, 0x31, 0x2f] ++ List.replicate 228 0x61

def farPeer (n : Nat) : Peer := ⟨⟨0x80 :: UInt8.ofNat n :: List.replicate 30 0, rfl⟩, longAddress⟩

def crowded (count : Nat) : Instance :=
  (List.range count).foldl (fun s n => visit (fun _ _ => true) s n (farPeer n)) (fresh zero32 zero32)

def findZero : Bytes := [0xa3, 0x00, 0x02, 0x01, 0x00, 0x02, 0xa1, 0x66, 0x74, 0x61, 0x72, 0x67,
      0x65, 0x74, 0x58, 0x20] ++ List.replicate 32 0

theorem findZero_decodes : decodeFindNodeReq findZero = .ok ⟨0, zero32⟩ ∧
    decodeGetPeersReq findZero = .error .nonCanonical := by
  decide +kernel

theorem longAddress_stored (n : Nat) : Stored (farPeer n) := by
  have h : cString longAddress = longAddress ∧ longAddress.length < multiaddrMaxLen := by decide +kernel
  exact h

theorem crowded_slots : ∀ count < 15,
    (crowded count).server.buckets.flatten = ((List.range count).map farPeer).reverse ∧
      (crowded count).server.announces = List.replicate maxAnnounces none := by
  decide +kernel

theorem crowded_storable {count : Nat} (h : count < 15) : Storable (crowded count).server := by
  obtain ⟨hbuckets, hnone⟩ := crowded_slots count h
  constructor
  · rw [hbuckets]
    intro p hp
    obtain ⟨n, -, rfl⟩ := mem_map.mp (mem_reverse.mp hp)
    exact longAddress_stored n
  · intro a ha
    rw [hnone] at ha
    exact absurd (eq_of_mem_replicate ha) (by simp)

end Bootstrap

/-- Requests are answered exactly when the responses fit the buffer. -/
theorem answers_iff_fits {crypto : Primitives} {nowUs : UInt64} {peerId : Bytes32} {s : ServerState}
    {buf : Bytes} (hs : Storable s) :
    Answers crypto nowUs peerId s buf ↔ Fits crypto peerId s buf := by
  apply and_congr
  · apply forall_congr'
    intro req
    apply imp_congr_right
    exact findNode_answered_iff hs
  · apply forall_congr'
    intro req
    apply imp_congr_right
    intro hreq
    obtain ⟨hpeers, hlen⟩ := @listedPeers_stored _ crypto hs req.key
    exact getPeers_answered_iff hreq hpeers hlen

def blindCrypto : Primitives := ⟨fun _ => zero32, fun _ _ => zero32, fun _ _ _ => false⟩

/-- Thirteen of the addresses fit into one response. -/
theorem crowded_answered : Answers blindCrypto 0 zero32 (crowded 13).server findZero := by
  apply (answers_iff_fits (crowded_storable (by decide))).mpr
  constructor
  · intro req hreq
    rw [findZero_decodes.1] at hreq
    obtain rfl := Except.ok.inj hreq
    decide +kernel
  · intro req hreq
    rw [findZero_decodes.2] at hreq
    cases hreq

/-- Fourteen peers with long addresses do not fit in one answer. -/
theorem crowded_unanswered : Storable (crowded 14).server ∧
    decodeFindNodeReq findZero = .ok ⟨0, zero32⟩ ∧
    ¬Answers blindCrypto 0 zero32 (crowded 14).server findZero := by
  have hstorable := crowded_storable (show 14 < 15 by decide)
  refine ⟨hstorable, findZero_decodes.1, ?_⟩
  intro h
  have hfits := (findNode_answered_iff hstorable findZero_decodes.1).mp (h.1 _ findZero_decodes.1)
  have hsize : ¬respSize 0 (findKclosestPeers (crowded 14).server.buckets zero32) none ≤ respBufSize := by
    decide +kernel
  exact hsize hfits

end AntsClient.Dht.Responses
