import AntsClient.Dht.Announces

namespace AntsClient.Dht.Served

open Common Crypto Lib.Slots Server Wire Responses Announces Cbor.EncoderSpec List

variable (crypto : Primitives) (secret localPeerId : Bytes32)

/-- GET_PEERS for a shard is answered with a list in which the local peer stands. -/
def Serves (n : Node) (key : UInt64) : Prop :=
  ∀ nowUs peerId buf req, decodeGetPeersReq buf = .ok req → req.key = key → ∃ msg resp,
    processFin crypto nowUs ⟨peerId, some buf⟩ n.server = (some (.send msg), n.server) ∧
      decodeGetPeersResp msg = .ok resp ∧ ∃ p ∈ resp.peers, p.peerId = n.localPeerId

def LastAnnounced (inputs : List Input) (key : UInt64) : Prop :=
  ∃ before nowUs addr after, inputs = before ++ .announce nowUs addr key :: after ∧
    (announce nowUs addr key (run crypto (init secret localPeerId) before)).1 = .ok () ∧
    ∀ i ∈ after, i ≠ .unannounce key ∧ ∀ nowUs addr, i ≠ .announce nowUs addr key

def otherAnnouncer (key : UInt64) : Input → Option Bytes32
  | .request _ slot => if admitted crypto secret slot = some key ∧
    slot.peerId ≠ localPeerId then some slot.peerId else none
  | _ => none

def others (inputs : List Input) (key : UInt64) : List Bytes32 :=
  (inputs.filterMap (otherAnnouncer crypto secret localPeerId key)).dedup

/-- An announce that drives out no local entry: it is known, there is room, or an entry of another
peer is older. -/
def Spares (n : Node) (announced : UInt64 × Bytes32) : Prop :=
  (∃ x ∈ entries n, pair x = announced) ∨ (entries n).length < maxAnnounces ∨
    ∃ x ∈ entries n, ∀ y ∈ entries n, y.announcer.peerId = n.localPeerId → x.lastSeenUs < y.lastSeenUs

/-- An announce that is entered spares the local entries; a local one finds its shard not announced
and a local place free. -/
def Gentle (n : Node) : Input → Prop
  | .request _ slot => ∀ key, admitted crypto n.server.secret slot = some key →
      Spares n (key, slot.peerId)
  | .announce _ _ key => some key ∉ n.localAnnounces → none ∈ n.localAnnounces →
      Spares n (key, n.localPeerId)
  | _ => True

def GentleRun (inputs : List Input) : Prop :=
  ∀ before i after, inputs = before ++ i :: after →
    Gentle crypto (run crypto (init secret localPeerId) before) i

variable {a : Announce} {key : UInt64} {n : Node}

section Kept

variable {crypto} {n n' : Node} {i : Input}

theorem Upserts.mem_self {old new : List Announce} (h : Upserts old new a) : a ∈ new := by
  obtain ⟨y, rest, -, -, hnew⟩ | ⟨-, -, hnew⟩ | ⟨y, rest, -, -, -, -, hnew⟩ := h
  · exact hnew.symm.subset mem_cons_self
  · exact hnew.symm.subset mem_cons_self
  · exact hnew.symm.subset mem_cons_self

theorem Upserts.length_le {old new : List Announce} (h : Upserts old new a) : new.length ≤ old.length + 1 := by
  obtain ⟨y, rest, -, hold, hnew⟩ | ⟨-, -, hnew⟩ | ⟨y, rest, -, -, -, hold, hnew⟩ := h
  · rw [hnew.length_eq, hold.length_eq]
    exact Nat.le_succ _
  · exact hnew.length_eq.le
  · rw [hnew.length_eq, hold.length_eq]
    exact Nat.le_succ _

theorem length_next (h : Next crypto n n' i) : (entries n').length ≤ (entries n).length + 1 := by
  cases i with
  | request nowUs slot =>
    obtain h | ⟨key, -, h⟩ := h
    · rw [h]
      exact Nat.le_succ _
    · exact Upserts.length_le h
  | announce nowUs addr key =>
    rw [Next] at h
    split_ifs at h
    · exact Upserts.length_le h
    · rw [h]
      exact Nat.le_succ _
  | unannounce key =>
    rw [h]
    exact (length_filter_le _ _).trans (Nat.le_succ _)
  | tick buckets =>
    rw [h]
    exact Nat.le_succ _

theorem keeps_own (h : Upserts (entries n) (entries n') a) (hspares : Spares n (pair a)) {x : Announce}
    (hx : x ∈ entries n) (hown : x.announcer.peerId = n.localPeerId) : ∃ y ∈ entries n', pair y = pair x := by
  have hself := Upserts.mem_self h
  obtain ⟨z, rest, hpair, hold, hnew⟩ | ⟨-, -, hnew⟩ | ⟨z, rest, hother, hfull, holdest, hold, hnew⟩ := h
  · obtain rfl | hx := mem_cons.mp (hold.subset hx)
    · exact ⟨a, hself, hpair.symm⟩
    · exact ⟨x, hnew.symm.subset (mem_cons_of_mem _ hx), rfl⟩
  · exact ⟨x, hnew.symm.subset (mem_cons_of_mem _ hx), rfl⟩
  · obtain rfl | hx' := mem_cons.mp (hold.subset hx)
    · obtain ⟨y, hy, hpair⟩ | hroom | ⟨y, hy, hyounger⟩ := hspares
      · exact absurd hpair (hother y hy)
      · exact absurd hfull hroom.ne
      · exact absurd (hyounger x hx hown) (UInt64.not_lt.mpr (holdest y hy))
    · exact ⟨x, hnew.symm.subset (mem_cons_of_mem _ hx'), rfl⟩

def Backed (n : Node) : Prop :=
  ∀ key, some key ∈ n.localAnnounces → ∃ a ∈ entries n, pair a = (key, n.localPeerId)

theorem Backed.step (h : Backed n) (hslots : n.server.announces.length = maxAnnounces)
    (hgentle : Gentle crypto n i) :
    Backed (step crypto n i) := by
  have hframe := @step_frame crypto n i
  have hchange := @step_change crypto n i
  generalize Announces.step crypto n i = n' at hframe hchange
  intro key hkey
  rw [hframe.1]
  cases hchange with
  | same _ _ hset hlocal =>
    rw [entries, hset]
    exact h key (hlocal ▸ hkey)
  | request nowUs slot key' hadmitted hset hlocal =>
    have hspec : Upserts (entries n) (entries n') ⟨key', ⟨slot.peerId, []⟩, nowUs⟩ := by
      rw [entries, entries, hset]
      exact upsertAnnounce_spec hslots
    obtain ⟨a, ha, hpair⟩ := h key (hlocal ▸ hkey)
    rw [← hpair]
    exact keeps_own hspec (hgentle key' hadmitted) ha (congrArg Prod.snd hpair)
  | announce nowUs addr key' j hnew hfree hset hlocal =>
    have hspec : Upserts (entries n) (entries n') ⟨key', ⟨n.localPeerId, addr.val⟩, nowUs⟩ := by
      rw [entries, entries, hset]
      exact upsertAnnounce_spec hslots
    rw [hlocal] at hkey
    obtain rfl | hkey := (mem_set_free hfree).mp hkey
    · exact ⟨_, Upserts.mem_self hspec, rfl⟩
    · obtain ⟨a, ha, hpair⟩ := h key hkey
      rw [← hpair]
      have hspares := hgentle hnew (mem_of_getElem? hfree)
      exact keeps_own hspec hspares ha (congrArg Prod.snd hpair)
  | unannounce key' hset hlocal =>
    rw [hlocal] at hkey
    obtain ⟨hkey, hne⟩ := mem_filter.mp hkey
    obtain ⟨a, ha, hpair⟩ := h key hkey
    refine ⟨a, ?_, hpair⟩
    rw [entries, hset, reduceOption_filter, List.mem_filter]
    refine ⟨ha, ?_⟩
    rw [hpair]
    simpa using hne

theorem mem_local_announce {nowUs : UInt64} {addr : Multiaddr} (h : (announce nowUs addr key n).1 = .ok ()) :
    some key ∈ (announce nowUs addr key n).2.localAnnounces := by
  obtain ⟨hmem, heq⟩ | ⟨-, -, heq⟩ | ⟨j, -, hfree, heq⟩ := announce_eq nowUs addr key n
  · rw [heq]
    exact hmem
  · rw [heq] at h
    cases h
  · rw [heq]
    exact (mem_set_free hfree).mpr (.inl rfl)

theorem mem_local_step (h : some key ∈ n.localAnnounces) (hi : i ≠ .unannounce key) :
    some key ∈ (step crypto n i).localAnnounces := by
  have hchange := @step_change crypto n i
  generalize step crypto n i = n' at hchange
  cases hchange with
  | same _ _ _ hlocal => rwa [hlocal]
  | request nowUs slot key' _ _ hlocal => rwa [hlocal]
  | announce nowUs addr key' j _ hfree _ hlocal =>
    rw [hlocal]
    exact (mem_set_free hfree).mpr (.inr h)
  | unannounce key' _ hlocal =>
    rw [hlocal]
    refine mem_filter.mpr ⟨h, ?_⟩
    simpa using fun heq : key = key' => hi (heq ▸ rfl)

end Kept

section Runs

variable {crypto secret localPeerId} {inputs : List Input} {key : UInt64}

theorem backed_run (hgentle : GentleRun crypto secret localPeerId inputs) :
    Backed (run crypto (init secret localPeerId) inputs) := by
  induction inputs using reverseRecOn with
  | nil =>
    intro key hkey
    exact absurd (eq_of_mem_replicate hkey) (by simp)
  | append_singleton inputs i ih =>
    have hbefore : GentleRun crypto secret localPeerId inputs := by
      intro before j after heq
      exact hgentle before j (after ++ [i]) (by simp [heq])
    have hstep := (ih hbefore).step (sound_run secret localPeerId inputs).slots (hgentle inputs i [] rfl)
    rwa [run, foldl_append]

theorem length_entries_run :
    (entries (run crypto (init secret localPeerId) inputs)).length ≤ inputs.length := by
  induction inputs using reverseRecOn with
  | nil =>
    rw [run, foldl_nil, entries, Announces.init, Server.init, reduceOption_replicate_none]
    exact Nat.le_refl 0
  | append_singleton inputs i ih =>
    have hnext := @next_of_slots crypto _ (@sound_run crypto secret localPeerId inputs).slots i
    rw [run, foldl_append, length_append]
    exact (length_next hnext).trans (Nat.add_le_add_right ih 1)

/-- As long as no more inputs come than the set has places, none drives an entry out. -/
theorem gentleRun_of_length (h : inputs.length ≤ maxAnnounces) :
    GentleRun crypto secret localPeerId inputs := by
  intro before i after heq
  have hroom : (entries (run crypto (init secret localPeerId) before)).length < maxAnnounces := by
    rw [heq, length_append, length_cons] at h
    exact length_entries_run.trans_lt (by omega)
  cases i with
  | request nowUs slot => exact fun _ _ => .inr (.inl hroom)
  | announce nowUs addr key => exact fun _ _ => .inr (.inl hroom)
  | unannounce key => trivial
  | tick buckets => trivial

theorem mem_local_run (h : LastAnnounced crypto secret localPeerId inputs key) :
    some key ∈ (run crypto (init secret localPeerId) inputs).localAnnounces := by
  obtain ⟨before, nowUs, addr, after, rfl, hok, hafter⟩ := h
  have hstart := mem_local_announce hok
  rw [run, foldl_append, foldl_cons]
  change some key ∈ (after.foldl (step crypto)
    (announce nowUs addr key (run crypto (init secret localPeerId) before)).2).localAnnounces
  generalize (announce nowUs addr key (run crypto (init secret localPeerId) before)).2 = n at hstart
  induction after generalizing n with
  | nil => exact hstart
  | cons i after ih =>
    obtain ⟨hi, hafter⟩ := forall_mem_cons.mp hafter
    exact ih hafter _ (mem_local_step hstart hi.1)

theorem shard_perm (hn : Sound crypto secret localPeerId inputs n) (ha : a ∈ entries n)
    (hpair : pair a = (key, localPeerId)) :
    ∃ rest, ((entries n).filter fun x => x.shardKey = key).Perm (a :: rest) ∧
      rest.length ≤ (others crypto secret localPeerId inputs key).length ∧ ∀ x ∈ rest,
      x ∈ entries n ∧ x.announcer.peerId ≠ localPeerId := by
  have hkey : a.shardKey = key := congrArg Prod.fst hpair
  have hmem : a ∈ (entries n).filter fun x => x.shardKey = key := List.mem_filter.mpr ⟨ha, decide_eq_true hkey⟩
  have hperm := perm_cons_erase hmem
  have hdistinct : ((a :: ((entries n).filter fun x => x.shardKey = key).erase a).map pair).Nodup :=
    (hperm.map pair).nodup_iff.mp (hn.distinct.sublist (filter_sublist.map pair))
  generalize ((entries n).filter fun x => x.shardKey = key).erase a = rest at hperm hdistinct
  rw [map_cons, nodup_cons] at hdistinct
  have hrest : ∀ x ∈ rest, x ∈ entries n ∧ x.shardKey = key ∧ x.announcer.peerId ≠ localPeerId := by
    intro x hx
    obtain ⟨hx', hxkey⟩ := List.mem_filter.mp (hperm.symm.subset (mem_cons_of_mem _ hx))
    refine ⟨hx', of_decide_eq_true hxkey, ?_⟩
    intro hown
    apply hdistinct.1
    rw [hpair, ← of_decide_eq_true hxkey, ← hown]
    exact mem_map_of_mem hx
  refine ⟨rest, hperm, ?_, fun x hx => ⟨(hrest x hx).1, (hrest x hx).2.2⟩⟩
  have hnodup : (rest.map fun x => x.announcer.peerId).Nodup := by
    have hmap := hdistinct.2
    have heq : rest.map pair = (rest.map fun x => x.announcer.peerId).map fun p => (key, p) := by
      rw [map_map]
      apply map_congr_left
      intro x hx
      exact Prod.ext (hrest x hx).2.1 rfl
    rw [heq] at hmap
    exact List.Nodup.of_map _ hmap
  have hsub : (rest.map fun x => x.announcer.peerId) ⊆ others crypto secret localPeerId inputs key := by
    intro p hp
    obtain ⟨x, hx, rfl⟩ := mem_map.mp hp
    obtain ⟨hx', hxkey, hother⟩ := hrest x hx
    obtain ⟨hown, -⟩ | ⟨nowUs, slot, hslot, hpeer, hadmitted⟩ := hn.origin x hx'
    · exact absurd hown hother
    · refine mem_dedup.mpr (mem_filterMap.mpr ⟨_, hslot, ?_⟩)
      rw [otherAnnouncer, if_pos ⟨hadmitted.trans (congrArg some hxkey), hpeer ▸ hother⟩, hpeer]
  have hle := (hnodup.subperm hsub).length_le
  rwa [length_map] at hle

theorem headSize_le (n : Nat) : headSize n ≤ 9 := by
  rw [headSize]
  split_ifs <;> decide

theorem serves_of_entry (hn : Sound crypto secret localPeerId inputs n) (ha : a ∈ entries n)
    (hpair : pair a = (key, localPeerId))
    (hfew : (others crypto secret localPeerId inputs key).length < closestCap) :
    Serves crypto n key := by
  obtain ⟨rest, hperm, hrest, hothers⟩ := shard_perm hn ha hpair
  have hlookup : announceLookup n.server.announces key =
      ((entries n).filter fun x => x.shardKey = key).map Announce.announcer := by
    apply take_of_length_le
    rw [length_map]
    exact hperm.length_eq.trans_le (by rw [length_cons]; omega)
  have hpeers := hperm.map Announce.announcer
  rw [← hlookup, map_cons] at hpeers
  have hlisted : listedPeers crypto n.server key = announceLookup n.server.announces key := by
    rw [listedPeers, if_neg]
    rw [hpeers.length_eq]
    exact Nat.succ_ne_zero _
  rw [← hlisted] at hpeers
  have hsize : ((listedPeers crypto n.server key).map peerSize).sum ≤ 300 + rest.length * 44 := by
    have hother : (rest.map Announce.announcer).map peerSize = replicate rest.length 44 := by
      rw [map_map]
      apply eq_replicate_iff.mpr
      refine ⟨length_map _, ?_⟩
      intro _ hsize
      obtain ⟨x, hx, rfl⟩ := mem_map.mp hsize
      rw [Function.comp_apply, peerSize, (hn.address x (hothers x hx).1).2 (hothers x hx).2]
      rfl
    have hself : peerSize a.announcer ≤ 300 := by
      have hlen := (hn.address a ha).1.2
      rw [multiaddrMaxLen] at hlen
      rw [peerSize, headSize]
      split_ifs <;> omega
    rw [(hpeers.map peerSize).sum_eq, map_cons, sum_cons, hother, sum_replicate, smul_eq_mul]
    omega
  intro nowUs peerId buf req hreq hkey
  subst hkey
  have hstored : ∀ p ∈ listedPeers crypto n.server req.key, Stored p := by
    intro p hp
    rw [hlisted, hlookup] at hp
    obtain ⟨x, hx, rfl⟩ := mem_map.mp hp
    exact (hn.address x (List.mem_filter.mp hx).1).1
  have hlen : (listedPeers crypto n.server req.key).length ≤ maxPeersPerMsg := by
    rw [hpeers.length_eq, length_cons, length_map]
    exact hrest.trans_lt hfew
  have hfits : respSize req.txid (listedPeers crypto n.server req.key)
      (some (computeToken crypto n.server.secret peerId)) ≤ respBufSize := by
    have htxid := headSize_le req.txid.toNat
    have hcount := headSize_le (listedPeers crypto n.server req.key).length
    rw [closestCap] at hfew
    rw [respSize, respBufSize, Option.map_some, Option.getD_some]
    omega
  obtain ⟨msg, hsend, hdecode⟩ :=
    (@getPeers_answered_iff n.server buf crypto nowUs peerId req hreq hstored hlen).mpr hfits
  refine ⟨msg, _, hsend, hdecode, a.announcer, hpeers.symm.subset mem_cons_self, ?_⟩
  rw [hn.own]
  exact congrArg Prod.snd hpair

/-- A locally announced shard is served in every run in which no announce drives out an entry of the
local peer. -/
theorem local_announce_served (hgentle : GentleRun crypto secret localPeerId inputs)
    (hlast : LastAnnounced crypto secret localPeerId inputs key)
    (hfew : (others crypto secret localPeerId inputs key).length < closestCap) :
    Serves crypto (run crypto (init secret localPeerId) inputs) key := by
  have hn := @sound_run crypto secret localPeerId inputs
  obtain ⟨a, ha, hpair⟩ := backed_run hgentle key (mem_local_run hlast)
  rw [hn.own] at hpair
  exact serves_of_entry hn ha hpair hfew

end Runs

section Samples

def noAddress : Multiaddr := ⟨[], rfl, by decide⟩

def announceRequest (key : Nat) (nowUs : UInt64) : Input :=
  .request nowUs ⟨digest 1, some
    ([0xa3, 0x00, 0x04, 0x01, 0x00, 0x02, 0xa2, 0x63, 0x6b, 0x65, 0x79] ++ Cbor.Head.head 0 key ++
    [0x65, 0x74, 0x6f, 0x6b, 0x65, 0x6e, 0x50] ++ replicate 16 0)⟩

def getPeersZero : Bytes := [0xa3, 0x00, 0x03, 0x01, 0x00, 0x02, 0xa1, 0x63, 0x6b, 0x65, 0x79, 0x00]

/-- The local peer announces shard 0, and another peer others after it. -/
def flood (count : Nat) : List Input := .announce 0 noAddress 0 ::
  (range count).map fun k => announceRequest (k + 1) (UInt64.ofNat (k + 1))

theorem flood_last (count : Nat) : LastAnnounced blindCrypto zero32 zero32 (flood count) 0 := by
  refine ⟨[], 0, noAddress, _, rfl, rfl, ?_⟩
  intro i hi
  obtain ⟨k, -, rfl⟩ := mem_map.mp hi
  simp [announceRequest]

/-- The other peer may fill the set. -/
theorem local_announce_served_full :
    (entries (run blindCrypto (init zero32 zero32) (flood 31))).length = maxAnnounces ∧
      Serves blindCrypto (run blindCrypto (init zero32 zero32) (flood 31)) 0 :=
  ⟨by decide +kernel,
    local_announce_served (gentleRun_of_length (by decide)) (flood_last 31) (by decide +kernel)⟩

/-- Other announces drive out the local one, and its shard is not served. -/
theorem flooded_not_served : LastAnnounced blindCrypto zero32 zero32 (flood 32) 0 ∧
    others blindCrypto zero32 zero32 (flood 32) 0 = [] ∧
    ¬Serves blindCrypto (run blindCrypto (init zero32 zero32) (flood 32)) 0 := by
  have hlisted : listedPeers blindCrypto (run blindCrypto (init zero32 zero32) (flood 32)).server
    0 = [] := by decide +kernel
  have hreq : decodeGetPeersReq getPeersZero = .ok ⟨0, 0⟩ := by decide +kernel
  refine ⟨flood_last 32, by decide +kernel, ?_⟩
  intro h
  obtain ⟨msg, resp, hsend, hdecode, p, hp, -⟩ := h 0 zero32 getPeersZero _ hreq rfl
  have hempty : ∀ p ∈ listedPeers blindCrypto
    (run blindCrypto (init zero32 zero32) (flood 32)).server 0, Stored p := by simp [hlisted]
  obtain ⟨msg', hsend', hdecode'⟩ := (@getPeers_answered_iff _ getPeersZero blindCrypto 0 zero32 _ hreq hempty
    (by simp [hlisted])).mpr (by rw [hlisted]; decide +kernel)
  rw [hsend] at hsend'
  obtain ⟨hmsg, -⟩ := Prod.mk.inj hsend'
  obtain rfl : msg = msg' := by simpa using hmsg
  rw [hdecode] at hdecode'
  obtain rfl := Except.ok.inj hdecode'
  rw [hlisted] at hp
  cases hp

end Samples

end AntsClient.Dht.Served
