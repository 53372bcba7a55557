import AntsClient.Dht.Responses

namespace AntsClient.Dht.Announces

open Common Crypto Lib.Slots Server Wire Responses Dht.Lookup List

def maxLocalAnnounces : Nat := 16

structure Node where
  localPeerId : Bytes32
  server : ServerState
  localAnnounces : List (Option UInt64)

def Node.withAnnounces (n : Node) (announces : List (Option Announce)) : Node :=
  { n with server := { n.server with announces := announces } }

def announce (nowUs : UInt64) (addr : Multiaddr) (key : UInt64) (n : Node) : Except Error Unit × Node :=
  if some key ∈ n.localAnnounces then (.ok (), n)
  else
    match n.localAnnounces.findIdx? Option.isNone with
    | some i =>
      (.ok (), { n.withAnnounces (upsertAnnounce key ⟨n.localPeerId, addr.val⟩ nowUs n.server.announces) with
        localAnnounces := n.localAnnounces.set i (some key) })
    | none => (.error .bufferTooSmall, n)

def unannounce (key : UInt64) (n : Node) : Node :=
  { n.withAnnounces (n.server.announces.map fun slot =>
      if isAnnounce key n.localPeerId slot then none else slot) with
    localAnnounces := n.localAnnounces.map fun slot => if slot = some key then none else slot }

/-- A request is a complete inbound stream. A tick leaves the announces alone, and the routing
table as it may. -/
inductive Input
  | request (nowUs : UInt64) (slot : Held)
  | announce (nowUs : UInt64) (addr : Multiaddr) (key : UInt64)
  | unannounce (key : UInt64)
  | tick (buckets : List (List Peer))

variable (crypto : Primitives)

def step (n : Node) : Input → Node
  | .request nowUs slot => { n with server := (processFin crypto nowUs slot n.server).2 }
  | .announce nowUs addr key => (announce nowUs addr key n).2
  | .unannounce key => unannounce key n
  | .tick buckets => { n with server := { n.server with buckets := buckets } }

def run (n : Node) (inputs : List Input) : Node := inputs.foldl (step crypto) n

def init (secret localPeerId : Bytes32) : Node :=
  ⟨localPeerId, Server.init secret, replicate maxLocalAnnounces none⟩

def admitted (secret : Bytes32) (slot : Held) : Option UInt64 :=
  match slot.recvBuf.map decodeAnnouncePeerReq with
  | some (.ok req) => if tokenIsValid crypto secret slot.peerId req.token then some req.key else none
  | _ => none

def pair (a : Announce) : UInt64 × Bytes32 := (a.shardKey, a.announcer.peerId)

def entries (n : Node) : List Announce := n.server.announces.reduceOption

/-- An announce refreshes the entry of its shard and peer, takes a free place, or drives out an
entry as old as any. -/
inductive Upserts (old new : List Announce) (a : Announce) : Prop
  | refreshed (x : Announce) (rest : List Announce) :
    pair x = pair a → old.Perm (x :: rest) → new.Perm (a :: rest) → Upserts old new a
  | added : (∀ x ∈ old, pair x ≠ pair a) → old.length < maxAnnounces → new.Perm (a :: old) → Upserts old new a
  | replaced (x : Announce) (rest : List Announce) : (∀ y ∈ old, pair y ≠ pair a) → old.length = maxAnnounces →
      (∀ y ∈ old, x.lastSeenUs ≤ y.lastSeenUs) → old.Perm (x :: rest) → new.Perm (a :: rest) → Upserts old new a

section Upsert

variable {announces : List (Option Announce)} {key : UInt64} {announcer : Peer} {nowUs : UInt64}

theorem foldl_least (f : Nat → UInt64) (is : List Nat) (o : Nat) :
    let m := is.foldl (fun o i => if f i < f o then i else o) o
    m ∈ o :: is ∧ ∀ i ∈ o :: is, f m ≤ f i := by
  induction is generalizing o with
  | nil => simp
  | cons i is ih =>
    obtain ⟨hmem, hle⟩ := ih (if f i < f o then i else o)
    rw [forall_mem_cons] at hle
    simp only [foldl_cons, forall_mem_cons]
    have hstep : f (if f i < f o then i else o) ≤ f o ∧ f (if f i < f o then i else o) ≤ f i := by
      split
      · rename_i h
        exact ⟨UInt64.le_of_lt h, UInt64.le_refl _⟩
      · rename_i h
        exact ⟨UInt64.le_refl _, UInt64.not_lt.mp h⟩
    refine ⟨?_, UInt64.le_trans hle.1 hstep.1, UInt64.le_trans hle.1 hstep.2, hle.2⟩
    obtain h | h := mem_cons.mp hmem
    · rw [h]
      split
      · exact mem_cons_of_mem _ mem_cons_self
      · exact mem_cons_self
    · exact mem_cons_of_mem _ (mem_cons_of_mem _ h)

theorem oldest_spec (hpos : 0 < announces.length) (hfull : none ∉ announces) :
    ∃ x, announces[oldest announces]? = some (some x) ∧ ∀ y, some y ∈ announces → x.lastSeenUs ≤ y.lastSeenUs := by
  obtain ⟨hmem, hle⟩ := foldl_least (lastSeen announces) (range announces.length) 0
  have hat (i : Nat) (y : Announce) (h : announces[i]? = some (some y)) : lastSeen announces i = y.lastSeenUs := by
    simp [lastSeen, h]
  have hlt : oldest announces < announces.length := by
    obtain h | h := mem_cons.mp hmem
    · rwa [← h] at hpos
    · exact mem_range.mp h
  cases hx : announces[oldest announces] with
  | none => exact absurd (hx ▸ getElem_mem hlt) hfull
  | some x =>
    have hget : announces[oldest announces]? = some (some x) := by rw [getElem?_eq_getElem hlt, hx]
    refine ⟨x, hget, ?_⟩
    intro y hy
    obtain ⟨i, hi⟩ := mem_iff_getElem?.mp hy
    rw [← hat _ x hget, ← hat i y hi]
    apply hle
    apply mem_cons_of_mem
    exact mem_range.mpr (List.getElem?_eq_some_iff.mp hi).1

theorem isAnnounce_iff {peerId : Bytes32} {slot : Option Announce} :
    isAnnounce key peerId slot = true ↔ ∃ x, slot = some x ∧ pair x = (key, peerId) := by
  cases slot <;> simp [isAnnounce, pair]

theorem upsertAnnounce_spec (hlen : announces.length = maxAnnounces) :
    Upserts announces.reduceOption (upsertAnnounce key announcer nowUs announces).reduceOption
      ⟨key, announcer, nowUs⟩ := by
  rw [upsertAnnounce]
  cases hfind : announces.findIdx? (isAnnounce key announcer.peerId) with
  | some i =>
    obtain ⟨hi, hhit, -⟩ := findIdx?_eq_some_iff_getElem.mp hfind
    obtain ⟨x, hx, hpair⟩ := isAnnounce_iff.mp hhit
    obtain ⟨rest, hold, hnew⟩ :=
      reduceOption_replace (y := ⟨key, announcer, nowUs⟩) (List.getElem?_eq_some_iff.mpr ⟨hi, hx⟩)
    exact .refreshed x rest hpair hold hnew
  | none =>
    have hother : ∀ x ∈ announces.reduceOption, pair x ≠ (key, announcer.peerId) := by
      intro x hx hpair
      have hmiss := findIdx?_eq_none_iff.mp hfind _ (reduceOption_mem_iff.mp hx)
      rw [isAnnounce_iff.mpr ⟨x, rfl, hpair⟩] at hmiss
      cases hmiss
    cases hfree : announces.findIdx? Option.isNone with
    | some i =>
      obtain ⟨hi, hnone, -⟩ := findIdx?_eq_some_iff_getElem.mp hfree
      have hat : announces[i]? = some none :=
        List.getElem?_eq_some_iff.mpr ⟨hi, Option.isNone_iff_eq_none.mp hnone⟩
      refine .added hother ?_ (reduceOption_set hat)
      rw [← hlen]
      exact reduceOption_length_lt_iff.mpr (mem_of_getElem? hat)
    | none =>
      have hfull : none ∉ announces := by
        intro h
        have := findIdx?_eq_none_iff.mp hfree _ h
        cases this
      obtain ⟨x, hget, hleast⟩ := oldest_spec (by rw [hlen]; decide) hfull
      obtain ⟨rest, hold, hnew⟩ := reduceOption_replace (y := ⟨key, announcer, nowUs⟩) hget
      apply Upserts.replaced x rest hother ((length_reduceOption hfull).trans hlen) _ hold hnew
      intro y hy
      exact hleast y (reduceOption_mem_iff.mp hy)

end Upsert

variable {a : Announce} {inputs : List Input} {i : Input} {key : UInt64}

section Steps

variable {crypto} {n : Node} {secret localPeerId : Bytes32}

def Standing (inputs : List Input) (key : UInt64) : Prop :=
  ∃ before nowUs addr after, inputs = before ++ .announce nowUs addr key :: after ∧ .unannounce key ∉ after

variable (crypto secret localPeerId) in
def Origin (inputs : List Input) (a : Announce) : Prop :=
  a.announcer.peerId = localPeerId ∧ Standing inputs a.shardKey ∨
    ∃ nowUs slot, .request nowUs slot ∈ inputs ∧ slot.peerId = a.announcer.peerId ∧
      admitted crypto secret slot = some a.shardKey

theorem processFin_cases (nowUs : UInt64) (slot : Held) (s : ServerState) :
    (processFin crypto nowUs slot s).2 = s ∨ ∃ key, admitted crypto s.secret slot = some key ∧
      (processFin crypto nowUs slot s).2 =
        { s with announces := upsertAnnounce key ⟨slot.peerId, []⟩ nowUs s.announces } := by
  rw [processFin]
  cases hbuf : slot.recvBuf with
  | none => exact .inl rfl
  | some buf =>
    dsimp only
    split
    · exact .inl rfl
    · split
      · exact .inl rfl
      · split
        · exact .inl rfl
        · exact .inl rfl
        · exact .inl rfl
        · rw [handleAnnouncePeer]
          cases hreq : decodeAnnouncePeerReq buf with
          | error err => exact .inl rfl
          | ok req =>
            dsimp only
            split
            · rename_i hvalid
              exact .inr ⟨req.key, by simp [admitted, hbuf, hreq, hvalid], rfl⟩
            · exact .inl rfl
        · exact .inl rfl

inductive Change (n n' : Node) : Input → Prop
  | same (i : Input) : (∀ key, i ≠ .unannounce key) → n'.server.announces = n.server.announces →
    n'.localAnnounces = n.localAnnounces → Change n n' i
  | request (nowUs : UInt64) (slot : Held) (key : UInt64) : admitted crypto n.server.secret slot = some key →
      n'.server.announces = upsertAnnounce key ⟨slot.peerId, []⟩ nowUs n.server.announces →
      n'.localAnnounces = n.localAnnounces → Change n n' (.request nowUs slot)
  | announce (nowUs : UInt64) (addr : Multiaddr) (key : UInt64) (i : Nat) :
    some key ∉ n.localAnnounces → n.localAnnounces[i]? = some none →
      n'.server.announces = upsertAnnounce key ⟨n.localPeerId, addr.val⟩ nowUs n.server.announces →
      n'.localAnnounces = n.localAnnounces.set i (some key) → Change n n' (.announce nowUs addr key)
  | unannounce (key : UInt64) :
      n'.server.announces =
        (n.server.announces.map fun slot => slot.filter fun x => pair x ≠ (key, n.localPeerId)) →
      n'.localAnnounces = (n.localAnnounces.map fun slot => slot.filter fun k => k ≠ key) →
        Change n n' (.unannounce key)

theorem announce_eq (nowUs : UInt64) (addr : Multiaddr) (key : UInt64) (n : Node) :
    (some key ∈ n.localAnnounces ∧ announce nowUs addr key n = (.ok (), n)) ∨
    (some key ∉ n.localAnnounces ∧ none ∉ n.localAnnounces ∧
      announce nowUs addr key n = (.error .bufferTooSmall, n)) ∨
    ∃ i, some key ∉ n.localAnnounces ∧ n.localAnnounces[i]? = some none ∧ announce nowUs addr key n =
      (.ok (), { n.withAnnounces (upsertAnnounce key ⟨n.localPeerId, addr.val⟩ nowUs n.server.announces) with
        localAnnounces := n.localAnnounces.set i (some key) }) := by
  rw [announce]
  split
  · exact .inl ⟨‹_›, rfl⟩
  · cases hfree : n.localAnnounces.findIdx? Option.isNone with
    | none =>
      refine .inr (.inl ⟨‹_›, ?_, rfl⟩)
      intro h
      have := findIdx?_eq_none_iff.mp hfree _ h
      cases this
    | some i =>
      obtain ⟨hi, hnone, -⟩ := findIdx?_eq_some_iff_getElem.mp hfree
      exact .inr (.inr ⟨i, ‹_›, List.getElem?_eq_some_iff.mpr ⟨hi, Option.isNone_iff_eq_none.mp hnone⟩, rfl⟩)

theorem step_frame (n : Node) (i : Input) :
    (step crypto n i).localPeerId = n.localPeerId ∧ (step crypto n i).server.secret = n.server.secret := by
  cases i with
  | request nowUs slot =>
    refine ⟨rfl, ?_⟩
    obtain h | ⟨key, -, h⟩ := @processFin_cases crypto nowUs slot n.server <;> simp only [step, h]
  | announce nowUs addr key =>
    obtain ⟨-, h⟩ | ⟨-, -, h⟩ | ⟨j, -, -, h⟩ :=
      announce_eq nowUs addr key n <;> simp only [step, h, Node.withAnnounces, and_self]
  | unannounce key => exact ⟨rfl, rfl⟩
  | tick buckets => exact ⟨rfl, rfl⟩

theorem step_change (n : Node) (i : Input) : @Change crypto n (step crypto n i) i := by
  cases i with
  | request nowUs slot =>
    obtain h | ⟨key, hkey, h⟩ := @processFin_cases crypto nowUs slot n.server
    · exact .same _ (by simp) (congrArg ServerState.announces h) rfl
    · exact .request nowUs slot key hkey (congrArg ServerState.announces h) rfl
  | announce nowUs addr key =>
    obtain ⟨-, h⟩ | ⟨-, -, h⟩ | ⟨j, hnew, hfree, h⟩ := announce_eq nowUs addr key n
    · apply Change.same _ (by simp) <;> rw [step, h]
    · apply Change.same _ (by simp) <;> rw [step, h]
    · apply Change.announce nowUs addr key j hnew hfree <;> rw [step, h]
      rfl
  | unannounce key =>
    apply Change.unannounce
    · apply map_congr_left
      intro slot _
      cases slot with
      | none => simp [isAnnounce]
      | some x =>
        by_cases hx : pair x = (key, n.localPeerId)
        · rw [if_pos (isAnnounce_iff.mpr ⟨x, rfl, hx⟩)]
          simp [Option.filter_some, hx]
        · rw [if_neg fun h => hx (by simpa using isAnnounce_iff.mp h)]
          simp [Option.filter_some, hx]
    · apply map_congr_left
      intro slot _
      cases slot with
      | none => rfl
      | some k => by_cases hk : k = key <;> simp [Option.filter_some, hk]
  | tick buckets => exact .same _ (by simp) rfl rfl

theorem Upserts.mem {old new : List Announce} {x : Announce} (h : Upserts old new a)
    (hx : x ∈ new) : x = a ∨ x ∈ old := by
  obtain ⟨y, rest, -, hold, hnew⟩ | ⟨-, -, hnew⟩ | ⟨y, rest, -, -, -, hold, hnew⟩ := h
  · exact (mem_cons.mp (hnew.subset hx)).imp id fun hx => hold.symm.subset (mem_cons_of_mem _ hx)
  · exact mem_cons.mp (hnew.subset hx)
  · exact (mem_cons.mp (hnew.subset hx)).imp id fun hx => hold.symm.subset (mem_cons_of_mem _ hx)

theorem Upserts.nodup {old new : List Announce} (h : Upserts old new a)
    (hnodup : (old.map pair).Nodup) : (new.map pair).Nodup := by
  obtain ⟨y, rest, hpair, hold, hnew⟩ | ⟨hother, -, hnew⟩ | ⟨y, rest, hother, -, -, hold, hnew⟩ := h
  · rw [(hnew.map pair).nodup_iff, map_cons, ← hpair]
    exact (hold.map pair).nodup_iff.mp hnodup
  · rw [(hnew.map pair).nodup_iff, map_cons, nodup_cons]
    exact ⟨by simpa using hother, hnodup⟩
  · rw [(hold.map pair).nodup_iff, map_cons, nodup_cons] at hnodup
    rw [(hnew.map pair).nodup_iff, map_cons, nodup_cons]
    refine ⟨?_, hnodup.2⟩
    intro hmem
    obtain ⟨x, hx, hpair⟩ := mem_map.mp hmem
    exact hother x (hold.symm.subset (mem_cons_of_mem _ hx)) hpair

theorem length_upsertAnnounce (announces : List (Option Announce)) (key : UInt64) (announcer : Peer)
    (nowUs : UInt64) :
    (upsertAnnounce key announcer nowUs announces).length = announces.length := by
  rw [upsertAnnounce]
  split
  · exact length_set
  · split
    · exact length_set
    · exact length_set

structure Sound (crypto : Primitives) (secret localPeerId : Bytes32) (inputs : List Input)
    (n : Node) : Prop where
  own : n.localPeerId = localPeerId
  tokens : n.server.secret = secret
  slots : n.server.announces.length = maxAnnounces
  distinct : ((entries n).map pair).Nodup
  origin : ∀ a ∈ entries n, Origin crypto secret localPeerId inputs a
  address : ∀ a ∈ entries n, Stored a.announcer ∧
    (a.announcer.peerId ≠ localPeerId → a.announcer.multiaddr = [])

theorem Standing.append (h : Standing inputs key) (hi : i ≠ .unannounce key) :
    Standing (inputs ++ [i]) key := by
  obtain ⟨before, nowUs, addr, after, rfl, hafter⟩ := h
  refine ⟨before, nowUs, addr, after ++ [i], by simp, ?_⟩
  rw [mem_append, mem_singleton]
  exact not_or.mpr ⟨hafter, fun h => hi h.symm⟩

theorem Origin.append (h : Origin crypto secret localPeerId inputs a)
    (hi : a.announcer.peerId = localPeerId → i ≠ .unannounce a.shardKey) :
    Origin crypto secret localPeerId (inputs ++ [i]) a := by
  obtain ⟨hown, hstanding⟩ | ⟨nowUs, slot, hmem, horigin⟩ := h
  · exact .inl ⟨hown, hstanding.append (hi hown)⟩
  · exact .inr ⟨nowUs, slot, mem_append_left _ hmem, horigin⟩

theorem Sound.upsert {inputs : List Input} {n' : Node} {i : Input} {a : Announce}
    (h : Sound crypto secret localPeerId inputs n)
    (hframe : n'.localPeerId = n.localPeerId ∧ n'.server.secret = n.server.secret)
    (hset : n'.server.announces = upsertAnnounce a.shardKey a.announcer a.lastSeenUs n.server.announces)
    (hi : ∀ key, i ≠ .unannounce key) (ha : Origin crypto secret localPeerId (inputs ++ [i]) a)
    (haddr : Stored a.announcer ∧ (a.announcer.peerId ≠ localPeerId → a.announcer.multiaddr = [])) :
    Sound crypto secret localPeerId (inputs ++ [i]) n' := by
  have hspec : Upserts (entries n) (entries n') a := by
    rw [entries, entries, hset]
    exact upsertAnnounce_spec h.slots
  refine ⟨hframe.1.trans h.own, hframe.2.trans h.tokens, ?_, hspec.nodup h.distinct, ?_, ?_⟩
  · rw [hset, length_upsertAnnounce, h.slots]
  · intro x hx
    obtain rfl | hx := hspec.mem hx
    · exact ha
    · exact (h.origin x hx).append fun _ => hi _
  · intro x hx
    obtain rfl | hx := hspec.mem hx
    · exact haddr
    · exact h.address x hx

theorem Sound.step (h : Sound crypto secret localPeerId inputs n) (i : Input) :
    Sound crypto secret localPeerId (inputs ++ [i]) (step crypto n i) := by
  have hframe := @step_frame crypto n i
  have hchange := @step_change crypto n i
  generalize Announces.step crypto n i = n' at hframe hchange
  cases hchange with
  | same _ hi hset hlocal =>
    have hentries : entries n' = entries n := congrArg List.reduceOption hset
    refine ⟨hframe.1.trans h.own, hframe.2.trans h.tokens, ?_, ?_, ?_, ?_⟩
    · rw [hset, h.slots]
    · rw [hentries]
      exact h.distinct
    · intro a ha
      rw [hentries] at ha
      exact (h.origin a ha).append fun _ => hi _
    · rw [hentries]
      exact h.address
  | request nowUs slot key hkey hset hlocal =>
    rw [h.tokens] at hkey
    apply @Sound.upsert crypto n _ _ _ n' _ ⟨key, ⟨slot.peerId, []⟩, nowUs⟩ h hframe hset (by simp)
    · exact .inr ⟨nowUs, slot, by simp, rfl, hkey⟩
    · exact ⟨⟨rfl, by simp [Responses.multiaddrMaxLen]⟩, fun _ => rfl⟩
  | announce nowUs addr key j hnew hfree hset hlocal =>
    apply @Sound.upsert crypto n _ _ _ n' _ ⟨key, ⟨n.localPeerId, addr.val⟩, nowUs⟩ h hframe hset (by simp)
    · exact .inl ⟨h.own, inputs, nowUs, addr, [], rfl, not_mem_nil⟩
    · exact ⟨addr.property, fun hother => absurd h.own hother⟩
  | unannounce key hset hlocal =>
    have hentries : entries n' = (entries n).filter fun x => pair x ≠ (key, n.localPeerId) := by
      rw [entries, hset, reduceOption_filter]
      rfl
    refine ⟨hframe.1.trans h.own, hframe.2.trans h.tokens, ?_, ?_, ?_, ?_⟩
    · rw [hset, length_map, h.slots]
    · rw [hentries]
      exact h.distinct.sublist (filter_sublist.map _)
    · intro a ha
      rw [hentries] at ha
      obtain ⟨ha, hother⟩ := mem_filter.mp ha
      apply (h.origin a ha).append
      intro hown heq
      rw [← h.own] at hown
      simp [pair, hown, Input.unannounce.inj heq] at hother
    · rw [hentries]
      exact fun a ha => h.address a (mem_filter.mp ha).1

theorem sound_run (secret localPeerId : Bytes32) (inputs : List Input) :
    Sound crypto secret localPeerId inputs (run crypto (init secret localPeerId) inputs) := by
  induction inputs using reverseRecOn with
  | nil =>
    have hnone : entries (init secret localPeerId) = [] := by
      rw [entries, init, Server.init, reduceOption_replicate_none]
    rw [run, foldl_nil]
    refine ⟨rfl, rfl, length_replicate, ?_, ?_, ?_⟩ <;> simp [hnone]
  | append_singleton inputs i ih =>
    rw [run, foldl_append]
    exact ih.step i

variable (crypto) in
def Next (n n' : Node) : Input → Prop
  | .request nowUs slot => entries n' = entries n ∨ ∃ key,
      admitted crypto n.server.secret slot = some key ∧
        Upserts (entries n) (entries n') ⟨key, ⟨slot.peerId, []⟩, nowUs⟩
  | .announce nowUs addr key =>
      if some key ∉ n.localAnnounces ∧ none ∈ n.localAnnounces then
        Upserts (entries n) (entries n') ⟨key, ⟨n.localPeerId, addr.val⟩, nowUs⟩
      else entries n' = entries n
  | .unannounce key => entries n' = (entries n).filter fun x => pair x ≠ (key, n.localPeerId)
  | .tick _ => entries n' = entries n

theorem next_of_slots (hslots : n.server.announces.length = maxAnnounces) (i : Input) :
    Next crypto n (step crypto n i) i := by
  cases i with
  | request nowUs slot =>
    obtain h | ⟨key, hkey, h⟩ := @processFin_cases crypto nowUs slot n.server
    · exact .inl (congrArg (fun s : ServerState => s.announces.reduceOption) h)
    · refine .inr ⟨key, hkey, ?_⟩
      rw [entries, entries, step, h]
      exact upsertAnnounce_spec hslots
  | announce nowUs addr key =>
    rw [Next, step]
    obtain ⟨hknown, h⟩ | ⟨-, hfull, h⟩ | ⟨j, hnew, hfree, h⟩ := announce_eq nowUs addr key n
    · rw [if_neg fun hc => hc.1 hknown, h]
    · rw [if_neg fun hc => hfull hc.2, h]
    · rw [if_pos ⟨hnew, mem_of_getElem? hfree⟩, h]
      exact upsertAnnounce_spec hslots
  | unannounce key =>
    have hchange := @step_change crypto n (.unannounce key)
    generalize step crypto n (.unannounce key) = n' at hchange
    cases hchange with
    | same _ hi => exact absurd rfl (hi key)
    | unannounce _ hset _ =>
      rw [Next, entries, hset, reduceOption_filter]
      rfl
  | tick buckets => rfl

end Steps

section Answer

variable {crypto} {n : Node}

def Listed (crypto : Primitives) (n : Node) (key : UInt64) (peers : List Peer) : Prop :=
  if ∃ a ∈ entries n, a.shardKey = key then
    peers ≠ [] ∧ ∀ p ∈ peers, ∃ a ∈ entries n, a.shardKey = key ∧ a.announcer = p
  else peers = findKclosestPeers n.server.buckets (crypto.blake3 (keyLe key))

theorem mem_announceLookup {p : Peer} (h : p ∈ announceLookup n.server.announces key) :
    ∃ a ∈ entries n, a.shardKey = key ∧ a.announcer = p := by
  obtain ⟨a, ha, hp⟩ := mem_map.mp (mem_of_mem_take h)
  obtain ⟨ha, hkey⟩ := mem_filter.mp ha
  exact ⟨a, ha, of_decide_eq_true hkey, hp⟩

theorem announceLookup_ne_nil (h : ∃ a ∈ entries n, a.shardKey = key) :
    announceLookup n.server.announces key ≠ [] := by
  obtain ⟨a, ha, hkey⟩ := h
  have hmem : a.announcer ∈ ((entries n).filter fun x => x.shardKey = key).map Announce.announcer :=
    mem_map_of_mem (mem_filter.mpr ⟨ha, decide_eq_true hkey⟩)
  intro hnil
  obtain h | h := take_eq_nil_iff.mp hnil
  · cases h
  · exact ne_nil_of_mem hmem h

end Answer

/-- What holds of the announce set: its size, keys and origins, its next change, and what is
answered from it. -/
structure Integrity (crypto : Primitives) (secret localPeerId : Bytes32) (inputs : List Input)
    (n : Node) : Prop where
  size : (entries n).length ≤ maxAnnounces
  distinct : ((entries n).map pair).Nodup
  origin : ∀ a ∈ entries n, Origin crypto secret localPeerId inputs a
  next : ∀ i, Next crypto n (step crypto n i) i
  answer : ∀ peerId buf req, decodeGetPeersReq buf = .ok req → ∃ peers, Listed crypto n req.key peers ∧
    handleGetPeers crypto n.server peerId buf =
      encodeGetPeersResp ⟨req.txid, peers, computeToken crypto secret peerId⟩ respBuf

/-- The announce set keeps its integrity whatever comes in. -/
theorem announces_sound (crypto : Primitives) (secret localPeerId : Bytes32) (inputs : List Input) :
    Integrity crypto secret localPeerId inputs (run crypto (init secret localPeerId) inputs) := by
  have h := @sound_run crypto secret localPeerId inputs
  generalize run crypto (init secret localPeerId) inputs = n at h
  refine ⟨?_, h.distinct, h.origin, fun i => next_of_slots h.slots i, ?_⟩
  · rw [← h.slots]
    exact reduceOption_length_le _
  · intro peerId buf req hreq
    refine ⟨_, ?_, h.tokens ▸ handleGetPeers_eq hreq n.server peerId⟩
    rw [Listed, listedPeers]
    by_cases hany : ∃ a ∈ entries n, a.shardKey = req.key
    · have hne := announceLookup_ne_nil hany
      rw [if_pos hany, if_neg fun h0 => hne (length_eq_zero_iff.mp h0)]
      exact ⟨hne, fun p hp => mem_announceLookup hp⟩
    · have hnil : announceLookup n.server.announces req.key = [] := by
        apply eq_nil_iff_forall_not_mem.mpr
        intro p hp
        obtain ⟨a, ha, hkey, -⟩ := mem_announceLookup hp
        exact hany ⟨a, ha, hkey⟩
      rw [if_neg hany, if_pos (by rw [hnil, length_nil])]

end AntsClient.Dht.Announces
