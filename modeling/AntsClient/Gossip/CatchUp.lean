import AntsClient.Gossip.Flood
import AntsClient.Gossip.Traffic

namespace AntsClient.Gossip.CatchUp

open Common Cbor.Head Crypto Crdt Proof Container Refine Operations Equivocation Frames
  Dissemination Reactions Network Flood Traffic List
open Crdt.Converge (samplePeer)

variable {y x : Elem} {events : List Event} {k : Nat} {j : Bool} {packet : Packet Bool}

/-- Engines that are peers of each other; the first sends its digests to all of its peers,
and neither is its own peer. -/
structure Peers (a b : Engine) : Prop where
  apart : a.selfId ≠ b.selfId
  first : b.selfId ∈ a.view
  second : a.selfId ∈ b.view
  fanout : a.view.length ≤ a.fanout
  firstSelf : a.selfId ∉ a.view
  secondSelf : b.selfId ∉ b.view

def IsDeliver : Action Bool → Prop
  | .deliver .. => True
  | .submit .. | .announce _ | .addPeer .. | .removePeer .. | .prune .. => False

def Quiet (net : Net Bool) : Prop := ∀ packet ∈ net.inFlight, ∀ i, packet.dst ≠ (net.engines i).selfId

def Round (crypto : Primitives) (net net' : Net Bool) : Prop :=
  ∃ delivers, (∀ a ∈ delivers, IsDeliver a) ∧
    run crypto net (.announce false :: delivers) = some net' ∧ Quiet net'

def Rounds (crypto : Primitives) : Nat → Net Bool → Net Bool → Prop
  | 0, net, net' => net = net'
  | n + 1, net, net' => ∃ mid, Round crypto net mid ∧ Rounds crypto n mid net'

def Eligible (e : Engine) (x : Elem) : Prop := e.announceMinEpoch.toNat ≤ x.epoch ∧ x.proof.length ≤ maxProof

/-- The digest and the first request are within the limits of those they are for. -/
structure Open (a b : Engine) : Prop where
  ihave : (Frame.ihave (digest a)).bytes.length ≤ b.maxFrameBytes
  iwant : (Frame.iwant (wanted b (digest a))).bytes.length ≤ a.maxFrameBytes

structure Granted (a b : Engine) (x : Elem) : Prop where
  digest : x.contentId ∈ digest a
  isOpen : Open a b
  push : (Frame.push x.proof).bytes.length ≤ b.maxFrameBytes

inductive Owed (a b : Engine) : Packet Bool → Prop
  | ihave (hne : digest a ≠ []) : Owed a b ⟨false, b.selfId, (Frame.ihave (digest a)).bytes⟩
  | iwant {want : List Bytes32} (hne : want ≠ []) (hsub : want ⊆ digest a)
    (hle : want.length ≤ (wanted b (digest a)).length)
      (hihave : (Frame.ihave (digest a)).bytes.length ≤ b.maxFrameBytes)
        (hfirst : want = wanted b (digest a) ∨ Open a b) :
      Owed a b ⟨true, a.selfId, (Frame.iwant want).bytes⟩
  | push {y : Elem} (hy : y ∈ stored a.store.set) (hdigest : y.contentId ∈ digest a) (hopen : Open a b)
      (hsend : (Frame.push y.proof).Sendable) : Owed a b ⟨false, b.selfId, (Frame.push y.proof).bytes⟩

structure Ahead (a b e : Engine) : Prop where
  alike : Alike b e
  floor : e.store.set.floor = 0
  kept : stored b.store.set ⊆ stored e.store.set
  gained : ∀ y ∈ stored e.store.set, y ∉ stored b.store.set → y ∈ stored a.store.set ∧ Granted a b y

structure Exchange (a b : Engine) (net : Net Bool) : Prop where
  first : ∃ rotation, net.engines false = { a with rotation := rotation }
  second : Ahead a b (net.engines true)
  flight : ∀ packet ∈ net.inFlight, packet.dst = a.selfId ∨ packet.dst = b.selfId → Owed a b packet

variable {crypto : Primitives} {a b e e' : Engine} {net net' : Net Bool} {act : Action Bool}
  {want : List Bytes32} {v : View} {exclude : Option Bytes32} {i : Bool} {store : Store}

section Ahead

theorem digest_sendable (hne : digest a ≠ []) : (Frame.ihave (digest a)).Sendable :=
  ⟨length_pos_iff.mpr hne, digest_length a⟩

theorem wanted_length (e : Engine) (ids : List Bytes32) : (wanted e ids).length ≤ ids.length :=
  length_filter_le ..

theorem want_sendable (hne : want ≠ []) (hle : want.length ≤ (wanted b (digest a)).length) :
    (Frame.iwant want).Sendable :=
  ⟨length_pos_iff.mpr hne, hle.trans ((wanted_length ..).trans (digest_length a))⟩

theorem stored_offer {z : Elem} (h : z ∈ (offer v y).stored) : z ∈ v.stored ∨ z = y := by
  rw [offer] at h
  split_ifs at h
  · exact .inl h
  · exact .inl h
  · exact (Finset.mem_insert.mp h).symm

theorem offer_names (hfloor : v.floor = 0) : ∃ z ∈ (offer v y).stored, z.contentId = y.contentId := by
  rw [offer, if_neg (by omega)]
  split_ifs with hold
  · exact hold
  · exact ⟨y, Finset.mem_insert_self _ _, rfl⟩

theorem learns_stored (hy : elemOf crypto y.proof = some y)
    (h : Learns crypto e y.proof exclude e' events) (hfloor : e.store.set.floor = 0) :
    stored e.store.set ⊆ stored e'.store.set ∧ (∀ z ∈ stored e'.store.set, z ∈ stored e.store.set ∨ z = y) ∧
      ∃ z ∈ stored e'.store.set, z.contentId = y.contentId := by
  have hoffer {x : Elem} {store : Store} (hx : elemOf crypto y.proof = some x)
    (hview : view store.set = offer (view e.store.set) x) :
      stored e.store.set ⊆ stored store.set ∧ (∀ z ∈ stored store.set, z ∈ stored e.store.set ∨ z = y) ∧
        ∃ z ∈ stored store.set, z.contentId = y.contentId := by
    obtain rfl := Option.some.inj (hy.symm.trans hx)
    have hstored : stored store.set = (offer (view e.store.set) y).stored := congrArg View.stored hview
    rw [hstored]
    exact ⟨stored_subset_offer (view e.store.set) y, fun z => stored_offer, offer_names hfloor⟩
  cases h with
  | refused hnone => cases hy.symm.trans hnone
  | known hx _ hview | fresh hx _ hview => exact hoffer hx hview

theorem Ahead.learns (h : Ahead a b e) (hy : elemOf crypto y.proof = some y) (hmem : y ∈ stored a.store.set)
    (hgranted : Granted a b y) (hl : Learns crypto e y.proof exclude e' events) :
    Ahead a b e' := by
  obtain ⟨hkept, hgained, -⟩ := learns_stored hy hl h.floor
  have halike := learns_alike hl
  refine ⟨⟨halike.selfId.trans h.alike.selfId, halike.view.trans h.alike.view,
    halike.fanout.trans h.alike.fanout,
    halike.frames.trans h.alike.frames⟩, (learns_floor hl).trans h.floor, h.kept.trans hkept,
    fun z hz hnew => ?_⟩
  rcases hgained z hz with hz | rfl
  · exact h.gained z hz hnew
  · exact ⟨hmem, hgranted⟩

/-- What is asked for later was asked for first, and there is nothing else to ask for
before something came through. -/
theorem Ahead.wanted (h : Ahead a b e) (hb : Inv b.store.set) (he : Inv e.store.set) (ids : List Bytes32) :
    (wanted e ids).length ≤ (wanted b ids).length ∧ (wanted e ids = wanted b ids ∨ Open a b) := by
  have hcontains (id : Bytes32) (hid : contains b.store.set id = true) : contains e.store.set id = true := by
    obtain ⟨y, hy, hyid⟩ := (contains_iff hb).mp hid
    exact (contains_iff he).mpr ⟨y, h.kept hy, hyid⟩
  constructor
  · refine (monotone_filter_right ids fun id hid => ?_).length_le
    rw [Bool.not_eq_true'] at hid ⊢
    exact Bool.eq_false_iff.mpr fun hc => Bool.eq_false_iff.mp hid (hcontains id hc)
  · by_cases hsame : stored e.store.set ⊆ stored b.store.set
    · refine .inl (filter_congr fun id _ => congrArg _ (Bool.eq_iff_iff.mpr ⟨fun hc => ?_, hcontains id⟩))
      obtain ⟨y, hy, hyid⟩ := (contains_iff he).mp hc
      exact (contains_iff hb).mpr ⟨y, hsame hy, hyid⟩
    · obtain ⟨y, hy, hnew⟩ := Finset.not_subset.mp hsame
      exact .inr (h.gained y hy hnew).2.isOpen

end Ahead

section Exchange

theorem Exchange.selfId (h : Exchange a b net) (i : Bool) :
    (net.engines i).selfId = if i then b.selfId else a.selfId := by
  obtain ⟨rotation, hfirst⟩ := h.first
  cases i with
  | false => rw [hfirst]; rfl
  | true => exact h.second.alike.selfId

theorem Exchange.put (h : Exchange a b net) {inFlight : List (Packet Bool)} (hold : inFlight ⊆ net.inFlight)
    (hfirst : i = false → ∃ rotation, e = { a with rotation := rotation }) (hsecond : i = true → Ahead a b e)
    (hevents : ∀ peer frame, .sent peer frame ∈ events → peer = a.selfId ∨ peer = b.selfId →
      Owed a b ⟨i, peer, frame⟩) :
    Exchange a b (Net.put { net with inFlight := inFlight } i e events) := by
  refine ⟨?_, ?_, fun packet hmem hdst => ?_⟩
  · refine (Function.forall_update_iff net.engines fun j e =>
      j = false → ∃ rotation, e = { a with rotation := rotation }).mpr
      ⟨hfirst, ?_⟩ false rfl
    rintro _ - rfl
    exact h.first
  · refine (Function.forall_update_iff net.engines fun j e => j = true → Ahead a b e).mpr ⟨hsecond, ?_⟩ true rfl
    rintro _ - rfl
    exact h.second
  · rcases mem_append.mp hmem with hmem | hmem
    · exact h.flight packet (hold hmem) hdst
    · obtain ⟨hsrc, hsent⟩ := mem_packets.mp hmem
      have howed := hevents _ _ hsent hdst
      rw [← hsrc] at howed
      exact howed

section Owed

theorem Owed.of_push (h : Owed a b packet) {proof : Bytes} (hsend : (Frame.push proof).Sendable)
    (hframe : packet.frame = (Frame.push proof).bytes) : packet.src = false ∧ packet.dst = b.selfId ∧
      ∃ y ∈ stored a.store.set, y.proof = proof ∧ y.contentId ∈ digest a ∧ Open a b := by
  cases h with
  | ihave hne => cases Frame.bytes_inj (digest_sendable hne) hsend hframe
  | iwant hne _ hle => cases Frame.bytes_inj (want_sendable hne hle) hsend hframe
  | @push y hy hdigest hopen hsend' =>
    exact ⟨rfl, rfl, y, hy, Frame.push.inj (Frame.bytes_inj hsend' hsend hframe), hdigest, hopen⟩

theorem Owed.of_ihave (h : Owed a b packet) {ids : List Bytes32} (hsend : (Frame.ihave ids).Sendable)
    (hframe : packet.frame = (Frame.ihave ids).bytes) :
    packet.src = false ∧ packet.dst = b.selfId ∧ ids = digest a := by
  cases h with
  | ihave hne => exact ⟨rfl, rfl, (Frame.ihave.inj (Frame.bytes_inj (digest_sendable hne) hsend hframe)).symm⟩
  | iwant hne _ hle => cases Frame.bytes_inj (want_sendable hne hle) hsend hframe
  | push _ _ _ hsend' => cases Frame.bytes_inj hsend' hsend hframe

theorem Owed.of_iwant (h : Owed a b packet) (hsend : (Frame.iwant want).Sendable)
    (hframe : packet.frame = (Frame.iwant want).bytes) :
    packet.src = true ∧ packet.dst = a.selfId ∧ want ⊆ digest a ∧
      (Frame.ihave (digest a)).bytes.length ≤ b.maxFrameBytes ∧ (want = wanted b (digest a) ∨ Open a b) := by
  cases h with
  | ihave hne => cases Frame.bytes_inj (digest_sendable hne) hsend hframe
  | iwant hne hsub hle hihave hfirst =>
    obtain rfl := Frame.iwant.inj (Frame.bytes_inj (want_sendable hne hle) hsend hframe)
    exact ⟨rfl, rfl, hsub, hihave, hfirst⟩
  | push _ _ _ hsend' => cases Frame.bytes_inj hsend' hsend hframe

end Owed

theorem Exchange.owed (h : Exchange a b net) (hk : net.inFlight[k]? = some packet)
    (hdst : (net.engines j).selfId = packet.dst) : Owed a b packet := by
  refine h.flight packet (mem_of_getElem? hk) ?_
  rw [h.selfId] at hdst
  cases j with
  | false => exact .inl hdst.symm
  | true => exact .inr hdst.symm

theorem Exchange.target (h : Exchange a b net) (hpeers : Peers a b)
    (hdst : (net.engines j).selfId = packet.dst) :
    (packet.dst = a.selfId → j = false) ∧ (packet.dst = b.selfId → j = true) := by
  rw [h.selfId] at hdst
  rw [← hdst]
  cases j with
  | false => exact ⟨fun _ => rfl, fun heq => absurd heq hpeers.apart⟩
  | true => exact ⟨fun heq => absurd heq.symm hpeers.apart, fun _ => rfl⟩

theorem Steps.exchange (hpeers : Peers a b) (ha : Healthy crypto a.store) (hb : Inv b.store.set)
    (hstep : Steps crypto net act net')
    (hact : act = .announce false ∨ IsDeliver act) (hsound : Sound crypto Set.univ net) (h : Exchange a b net) :
    Exchange a b net' := by
  obtain ⟨rotation, hfirst⟩ := h.first
  have hsame (j : Bool) : j = true → Ahead a b (net.engines j) := fun hj => hj ▸ h.second
  have hsame' (j : Bool) : j = false → ∃ rotation,
    net.engines j = { a with rotation := rotation } := fun hj => hj ▸ h.first
  cases hstep with
  | submit | addPeer | removePeer | prune => exact (hact.resolve_left (by simp)).elim
  | @announce i rotation' =>
    obtain rfl : i = false := by simpa [IsDeliver] using hact
    refine h.put (List.Subset.refl _) (fun _ => ⟨rotation', by rw [hfirst]⟩) (fun hi => by cases hi) ?_
    intro peer frame hsent hpeer
    rw [hfirst] at hsent
    obtain ⟨hpick, hsend, rfl⟩ := announcement_sent hsent
    rcases hpeer with rfl | rfl
    · exact absurd (fanoutPick_mem hpick).1 hpeers.firstSelf
    · exact .ihave (length_pos_iff.mp hsend.1)
  | @ignored k j nowUs packet hk hdst =>
    exact h.put (eraseIdx_subset ..) (hsame' j) (hsame j) fun _ _ hsent => by cases hsent
  | @push k j nowUs packet proof e events hk hdst hframe hsend hl hsmall =>
    obtain ⟨hsrc, hto, y, hy, rfl, hdigest, hopen⟩ := (h.owed hk hdst).of_push hsend hframe
    obtain rfl := (h.target hpeers hdst).2 hto
    have hgranted : Granted a b y := ⟨hdigest, hopen, hframe ▸ hsmall.trans h.second.alike.frames.le⟩
    refine h.put (eraseIdx_subset ..) (fun hj => by cases hj)
      (fun _ => h.second.learns (ha.accepted y hy) hy hgranted hl) fun peer frame hsent hpeer => ?_
    obtain ⟨hview, hne, -⟩ := hl.sent hsent
    rw [hsrc, h.selfId] at hne
    rcases hpeer with rfl | rfl
    · exact absurd rfl hne
    · exact absurd (h.second.alike.view ▸ hview) hpeers.secondSelf
  | @ihave k j nowUs packet ids hk hdst hframe hsend hsmall =>
    obtain ⟨hsrc, hto, rfl⟩ := (h.owed hk hdst).of_ihave hsend hframe
    obtain rfl := (h.target hpeers hdst).2 hto
    refine h.put (eraseIdx_subset ..) (fun hj => by cases hj) (hsame true) fun peer frame hsent _ => ?_
    obtain ⟨hpeer, hwant, rfl⟩ := request_sent hsend.2 hsent
    rw [hsrc, h.selfId] at hpeer
    obtain rfl : peer = a.selfId := hpeer
    obtain ⟨hle, hrequest⟩ := h.second.wanted hb (hsound.healthy true).inv (digest a)
    exact .iwant (length_pos_iff.mp hwant.1) filter_sublist.subset hle
      (hframe ▸ hsmall.trans h.second.alike.frames.le)
      hrequest
  | @iwant k j nowUs packet want hk hdst hframe hsend hsmall =>
    obtain ⟨hsrc, hto, hsub, hihave, hrequest⟩ := (h.owed hk hdst).of_iwant hsend hframe
    obtain rfl := (h.target hpeers hdst).1 hto
    rw [hframe, hfirst] at hsmall
    have hopen : Open a b := hrequest.elim (fun heq => ⟨hihave, heq ▸ hsmall⟩) id
    refine h.put (eraseIdx_subset ..) (hsame' false) (fun hj => by cases hj) fun peer frame hsent _ => ?_
    rw [hfirst] at hsent
    obtain ⟨hpeer, y, hy, hid, hpush, rfl⟩ := answer_sent hsent
    rw [hsrc, h.selfId] at hpeer
    obtain rfl : peer = b.selfId := hpeer
    exact .push hy (hsub hid) hopen hpush

end Exchange

section Progress

inductive Carries (a b : Engine) (x : Elem) : Packet Bool → Prop
  | ihave : Carries a b x ⟨false, b.selfId, (Frame.ihave (digest a)).bytes⟩
  | iwant {want : List Bytes32} (hx : x.contentId ∈ want) (hle : want.length ≤ (wanted b (digest a)).length) :
      Carries a b x ⟨true, a.selfId, (Frame.iwant want).bytes⟩
  | push : Carries a b x ⟨false, b.selfId, (Frame.push x.proof).bytes⟩

/-- The proof has arrived, or is going to. -/
def Due (a b : Engine) (x : Elem) (net : Net Bool) : Prop :=
  contains (net.engines true).store.set x.contentId = true ∨ ∃ packet ∈ net.inFlight, Carries a b x packet

/-- The proof stays due when the frame that is taken did not carry it, or when it is due
because of what the frame led to. -/
theorem Due.put (h : Due a b x net) (hk : net.inFlight[k]? = some packet)
    (hkeep : j = true → contains (net.engines true).store.set x.contentId = true →
      contains e.store.set x.contentId = true)
    (htaken : Carries a b x packet → Due a b x ((net.drop k).put j e events)) :
    Due a b x ((net.drop k).put j e events) := by
  rcases h with hcontains | ⟨packet', hmem, hcarries⟩
  · refine .inl ((Function.forall_update_iff net.engines fun i e =>
      i = true → contains e.store.set x.contentId = true).mpr
      ⟨fun hj => hkeep hj hcontains, ?_⟩ true rfl)
    rintro _ - rfl
    exact hcontains
  · rcases mem_drop hk hmem with hkept | rfl
    · exact .inr ⟨packet', mem_append_left _ hkept, hcarries⟩
    · exact htaken hcarries

theorem Steps.due (hpeers : Peers a b) (ha : Healthy crypto a.store) (hb : Inv b.store.set)
    (hx : x ∈ stored a.store.set)
    (hsend : (Frame.push x.proof).Sendable) (hgranted : Granted a b x) (hstep : Steps crypto net act net')
    (hact : IsDeliver act) (hsound : Sound crypto Set.univ net) (h : Exchange a b net)
    (hdue : Due a b x net) : Due a b x net' := by
  obtain ⟨rotation, hfirst⟩ := h.first
  have hdigest : digest a ≠ [] := ne_nil_of_mem hgranted.digest
  have hkeep (j : Bool) : j = true → contains (net.engines true).store.set x.contentId = true →
      contains (net.engines j).store.set x.contentId = true := by
    rintro rfl
    exact id
  cases hstep with
  | submit | announce | addPeer | removePeer | prune => exact hact.elim
  | @ignored k j nowUs packet hk hdst hlarge =>
    -- none of the frames that carry the proof is too large
    refine hdue.put hk (hkeep j) fun hcarries => absurd hlarge (Nat.not_lt.mpr ?_)
    have htarget := h.target hpeers hdst
    cases hcarries with
    | ihave =>
      obtain rfl := htarget.2 rfl
      exact hgranted.isOpen.ihave.trans h.second.alike.frames.ge
    | iwant hmem hle =>
      obtain rfl := htarget.1 rfl
      rw [hfirst]
      exact (iwant_length_le hle).trans hgranted.isOpen.iwant
    | push =>
      obtain rfl := htarget.2 rfl
      exact hgranted.push.trans h.second.alike.frames.ge
  | @push k j nowUs packet proof e events hk hdst hframe hpush hl =>
    obtain ⟨-, hto, y, hy, rfl, -⟩ := (h.owed hk hdst).of_push hpush hframe
    obtain rfl := (h.target hpeers hdst).2 hto
    have he := (hl.healthy (hsound.healthy true)).inv
    obtain ⟨hkept, -, hgot⟩ := learns_stored (ha.accepted y hy) hl h.second.floor
    refine hdue.put hk (fun _ hcontains => ?_) fun hcarries => .inl ?_
    · obtain ⟨z, hz, hid⟩ := (contains_iff (hsound.healthy true).inv).mp hcontains
      exact (contains_iff he).mpr ⟨z, hkept hz, hid⟩
    · have hsame : y = x := by
        cases hcarries with
        | ihave => cases Frame.bytes_inj (digest_sendable hdigest) hpush hframe
        | iwant hmem hle => cases Frame.bytes_inj (want_sendable (ne_nil_of_mem hmem) hle) hpush hframe
        | push =>
          have hproof := Frame.push.inj (Frame.bytes_inj hsend hpush hframe)
          exact Option.some.inj ((ha.accepted y hy).symm.trans (hproof ▸ ha.accepted x hx))
      change contains (Function.update net.engines true e true).store.set x.contentId = true
      rw [Function.update_self, ← hsame]
      exact (contains_iff he).mpr hgot
  | @ihave k j nowUs packet ids hk hdst hframe hids =>
    obtain ⟨hsrc, hto, rfl⟩ := (h.owed hk hdst).of_ihave hids hframe
    obtain rfl := (h.target hpeers hdst).2 hto
    refine hdue.put hk (hkeep true) fun _ => ?_
    by_cases hcontains : contains (net.engines true).store.set x.contentId = true
    · refine .inl ?_
      change contains (Function.update net.engines true (net.engines true) true).store.set x.contentId = true
      rwa [Function.update_self]
    · have hwant : x.contentId ∈ wanted (net.engines true) (digest a) :=
        mem_filter.mpr ⟨hgranted.digest, by simpa using hcontains⟩
      refine .inr ⟨⟨true, a.selfId, (Frame.iwant (wanted (net.engines true) (digest a))).bytes⟩,
        mem_append_right _ (mem_packets.mpr ⟨rfl, ?_⟩),
        .iwant hwant (h.second.wanted hb (hsound.healthy true).inv _).1⟩
      rw [request, if_neg (ne_nil_of_mem hwant), hsrc, h.selfId]
      exact mem_sends.mpr ⟨mem_cons_self, rfl⟩
  | @iwant k j nowUs packet want hk hdst hframe hwant =>
    obtain ⟨hsrc, hto, -⟩ := (h.owed hk hdst).of_iwant hwant hframe
    obtain rfl := (h.target hpeers hdst).1 hto
    refine hdue.put hk (hkeep false) fun hcarries => ?_
    have hmem : x.contentId ∈ want := by
      cases hcarries with
      | ihave => cases Frame.bytes_inj (digest_sendable hdigest) hwant hframe
      | push => cases Frame.bytes_inj hsend hwant hframe
      | iwant hmem hle =>
        exact Frame.iwant.inj (Frame.bytes_inj (want_sendable (ne_nil_of_mem hmem) hle) hwant
          hframe) ▸ hmem
    have hserved : x.proof ∈ served (net.engines false) want := by
      rw [hfirst]
      exact mem_served.mpr ⟨x, hx, hmem, rfl, hsend⟩
    refine .inr ⟨_, mem_append_right _ (mem_packets.mpr ⟨rfl, ?_⟩), .push⟩
    refine mem_flatMap.mpr ⟨x.proof, hserved, mem_sends.mpr ⟨?_, rfl⟩⟩
    rw [hsrc, h.selfId]
    exact mem_cons_self

theorem announce_due (hpeers : Peers a b) (h : Exchange a b net) (hx : x.contentId ∈ digest a)
    (hstep : Steps crypto net (.announce false) net') : Due a b x net' := by
  obtain ⟨rotation, hfirst⟩ := h.first
  cases hstep with
  | announce =>
    refine .inr ⟨_, mem_append_right _ (mem_packets.mpr ⟨rfl, ?_⟩), .ihave⟩
    rw [hfirst]
    have hne : digest { a with rotation := rotation } ≠ [] := ne_nil_of_mem hx
    rw [announcement, if_neg hne]
    refine mem_sends.mpr ⟨?_, rfl⟩
    exact (@mem_fanoutPick { a with rotation := rotation } hpeers.fanout _ _).mpr ⟨hpeers.first, by simp⟩

theorem Due.arrived (hdue : Due a b x net) (h : Exchange a b net) (hquiet : Quiet net) :
    contains (net.engines true).store.set x.contentId = true := by
  refine hdue.resolve_right fun ⟨packet, hmem, hcarries⟩ => ?_
  have hnone := hquiet packet hmem
  cases hcarries with
  | ihave | push => exact hnone true (h.selfId true).symm
  | iwant => exact hnone false (h.selfId false).symm

end Progress

section Toward

def addressed (a b : Engine) (packet : Packet Bool) : Bool := packet.dst = a.selfId || packet.dst = b.selfId

def toward (a b : Engine) (inFlight : List (Packet Bool)) : Nat :=
  ((inFlight.filter (addressed a b)).map fun packet => 1 + cost packet.frame).sum

theorem toward_append (l l' : List (Packet Bool)) : toward a b (l ++ l') = toward a b l + toward a b l' := by
  rw [toward, filter_append, map_append, sum_append]
  rfl

theorem toward_drop (hk : net.inFlight[k]? = some packet) (hto : addressed a b packet = true) :
    toward a b (net.drop k).inFlight + (1 + cost packet.frame) = toward a b net.inFlight := by
  obtain ⟨hlt, rfl⟩ := List.getElem?_eq_some_iff.mp hk
  have hperm := ((getElem_cons_eraseIdx_perm hlt).symm.filter (addressed a b)).map fun packet =>
    1 + cost packet.frame
  rw [toward, toward, hperm.sum_eq, filter_cons_of_pos hto, map_cons, sum_cons, Nat.add_comm]
  rfl

theorem toward_packets_le (i : Bool) (events : List Event) : toward a b (packets i events) ≤ load events := by
  induction events with
  | nil => exact le_rfl
  | cons event events ih =>
    cases event with
    | observed | forwarded => exact ih.trans (Nat.le_add_left ..)
    | sent peer frame =>
      change toward a b (⟨i, peer, frame⟩ :: packets i events) ≤ 1 + cost frame + load events
      rw [toward, filter_cons]
      split
      · exact Nat.add_le_add_left ih _
      · exact ih.trans (Nat.le_add_left ..)

theorem toward_packets_eq_zero
    (h : ∀ peer frame, .sent peer frame ∈ events → peer ≠ a.selfId ∧ peer ≠ b.selfId) :
    toward a b (packets i events) = 0 := by
  have hnone : (packets i events).filter (addressed a b) = [] := by
    refine filter_eq_nil_iff.mpr fun packet hmem => ?_
    obtain ⟨hne, hne'⟩ := h _ _ (mem_packets.mp hmem).2
    simp [addressed, hne, hne']
  rw [toward, hnone]
  rfl

theorem deliver_decreases (hpeers : Peers a b) (hsound : Sound crypto Set.univ net) (h : Exchange a b net)
    {nowUs : UInt64} (hstep : Steps crypto net (.deliver k j nowUs) net') :
    toward a b net'.inFlight < toward a b net.inFlight := by
  have hdelivered {packet : Packet Bool} {e : Engine} {events : List Event}
    (hk : net.inFlight[k]? = some packet)
      (hdst : (net.engines j).selfId = packet.dst) (hle : toward a b (packets j events) ≤ cost packet.frame) :
      toward a b ((net.drop k).put j e events).inFlight < toward a b net.inFlight := by
    have hto : addressed a b packet = true := by
      rw [addressed, ← hdst, h.selfId]
      cases j with
      | false | true => simp
    have hdrop := toward_drop hk hto
    change toward a b ((net.drop k).inFlight ++ packets j events) < _
    rw [toward_append]
    omega
  cases hstep with
  | @ignored _ _ _ packet hk hdst => exact hdelivered hk hdst (Nat.zero_le _)
  | @push _ _ _ packet proof e events hk hdst hframe hsend hl =>
    obtain ⟨hsrc, hto, -⟩ := (h.owed hk hdst).of_push hsend hframe
    refine hdelivered hk hdst ((toward_packets_eq_zero fun peer frame hsent => ?_).le.trans (Nat.zero_le _))
    obtain ⟨hview, hne, -⟩ := hl.sent hsent
    rw [hsrc, h.selfId] at hne
    obtain rfl := (h.target hpeers hdst).2 hto
    exact ⟨fun heq => hne (congrArg some heq.symm), fun heq =>
      hpeers.secondSelf (heq ▸ h.second.alike.view ▸ hview)⟩
  | @ihave _ _ _ packet ids hk hdst hframe hsend =>
    refine hdelivered hk hdst ((toward_packets_le ..).trans ?_)
    rw [hframe, cost_eq hsend]
    exact request_load hsend.2
  | @iwant _ _ _ packet want hk hdst hframe hsend =>
    refine hdelivered hk hdst ((toward_packets_le ..).trans ?_)
    rw [hframe, cost_eq hsend]
    exact answer_load (hsound.healthy j).inv hsend.2

end Toward

section Rounds

variable {n : Nat}

/-- The second engine has not gone beyond what is granted, and holds all of it once there was a
round. -/
structure Caught (crypto : Primitives) (a b : Engine) (n : Nat) (net : Net Bool) : Prop where
  sound : Sound crypto Set.univ net
  exchange : Exchange a b net
  arrived : n ≠ 0 → ∀ x ∈ stored a.store.set, (Frame.push x.proof).Sendable → Granted a b x →
    contains (net.engines true).store.set x.contentId = true

theorem contentId_inj {s : GSet} (hs : Inv s) (hx : x ∈ stored s) (hy : y ∈ stored s)
    (h : x.contentId = y.contentId) : x = y := by
  exact inj_on_of_nodup_map (contentIds_nodup hs) (mem_toFinset.mp hx) (mem_toFinset.mp hy) h

/-- After rounds, the second set contains a proof of the first exactly when it did before, or when
it is in the digest and fits through. -/
theorem Caught.contains_iff (h : Caught crypto a b n net) (hn : n ≠ 0) (ha : Healthy crypto a.store)
    (hb : Inv b.store.set) {x : Elem}
    (hx : x ∈ stored a.store.set) (hsmall : x.proof.length ≤ maxProof) :
    contains (net.engines true).store.set x.contentId = true ↔
    contains b.store.set x.contentId = true ∨ Granted a b x := by
  have hinv := (h.sound.healthy true).inv
  constructor
  · intro hcontains
    obtain ⟨y, hy, hid⟩ := (Crdt.Refine.contains_iff hinv).mp hcontains
    by_cases hold : y ∈ stored b.store.set
    · exact .inl ((Crdt.Refine.contains_iff hb).mpr ⟨y, hold, hid⟩)
    · obtain ⟨hya, hgranted⟩ := h.exchange.second.gained y hy hold
      exact .inr (contentId_inj ha.inv hya hx hid ▸ hgranted)
  · rintro (hcontains | hgranted)
    · obtain ⟨y, hy, hid⟩ := (Crdt.Refine.contains_iff hb).mp hcontains
      exact (Crdt.Refine.contains_iff hinv).mpr ⟨y, h.exchange.second.kept hy, hid⟩
    · have hpos : 0 < x.proof.length := by
        by_contra hzero
        have hnone := @elemOf_empty crypto _ (Nat.eq_zero_of_not_pos hzero)
        cases (ha.accepted x hx).symm.trans hnone
      exact h.arrived hn x hx ⟨hpos, hsmall⟩ hgranted

variable (hpeers : Peers a b) (ha : Healthy crypto a.store) (hb : Inv b.store.set)
  (hsound : Sound crypto Set.univ net)
  (h : Exchange a b net)

include hpeers ha hb hsound h

theorem round_caught (hround : Round crypto net net') : Caught crypto a b 1 net' := by
  obtain ⟨delivers, hdelivers, hrun, hquiet⟩ := hround
  obtain ⟨mid, hmid, hrest⟩ := Option.bind_eq_some_iff.mp hrun
  have hannounce := step_cases hsound hmid
  have hmidSound : Sound crypto Set.univ mid := hannounce.sound hsound fun _ _ _ => trivial
  have hmidExchange := Steps.exchange hpeers ha hb hannounce (.inl rfl) hsound h
  obtain ⟨hsound', hexchange, hdue⟩ := run_induct (P := fun _ net => Exchange a b net ∧
    ∀ x ∈ stored a.store.set, (Frame.push x.proof).Sendable → Granted a b x → Due a b x net) (Set.subset_univ _)
    (fun _ net act net' hmem hsound ⟨hexchange, hdue⟩ hstep => by
      have hact : IsDeliver act := hdelivers act hmem
      exact ⟨Steps.exchange hpeers ha hb hstep (.inr hact) hsound hexchange,
        fun x hx hsend hgranted => Steps.due hpeers ha hb hx hsend hgranted hstep hact hsound
        hexchange (hdue x hx hsend hgranted)⟩)
    [] hmidSound ⟨hmidExchange, fun x _ _ hgranted => announce_due hpeers h hgranted.digest hannounce⟩ hrest
  exact ⟨hsound', hexchange, fun _ x hx hsend hgranted => (hdue x hx hsend hgranted).arrived hexchange hquiet⟩

theorem rounds_caught (hrounds : Rounds crypto n net net') : Caught crypto a b n net' := by
  induction n generalizing net with
  | zero =>
    obtain rfl := hrounds
    exact ⟨hsound, h, fun hne => absurd rfl hne⟩
  | succ n ih =>
    obtain ⟨mid, hround, hrest⟩ := hrounds
    have hmid := round_caught hpeers ha hb hsound h hround
    have hend := ih hmid.sound hmid.exchange hrest
    refine ⟨hend.sound, hend.exchange, fun _ => ?_⟩
    cases n with
    | zero =>
      obtain rfl := hrest
      exact hmid.arrived one_ne_zero
    | succ n => exact hend.arrived n.succ_ne_zero

theorem delivers_exist : ∃ delivers net', (∀ act ∈ delivers, IsDeliver act) ∧
    run crypto net delivers = some net' ∧ Quiet net' := by
  induction hn : toward a b net.inFlight using Nat.strong_induction_on generalizing net with
  | _ n ih =>
    by_cases hquiet : Quiet net
    · exact ⟨[], net, fun _ hmem => absurd hmem not_mem_nil, rfl, hquiet⟩
    · simp only [Quiet, not_forall, not_not] at hquiet
      obtain ⟨packet, hmem, j, hdst⟩ := hquiet
      obtain ⟨k, hlt, hpacket⟩ := getElem_of_mem hmem
      obtain ⟨mid, hmid⟩ : ∃ mid, step crypto net (.deliver k j 0) = some mid := by
        rw [step, getElem?_eq_getElem hlt, hpacket]
        exact ⟨_, if_pos hdst.symm⟩
      have hsteps := step_cases hsound hmid
      have hlt := deliver_decreases hpeers hsound h hsteps
      obtain ⟨delivers, net', hdelivers, hrun, hquiet⟩ :=
        ih _ (hn ▸ hlt) (hsteps.sound hsound fun _ _ _ => trivial)
        (Steps.exchange hpeers ha hb hsteps (.inr trivial) hsound h) rfl
      refine ⟨.deliver k j 0 :: delivers, net', forall_mem_cons.mpr ⟨trivial, hdelivers⟩, ?_, hquiet⟩
      rw [run, hmid]
      exact hrun

theorem rounds_exist (n : Nat) : ∃ net', Rounds crypto n net net' := by
  induction n generalizing net with
  | zero => exact ⟨net, rfl⟩
  | succ n ih =>
    obtain ⟨mid, hmid⟩ : ∃ mid, step crypto net (.announce false) = some mid := ⟨_, rfl⟩
    have hsteps := step_cases hsound hmid
    obtain ⟨delivers, net', hdelivers, hrun, hquiet⟩ :=
      delivers_exist hpeers ha hb (hsteps.sound hsound fun _ _ _ => trivial)
      (Steps.exchange hpeers ha hb hsteps (.inl rfl) hsound h)
    have hround : Round crypto net net' := ⟨delivers, hdelivers, by rw [run, hmid]; exact hrun, hquiet⟩
    have hcaught := round_caught hpeers ha hb hsound h hround
    obtain ⟨last, hlast⟩ := ih hcaught.sound hcaught.exchange
    exact ⟨last, net', hround, hlast⟩

end Rounds

structure Ready (crypto : Primitives) (net : Net Bool) : Prop where
  peers : Peers (net.engines false) (net.engines true)
  first : Healthy crypto (net.engines false).store
  second : Healthy crypto (net.engines true).store
  floor : (net.engines true).store.set.floor = 0
  inFlight : net.inFlight = []

theorem Ready.sound (h : Ready crypto net) : Sound crypto Set.univ net := by
  refine ⟨fun i => ?_, fun _ _ _ => trivial, ?_⟩
  · cases i with
    | false => exact h.first
    | true => exact h.second
  · rw [h.inFlight]
    exact fun _ hmem => absurd hmem not_mem_nil

theorem Ready.exchange (h : Ready crypto net) : Exchange (net.engines false) (net.engines true) net := by
  refine ⟨⟨_, rfl⟩, ⟨⟨rfl, rfl, rfl, rfl⟩, h.floor, subset_rfl, fun _ hy hnew => absurd hy hnew⟩, ?_⟩
  rw [h.inFlight]
  exact fun _ hmem => absurd hmem not_mem_nil

/-- After as many rounds as the first engine holds proofs, the second contains each eligible one
exactly when it did before or it is in the digest, with no frame too large on the way. -/
theorem catches_up_iff (h : Ready crypto net)
    (hrounds : Rounds crypto (size (net.engines false).store.set) net net') :
    (∀ x ∈ stored (net.engines false).store.set, Eligible (net.engines false) x →
      contains (net'.engines true).store.set x.contentId = true) ↔
    ∀ x ∈ stored (net.engines false).store.set, Eligible (net.engines false) x →
      contains (net.engines true).store.set x.contentId = true ∨
      Granted (net.engines false) (net.engines true) x := by
  have hcaught := rounds_caught h.peers h.first h.second.inv h.sound h.exchange hrounds
  refine forall₂_congr fun x hx => forall_congr' fun heligible => ?_
  have hsome : size (net.engines false).store.set ≠ 0 := by
    rw [size_eq h.first.inv]
    exact Finset.card_ne_zero_of_mem hx
  exact hcaught.contains_iff hsome h.first h.second.inv hx heligible.2

section Few

theorem listed_iff (hx : elemOf crypto x.proof = some x) {minEpoch : UInt64} :
    listed minEpoch x = true ↔ minEpoch.toNat ≤ x.epoch := by
  obtain ⟨-, v, hdecode, heq⟩ := elemOf_eq_some.mp hx
  have hepoch : x.epoch = v.epoch.toNat := congrArg Elem.epoch heq
  rw [listed, tooOld, hdecode, decide_eq_true_iff, hepoch]
  simp only [decide_eq_true_eq, UInt64.lt_iff_toNat_lt, not_and, not_lt]
  constructor
  · intro h
    by_cases hzero : minEpoch = 0
    · rw [hzero]
      exact Nat.zero_le _
    · exact h hzero
  · exact fun h _ => h

/-- An engine that holds no more proofs than a digest has room for lists every eligible
one. -/
theorem mem_digest (ha : Healthy crypto a.store) (hfew : size a.store.set ≤ maxIds)
    (hx : x ∈ stored a.store.set)
    (heligible : Eligible a x) : x.contentId ∈ digest a := by
  have hlength : (((a.store.set.slots.filterMap id).filter (listed a.announceMinEpoch)).map
      Elem.contentId).length ≤ maxIds := by
    rw [length_map]
    refine (length_filter_le ..).trans ?_
    rwa [← toFinset_card_of_nodup (elems_nodup ha.inv), ← stored, ← size_eq ha.inv]
  rw [digest_eq, take_of_length_le hlength]
  refine mem_map_of_mem (mem_filter.mpr ⟨mem_toFinset.mp hx, ?_⟩)
  exact (listed_iff (ha.accepted x hx)).mpr heligible.1

theorem granted_of_mem (hx : x.contentId ∈ digest a) (hsend : (Frame.push x.proof).Sendable)
    (hfirst : a.maxFrameBytes = defaultMaxFrame) (hsecond : b.maxFrameBytes = defaultMaxFrame) :
    Granted a b x := by
  have hdigest := ne_nil_of_mem hx
  have hrequest : (Frame.iwant (digest a)).Sendable := ⟨length_pos_iff.mpr hdigest, digest_length a⟩
  refine ⟨hx, ⟨?_, ?_⟩, ?_⟩
  · exact hsecond ▸ (digest_sendable hdigest).length
  · exact hfirst ▸ (iwant_length_le (wanted_length b (digest a))).trans hrequest.length
  · exact hsecond ▸ hsend.length

end Few

section Holding

variable {proofs : List Bytes}

def holding (store : Store) : Net Bool where
  engines i := {
    store := if i then ⟨initial, []⟩ else store
    selfId := Crypto.digest i.toNat
    fanout := maxView
    maxFrameBytes := defaultMaxFrame
    view := [Crypto.digest (!i).toNat]
    rotation := 0
    announceMinEpoch := 0
    chainFn := none
    chainSeen := [] }
  log := []
  inFlight := []

theorem holding_ready (h : Healthy crypto store) : Ready crypto (holding store) := by
  have hapart : Crypto.digest 0 ≠ Crypto.digest 1 := by decide
  refine ⟨⟨hapart, mem_cons_self, mem_cons_self, Nat.le_of_ble_eq_true rfl, fun hmem =>
    hapart (mem_singleton.mp hmem),
    fun hmem => hapart (mem_singleton.mp hmem).symm⟩, h, ⟨inv_initial, not_mem_nil, ?_⟩, rfl, rfl⟩
  simp [holding, stored, initial]

theorem holding_contains (store : Store) (id : Bytes32) :
    contains ((holding store).engines true).store.set id = false := by
  rw [← Bool.not_eq_true]
  change ¬ contains initial id = true
  rw [contains_iff inv_initial]
  simp [stored, initial]

theorem exists_store (hverify : ∀ p ∈ proofs, verify crypto p = .ok ())
    (hfree : Set.InjOn crypto.blake3 {p | p ∈ proofs}) : ∃ store, Healthy crypto store ∧ store.set.floor = 0 ∧
      ∀ p, (∃ x ∈ stored store.set, x.proof = p) ↔ p ∈ proofs := by
  induction proofs with
  | nil =>
    refine ⟨⟨initial, []⟩, ⟨inv_initial, not_mem_nil, ?_⟩, rfl, fun p => ?_⟩
    · simp [stored, initial]
    · simp [stored, initial]
  | cons p ps ih =>
    obtain ⟨store, hstore, hfloor, hheld⟩ := ih (fun q hq => hverify q (mem_cons_of_mem p hq))
      (hfree.mono fun q hq => mem_cons_of_mem p hq)
    obtain ⟨x, hx⟩ := elemOf_of_verify (hverify p mem_cons_self)
    have hid : ∀ y ∈ stored store.set, y.contentId = x.contentId → y = x := fun y hy heq =>
      elemOf_inj (hstore.accepted y hy) hx heq fun _ _ hhash =>
        hfree (mem_cons_of_mem p ((hheld _).mp ⟨y, hy, rfl⟩)) mem_cons_self hhash
    obtain ⟨-, store', -, hstore', hview, -⟩ := insert_accepts hstore hx
    have hmem (y : Elem) : y ∈ stored store'.set ↔ y ∈ stored store.set ∨ y = x := by
      change y ∈ (view store'.set).stored ↔ _
      have hle : (view store.set).floor ≤ x.epoch := hfloor.le.trans (Nat.zero_le _)
      rw [hview, mem_offer hid, and_iff_left hle]
      rfl
    refine ⟨store', hstore', ?_, fun q => ?_⟩
    · have hoffer := offer_floor (view store.set) x
      rw [← hview] at hoffer
      exact hoffer.trans hfloor
    · simp only [hmem, or_and_right, exists_or, exists_eq_left, elemOf_proof hx, hheld, mem_cons]
      rw [or_comm, eq_comm]

theorem size_le_of_held (h : Healthy crypto store)
    (hheld : ∀ p, (∃ x ∈ stored store.set, x.proof = p) ↔ p ∈ proofs) : size store.set ≤ proofs.length := by
  rw [size_eq h.inv]
  refine (Finset.card_le_card_of_injOn Elem.proof (t := proofs.toFinset) ?_ ?_).trans
    (toFinset_card_le _)
  · exact fun x hx => mem_toFinset.mpr ((hheld _).mp ⟨x, hx, rfl⟩)
  · intro x hx y hy hproof
    have heq := (h.accepted x hx).symm.trans (hproof ▸ h.accepted y hy)
    exact Option.some.inj heq

end Holding

section Crowd

def crowdSignatures : List Signature :=
  [signature 0x5c1942e10c93a9d630a0b3a736ea7d051de0e609e951d6f23e1547186b7e1211
     0xe7534281de86834f13c43a93ffb191b6229c7f46a1991e47fc24c31311f86c0f,
   signature 0x2ab0d52dc25409b8a3aa2951326f828b2505df89859b2e97946bb9eda484a1a0
     0x221eaab5eddd00e1572762e1afda74ba721d9b14c6ded45b26ce897a61181603,
   signature 0xc4a8ed572c2a0cd8b6bae3a07855e6a12cdbfda53f05acf7a6007e6e25e8b269
     0x3955a49786541b77439dff039b90dac4c0abb50da7430423161937418a69730d,
   signature 0xa9dfee4cd6fa496e7cdb131e590981cacfb5e973b0eeec17d6e7c7f5e225701c
     0xc675829c0aba9f1e68068e12a3b5dd75114413fdfe91d54f55c87ebf51a8eb06,
   signature 0xc95ccac5145844f3ad694afa423b51159cb14ea6056469ab58f54b486e181997
     0x2bb003ffe1b4dd72b7a591ee15968c48a7219edd3b127712e13e8a5bb845b503,
   signature 0xd6c6bb223bbf561d6b334109713823461d6d419469e1b261a855a824e2b57c75
     0x0866b3c58a2c00549d103fba255120d56436a741d110c897b6db97f25b248508,
   signature 0x37ec2578f7c0b55eefb9777947c1adf608cc5075900f56e2f5746ee1a7f8d6f3
     0x5e7e5b870b8e27960f4e425dabfab1d883265128f2375a4728dd73e9c0ddd103,
   signature 0x8c912e8d4bd871881d850ce778bd1b0c69d908db6f6d03b2d6e91590ad36474f
     0xf3a52bc55f461daac86e30ae89eaf2c1f9f9cf1833b7d0eb99a5a50f8d09c209,
   signature 0x290644620f2e3bb64860551d10db83d5f09f2ca75c9a8c16bc0fbf8872a7f953
     0x7e7e6638867c410c5c09af5c641aff13367ae799a812835ee2e642b77ef3df02,
   signature 0x7d54b58f18666fe74896fc0061b03a44e83dc608b1a55443023ec754a33e9402
     0xb4fb8fd460ab80af00b655fe9ca6eb4542e67c9eef133d5a7a32b47c72f76f0c,
   signature 0xcfb093caf3ea2cef4ebd8e0f0ee7824e663e56bcc6b9374d2ad2c53bbca4c7b9
     0x24c8b994e39a3916bb86f5ce67bf1528c02e0c0cc0cbc9d73fda09b8ab633503,
   signature 0x319516435a20539a120e01729dcb26ae781ed748c52e78a4c107c4f924a39bdf
     0xee2831e718b169ddbafc8fc2a31fbd15ba05e77cf57726e38f8fc145befd980b]

def crowdSigned (k : Nat) : Signed := ⟨⟨1, 7, 3, [UInt8.ofNat k]⟩, crowdSignatures.getD k (signature 0 0)⟩

def crowdPairs : List (Nat × Nat) := (range 12).flatMap fun j => (range j).map fun i => (i, j)

def crowd : List Bytes := crowdPairs.map fun p => equivocation samplePeer 7 (crowdSigned p.1) (crowdSigned p.2)

def crowdCrypto : Primitives where
  blake3 b := Crypto.digest (crowd.idxOf b)
  blake3DeriveKey _ _ := zero32
  ed25519Verify := knows samplePeer ((range 12).map crowdSigned)

theorem mem_crowdPairs {p : Nat × Nat} : p ∈ crowdPairs ↔ p.1 < p.2 ∧ p.2 < 12 := by
  simp only [crowdPairs, mem_flatMap, mem_range, mem_map, Prod.ext_iff]
  constructor
  · rintro ⟨j, hj, i, hi, rfl, rfl⟩
    exact ⟨hi, hj⟩
  · intro ⟨hi, hj⟩
    exact ⟨p.2, hj, p.1, hi, rfl, rfl⟩

theorem crowdSigned_size (k : Nat) : (crowdSigned k).stmt.payload.length ≤ 1 := le_rfl

theorem crowdSigned_inj {i j : Nat} (hi : i < 12) (hj : j < 12)
    (h : (crowdSigned i).stmt.payload = (crowdSigned j).stmt.payload) : i = j := by
  have hnat := congrArg UInt8.toNat (singleton_inj.mp h)
  rw [UInt8.toNat_ofNat', UInt8.toNat_ofNat'] at hnat
  omega

theorem crowd_nodup : crowd.Nodup := by
  have hpairs : crowdPairs.Nodup := by decide
  refine hpairs.map_on fun p hp q hq heq => ?_
  rw [mem_crowdPairs] at hp hq
  have hsize (k : Nat) : (crowdSigned k).stmt.payload.length < 65536 :=
    (crowdSigned_size k).trans_lt (by norm_num)
  obtain ⟨hfirst, hsecond⟩ := equivocation_inj (hsize _) (hsize _) (hsize _) (hsize _) heq
  exact Prod.ext (crowdSigned_inj (by omega) (by omega) (congrArg Stmt.payload hfirst))
    (crowdSigned_inj hp.2 hq.2 (congrArg Stmt.payload hsecond))

theorem crowd_accepted : ∀ p ∈ crowd, verify crowdCrypto p = .ok () := by
  intro p hp
  obtain ⟨⟨i, j⟩, hij, rfl⟩ := mem_map.mp hp
  rw [mem_crowdPairs] at hij
  have hsigned (k : Nat) (hk : k < 12) :
      crowdCrypto.ed25519Verify samplePeer (crowdSigned k).body (crowdSigned k).sig.val = true :=
    @knows_of_mem samplePeer _ (crowdSigned k) (mem_map_of_mem (mem_range.mpr hk))
  apply equivocation_accepted
  refine ⟨⟨rfl, rfl⟩, rfl, rfl, fun h => ?_, ⟨?_, ?_⟩, hsigned i (hij.1.trans hij.2), hsigned j hij.2⟩
  · exact hij.1.ne (crowdSigned_inj (hij.1.trans hij.2) hij.2 h)
  · exact (crowdSigned_size i).trans_lt (by norm_num)
  · exact (crowdSigned_size j).trans_lt (by norm_num)

theorem crowd_injOn : Set.InjOn crowdCrypto.blake3 {p | p ∈ crowd} := by
  intro p hp q hq h
  have hlt {r : Bytes} (hr : r ∈ crowd) : crowd.idxOf r < 256 ^ 32 :=
    (idxOf_lt_length_of_mem hr).trans (by rw [crowd, length_map]; decide)
  have hnat := congrArg (fun id => beNat (Bytes32.val id)) h
  have hidx : crowd.idxOf p = crowd.idxOf q := by
    rw [← beNat_beBytes (hlt hp), ← beNat_beBytes (hlt hq)]
    exact hnat
  exact (idxOf_inj hp).mp hidx

theorem crowd_length : ∀ p ∈ crowd, p.length ≤ maxProof := by
  intro p hp
  obtain ⟨⟨i, j⟩, -, rfl⟩ := mem_map.mp hp
  have hsize (k : Nat) : (crowdSigned k).stmt.payload.length < 65536 - 35 :=
    (crowdSigned_size k).trans_lt (by norm_num)
  have hle : _ ≤ 300 + 1 + 1 :=
    @equivocation_length_le samplePeer 7 (crowdSigned i) (crowdSigned j) (hsize i) (hsize j)
  exact hle.trans (by decide)

/-- As many proofs as a digest lists are pulled by the peer. -/
theorem catches_up_iff_crowd : ∃ net net', Ready crowdCrypto net ∧
    Rounds crowdCrypto (size (net.engines false).store.set) net net' ∧
    (∀ p ∈ crowd.take 64, ∃ x ∈ stored (net.engines false).store.set, x.proof = p) ∧
      ∀ x ∈ stored (net.engines false).store.set, Eligible (net.engines false) x →
        contains (net'.engines true).store.set x.contentId = true := by
  have hsub : crowd.take 64 ⊆ crowd := take_subset 64 crowd
  obtain ⟨store, hstore, -, hheld⟩ := @exists_store crowdCrypto (crowd.take 64)
    (fun p hp => crowd_accepted p (hsub hp)) (crowd_injOn.mono hsub)
  have hready := holding_ready hstore
  obtain ⟨net', hrounds⟩ := rounds_exist hready.peers hready.first hready.second.inv hready.sound
    hready.exchange (size ((holding store).engines false).store.set)
  refine ⟨holding store, net', hready, hrounds, fun p hp => (hheld p).mpr hp,
    (catches_up_iff hready hrounds).mpr fun x hx heligible => .inr (granted_of_mem ?_ ?_ rfl rfl)⟩
  · exact mem_digest hstore ((size_le_of_held hstore hheld).trans (length_take_le 64 _)) hx heligible
  · have hproof : x.proof ∈ crowd := hsub ((hheld _).mp ⟨x, hx, rfl⟩)
    refine ⟨length_pos_iff.mpr ?_, crowd_length _ hproof⟩
    intro hnil
    have hverify := crowd_accepted _ hproof
    rw [hnil] at hverify
    cases hverify

theorem exists_unlisted (h : Healthy crypto store) (hheld : ∀ p ∈ crowd, ∃ x ∈ stored store.set, x.proof = p) :
    ∃ x ∈ stored store.set, x.contentId ∉ digest ((holding store).engines false) := by
  by_contra hall
  simp only [not_exists, not_and, not_not] at hall
  have hmany : crowd.toFinset ⊆ (stored store.set).image Elem.proof := by
    intro p hp
    obtain ⟨x, hx, hproof⟩ := hheld p (mem_toFinset.mp hp)
    exact Finset.mem_image.mpr ⟨x, hx, hproof⟩
  have hlength : crowd.length = 66 := by
    rw [crowd, length_map]
    decide
  have hids : (stored store.set).card ≤ (digest ((holding store).engines false)).toFinset.card :=
    Finset.card_le_card_of_injOn Elem.contentId (fun x hx => mem_toFinset.mpr (hall x hx))
      fun x hx y hy hid => contentId_inj h.inv hx hy hid
  have hcount : 66 ≤ 64 := calc
    66 = crowd.toFinset.card := by rw [toFinset_card_of_nodup crowd_nodup, hlength]
    _ ≤ (stored store.set).card := (Finset.card_le_card hmany).trans Finset.card_image_le
    _ ≤ (digest ((holding store).engines false)).length := hids.trans (toFinset_card_le _)
    _ ≤ 64 := digest_length _
  omega

/-- An engine that holds 66 proofs advertises the same 64 in every round. -/
theorem crowd_not_caught_up :
    ∃ net, Ready crowdCrypto net ∧ (∀ i, (net.engines i).maxFrameBytes = defaultMaxFrame) ∧
    (∃ net', Rounds crowdCrypto (size (net.engines false).store.set) net net') ∧
      ∀ n net', Rounds crowdCrypto n net net' → ∃ x ∈ stored (net.engines false).store.set,
        Eligible (net.engines false) x ∧ contains (net'.engines true).store.set x.contentId = false := by
  obtain ⟨store, hstore, -, hheld⟩ := exists_store crowd_accepted crowd_injOn
  have hready := holding_ready hstore
  refine ⟨holding store, hready, fun _ => rfl,
    rounds_exist hready.peers hready.first hready.second.inv hready.sound hready.exchange _, ?_⟩
  intro n net' hrounds
  have hcaught := rounds_caught hready.peers hready.first hready.second.inv hready.sound hready.exchange hrounds
  obtain ⟨x, hx, hunlisted⟩ := exists_unlisted hstore fun p hp => (hheld p).mpr hp
  have hsmall : x.proof.length ≤ maxProof := crowd_length x.proof ((hheld _).mp ⟨x, hx, rfl⟩)
  refine ⟨x, hx, ⟨Nat.zero_le _, hsmall⟩, ?_⟩
  cases n with
  | zero =>
    obtain rfl := hrounds
    exact holding_contains store x.contentId
  | succ n =>
    rw [← Bool.not_eq_true, hcaught.contains_iff n.succ_ne_zero hstore hready.second.inv hx hsmall,
      holding_contains]
    exact fun h => hunlisted (h.resolve_left (by simp)).digest

end Crowd

end AntsClient.Gossip.CatchUp
