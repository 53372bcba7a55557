import Mathlib.Combinatorics.SimpleGraph.Hasse
import AntsClient.Crdt.Equivocation
import AntsClient.Crdt.Join
import AntsClient.Gossip.Network

namespace AntsClient.Gossip.Flood

open Common Crypto Crdt Proof Container Refine Operations Equivocation Frames Dissemination
  Reactions Network List
open Crdt.Converge (samplePeer sampleCrypto sampleProof)

variable {ι : Type}

/-- The peers of every engine are its neighbours, and it sends to all of them. -/
structure Topology (G : SimpleGraph ι) (net : Net ι) : Prop where
  selfId : Function.Injective fun i => (net.engines i).selfId
  view : ∀ i peer, peer ∈ (net.engines i).view ↔ ∃ j, G.Adj i j ∧ (net.engines j).selfId = peer
  fanout : ∀ i, (net.engines i).view.length ≤ (net.engines i).fanout
  frames : ∀ i, (net.engines i).maxFrameBytes = defaultMaxFrame

def Static : Action ι → Prop
  | .submit .. | .announce _ | .deliver .. => True
  | .addPeer .. | .removePeer .. | .prune .. => False

structure Idle (crypto : Primitives) (net : Net ι) : Prop where
  healthy : ∀ i, Healthy crypto (net.engines i).store
  floor : ∀ i, (net.engines i).store.set.floor = 0
  inFlight : net.inFlight = []

def held (net : Net ι) : Set Bytes := {proof | ∃ i, ∃ x ∈ stored (net.engines i).store.set, x.proof = proof}

structure Alike (e e' : Engine) : Prop where
  selfId : e'.selfId = e.selfId
  view : e'.view = e.view
  fanout : e'.fanout = e.fanout
  frames : e'.maxFrameBytes = e.maxFrameBytes

variable {G : SimpleGraph ι} {crypto : Primitives} {net net' : Net ι} {S : Set Bytes} {a : Action ι}

theorem Topology.alike (h : Topology G net) (halike : ∀ i, Alike (net.engines i) (net'.engines i)) :
    Topology G net' := by
  refine ⟨fun i j hij => ?_, fun i peer => ?_, fun i => ?_, fun i => ?_⟩
  · dsimp only at hij
    rw [(halike i).selfId, (halike j).selfId] at hij
    exact h.selfId hij
  · rw [(halike i).view, h.view]
    exact exists_congr fun j => by rw [(halike j).selfId]
  · rw [(halike i).view, (halike i).fanout]
    exact h.fanout i
  · rw [(halike i).frames]
    exact h.frames i

section Learns

variable {e e' : Engine} {p proof : Bytes} {exclude : Option Bytes32} {events : List Event} {x : Elem}

theorem learns_alike (h : Learns crypto e proof exclude e' events) : Alike e e' := by
  cases h with
  | refused | known | fresh => exact ⟨rfl, rfl, rfl, rfl⟩

theorem learns_floor (h : Learns crypto e proof exclude e' events) :
    e'.store.set.floor = e.store.set.floor := by
  have hoffer {y : Elem} {store : Store} (hview : view store.set = offer (view e.store.set) y) :
      store.set.floor = e.store.set.floor := by
    have hfloor := offer_floor (view e.store.set) y
    rw [← hview] at hfloor
    exact hfloor
  cases h with
  | refused => rfl
  | known _ _ hview | fresh _ _ hview => exact hoffer hview

theorem elemOf_proof (hx : elemOf crypto p = some x) : x.proof = p := by
  obtain ⟨-, v, -, rfl⟩ := elemOf_eq_some.mp hx
  rfl

theorem learns_holds (h : Learns crypto e proof exclude e' events) (hx : elemOf crypto p = some x)
    (hfloor : e.store.set.floor = 0)
    (hid : ∀ y ∈ stored e.store.set, ∀ z, elemOf crypto proof = some z → y.contentId = z.contentId → y = z) :
    x ∈ stored e'.store.set ↔ x ∈ stored e.store.set ∨ proof = p := by
  have hgiven {z : Elem} (hz : elemOf crypto proof = some z) : x = z ↔ proof = p := by
    constructor
    · rintro rfl
      rw [← elemOf_proof hz, elemOf_proof hx]
    · rintro rfl
      exact Option.some.inj (hx.symm.trans hz)
  have hoffer {z : Elem} {store : Store} (hz : elemOf crypto proof = some z)
    (hview : view store.set = offer (view e.store.set) z) :
      x ∈ stored store.set ↔ x ∈ stored e.store.set ∨ proof = p := by
    change x ∈ (view store.set).stored ↔ _
    rw [hview, mem_offer fun y hy heq => hid y hy z hz heq, hgiven hz]
    have hle : (view e.store.set).floor ≤ z.epoch := hfloor.le.trans (Nat.zero_le _)
    rw [and_iff_left hle]
    rfl
  cases h with
  | refused hnone =>
    refine ⟨.inl, fun h => h.resolve_right ?_⟩
    rintro rfl
    cases hx.symm.trans hnone
  | known hz _ hview | fresh hz _ hview => exact hoffer hz hview

theorem learns_pushes (h : Learns crypto e p exclude e' events) (hx : elemOf crypto p = some x)
    (hnew : x ∉ stored e.store.set)
    (hgot : x ∈ stored e'.store.set) (hsend : (Frame.push p).Sendable)
    (hfanout : e.view.length ≤ e.fanout) {peer : Bytes32}
    (hpeer : peer ∈ e.view) (hne : exclude ≠ some peer) : .sent peer (Frame.push p).bytes ∈ events := by
  cases h with
  | refused hnone => cases hx.symm.trans hnone
  | known _ _ _ hsame =>
    have hsame' : stored _ = stored e.store.set := congrArg View.stored hsame
    exact absurd (hsame' ▸ hgot) hnew
  | fresh =>
    have hlength : 0 < p.length ∧ p.length ≤ maxProof := hsend
    refine mem_cons_of_mem _ (mem_cons_of_mem _ (mem_sends.mpr ⟨?_, rfl⟩))
    rw [eager, if_pos hlength]
    exact (mem_fanoutPick hfanout).mpr ⟨hpeer, hne⟩

end Learns

variable {inFlight : List (Packet ι)} {i : ι} {e : Engine} {events : List Event} {p : Bytes}

section Flooding

/-- Whoever pushes the proof holds it, and so does each neighbour of a holder, unless a push to it
is on its way. -/
structure Flooding (G : SimpleGraph ι) (p : Bytes) (x : Elem) (net : Net ι) : Prop where
  topology : Topology G net
  floor : ∀ i, (net.engines i).store.set.floor = 0
  source : ∀ packet ∈ net.inFlight, packet.frame = (Frame.push p).bytes →
    x ∈ stored (net.engines packet.src).store.set
  reach : ∀ i j, G.Adj i j → x ∈ stored (net.engines i).store.set → x ∈ stored (net.engines j).store.set ∨
    ∃ packet ∈ net.inFlight, packet.dst = (net.engines j).selfId ∧ packet.frame = (Frame.push p).bytes

variable {p : Bytes} {x : Elem}

theorem Flooding.not_ignored (h : Flooding G p x net) (hsound : Sound crypto S net)
    {packet : Packet ι} (hmem : packet ∈ net.inFlight)
    (j : ι) : ¬ packet.frame.length > (net.engines j).maxFrameBytes := by
  obtain ⟨f, hf, hframe, -⟩ := hsound.framed packet hmem
  rw [hframe, h.topology.frames]
  exact Nat.not_lt.mpr hf.length

variable [DecidableEq ι]

theorem Flooding.put (h : Flooding G p x net)
    (halike : Alike (net.engines i) e) (hfloor : e.store.set.floor = (net.engines i).store.set.floor)
    (hmono : x ∈ stored (net.engines i).store.set → x ∈ stored e.store.set) (hold : inFlight ⊆ net.inFlight)
    (hkeep : ∀ packet ∈ net.inFlight, packet.frame = (Frame.push p).bytes →
      packet ∈ inFlight ∨ packet.dst = (net.engines i).selfId ∧ x ∈ stored e.store.set)
    (hsource : ∀ peer, .sent peer (Frame.push p).bytes ∈ events → x ∈ stored e.store.set)
    (hreach : x ∉ stored (net.engines i).store.set → x ∈ stored e.store.set → ∀ j, G.Adj i j →
      x ∈ stored (net.engines j).store.set ∨ .sent (net.engines j).selfId (Frame.push p).bytes ∈ events) :
    Flooding G p x (Net.put { net with inFlight := inFlight } i e events) := by
  have hall := (Function.forall_update_iff net.engines fun j e => Alike (net.engines j) e).mpr
    ⟨halike, fun _ _ => ⟨rfl, rfl, rfl, rfl⟩⟩
  have hmono := (Function.forall_update_iff net.engines fun j e =>
    x ∈ stored (net.engines j).store.set → x ∈ stored e.store.set).mpr ⟨hmono, fun _ _ => id⟩
  have hself : x ∈ stored e.store.set → x ∈ stored (Function.update net.engines i e i).store.set := by
    rw [Function.update_self]
    exact id
  refine ⟨h.topology.alike hall, ?_, fun packet hmem hframe => ?_, fun j l hadj hx => ?_⟩
  · exact (Function.forall_update_iff net.engines fun _ e => e.store.set.floor = 0).mpr
      ⟨hfloor.trans (h.floor i), fun j _ => h.floor j⟩
  · rcases mem_append.mp hmem with hmem | hmem
    · exact hmono _ (h.source packet (hold hmem) hframe)
    · obtain ⟨hsrc, hsent⟩ := mem_packets.mp hmem
      rw [hframe] at hsent
      exact hsrc ▸ hself (hsource _ hsent)
  · change x ∈ stored (Function.update net.engines i e l).store.set ∨
      ∃ packet ∈ inFlight ++ packets i events, packet.dst = (Function.update net.engines i e l).selfId ∧ _
    rw [(hall l).selfId]
    by_cases hxj : x ∈ stored (net.engines j).store.set
    · rcases h.reach j l hadj hxj with hxl | ⟨packet, hmem, hdst, hframe⟩
      · exact .inl (hmono l hxl)
      · rcases hkeep packet hmem hframe with hkept | ⟨hdst', hxe⟩
        · exact .inr ⟨packet, mem_append_left _ hkept, hdst, hframe⟩
        · obtain rfl : l = i := h.topology.selfId (hdst.symm.trans hdst')
          exact .inl (hself hxe)
    · -- only `i` can have come to hold the proof
      change x ∈ stored (Function.update net.engines i e j).store.set at hx
      rw [Function.update_apply] at hx
      split at hx
      · rename_i hji
        subst hji
        rcases hreach hxj hx l hadj with hxl | hsent
        · exact .inl (hmono l hxl)
        · exact .inr ⟨⟨j, _, _⟩, mem_append_right _ (mem_packets.mpr ⟨rfl, hsent⟩), rfl, rfl⟩
      · exact absurd hx hxj

theorem Flooding.learns (h : Flooding G p x net) (hsound : Sound crypto S net) (hfree : CollisionFree crypto S)
    (hx : elemOf crypto p = some x) (hsend : (Frame.push p).Sendable) (hold : inFlight ⊆ net.inFlight)
    {proof : Bytes} {exclude : Option Bytes32} (hproof : proof ∈ S)
    (hl : Learns crypto (net.engines i) proof exclude e events)
    (hkeep : ∀ packet ∈ net.inFlight, packet.frame = (Frame.push p).bytes →
      packet ∈ inFlight ∨ packet.dst = (net.engines i).selfId ∧ proof = p)
    (hexclude : ∀ j, exclude = some (net.engines j).selfId → proof = p → x ∈ stored (net.engines j).store.set) :
    Flooding G p x (Net.put { net with inFlight := inFlight } i e events) := by
  have hholds := learns_holds hl hx (h.floor i) fun y hy z hz heq => hsound.named hfree hy hproof hz heq
  refine h.put (learns_alike hl) (learns_floor hl) (fun hxi => hholds.mpr (.inl hxi)) hold
    (fun packet hmem hframe => ?_)
    (fun peer hsent => ?_) fun hnew hgot j hadj => ?_
  · exact (hkeep packet hmem hframe).imp_right (And.imp_right fun hp => hholds.mpr (.inr hp))
  · obtain ⟨-, -, hsend', hbytes⟩ := hl.sent hsent
    exact hholds.mpr (.inr (Frame.push.inj (Frame.bytes_inj hsend' hsend hbytes.symm)))
  · obtain rfl : proof = p := (hholds.mp hgot).resolve_left hnew
    by_cases hback : exclude = some (net.engines j).selfId
    · exact .inl (hexclude j hback rfl)
    · have hview : (net.engines j).selfId ∈ (net.engines i).view := (h.topology.view i _).mpr ⟨j, hadj, rfl⟩
      exact .inr (learns_pushes hl hx hnew hgot hsend (h.topology.fanout i) hview hback)

theorem Steps.flooding (hstep : Steps crypto net a net') (hstatic : Static a) (hsound : Sound crypto S net)
    (hsubmit : ∀ i proof, a = .submit i proof → proof ∈ S) (hfree : CollisionFree crypto S)
    (hx : elemOf crypto p = some x)
    (hsend : (Frame.push p).Sendable) (h : Flooding G p x net) : Flooding G p x net' := by
  -- a frame that is no push of `p` is taken, and nothing is learned from it
  have hquiet {k : Nat} {j : ι} {packet : Packet ι} {f : Frame} {events : List Event}
    (hk : net.inFlight[k]? = some packet)
      (hframe : packet.frame = f.bytes) (hf : f.Sendable) (hne : f ≠ .push p)
      (hsource : ∀ peer, .sent peer (Frame.push p).bytes ∈ events → x ∈ stored (net.engines j).store.set) :
      Flooding G p x ((net.drop k).put j (net.engines j) events) := by
    refine h.put ⟨rfl, rfl, rfl, rfl⟩ rfl id (eraseIdx_subset ..) (fun packet' hmem hpush => ?_) hsource
      fun hnew hgot => absurd hgot hnew
    refine .inl ((mem_drop hk hmem).resolve_right ?_)
    rintro rfl
    exact hne (Frame.bytes_inj hf hsend (hframe.symm.trans hpush))
  cases hstep with
  | addPeer | removePeer | prune => exact hstatic.elim
  | @submit i proof e events hl =>
    exact h.learns hsound hfree hx hsend (List.Subset.refl _) (hsubmit i proof rfl) hl
      (fun _ hmem _ => .inl hmem)
      fun _ hnone => by cases hnone
  | @announce i rotation =>
    refine h.put ⟨rfl, rfl, rfl, rfl⟩ rfl id (List.Subset.refl _) (fun _ hmem _ => .inl hmem)
      (fun peer hsent => ?_)
      fun hnew hgot => absurd hgot hnew
    obtain ⟨-, hf, hbytes⟩ := announcement_sent hsent
    cases Frame.bytes_inj hf hsend hbytes.symm
  | @ignored k j nowUs packet hk hdst hlarge =>
    exact absurd hlarge (h.not_ignored hsound (mem_of_getElem? hk) j)
  | @push k j nowUs packet proof e events hk hdst hframe hpush hl =>
    have hmem := mem_of_getElem? hk
    refine h.learns hsound hfree hx hsend (eraseIdx_subset ..) (hsound.pushed hmem hframe hpush) hl
      (fun packet' hmem' hframe' => ?_) fun l hsrc hp => ?_
    · rcases mem_drop hk hmem' with hkept | rfl
      · exact .inl hkept
      · exact .inr ⟨hdst.symm, Frame.push.inj (Frame.bytes_inj hpush hsend (hframe.symm.trans hframe'))⟩
    · -- the sender, which is not sent to, holds what it pushed
      have hsame : packet.src = l := h.topology.selfId (Option.some.inj hsrc)
      exact hsame ▸ h.source packet hmem (hp ▸ hframe)
  | @ihave k j nowUs packet ids hk hdst hframe hf =>
    refine hquiet hk hframe hf (by simp) fun peer hsent => ?_
    obtain ⟨-, hwant, hbytes⟩ := request_sent hf.2 hsent
    cases Frame.bytes_inj hwant hsend hbytes.symm
  | @iwant k j nowUs packet want hk hdst hframe hf =>
    refine hquiet hk hframe hf (by simp) fun peer hsent => ?_
    obtain ⟨-, y, hy, -, hsend', hbytes⟩ := answer_sent hsent
    obtain rfl : y.proof = p := Frame.push.inj (Frame.bytes_inj hsend' hsend hbytes.symm)
    exact Option.some.inj (((hsound.healthy j).accepted y hy).symm.trans hx) ▸ hy

end Flooding

section Taken

/-- The proof is held wherever it was submitted, and one that is too large for a frame
nowhere else. -/
structure Taken (p : Bytes) (x : Elem) (done : List (Action ι)) (net : Net ι) : Prop where
  floor : ∀ i, (net.engines i).store.set.floor = 0
  taken : ∀ i, .submit i p ∈ done → x ∈ stored (net.engines i).store.set
  only : maxProof < p.length → ∀ i, x ∈ stored (net.engines i).store.set → .submit i p ∈ done

variable {p : Bytes} {x : Elem} {done : List (Action ι)} [DecidableEq ι]

theorem Taken.put (h : Taken p x done net) (hfloor : e.store.set.floor = (net.engines i).store.set.floor)
    (hmono : x ∈ stored (net.engines i).store.set → x ∈ stored e.store.set)
    (htaken : ∀ j, a = .submit j p → j = i ∧ x ∈ stored e.store.set)
    (honly : maxProof < p.length → x ∈ stored e.store.set → x ∈ stored (net.engines i).store.set ∨
      a = .submit i p) :
    Taken p x (done ++ [a]) (Net.put { net with inFlight := inFlight } i e events) := by
  refine ⟨?_, ?_, fun hlarge => ?_⟩
  · exact (Function.forall_update_iff net.engines fun _ e => e.store.set.floor = 0).mpr
      ⟨hfloor.trans (h.floor i), fun j _ => h.floor j⟩
  · refine (Function.forall_update_iff net.engines fun j e =>
      .submit j p ∈ done ++ [a] → x ∈ stored e.store.set).mpr
      ⟨fun hmem => ?_, fun j hne hmem => ?_⟩
    · rcases mem_append.mp hmem with hold | hnew
      · exact hmono (h.taken i hold)
      · exact (htaken i (mem_singleton.mp hnew).symm).2
    · rcases mem_append.mp hmem with hold | hnew
      · exact h.taken j hold
      · exact absurd (htaken j (mem_singleton.mp hnew).symm).1 hne
  · refine (Function.forall_update_iff net.engines fun j e =>
      x ∈ stored e.store.set → .submit j p ∈ done ++ [a]).mpr
      ⟨fun hx => ?_, fun j _ hx => mem_append_left _ (h.only hlarge j hx)⟩
    rcases honly hlarge hx with hold | rfl
    · exact mem_append_left _ (h.only hlarge i hold)
    · exact mem_append_right _ mem_cons_self

theorem Steps.taken (hstep : Steps crypto net a net') (hstatic : Static a) (hsound : Sound crypto S net)
    (hsubmit : ∀ i proof, a = .submit i proof → proof ∈ S) (hfree : CollisionFree crypto S)
    (hx : elemOf crypto p = some x)
    (h : Taken p x done net) : Taken p x (done ++ [a]) net' := by
  have hholds {i : ι} {proof : Bytes} {exclude : Option Bytes32} {e : Engine} {events : List Event}
      (hproof : proof ∈ S) (hl : Learns crypto (net.engines i) proof exclude e events) :=
    learns_holds hl hx (h.floor i) fun y hy z hz heq => hsound.named hfree hy hproof hz heq
  cases hstep with
  | addPeer | removePeer | prune => exact hstatic.elim
  | @submit i proof e events hl =>
    have hiff := hholds (hsubmit i proof rfl) hl
    refine h.put (learns_floor hl) (fun hxi => hiff.mpr (.inl hxi)) (fun j heq => ?_) fun _ hxe => ?_
    · obtain ⟨rfl, rfl⟩ := Action.submit.inj heq
      exact ⟨rfl, hiff.mpr (.inr rfl)⟩
    · exact (hiff.mp hxe).imp_right fun (hp : proof = p) => by rw [hp]
  | announce | ignored | ihave | iwant => exact h.put rfl id (fun _ heq => by cases heq) fun _ => .inl
  | @push k j nowUs packet proof e events hk hdst hframe hpush hl =>
    have hiff := hholds (hsound.pushed (mem_of_getElem? hk) hframe hpush) hl
    refine h.put (learns_floor hl) (fun hxi => hiff.mpr (.inl hxi)) (fun _ heq => by cases heq)
      fun hlarge hxe => ?_
    -- what is too large is not pushed
    refine .inl ((hiff.mp hxe).resolve_right ?_)
    rintro rfl
    exact Nat.not_lt.mpr hpush.2 hlarge

end Taken

theorem idle_sound (h : Idle crypto net) (hheld : held net ⊆ S) : Sound crypto S net := by
  refine ⟨h.healthy, fun i x hx => hheld ⟨i, x, hx, rfl⟩, ?_⟩
  rw [h.inFlight]
  exact fun _ hmem => absurd hmem not_mem_nil

theorem elemOf_of_verify (h : verify crypto p = .ok ()) : ∃ x, elemOf crypto p = some x := by
  obtain ⟨v, hdecode⟩ := decode_of_verify h
  exact ⟨_, elemOf_eq_some.mpr ⟨h, v, hdecode, rfl⟩⟩

theorem contains_iff_stored (h : Sound crypto S net) (hfree : CollisionFree crypto S)
    (hp : p ∈ S) {x : Elem} (hx : elemOf crypto p = some x) (i : ι) :
    contains (net.engines i).store.set (contentId crypto p) = true ↔ x ∈ stored (net.engines i).store.set := by
  have hid : x.contentId = contentId crypto p := by
    obtain ⟨-, v, -, rfl⟩ := elemOf_eq_some.mp hx
    rfl
  rw [contains_iff (h.healthy i).inv]
  constructor
  · intro ⟨y, hy, hyid⟩
    exact h.named hfree hy hp hx (hyid.trans hid.symm) ▸ hy
  · exact fun hmem => ⟨x, hmem, hid⟩

section Run

variable [DecidableEq ι] {p : Bytes} {x : Elem} {actions : List (Action ι)}

theorem run_flooding (htopology : Topology G net) (hidle : Idle crypto net) (hheld : held net ⊆ S)
    (hS : submitted actions ⊆ S)
    (hfree : CollisionFree crypto S) (hx : elemOf crypto p = some x) (hnone : p ∉ held net)
    (hstatic : ∀ a ∈ actions, Static a) (hrun : run crypto net actions = some net') :
    Sound crypto S net' ∧ Taken p x actions net' ∧ ((Frame.push p).Sendable → Flooding G p x net') := by
  have habsent (i : ι) : x ∉ stored (net.engines i).store.set := fun hmem => hnone ⟨i, x, hmem, elemOf_proof hx⟩
  have htaken : Taken p x [] net :=
    ⟨hidle.floor, fun _ h => absurd h not_mem_nil, fun _ i h => absurd h (habsent i)⟩
  have hflooding : Flooding G p x net := by
    refine ⟨htopology, hidle.floor, ?_, fun i _ _ h => absurd h (habsent i)⟩
    rw [hidle.inFlight]
    exact fun _ h => absurd h not_mem_nil
  exact run_induct (P := fun done net => Taken p x done net ∧ ((Frame.push p).Sendable → Flooding G p x net)) hS
    (fun done net a net' hmem hsound ⟨ht, hf⟩ hstep => by
      have hsubmit : ∀ i proof, a = .submit i proof → proof ∈ S := fun i _ ha => hS ⟨i, ha ▸ hmem⟩
      exact ⟨Steps.taken hstep (hstatic a hmem) hsound hsubmit hfree hx ht,
        fun hsend => Steps.flooding hstep (hstatic a hmem) hsound hsubmit hfree hx hsend (hf hsend)⟩)
    [] (idle_sound hidle hheld) ⟨htaken, fun _ => hflooding⟩ hrun

omit [DecidableEq ι] in
/-- When nothing is on its way any more, everyone connected to an engine that holds the
proof holds it too. -/
theorem Flooding.everywhere (h : Flooding G p x net) (hG : G.Connected) (hdone : net.inFlight = [])
    (hi : x ∈ stored (net.engines i).store.set) (j : ι) : x ∈ stored (net.engines j).store.set := by
  obtain ⟨walk⟩ := hG.preconnected i j
  induction walk with
  | nil => exact hi
  | cons hadj walk ih =>
    refine ih ((h.reach _ _ hadj hi).resolve_right ?_)
    rw [hdone]
    exact fun ⟨_, hmem, _⟩ => absurd hmem not_mem_nil

/-- On a connected network with nothing on its way, a submitted proof has reached every engine
exactly when it fits a frame or was submitted everywhere. -/
theorem floods_iff (hG : G.Connected) (htopology : Topology G net) (hidle : Idle crypto net)
    (hfree : Set.InjOn crypto.blake3 {p | verify crypto p = .ok () ∧ p ∈ held net ∪ submitted actions})
    (hnone : p ∉ held net) (hstatic : ∀ a ∈ actions, Static a) (hrun : run crypto net actions = some net')
    (hdone : net'.inFlight = []) (hverify : verify crypto p = .ok ()) (hsubmit : p ∈ submitted actions) :
    (∀ i, contains (net'.engines i).store.set (contentId crypto p) = true) ↔ p.length ≤ maxProof ∨
    ∀ i, .submit i p ∈ actions := by
  obtain ⟨x, hx⟩ := elemOf_of_verify hverify
  have hpos : 0 < p.length := by
    by_contra hzero
    rw [elemOf_empty (Nat.eq_zero_of_not_pos hzero)] at hx
    cases hx
  obtain ⟨hsound, htaken, hflooding⟩ :=
    run_flooding htopology hidle Set.subset_union_left Set.subset_union_right hfree hx hnone
    hstatic hrun
  rw [forall_congr' fun i => contains_iff_stored hsound hfree (.inr hsubmit) hx i]
  constructor
  · intro hall
    by_cases hsmall : p.length ≤ maxProof
    · exact .inl hsmall
    · exact .inr fun i => htaken.only (Nat.lt_of_not_le hsmall) i (hall i)
  · rintro (hsmall | hsubmits)
    · obtain ⟨i, hi⟩ := hsubmit
      exact (hflooding ⟨hpos, hsmall⟩).everywhere hG hdone (htaken.taken i hi)
    · exact fun i => htaken.taken i (hsubmits i)

end Run

section Line

def line (n : Nat) : Net (Fin n) where
  engines i := {
    store := ⟨initial, []⟩
    selfId := Crypto.digest i.val
    fanout := maxView
    maxFrameBytes := defaultMaxFrame
    view := ((List.finRange n).filter fun j => i.val + 1 = j.val ∨ j.val + 1 = i.val).map fun j =>
    Crypto.digest j.val
    rotation := 0
    announceMinEpoch := 0
    chainFn := none
    chainSeen := [] }
  log := []
  inFlight := []

theorem line_topology {n : Nat} (hn : n ≤ maxView)
    (hinj : ∀ i j : Fin n, Crypto.digest i.val = Crypto.digest j.val → i = j) :
    Topology (SimpleGraph.pathGraph n) (line n) := by
  refine ⟨fun i j => hinj i j, fun i peer => ?_, fun i => ?_, fun _ => rfl⟩
  · simp [line, SimpleGraph.pathGraph_adj]
  · refine (length_map _).le.trans ((length_filter_le ..).trans ?_)
    rw [length_finRange]
    exact hn

theorem line_idle (crypto : Primitives) (n : Nat) : Idle crypto (line n) := by
  refine ⟨fun _ => ⟨inv_initial, not_mem_nil, ?_⟩, fun _ => rfl, rfl⟩
  simp [line, stored, initial]

theorem line_held (n : Nat) : held (line n) = ∅ := by
  simp [held, line, stored, initial]

/-- A small proof goes from one end of the line to the other. -/
theorem floods_iff_line : ∃ net',
    run sampleCrypto (line 3) [.submit 0 sampleProof, .deliver 0 1 0, .deliver 0 2 0] = some net' ∧
    ∀ i, contains (net'.engines i).store.set (contentId sampleCrypto sampleProof) = true := by
  have hrun : (run sampleCrypto (line 3) [.submit 0 sampleProof, .deliver 0 1 0, .deliver 0 2 0]).any
      (fun net' => net'.inFlight.length = 0) = true := by decide +kernel
  obtain ⟨net', hnet', hdone⟩ := (Option.any_eq_true ..).mp hrun
  have hsubmitted : submitted [.submit (0 : Fin 3) sampleProof, .deliver 0 1 0, .deliver 0 2 0] =
      {sampleProof} := by
    ext p
    simp [submitted]
  refine ⟨net', hnet', (floods_iff (SimpleGraph.pathGraph_connected 2)
    (line_topology (by decide) (by decide)) (line_idle _ 3) ?_ ?_ ?_
    hnet' (length_eq_zero_iff.mp (of_decide_eq_true hdone)) Crdt.Converge.sampleProof_accepted.1
    ?_).mpr (.inl ?_)⟩
  · rw [line_held, Set.empty_union, hsubmitted]
    exact Crdt.Join.sample_injOn subset_rfl
  · rw [line_held]
    exact id
  · simp [Static]
  · rw [hsubmitted]
    exact rfl
  · decide +kernel

def largeSigned (payload : UInt8) : Signed where
  stmt := ⟨1, 7, 3, replicate 2048 payload⟩
  sig :=
    if payload = 0xaa then
      signature 0xcce43939e7b245d02585b393a7a3f4c76a20558e4ade55fe0fd313b7cc4b41c1
        0x66496dbf98219974cd169a668a3cc40676a61426fb4b263ecce2f7fedbefc60b
    else
      signature 0x20c040b75e312b5265248d340a5b28dabf0251c4786fccda1ed5b1cc2f78883a
        0x210e233d591b38e690fa6fef95712adc331bbcd1c570ff809a34845b2d75400c

def largeProof : Bytes := equivocation samplePeer 7 (largeSigned 0xaa) (largeSigned 0xbb)

def largeCrypto : Primitives where
  blake3 b :=
    if b = largeProof then
      Crypto.digest 0xa87d4da48df7ede1a0e247a055ffda707cee3ef4aa80c1905d5c8bd56ec1ae6d else zero32
  blake3DeriveKey _ _ := zero32
  ed25519Verify := knows samplePeer [largeSigned 0xaa, largeSigned 0xbb]

theorem largeProof_accepted : verify largeCrypto largeProof = .ok () := by
  have hsigned : ∀ s ∈ [largeSigned 0xaa, largeSigned 0xbb],
      largeCrypto.ed25519Verify samplePeer s.body s.sig.val = true :=
    fun s hs => @knows_of_mem samplePeer _ s hs
  apply equivocation_accepted
  refine ⟨⟨rfl, rfl⟩, rfl, rfl, fun h => ?_, ⟨?_, ?_⟩, hsigned (largeSigned 0xaa) mem_cons_self,
    hsigned (largeSigned 0xbb) (mem_cons_of_mem _ mem_cons_self)⟩
  · have hsame : (0xaa : UInt8) = 0xbb := (@List.replicate_right_inj _ _ _ 2048 (by norm_num)).mp h
    exact absurd hsame (by decide)
  · exact length_replicate.trans_lt (by norm_num)
  · exact length_replicate.trans_lt (by norm_num)

theorem large_free : CollisionFree largeCrypto {largeProof} := fun _ hp _ hq _ => hp.2.trans hq.2.symm

/-- Two neighbours, and a proof of 4300 bytes that does not leave the engine it is
submitted at. -/
theorem large_stays : verify largeCrypto largeProof = .ok () ∧
    Topology (SimpleGraph.pathGraph 2) (line 2) ∧ Idle largeCrypto (line 2) ∧
    ∃ net', run largeCrypto (line 2) [.submit 0 largeProof] = some net' ∧ net'.inFlight = [] ∧
      contains (net'.engines 0).store.set (contentId largeCrypto largeProof) = true ∧
      contains (net'.engines 1).store.set (contentId largeCrypto largeProof) = false := by
  have htopology : Topology (SimpleGraph.pathGraph 2) (line 2) := line_topology (by decide) (by decide)
  have hidle := line_idle largeCrypto 2
  have hsubmitted : submitted [.submit (0 : Fin 2) largeProof] = {largeProof} := by
    ext p
    simp [submitted]
  have hfree := large_free
  have hlength : ¬ (0 < largeProof.length ∧ largeProof.length ≤ maxProof) := by decide +kernel
  obtain ⟨x, hx⟩ := elemOf_of_verify largeProof_accepted
  obtain ⟨net', hstep⟩ : ∃ net', step largeCrypto (line 2) (.submit 0 largeProof) = some net' := ⟨_, rfl⟩
  have hrun : run largeCrypto (line 2) [.submit 0 largeProof] = some net' := by rw [run, hstep]; rfl
  have hheld : held (line 2) ⊆ {largeProof} := (line_held 2).le.trans (Set.empty_subset _)
  obtain ⟨hsound, htaken, -⟩ :=
    run_flooding htopology hidle hheld hsubmitted.le hfree hx (by rw [line_held]; exact id)
    (by simp [Static]) hrun
  refine ⟨largeProof_accepted, htopology, hidle, net', hrun, ?_, ?_, ?_⟩
  · cases step_cases (idle_sound hidle hheld) hstep with
    | submit hl =>
      cases hl with
      | refused | known => rfl
      | fresh =>
        rw [eager, if_neg hlength]
        rfl
  · exact (contains_iff_stored hsound hfree rfl hx 0).mpr (htaken.taken 0 mem_cons_self)
  · rw [← Bool.not_eq_true, contains_iff_stored hsound hfree rfl hx 1]
    intro hmem
    have honly := htaken.only (by decide +kernel) 1 hmem
    simp at honly

end Line

end AntsClient.Gossip.Flood
