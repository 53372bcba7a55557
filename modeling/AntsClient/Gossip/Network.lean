import AntsClient.Gossip.Reactions

namespace AntsClient.Gossip.Network

open Common Crypto Crdt Proof Container Refine Operations Frames Dissemination Reactions List

variable {events : List Event} {proof : Bytes} {e : Engine}

structure Packet (ι : Type) where
  src : ι
  dst : Bytes32
  frame : Bytes

/-- Engines, all that they have done, and the frames that are on their way. -/
structure Net (ι : Type) where
  engines : ι → Engine
  log : List (ι × Event)
  inFlight : List (Packet ι)

inductive Action (ι : Type)
  | submit (i : ι) (proof : Bytes)
  | announce (i : ι)
  | addPeer (i : ι) (peer : Bytes32)
  | removePeer (i : ι) (peer : Bytes32)
  | prune (i : ι) (minEpochKeep : Nat)
  | deliver (k : Nat) (j : ι) (nowUs : UInt64)
  deriving DecidableEq

variable {ι : Type}

def packets (i : ι) (events : List Event) : List (Packet ι) := events.filterMap fun
  | .sent peer frame => some ⟨i, peer, frame⟩
  | .observed _ | .forwarded _ => none

def Net.drop (net : Net ι) (k : Nat) : Net ι := { net with inFlight := net.inFlight.eraseIdx k }

structure Start (net : Net ι) : Prop where
  set : ∀ i, (net.engines i).store.set = initial
  mem : ∀ i, false ∉ (net.engines i).store.mem
  log : net.log = []
  inFlight : net.inFlight = []

def submitted (actions : List (Action ι)) : Set Bytes := {proof | ∃ i, .submit i proof ∈ actions}

/-- The bytes of a frame that an engine can send, and in which only proofs of `S` are
pushed. -/
def Framed (S : Set Bytes) (frame : Bytes) : Prop :=
  ∃ f : Frame, f.Sendable ∧ frame = f.bytes ∧ ∀ p, f = .push p → p ∈ S

/-- The sets hold accepted proofs of `S`, and so do the frames on their way. -/
structure Sound (crypto : Primitives) (S : Set Bytes) (net : Net ι) : Prop where
  healthy : ∀ i, Healthy crypto (net.engines i).store
  origin : ∀ i, ∀ x ∈ stored (net.engines i).store.set, x.proof ∈ S
  framed : ∀ packet ∈ net.inFlight, Framed S packet.frame

variable {i : ι} {packet : Packet ι}

section Sound

variable {crypto : Primitives} {net : Net ι} {S : Set Bytes}

def CollisionFree (crypto : Primitives) (S : Set Bytes) : Prop :=
  Set.InjOn crypto.blake3 {p | verify crypto p = .ok () ∧ p ∈ S}

theorem mem_packets : packet ∈ packets i events ↔ packet.src = i ∧ .sent packet.dst packet.frame ∈ events := by
  rw [packets, mem_filterMap]
  constructor
  · intro ⟨event, hmem, heq⟩
    cases event with
    | observed | forwarded => cases heq
    | sent peer frame =>
      obtain rfl := Option.some.inj heq
      exact ⟨rfl, hmem⟩
  · intro ⟨hsrc, hmem⟩
    exact ⟨_, hmem, by rw [← hsrc]⟩

theorem Sound.drop (h : Sound crypto S net) (k : Nat) : Sound crypto S (net.drop k) :=
  ⟨h.healthy, h.origin, fun packet hpacket => h.framed packet (mem_of_mem_eraseIdx hpacket)⟩

theorem Sound.pushed (h : Sound crypto S net) (hmem : packet ∈ net.inFlight)
    (hframe : packet.frame = (Frame.push proof).bytes) (hsend : (Frame.push proof).Sendable) : proof ∈ S := by
  obtain ⟨f, hf, hframe', hpush⟩ := h.framed packet hmem
  exact hpush proof (Frame.bytes_inj hf hsend (hframe'.symm.trans hframe))

/-- Without collisions, the content id of an accepted proof names what an engine stores
under it. -/
theorem Sound.named (h : Sound crypto S net) (hfree : CollisionFree crypto S)
    {y : Elem} (hy : y ∈ stored (net.engines i).store.set) (hproof : proof ∈ S) {x : Elem}
    (hx : elemOf crypto proof = some x) (hid : y.contentId = x.contentId) : y = x :=
  elemOf_inj ((h.healthy i).accepted y hy) hx hid fun hvy hvx hhash =>
    hfree ⟨hvy, h.origin i y hy⟩ ⟨hvx, hproof⟩ hhash

theorem mem_drop {k : Nat} {packet' : Packet ι} (hk : net.inFlight[k]? = some packet)
    (hmem : packet' ∈ net.inFlight) :
    packet' ∈ (net.drop k).inFlight ∨ packet' = packet := by
  obtain ⟨l, hl, rfl⟩ := getElem_of_mem hmem
  by_cases hlk : l = k
  · subst hlk
    rw [getElem?_eq_getElem hl] at hk
    exact .inr (Option.some.inj hk)
  · exact .inl (mem_eraseIdx_iff_getElem.mpr ⟨l, hl, hlk, rfl⟩)

theorem start_sound (h : Start net) : Sound crypto S net := by
  refine ⟨fun i => ⟨?_, h.mem i, ?_⟩, fun i => ?_, ?_⟩
  · rw [h.set i]
    exact inv_initial
  · rw [h.set i]
    simp [stored, initial]
  · rw [h.set i]
    simp [stored, initial]
  · rw [h.inFlight]
    exact fun _ h => by cases h

end Sound

variable [DecidableEq ι]

def Net.put (net : Net ι) (i : ι) (e : Engine) (events : List Event) : Net ι where
  engines := Function.update net.engines i e
  log := net.log ++ events.map fun event => (i, event)
  inFlight := net.inFlight ++ packets i events

def Net.call {α : Type} (net : Net ι) (i : ι) (x : GossipM α) : Net ι :=
  let c := after (x ⟨net.engines i, []⟩)
  net.put i c.engine c.events

variable (crypto : Primitives)

/-- One call on an engine; a frame delivered to the engine that it is for is no longer on its way.
-/
def step (net : Net ι) : Action ι → Option (Net ι)
  | .submit i proof => some (net.call i (submit crypto proof))
  | .announce i => some (net.call i announce)
  | .addPeer i peer => some (match addPeer (net.engines i) peer with
      | .ok e => net.put i e []
      | .error _ => net)
  | .removePeer i peer => some (net.put i (removePeer (net.engines i) peer) [])
  | .prune i minEpochKeep => some (net.call i (attempt (prune minEpochKeep)))
  | .deliver k j nowUs =>
    match net.inFlight[k]? with
    | none => none
    | some packet =>
      if (net.engines j).selfId = packet.dst then
        some ((net.drop k).call j (onMessage crypto nowUs (some (net.engines packet.src).selfId) packet.frame))
      else none

def run (net : Net ι) : List (Action ι) → Option (Net ι)
  | [] => some net
  | a :: as => (step crypto net a).bind fun net' => run net' as

def announcement (e : Engine) : List Event :=
  if digest e = [] then [] else sends (fanoutPick e none).1 (.ihave (digest e))

def request (e : Engine) (peer : Bytes32) (ids : List Bytes32) : List Event :=
  if wanted e ids = [] then [] else sends [peer] (.iwant (wanted e ids))

def answer (e : Engine) (peer : Bytes32) (want : List Bytes32) : List Event :=
  (served e want).flatMap fun p => sends [peer] (.push p)

inductive Steps (net : Net ι) : Action ι → Net ι → Prop
  | submit {i : ι} {proof : Bytes} {e : Engine} {events : List Event}
    (h : Learns crypto (net.engines i) proof none e events) :
      Steps net (.submit i proof) (net.put i e events)
  | announce {i : ι} {rotation : Nat} :
      Steps net (.announce i)
        (net.put i { net.engines i with rotation := rotation } (announcement (net.engines i)))
  | addPeer {i : ι} {peer : Bytes32} {view : List Bytes32} :
      Steps net (.addPeer i peer) (net.put i { net.engines i with view := view } [])
  | removePeer {i : ι} {peer : Bytes32} {view : List Bytes32} :
      Steps net (.removePeer i peer) (net.put i { net.engines i with view := view } [])
  | prune {i : ι} {minEpochKeep : Nat} {store : Store} (h : Healthy crypto store)
      (hview : view store.set = trim (view (net.engines i).store.set) minEpochKeep) :
      Steps net (.prune i minEpochKeep) (net.put i { net.engines i with store := store } [])
  | ignored {k : Nat} {j : ι} {nowUs : UInt64} {packet : Packet ι} (hk : net.inFlight[k]? = some packet)
      (hdst : (net.engines j).selfId = packet.dst)
        (hlarge : packet.frame.length > (net.engines j).maxFrameBytes) :
      Steps net (.deliver k j nowUs) ((net.drop k).put j (net.engines j) [])
  | push {k : Nat} {j : ι} {nowUs : UInt64} {packet : Packet ι} {proof : Bytes} {e : Engine}
    {events : List Event}
      (hk : net.inFlight[k]? = some packet) (hdst : (net.engines j).selfId = packet.dst)
      (hframe : packet.frame = (Frame.push proof).bytes) (hsend : (Frame.push proof).Sendable)
      (h : Learns crypto (net.engines j) proof (some (net.engines packet.src).selfId) e events)
      (hsmall : packet.frame.length ≤ (net.engines j).maxFrameBytes) :
      Steps net (.deliver k j nowUs) ((net.drop k).put j e events)
  | ihave {k : Nat} {j : ι} {nowUs : UInt64} {packet : Packet ι} {ids : List Bytes32}
    (hk : net.inFlight[k]? = some packet)
      (hdst : (net.engines j).selfId = packet.dst) (hframe : packet.frame = (Frame.ihave ids).bytes)
      (hsend : (Frame.ihave ids).Sendable) (hsmall : packet.frame.length ≤ (net.engines j).maxFrameBytes) :
      Steps net (.deliver k j nowUs) ((net.drop k).put j (net.engines j)
        (request (net.engines j) (net.engines packet.src).selfId ids))
  | iwant {k : Nat} {j : ι} {nowUs : UInt64} {packet : Packet ι} {want : List Bytes32}
    (hk : net.inFlight[k]? = some packet)
      (hdst : (net.engines j).selfId = packet.dst) (hframe : packet.frame = (Frame.iwant want).bytes)
      (hsend : (Frame.iwant want).Sendable) (hsmall : packet.frame.length ≤ (net.engines j).maxFrameBytes) :
      Steps net (.deliver k j nowUs) ((net.drop k).put j (net.engines j)
        (answer (net.engines j) (net.engines packet.src).selfId want))

variable {crypto} {net net' : Net ι} {S : Set Bytes} {a : Action ι}

theorem prune_steps (h : Healthy crypto e.store) (minEpochKeep : Nat) : ∃ store,
    after (attempt (prune minEpochKeep) ⟨e, []⟩) = ⟨{ e with store := store }, []⟩ ∧ Healthy crypto store ∧
      view store.set = trim (view e.store.set) minEpochKeep := by
  have hout := prune_outcome h.inv minEpochKeep
  cases hres : prune minEpochKeep e.store with
  | error err store =>
    rw [hres] at hout
    exact absurd hout.2.2.1 h.mem
  | ok n store =>
    rw [hres] at hout
    obtain ⟨hmem, hinv, hview⟩ := hout
    refine ⟨store, ?_, ⟨hinv, fun hf => h.mem (hmem.subset hf), fun x hx => ?_⟩, hview⟩
    · rw [attempt, hres]
      rfl
    · have hx' : x ∈ (trim (view e.store.set) minEpochKeep).stored := hview ▸ hx
      exact h.accepted x (Finset.mem_filter.mp hx').1

theorem put_self (net : Net ι) (i : ι) : net.put i (net.engines i) [] = net := by
  rw [Net.put, Function.update_eq_self]
  simp [packets]

theorem step_cases (h : Sound crypto S net) (hstep : step crypto net a = some net') :
    Steps crypto net a net' := by
  cases a with
  | submit i proof =>
    obtain ⟨events, hlearns, hevents⟩ := @submit_learns crypto ⟨net.engines i, []⟩ (h.healthy i) proof
    obtain rfl := Option.some.inj hstep
    rw [Net.call, hevents, nil_append]
    exact .submit hlearns
  | announce i =>
    obtain ⟨rotation, hannounce⟩ := announce_eq ⟨net.engines i, []⟩
    obtain rfl := Option.some.inj hstep
    rw [Net.call, hannounce]
    exact .announce
  | addPeer i peer =>
    obtain rfl := Option.some.inj hstep
    have hsame : Steps crypto net (.addPeer i peer) (net.put i (net.engines i) []) :=
      @Steps.addPeer _ _ _ _ i peer (net.engines i).view
    rw [Dissemination.addPeer]
    split_ifs
    · exact hsame
    · exact hsame
    · rw [put_self] at hsame
      exact hsame
    · exact .addPeer
  | removePeer i peer =>
    obtain rfl := Option.some.inj hstep
    rw [Dissemination.removePeer]
    split
    · exact .removePeer
    · exact @Steps.removePeer _ _ _ _ i peer (net.engines i).view
  | prune i minEpochKeep =>
    obtain ⟨store, hprune, hstore, hview⟩ := prune_steps (h.healthy i) minEpochKeep
    obtain rfl := Option.some.inj hstep
    rw [Net.call, hprune]
    exact .prune hstore hview
  | deliver k j nowUs =>
    rw [step] at hstep
    split at hstep
    · cases hstep
    rename_i packet hk
    split at hstep
    · rename_i hdst
      obtain rfl := Option.some.inj hstep
      obtain ⟨f, hf, hframe, -⟩ := h.framed packet (mem_of_getElem? hk)
      rw [Net.call, hframe, onMessage_eq hf]
      split
      · rename_i hlarge
        exact .ignored hk hdst (hframe ▸ hlarge)
      rename_i hlarge
      have hsmall : packet.frame.length ≤ (net.engines j).maxFrameBytes := hframe ▸ Nat.le_of_not_lt hlarge
      cases f with
      | push proof =>
        obtain ⟨events, hlearns, hevents⟩ :=
          @handle_push_learns crypto ⟨net.engines j, []⟩ (h.healthy j) proof hf
          (some (net.engines packet.src).selfId)
        rw [nil_append] at hevents
        exact hevents ▸ .push hk hdst hframe hf hlearns hsmall
      | ihave ids =>
        rw [handle_ihave_eq hf]
        exact .ihave hk hdst hframe hf hsmall
      | iwant want =>
        rw [handle_iwant_eq hf]
        exact .iwant hk hdst hframe hf hsmall
    · cases hstep

theorem Sound.put (h : Sound crypto S net) (hstore : Healthy crypto e.store)
    (horigin : ∀ x ∈ stored e.store.set, x.proof ∈ S)
    (hevents : ∀ peer frame, .sent peer frame ∈ events → Framed S frame) :
    Sound crypto S (net.put i e events) := by
  refine ⟨?_, ?_, fun packet hpacket => ?_⟩
  · exact (Function.forall_update_iff net.engines fun _ e => Healthy crypto e.store).mpr
      ⟨hstore, fun j _ => h.healthy j⟩
  · exact (Function.forall_update_iff net.engines fun _ e =>
      ∀ x ∈ stored e.store.set, x.proof ∈ S).mpr ⟨horigin, fun j _ => h.origin j⟩
  · rcases mem_append.mp hpacket with hold | hnew
    · exact h.framed packet hold
    · exact hevents _ _ (mem_packets.mp hnew).2

section Sent

variable {peer target : Bytes32} {frame : Bytes} {ids want : List Bytes32}

theorem announcement_sent (h : .sent peer frame ∈ announcement e) :
    peer ∈ (fanoutPick e none).1 ∧ (Frame.ihave (digest e)).Sendable ∧
    frame = (Frame.ihave (digest e)).bytes := by
  rw [announcement] at h
  split at h
  · cases h
  · rename_i hne
    obtain ⟨hpeer, hframe⟩ := mem_sends.mp h
    exact ⟨hpeer, ⟨length_pos_iff.mpr hne, digest_length e⟩, hframe⟩

theorem request_sent (hids : ids.length ≤ maxIds) (h : .sent peer frame ∈ request e target ids) :
    peer = target ∧ (Frame.iwant (wanted e ids)).Sendable ∧ frame = (Frame.iwant (wanted e ids)).bytes := by
  rw [request] at h
  split at h
  · cases h
  · rename_i hne
    obtain ⟨hpeer, hframe⟩ := mem_sends.mp h
    exact ⟨mem_singleton.mp hpeer, ⟨length_pos_iff.mpr hne, (length_filter_le ..).trans hids⟩, hframe⟩

theorem answer_sent (h : .sent peer frame ∈ answer e target want) :
    peer = target ∧ ∃ x ∈ stored e.store.set, x.contentId ∈ want ∧
    (Frame.push x.proof).Sendable ∧ frame = (Frame.push x.proof).bytes := by
  obtain ⟨proof, hproof, h⟩ := mem_flatMap.mp h
  obtain ⟨x, hx, hid, rfl, hsend⟩ := mem_served.mp hproof
  obtain ⟨hpeer, hframe⟩ := mem_sends.mp h
  exact ⟨mem_singleton.mp hpeer, x, hx, hid, hsend, hframe⟩

theorem learns_framed {e' : Engine} {exclude : Option Bytes32}
    (h : Learns crypto e proof exclude e' events) (hproof : proof ∈ S)
    (hmem : .sent peer frame ∈ events) : Framed S frame := by
  obtain ⟨-, -, hsend, hframe⟩ := h.sent hmem
  exact ⟨.push proof, hsend, hframe, fun p hp => Frame.push.inj hp ▸ hproof⟩

end Sent

theorem Steps.sound (h : Sound crypto S net) (hsubmit : ∀ i proof, a = .submit i proof → proof ∈ S)
    (hstep : Steps crypto net a net') : Sound crypto S net' := by
  cases hstep with
  | @submit i proof e events hl =>
    have hproof := hsubmit i proof rfl
    exact h.put (hl.healthy (h.healthy i)) (hl.origin (h.origin i) hproof) fun _ _ => learns_framed hl hproof
  | @announce i rotation =>
    refine h.put (h.healthy i) (h.origin i) fun _ _ hmem => ?_
    obtain ⟨-, hf, hframe⟩ := announcement_sent hmem
    exact ⟨_, hf, hframe, fun _ hp => by cases hp⟩
  | @addPeer i | @removePeer i => exact h.put (h.healthy i) (h.origin i) fun _ _ hmem => by cases hmem
  | @prune i m store hstore hview =>
    refine h.put hstore (fun x hx => h.origin i x ?_) fun _ _ hmem => by cases hmem
    have hx' : x ∈ (trim (view (net.engines i).store.set) m).stored := hview ▸ hx
    exact (Finset.mem_filter.mp hx').1
  | @ignored k j => exact (h.drop k).put (h.healthy j) (h.origin j) fun _ _ hmem => by cases hmem
  | @push k j nowUs packet proof e events hk hdst hframe hsend hl =>
    have hproof := h.pushed (mem_of_getElem? hk) hframe hsend
    exact (h.drop k).put (hl.healthy (h.healthy j)) (hl.origin (h.origin j) hproof) fun _ _ =>
      learns_framed hl hproof
  | @ihave k j nowUs packet ids hk hdst hframe hsend =>
    refine (h.drop k).put (h.healthy j) (h.origin j) fun _ _ hmem => ?_
    obtain ⟨-, hf, hframe⟩ := request_sent hsend.2 hmem
    exact ⟨_, hf, hframe, fun _ hp => by cases hp⟩
  | @iwant k j nowUs packet want hk hdst hframe hsend =>
    refine (h.drop k).put (h.healthy j) (h.origin j) fun _ _ hmem => ?_
    obtain ⟨-, x, hx, -, hf, hframe⟩ := answer_sent hmem
    exact ⟨_, hf, hframe, fun p hp => Frame.push.inj hp ▸ h.origin j x hx⟩

/-- What holds of a sound network step by step holds along every run; `P` is told the
actions that have been done. -/
theorem run_induct {P : List (Action ι) → Net ι → Prop} {actions : List (Action ι)} (hS : submitted actions ⊆ S)
    (hstep : ∀ done net a net', a ∈ actions → Sound crypto S net → P done net →
      Steps crypto net a net' → P (done ++ [a]) net')
    (done : List (Action ι)) (hsound : Sound crypto S net) (h : P done net)
    (hrun : run crypto net actions = some net') :
    Sound crypto S net' ∧ P (done ++ actions) net' := by
  have hrest : ∀ rest ⊆ actions, ∀ done net, Sound crypto S net → P done net → run crypto net rest = some net' →
      Sound crypto S net' ∧ P (done ++ rest) net' := by
    intro rest
    induction rest with
    | nil =>
      intro _ done net hsound h hrun
      obtain rfl := Option.some.inj hrun
      simpa using ⟨hsound, h⟩
    | cons a as ih =>
      intro hsub done net hsound h hrun
      obtain ⟨mid, hmid, hrest⟩ := Option.bind_eq_some_iff.mp hrun
      have hmem : a ∈ actions := hsub mem_cons_self
      have hsteps := step_cases hsound hmid
      have hmidSound : Sound crypto S mid := hsteps.sound hsound fun i proof ha => hS ⟨i, ha ▸ hmem⟩
      simpa using ih (fun b hb => hsub (mem_cons_of_mem a hb)) (done ++ [a]) mid hmidSound
        (hstep done net a mid hmem hsound h hsteps) hrest
  exact hrest actions (List.Subset.refl _) done net hsound h hrun

end AntsClient.Gossip.Network
