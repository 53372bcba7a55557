import AntsClient.Crdt.Join
import AntsClient.Gossip.Network

namespace AntsClient.Gossip.Traffic

open Common Crypto Crdt Proof Container Refine Operations Converge Frames Dissemination Reactions Network
open List hiding contains

variable {proof : Bytes} {e : Engine} {events : List Event} {exclude : Option Bytes32} {ι : Type}

def isSent : Event → Bool
  | .sent .. => true
  | .observed _ | .forwarded _ => false

def sentCount (log : List (ι × Event)) : Nat := log.countP fun entry => isSent entry.2

def forwards (log : List (ι × Event)) : List (ι × Bytes) := log.filterMap fun
  | (i, .forwarded proof) => some (i, proof)
  | (_, .observed _) | (_, .sent ..) => none

def accepted (log : List (ι × Event)) : Finset Bytes := (log.filterMap fun
  | (_, .observed proof) => some proof
  | (_, .forwarded _) | (_, .sent ..) => none).toFinset

def isAnnounce : Action ι → Bool
  | .announce _ => true
  | .submit .. | .addPeer .. | .removePeer .. | .prune .. | .deliver .. => false

def announces (actions : List (Action ι)) : Nat := actions.countP isAnnounce

theorem mem_accepted {log : List (ι × Event)} : proof ∈ accepted log ↔ ∃ i, (i, .observed proof) ∈ log := by
  rw [accepted, mem_toFinset, mem_filterMap]
  constructor
  · intro ⟨(i, event), hmem, heq⟩
    cases event with
    | forwarded | sent => cases heq
    | observed p =>
      obtain rfl := Option.some.inj heq
      exact ⟨i, hmem⟩
  · intro ⟨i, hmem⟩
    exact ⟨_, hmem, rfl⟩

theorem count_forwards [DecidableEq ι] (log : List (ι × Event)) (i : ι) (proof : Bytes) :
    log.count (i, .forwarded proof) = (forwards log).count (i, proof) := by
  induction log with
  | nil => rfl
  | cons entry log ih =>
    obtain ⟨j, event⟩ := entry
    cases event with
    | observed | sent =>
      rw [count_cons_of_ne (by simp), ih]
      rfl
    | forwarded p =>
      change _ = ((j, p) :: forwards log).count (i, proof)
      rw [count_cons, count_cons, ih]
      simp

section Known

/-- The element is stored, or it is below the floor and its subject is retired. -/
def Known (v : View) (x : Elem) : Prop := x ∈ v.stored ∨ x.epoch < v.floor ∧ x.subject ∈ v.retired

variable {v : View} {x y : Elem}

theorem Known.offer_self (h : Known v x) (hfloor : ∀ y ∈ v.stored, v.floor ≤ y.epoch) : offer v x = v := by
  rw [offer]
  rcases h with hstored | ⟨hbelow, hretired⟩
  · rw [if_neg (Nat.not_lt.mpr (hfloor x hstored)), if_pos ⟨x, hstored, rfl⟩]
  · rw [if_pos hbelow, Finset.insert_eq_self.mpr hretired]

theorem known_of_offer (hid : ∀ y ∈ v.stored, y.contentId = x.contentId → y = x) : Known (offer v x) x := by
  rw [offer]
  split_ifs with hbelow hold
  · exact .inr ⟨hbelow, Finset.mem_insert_self _ _⟩
  · obtain ⟨y, hy, heq⟩ := hold
    exact .inl (hid y hy heq ▸ hy)
  · exact .inl (Finset.mem_insert_self _ _)

theorem Known.of_offer (h : Known v x) (y : Elem) : Known (offer v y) x := by
  rw [offer]
  split_ifs
  · exact h.imp_right (And.imp_right fun hretired => Finset.mem_insert_of_mem hretired)
  · exact h
  · exact h.imp_left fun hstored => Finset.mem_insert_of_mem hstored

theorem Known.of_trim (h : Known v x) (m : Nat) : Known (trim v m) x := by
  rcases h with hstored | ⟨hbelow, hretired⟩
  · by_cases hkeep : m ≤ x.epoch
    · exact .inl (Finset.mem_filter.mpr ⟨hstored, hkeep⟩)
    · have hlow : x.epoch < m := Nat.lt_of_not_le hkeep
      have hgone : x.subject ∈ (v.stored.filter fun e => e.epoch < m).image Elem.subject :=
        Finset.mem_image_of_mem _ (Finset.mem_filter.mpr ⟨hstored, hlow⟩)
      exact .inr ⟨lt_max_of_lt_right hlow, Finset.mem_union_right _ hgone⟩
  · exact .inr ⟨lt_max_of_lt_left hbelow, Finset.mem_union_left _ hretired⟩

end Known

variable {peer : Bytes32} {i : ι} {k : Nat} {packet : Packet ι} {e' : Engine}

section Load

/-- What a frame on its way can still cost: a digest leads to a request, and a request to an answer.
-/
def cost (frame : Bytes) : Nat :=
  match peekFrameType frame with
  | .error _ => 0
  | .ok type => if type = msgIhave then 1 + maxIds else if type = msgIwant then maxIds else 0

def eventLoad : Event → Nat
  | .sent _ frame => 1 + cost frame
  | .observed _ | .forwarded _ => 0

def load (events : List Event) : Nat := (events.map eventLoad).sum

def pending (inFlight : List (Packet ι)) : Nat := (inFlight.map fun packet => cost packet.frame).sum

def weight : Frame → Nat
  | .push _ => 0
  | .ihave _ => 1 + maxIds
  | .iwant _ => maxIds

theorem cost_eq {f : Frame} (hf : f.Sendable) : cost f.bytes = weight f := by
  rw [cost, peekFrameType_eq hf]
  cases f with
  | push | ihave | iwant => rfl

theorem load_sends (peers : List Bytes32) (f : Frame) :
    load (sends peers f) = peers.length * (1 + cost f.bytes) := by
  induction peers with
  | nil => exact (Nat.zero_mul _).symm
  | cons peer peers ih =>
    rw [length_cons, Nat.succ_mul, ← ih, Nat.add_comm]
    rfl

theorem load_eq (i : ι) (events : List Event) :
    load events = sentCount (events.map fun event => (i, event)) + pending (packets i events) := by
  induction events with
  | nil => rfl
  | cons event events ih =>
    change eventLoad event + load events = _
    rw [ih]
    cases event with
    | observed | forwarded =>
      rw [eventLoad, Nat.zero_add]
      rfl
    | sent peer frame =>
      change 1 + cost frame + _ = (List.countP _ ((i, Event.sent peer frame) :: _)) +
        (cost frame + pending (packets i events))
      rw [countP_cons_of_pos rfl, sentCount]
      omega

theorem announcement_load {f : Nat} (hfanout : e.fanout ≤ f) : load (announcement e) ≤ 66 * f := by
  rw [announcement]
  split
  · exact Nat.zero_le _
  · rename_i hne
    rw [load_sends, @cost_eq (.ihave _) ⟨length_pos_iff.mpr hne, digest_length e⟩, Nat.mul_comm]
    exact Nat.mul_le_mul_left _ ((fanoutPick_length e none).trans hfanout)

theorem request_load {ids : List Bytes32} (hids : ids.length ≤ maxIds) :
    load (request e peer ids) ≤ weight (.ihave ids) := by
  rw [request]
  split
  · exact Nat.zero_le _
  · rename_i hne
    have hle : (wanted e ids).length ≤ maxIds := (length_filter_le ..).trans hids
    rw [load_sends, @cost_eq (.iwant _) ⟨length_pos_iff.mpr hne, hle⟩, length_singleton, Nat.one_mul]
    exact le_rfl

theorem answer_load (he : Inv e.store.set) {want : List Bytes32} (hwant : want.length ≤ maxIds) :
    load (answer e peer want) ≤ weight (.iwant want) := by
  have hone : ∀ proofs ⊆ served e want,
      load (proofs.flatMap fun p => sends [peer] (.push p)) = proofs.length := by
    intro proofs
    induction proofs with
    | nil => exact fun _ => rfl
    | cons proof proofs ih =>
      intro hsub
      have htail := ih fun p hp => hsub (mem_cons_of_mem _ hp)
      obtain ⟨x, -, -, rfl, hsend⟩ := mem_served.mp (hsub mem_cons_self)
      change 1 + cost (Frame.push x.proof).bytes + load (proofs.flatMap fun p => sends [peer] (.push p)) = _
      rw [cost_eq hsend, htail, length_cons, weight, Nat.add_comm]
  rw [answer, hone _ (List.Subset.refl _)]
  exact (served_length he want).trans hwant

end Load

theorem forwards_sends (i : ι) (peers : List Bytes32) (f : Frame) :
    forwards ((sends peers f).map fun event => (i, event)) = [] := by
  rw [sends, map_map]
  exact filterMap_eq_nil_iff.mpr fun entry hentry => by
    obtain ⟨peer, -, rfl⟩ := mem_map.mp hentry
    rfl

theorem forwards_answer (i : ι) (e : Engine) (peer : Bytes32) (want : List Bytes32) :
    forwards ((answer e peer want).map fun event => (i, event)) = [] := by
  rw [answer]
  induction served e want with
  | nil => rfl
  | cons proof proofs ih => exact ih

variable {crypto : Primitives} {net net' : Net ι} {S : Set Bytes} {a : Action ι}

section Once

/-- Whatever an engine has forwarded was new to it then, is known to it since, and has
been forwarded once. -/
structure Once (crypto : Primitives) (net : Net ι) : Prop where
  known : ∀ i proof, (i, proof) ∈ forwards net.log →
    ∃ x, elemOf crypto proof = some x ∧ Known (view (net.engines i).store.set) x
  accepted : ∀ i proof, (i, proof) ∈ forwards net.log → proof ∈ accepted net.log
  nodup : (forwards net.log).Nodup

theorem Once.drop (h : Once crypto net) (k : Nat) : Once crypto (net.drop k) := ⟨h.known, h.accepted, h.nodup⟩

variable [DecidableEq ι]

theorem forwards_put (net : Net ι) (i : ι) (e : Engine) (events : List Event) :
    forwards (net.put i e events).log = forwards net.log ++ forwards (events.map fun event => (i, event)) :=
  filterMap_append

theorem Once.put (h : Once crypto net) (new : List Bytes)
    (hforwards : forwards (events.map fun event => (i, event)) = new.map fun p => (i, p)) (hnodup : new.Nodup)
    (hkeep : ∀ x, Known (view (net.engines i).store.set) x → Known (view e.store.set) x)
    (hnew : ∀ p ∈ new, (∃ x, elemOf crypto p = some x ∧ Known (view e.store.set) x) ∧ .observed p ∈ events ∧
      (i, p) ∉ forwards net.log) : Once crypto (net.put i e events) := by
  have hlog : forwards (net.put i e events).log = forwards net.log ++ new.map fun p =>
    (i, p) := by rw [forwards_put, hforwards]
  refine ⟨fun j p hmem => ?_, fun j p hmem => ?_, ?_⟩
  · rw [hlog] at hmem
    rcases mem_append.mp hmem with hold | hmem
    · obtain ⟨x, hx, hknown⟩ := h.known j p hold
      exact ⟨x, hx, (Function.forall_update_iff net.engines fun j e =>
        Known (view (net.engines j).store.set) x → Known (view e.store.set) x).mpr ⟨hkeep x,
        fun _ _ => id⟩ j hknown⟩
    · obtain ⟨q, hq, heq⟩ := mem_map.mp hmem
      obtain ⟨rfl, rfl⟩ := Prod.mk.inj heq
      change ∃ x, _ ∧ Known (view (Function.update net.engines i e i).store.set) x
      rw [Function.update_self]
      exact (hnew q hq).1
  · rw [hlog] at hmem
    rcases mem_append.mp hmem with hold | hmem
    · obtain ⟨k, hk⟩ := mem_accepted.mp (h.accepted j p hold)
      exact mem_accepted.mpr ⟨k, mem_append_left _ hk⟩
    · obtain ⟨q, hq, heq⟩ := mem_map.mp hmem
      obtain ⟨rfl, rfl⟩ := Prod.mk.inj heq
      exact mem_accepted.mpr ⟨i, mem_append_right _ (mem_map_of_mem (hnew q hq).2.1)⟩
  · rw [hlog]
    refine h.nodup.append (hnodup.map (Prod.mk_right_injective i)) fun q hold hmem => ?_
    obtain ⟨p, hp, rfl⟩ := mem_map.mp hmem
    exact (hnew p hp).2.2 hold

theorem Once.quiet (h : Once crypto net) (hquiet : forwards (events.map fun event => (i, event)) = [])
    (hkeep : ∀ x, Known (view (net.engines i).store.set) x → Known (view e.store.set) x) :
    Once crypto (net.put i e events) :=
  h.put [] hquiet nodup_nil hkeep fun _ hp => absurd hp not_mem_nil

/-- Without collisions, an engine does not forward again what it knows, and knows what it
forwards. -/
theorem Once.learns (h : Once crypto net) (hsound : Sound crypto S net)
    (hfree : CollisionFree crypto S) (hproof : proof ∈ S)
    (hl : Learns crypto (net.engines i) proof exclude e events) :
    Once crypto (net.put i e events) := by
  cases hl with
  | refused => exact h.quiet rfl fun _ hx => hx
  | known _ _ _ hsame => exact h.quiet rfl fun _ hx => hsame ▸ hx
  | @fresh x store rotation hx hstore hview hnew =>
    have hid : ∀ y ∈ stored (net.engines i).store.set, y.contentId = x.contentId → y = x :=
      fun y hy heq => hsound.named hfree hy hproof hx heq
    refine h.put [proof] ?_ (nodup_singleton _) (fun y hy => hview ▸ hy.of_offer x) fun p hp => ?_
    · change (i, proof) :: forwards _ = _
      rw [forwards_sends]
      rfl
    · obtain rfl := mem_singleton.mp hp
      refine ⟨⟨x, hx, hview ▸ known_of_offer hid⟩, mem_cons_self, fun hmem => ?_⟩
      -- what was forwarded before is known, and offering it would have changed nothing
      obtain ⟨x', hx', hknown⟩ := h.known i p hmem
      obtain rfl := Option.some.inj (hx'.symm.trans hx)
      exact hnew (hview.trans (hknown.offer_self (hsound.healthy i).inv.floor))

theorem Steps.once (hstep : Steps crypto net a net') (hsound : Sound crypto S net)
    (hsubmit : ∀ i proof, a = .submit i proof → proof ∈ S)
    (hfree : CollisionFree crypto S) (h : Once crypto net) : Once crypto net' := by
  cases hstep with
  | @submit i proof _ _ hl => exact h.learns hsound hfree (hsubmit i proof rfl) hl
  | @announce i =>
    refine h.quiet ?_ fun _ hx => hx
    rw [announcement]
    split
    · rfl
    · exact forwards_sends ..
  | addPeer | removePeer => exact h.quiet rfl fun _ hx => hx
  | @prune i m store hstore hview => exact h.quiet rfl fun _ hx => hview ▸ hx.of_trim m
  | @ignored k => exact (h.drop k).quiet rfl fun _ hx => hx
  | @push k j nowUs packet proof e events hk hdst hframe hsend hl =>
    have hproof := hsound.pushed (mem_of_getElem? hk) hframe hsend
    exact (h.drop k).learns (hsound.drop k) hfree hproof hl
  | @ihave k j nowUs packet ids =>
    refine (h.drop k).quiet ?_ fun _ hx => hx
    rw [request]
    split
    · rfl
    · exact forwards_sends ..
  | @iwant k => exact (h.drop k).quiet (forwards_answer ..) fun _ hx => hx

end Once

section Charge

def spent (net : Net ι) : Nat := sentCount net.log + pending net.inFlight

theorem spent_drop (hk : net.inFlight[k]? = some packet) :
    spent (net.drop k) + cost packet.frame = spent net := by
  obtain ⟨hlt, rfl⟩ := List.getElem?_eq_some_iff.mp hk
  have hsum : pending (net.inFlight.eraseIdx k) + cost net.inFlight[k].frame = pending net.inFlight := by
    rw [pending, pending, (getElem_cons_eraseIdx_perm hlt).symm.map _ |>.sum_eq, map_cons,
      sum_cons, Nat.add_comm]
  rw [spent, spent, ← hsum]
  change sentCount net.log + pending (net.inFlight.eraseIdx k) + _ = _
  omega

variable {f : Nat}

theorem learns_load (i : ι) (h : Learns crypto e proof exclude e' events) (hfanout : e.fanout ≤ f) :
    load events ≤ f * (forwards (events.map fun event => (i, event))).length := by
  cases h with
  | refused | known => exact Nat.zero_le _
  | fresh =>
    change 0 + (0 + load (sends (eager e proof exclude) (.push proof))) ≤
      f * (((i, proof) :: forwards ((sends _ _).map fun event => (i, event))).length)
    rw [load_sends, forwards_sends, eager]
    split
    · rename_i hsend
      rw [@cost_eq (.push proof) hsend, weight]
      have := fanoutPick_length e exclude
      simp only [length_cons, length_nil]
      omega
    · simp

variable [DecidableEq ι]

theorem spent_put (net : Net ι) (i : ι) (e : Engine) (events : List Event) :
    spent (net.put i e events) = spent net + load events := by
  have hlog : sentCount (net.put i e events).log =
      sentCount net.log + sentCount (events.map fun event => (i, event)) :=
    countP_append
  have hflight : pending (net.put i e events).inFlight = pending net.inFlight + pending (packets i events) := by
    change ((net.inFlight ++ packets i events).map _).sum = _
    rw [map_append, sum_append]
    rfl
  rw [spent, hlog, hflight, load_eq i events, spent]
  omega

theorem Learns.fanout (h : Learns crypto e proof exclude e' events) : e'.fanout = e.fanout := by
  cases h with
  | refused | known | fresh => rfl

theorem Steps.fanout (hstep : Steps crypto net a net') (j : ι) :
    (net'.engines j).fanout = (net.engines j).fanout := by
  have hput {base : Net ι} {i : ι} {e : Engine} {events : List Event} (h : e.fanout = (base.engines i).fanout) :
      ((base.put i e events).engines j).fanout = (base.engines j).fanout :=
    (Function.forall_update_iff base.engines fun j e => e.fanout = (base.engines j).fanout).mpr
      ⟨h, fun _ _ => rfl⟩ j
  cases hstep with
  | submit hl => exact hput (Learns.fanout hl)
  | announce | addPeer | removePeer | prune => exact hput rfl
  | push _ _ _ _ hl => exact @hput (net.drop _) _ _ _ (Learns.fanout hl)
  | ignored | ihave | iwant => exact @hput (net.drop _) _ _ _ rfl

theorem spent_put_le {i : ι} {e : Engine} {events : List Event} {paid : Nat}
    (h : load events ≤ f * (forwards (events.map fun event => (i, event))).length + paid) :
    spent (net.put i e events) + f * (forwards net.log).length ≤ spent net +
      f * (forwards (net.put i e events).log).length + paid := by
  rw [spent_put, forwards_put, length_append, Nat.mul_add]
  omega

theorem spent_deliver_le {j : ι} (hk : net.inFlight[k]? = some packet)
    (h : load events ≤ f * (forwards (events.map fun event => (j, event))).length + cost packet.frame) :
    spent ((net.drop k).put j e events) + f * (forwards net.log).length ≤
      spent net + f * (forwards ((net.drop k).put j e events).log).length := by
  have hput : spent ((net.drop k).put j e events) + f * (forwards net.log).length ≤ _ :=
    @spent_put_le _ (net.drop k) f _ j e events _ h
  rw [← spent_drop hk]
  omega

/-- A step pays for what it sends: with what it forwards, with an announcement, or with
the frame that it takes. -/
theorem Steps.spent_le (hstep : Steps crypto net a net') (hsound : Sound crypto S net)
    (hfanout : ∀ i, (net.engines i).fanout ≤ f) :
    spent net' + f * (forwards net.log).length ≤ spent net + f * (forwards net'.log).length +
      66 * announces [a] * f := by
  cases hstep with
  | @submit i proof e events hl =>
    exact spent_put_le (Nat.le_add_right_of_le (learns_load i hl (hfanout i)))
  | @announce i =>
    have h : load (announcement (net.engines i)) ≤ 66 * 1 * f := announcement_load (hfanout i)
    exact spent_put_le (Nat.le_add_left_of_le h)
  | @addPeer i | @removePeer i | @prune i => exact spent_put_le (Nat.zero_le _)
  | @ignored k j nowUs packet hk => exact Nat.le_add_right_of_le (spent_deliver_le hk (Nat.zero_le _))
  | @push k j nowUs packet proof e events hk hdst hframe hsend hl =>
    exact Nat.le_add_right_of_le (spent_deliver_le hk (Nat.le_add_right_of_le (learns_load j hl (hfanout j))))
  | @ihave k j nowUs packet ids hk hdst hframe hsend =>
    have h : load (request (net.engines j) (net.engines packet.src).selfId ids) ≤ cost packet.frame := by
      rw [hframe, cost_eq hsend]
      exact request_load hsend.2
    exact Nat.le_add_right_of_le (spent_deliver_le hk (Nat.le_add_left_of_le h))
  | @iwant k j nowUs packet want hk hdst hframe hsend =>
    have h : load (answer (net.engines j) (net.engines packet.src).selfId want) ≤ cost packet.frame := by
      rw [hframe, cost_eq hsend]
      exact answer_load (hsound.healthy j).inv hsend.2
    exact Nat.le_add_right_of_le (spent_deliver_le hk (Nat.le_add_left_of_le h))

end Charge

structure Bounded (crypto : Primitives) (f : Nat) (done : List (Action ι)) (net : Net ι) : Prop where
  fanout : ∀ i, (net.engines i).fanout ≤ f
  once : Once crypto net
  spent : spent net ≤ f * (forwards net.log).length + 66 * announces done * f

variable {f : Nat} {done actions : List (Action ι)}

theorem bounded_start (h : Start net) (hfanout : ∀ i, (net.engines i).fanout ≤ f) :
    Bounded crypto f [] net := by
  refine ⟨hfanout, ⟨?_, ?_, ?_⟩, ?_⟩
  · rw [h.log]
    exact fun _ _ hmem => absurd hmem not_mem_nil
  · rw [h.log]
    exact fun _ _ hmem => absurd hmem not_mem_nil
  · rw [h.log]
    exact nodup_nil
  · rw [spent, h.log, h.inFlight]
    exact Nat.zero_le _

theorem Bounded.step [DecidableEq ι] (h : Bounded crypto f done net) (hsound : Sound crypto S net)
    (hsubmit : ∀ i proof, a = .submit i proof → proof ∈ S)
    (hfree : CollisionFree crypto S) (hstep : Steps crypto net a net') :
    Bounded crypto f (done ++ [a]) net' := by
  refine ⟨fun j => (Steps.fanout hstep j).le.trans (h.fanout j),
    Steps.once hstep hsound hsubmit hfree h.once, ?_⟩
  have hle := Steps.spent_le hstep hsound h.fanout
  have hspent := h.spent
  have hannounces : announces (done ++ [a]) = announces done + announces [a] := countP_append
  rw [hannounces, Nat.mul_add, Nat.add_mul]
  omega

theorem Once.forwards_length [Fintype ι] (h : Once crypto net) :
    (forwards net.log).length ≤ (Traffic.accepted net.log).card * Fintype.card ι := by
  classical
  rw [← toFinset_card_of_nodup h.nodup, Nat.mul_comm, ← Finset.card_univ, ← Finset.card_product]
  apply Finset.card_le_card
  intro ⟨i, proof⟩ hmem
  exact Finset.mem_product.mpr ⟨Finset.mem_univ i, h.accepted i proof (mem_toFinset.mp hmem)⟩

/-- An engine forwards a proof at most once, and the frames sent are bounded by the proofs new to
some engine and the announcements. -/
theorem traffic_bounded [DecidableEq ι] [Fintype ι] (hstart : Start net)
    (hfanout : ∀ i, (net.engines i).fanout ≤ f)
    (hfree : Set.InjOn crypto.blake3 {p | verify crypto p = .ok () ∧ p ∈ submitted actions})
    (hrun : run crypto net actions = some net') :
    (∀ i proof, net'.log.count (i, .forwarded proof) ≤ 1) ∧
      sentCount net'.log ≤ (accepted net'.log).card * Fintype.card ι * f + 66 * announces actions * f := by
  obtain ⟨-, hbounded⟩ := run_induct subset_rfl (fun _ _ _ _ hmem hsound h hstep =>
    Bounded.step h hsound (fun i _ ha => ⟨i, ha ▸ hmem⟩) hfree hstep) [] (start_sound hstart)
    (bounded_start hstart hfanout) hrun
  constructor
  · intro i proof
    rw [count_forwards]
    exact nodup_iff_count_le_one.mp hbounded.once.nodup (i, proof)
  · calc sentCount net'.log ≤ spent net' := Nat.le_add_right _ _
      _ ≤ f * (forwards net'.log).length + 66 * announces actions * f := hbounded.spent
      _ ≤ (accepted net'.log).card * Fintype.card ι * f + 66 * announces actions * f := by
          rw [Nat.mul_comm f]
          exact Nat.add_le_add_right (Nat.mul_le_mul_right f hbounded.once.forwards_length) _

def pair : Net Bool where
  engines i := {
    store := ⟨initial, []⟩
    selfId := Crypto.digest i.toNat
    fanout := 1
    maxFrameBytes := defaultMaxFrame
    view := if i then [Crypto.digest 0] else []
    rotation := 0
    announceMinEpoch := 0
    chainFn := none
    chainSeen := [] }
  log := []
  inFlight := []

def pull : List (Action Bool) :=
  [.submit false sampleProof, .addPeer false (Crypto.digest 1), .announce false, .deliver 0 true 0,
    .deliver 0 false 0, .deliver 0 true 0]

theorem traffic_bounded_pull : ∃ net', run sampleCrypto pair pull = some net' ∧ sentCount net'.log = 3 ∧
    contains (net'.engines true).store.set (contentId sampleCrypto sampleProof) = true ∧
    (∀ i proof, net'.log.count (i, .forwarded proof) ≤ 1) ∧
      sentCount net'.log ≤ (accepted net'.log).card * Fintype.card Bool * 1 + 66 * announces pull * 1 := by
  have hrun : (run sampleCrypto pair pull).any (fun net' => sentCount net'.log = 3 ∧
      contains (net'.engines true).store.set (contentId sampleCrypto sampleProof) = true) =
      true := by decide +kernel
  obtain ⟨net', hnet', hfacts⟩ := (Option.any_eq_true ..).mp hrun
  have hfree : submitted pull ⊆ {sampleProof} := by
    intro p ⟨i, hp⟩
    have hp : i = false ∧ p = sampleProof := by simpa [pull] using hp
    exact hp.2
  have hbound := @traffic_bounded Bool sampleCrypto pair net' 1 pull _ _
    ⟨fun _ => rfl, fun _ => not_mem_nil, rfl, rfl⟩ (fun _ => le_rfl)
    (Crdt.Join.sample_injOn hfree) hnet'
  exact ⟨net', hnet', (of_decide_eq_true hfacts).1, (of_decide_eq_true hfacts).2, hbound⟩

end AntsClient.Gossip.Traffic
