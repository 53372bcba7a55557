import AntsClient.Crdt.Operations
import AntsClient.Gossip.Dissemination

namespace AntsClient.Gossip.Reactions

open Common Crypto Crdt Proof Container Refine Operations Frames Dissemination List

variable {left scanned : Nat} {peer : Bytes32} {store : Store} {frame : Bytes} {ids : List Bytes32}

section Fanout

variable {view : List Bytes32} {rotation want : Nat} {exclude : Option Bytes32}

theorem fanoutScan_length {left scanned sent : Nat} :
    (fanoutScan view rotation want exclude left scanned sent).1.length ≤ want - sent := by
  induction left generalizing scanned sent with
  | zero => exact Nat.zero_le _
  | succ left ih =>
    rw [fanoutScan]
    split
    · rename_i hlt
      split
      · exact Nat.zero_le _
      · split
        · exact ih
        · have := @ih (scanned + 1) (sent + 1)
          rw [length_cons]
          omega
    · exact Nat.zero_le _

theorem fanoutScan_mem {sent : Nat} :
    ∀ peer ∈ (fanoutScan view rotation want exclude left scanned sent).1, peer ∈ view ∧
    exclude ≠ some peer := by
  induction left generalizing scanned sent with
  | zero => exact fun _ h => absurd h not_mem_nil
  | succ left ih =>
    rw [fanoutScan]
    split
    · split
      · exact fun _ h => absurd h not_mem_nil
      · rename_i peer hpeer
        split
        · exact ih
        · rename_i hne
          exact forall_mem_cons.mpr ⟨⟨mem_of_getElem? hpeer, hne⟩, ih⟩
    · exact fun _ h => absurd h not_mem_nil

theorem fanoutScan_covers {sent k : Nat} (hwant : view.length ≤ want) (hleft : scanned + left = view.length)
    (hsent : sent ≤ scanned) (hk : scanned ≤ k) (hlt : k < view.length)
    (hpeer : view[(rotation + k) % view.length]? = some peer) (hne : exclude ≠ some peer) :
    peer ∈ (fanoutScan view rotation want exclude left scanned sent).1 := by
  induction left generalizing scanned sent with
  | zero => omega
  | succ left ih =>
    obtain ⟨first, hfirst⟩ : ∃ first, view[(rotation + scanned) % view.length]? = some first :=
      ⟨_, getElem?_eq_getElem (Nat.mod_lt _ (Nat.zero_lt_of_lt hlt))⟩
    rw [fanoutScan, if_pos (by omega), hfirst]
    rcases Nat.eq_or_lt_of_le hk with rfl | hk
    · obtain rfl : peer = first := Option.some.inj (hpeer.symm.trans hfirst)
      dsimp only
      rw [if_neg hne]
      exact mem_cons_self
    · dsimp only
      split
      · exact ih (by omega) (by omega) hk
      · exact mem_cons_of_mem _ (ih (by omega) (by omega) hk)

theorem fanoutPick_length (e : Engine) (exclude : Option Bytes32) :
    (fanoutPick e exclude).1.length ≤ e.fanout := by
  have h := @fanoutScan_length e.view e.rotation
    (if e.fanout < e.view.length then e.fanout else e.view.length) exclude
    e.view.length 0 0
  refine h.trans ?_
  split <;> omega

theorem fanoutPick_mem {e : Engine} (h : peer ∈ (fanoutPick e exclude).1) :
    peer ∈ e.view ∧ exclude ≠ some peer := fanoutScan_mem peer h

theorem fanoutPick_nil {e : Engine} (h : e.view.length = 0) (exclude : Option Bytes32) :
    (fanoutPick e exclude).1 = [] := by
  rw [fanoutPick, h, fanoutScan]

theorem mem_fanoutPick {e : Engine} (hfanout : e.view.length ≤ e.fanout) {exclude : Option Bytes32}
    {peer : Bytes32} :
    peer ∈ (fanoutPick e exclude).1 ↔ peer ∈ e.view ∧ exclude ≠ some peer := by
  refine ⟨fanoutPick_mem, fun ⟨hmem, hne⟩ => ?_⟩
  obtain ⟨j, hj, hpeer⟩ := getElem_of_mem hmem
  -- the step of the scan at which the cursor is at `j`
  have hcursor : (e.rotation + (j + (e.view.length - e.rotation % e.view.length)) % e.view.length) %
      e.view.length = j := by
    have hmod := Nat.mod_lt e.rotation (Nat.zero_lt_of_lt hj)
    have hdiv := Nat.div_add_mod e.rotation e.view.length
    rw [Nat.add_mod_mod]
    have hsum : e.rotation + (j + (e.view.length - e.rotation % e.view.length)) =
        j + e.view.length * (e.rotation / e.view.length + 1) := by
      rw [Nat.mul_add, Nat.mul_one]
      omega
    rw [hsum, Nat.add_mul_mod_self_left, Nat.mod_eq_of_lt hj]
  refine fanoutScan_covers (k := (j + (e.view.length - e.rotation % e.view.length)) % e.view.length)
    ?_ (Nat.zero_add _)
    le_rfl (Nat.zero_le _) (Nat.mod_lt _ (Nat.zero_lt_of_lt hj)) ?_ hne
  · split <;> omega
  · rw [hcursor, getElem?_eq_getElem hj, hpeer]

end Fanout

section Calls

variable {α β : Type} {c : Ctx}

theorem getEngine_bind {f : Engine → GossipM α} : (getEngine >>= f) c = f c.engine c := rfl

theorem emit_bind {events : List Event} {f : Unit → GossipM α} :
    (emit events >>= f) c = f () { c with events := c.events ++ events } := rfl

theorem orFail_ok_bind {a : α} {f : α → GossipM β} : (orFail (.ok a) >>= f) = f a := rfl

theorem attempt_ok_bind {x : StoreM α} {f : Except Error α → GossipM β} {a : α}
    (h : x c.engine.store = .ok a store) :
    (attempt x >>= f) c = f (.ok a) { c with engine.store := store } := by
  refine bind_ok ?_
  rw [attempt, h]

theorem attempt_error_bind {x : StoreM α} {f : Except Error α → GossipM β} {err : Error}
    (h : x c.engine.store = .error err store) :
    (attempt x >>= f) c = f (.error err) { c with engine.store := store } := by
  refine bind_ok ?_
  rw [attempt, h]

def sends (peers : List Bytes32) (f : Frame) : List Event := peers.map fun peer => .sent peer f.bytes

theorem mem_sends {peers : List Bytes32} {f : Frame} :
    .sent peer frame ∈ sends peers f ↔ peer ∈ peers ∧ frame = f.bytes := by
  rw [sends, mem_map]
  constructor
  · intro ⟨peer', hmem, heq⟩
    obtain ⟨rfl, rfl⟩ := Event.sent.inj heq
    exact ⟨hmem, rfl⟩
  · intro ⟨hmem, hframe⟩
    exact ⟨peer, hmem, by rw [hframe]⟩

theorem fanoutSend_eq (f : Frame) (exclude : Option Bytes32) (c : Ctx) :
    ∃ n rotation, fanoutSend f.bytes exclude c =
      .ok n ⟨{ c.engine with rotation := rotation }, c.events ++ sends (fanoutPick c.engine exclude).1 f⟩ := by
  rw [fanoutSend, getEngine_bind]
  split
  · rename_i hview
    refine ⟨0, c.engine.rotation, ?_⟩
    rw [fanoutPick_nil hview, sends, map_nil, append_nil]
    rfl
  · exact ⟨_, _, rfl⟩

def eager (e : Engine) (proof : Bytes) (exclude : Option Bytes32) : List Bytes32 :=
  if 0 < proof.length ∧ proof.length ≤ maxProof then (fanoutPick e exclude).1 else []

theorem forwardProof_eq (proof : Bytes) (exclude : Option Bytes32) (c : Ctx) : ∃ n rotation,
    forwardProof proof exclude c = .ok n ⟨{ c.engine with rotation := rotation },
      c.events ++ .forwarded proof :: sends (eager c.engine proof exclude) (.push proof)⟩ := by
  rw [forwardProof, emit_bind, getEngine_bind, eager]
  by_cases hsend : 0 < proof.length ∧ proof.length ≤ maxProof
  · rw [if_pos hsend, @pushEncode_eq proof hsend]
    split
    · rename_i h
      have hview : c.engine.view.length = 0 := h.resolve_right (Nat.not_lt.mpr hsend.2)
      rw [fanoutPick_nil hview]
      exact ⟨0, c.engine.rotation, rfl⟩
    · obtain ⟨n, rotation, h⟩ :=
        fanoutSend_eq (.push proof) exclude { c with events := c.events ++ [.forwarded proof] }
      refine ⟨n, rotation, h.trans ?_⟩
      rw [append_assoc]
      rfl
  · rw [if_neg hsend]
    split
    · exact ⟨0, c.engine.rotation, rfl⟩
    · rename_i h
      have hempty : proof.length = 0 := by
        rcases not_and_or.mp hsend with hpos | hle
        · exact Nat.eq_zero_of_not_pos hpos
        · exact absurd (Or.inr (Nat.lt_of_not_le hle)) h
      rw [pushEncode, if_pos hempty]
      exact ⟨0, c.engine.rotation, rfl⟩

end Calls

variable {crypto : Primitives}

structure Healthy (crypto : Primitives) (store : Store) : Prop where
  inv : Inv store.set
  mem : false ∉ store.mem
  accepted : ∀ x ∈ stored store.set, elemOf crypto x.proof = some x

theorem insert_accepts (h : Healthy crypto store) {proof : Bytes} {x : Elem}
    (hx : elemOf crypto proof = some x) :
    ∃ fresh store', insert crypto proof store = .ok fresh store' ∧ Healthy crypto store' ∧
      view store'.set = offer (view store.set) x ∧ (fresh = true ↔ view store'.set ≠ view store.set) := by
  have hout := crdtInsertElem_outcome h.inv x
  rw [insert_accepted hx]
  cases hres : crdtInsertElem x store with
  | error err store' =>
    rw [hres] at hout
    exact absurd hout.2.2.1 h.mem
  | ok fresh store' =>
    rw [hres] at hout
    obtain ⟨hmem, hinv, hview, hfresh⟩ := hout
    refine ⟨fresh, store', rfl, ⟨hinv, fun hf => h.mem (hmem.subset hf), fun y hy => ?_⟩, hview, hfresh⟩
    have hy' : y ∈ (offer (view store.set) x).stored := hview ▸ hy
    rw [offer] at hy'
    obtain ⟨-, v, -, rfl⟩ := elemOf_eq_some.mp hx
    split at hy'
    · exact h.accepted y hy'
    · split at hy'
      · exact h.accepted y hy'
      · rcases Finset.mem_insert.mp hy' with rfl | hy'
        · exact hx
        · exact h.accepted y hy'

/-- What it does to an engine to be given a proof that is not to go back to `exclude`. -/
inductive Learns (crypto : Primitives) (e : Engine) (proof : Bytes) (exclude : Option Bytes32) :
    Engine → List Event → Prop
  | refused (h : elemOf crypto proof = none) : Learns crypto e proof exclude e []
  | known {x : Elem} {store : Store} (h : elemOf crypto proof = some x) (hstore : Healthy crypto store)
      (hview : view store.set = offer (view e.store.set) x) (hsame : view store.set = view e.store.set) :
      Learns crypto e proof exclude { e with store := store } []
  | fresh {x : Elem} {store : Store} {rotation : Nat} (h : elemOf crypto proof = some x)
    (hstore : Healthy crypto store)
      (hview : view store.set = offer (view e.store.set) x) (hnew : view store.set ≠ view e.store.set) :
      Learns crypto e proof exclude { e with store := store, rotation := rotation }
        (.observed proof :: .forwarded proof :: sends (eager e proof exclude) (.push proof))

section Learns

variable {e e' : Engine} {proof : Bytes} {exclude : Option Bytes32} {events : List Event} {S : Set Bytes}

theorem Learns.healthy (h : Learns crypto e proof exclude e' events) (he : Healthy crypto e.store) :
    Healthy crypto e'.store := by
  cases h with
  | refused => exact he
  | known _ hstore | fresh _ hstore => exact hstore

theorem Learns.origin (h : Learns crypto e proof exclude e' events)
    (he : ∀ x ∈ stored e.store.set, x.proof ∈ S) (hproof : proof ∈ S) :
    ∀ x ∈ stored e'.store.set, x.proof ∈ S := by
  have hoffer {x y : Elem} (hx : elemOf crypto proof = some x)
      (hy : y ∈ (offer (view e.store.set) x).stored) : y.proof ∈ S := by
    obtain ⟨-, v, -, rfl⟩ := elemOf_eq_some.mp hx
    rw [offer] at hy
    split_ifs at hy
    · exact he y hy
    · exact he y hy
    · rcases Finset.mem_insert.mp hy with rfl | hy
      · exact hproof
      · exact he y hy
  cases h with
  | refused => exact he
  | known hx _ hview | fresh hx _ hview => exact fun y hy => hoffer hx (hview ▸ hy)

theorem Learns.sent (h : Learns crypto e proof exclude e' events) (hmem : .sent peer frame ∈ events) :
    peer ∈ e.view ∧ exclude ≠ some peer ∧ (Frame.push proof).Sendable ∧ frame = (Frame.push proof).bytes := by
  cases h with
  | refused | known => cases hmem
  | fresh =>
    have hmem : .sent peer frame ∈ sends (eager e proof exclude) (.push proof) := by simpa using hmem
    obtain ⟨hpeer, hframe⟩ := mem_sends.mp hmem
    rw [eager] at hpeer
    split at hpeer
    · rename_i hsend
      obtain ⟨hview, hne⟩ := fanoutPick_mem hpeer
      exact ⟨hview, hne, hsend, hframe⟩
    · cases hpeer

end Learns

def after {α : Type} : EStateM.Result Error Ctx α → Ctx
  | .ok _ c => c
  | .error _ c => c

theorem elemOf_empty {proof : Bytes} (h : proof.length = 0) : elemOf crypto proof = none := by
  rw [Option.eq_none_iff_forall_ne_some]
  intro x hx
  obtain ⟨hv, -⟩ := elemOf_eq_some.mp hx
  rw [verify, verifyLevel, if_pos h] at hv
  cases hv

/-- The proof is put into the set, and forwarded when it is new. -/
theorem insert_learns {α : Type} {f : Except Error Bool → GossipM α} {c : Ctx}
    (h : Healthy crypto c.engine.store) (proof : Bytes)
    (exclude : Option Bytes32) (herror : ∀ err c, after (f (.error err) c) = c)
    (hold : ∀ c, after (f (.ok false) c) = c)
    (hnew : ∀ c, after (f (.ok true) c) =
      after ((emit [.observed proof] >>= fun _ => forwardProof proof exclude) c)) : ∃ events,
    Learns crypto c.engine proof exclude (after ((attempt (insert crypto proof) >>= f) c)).engine events ∧
      (after ((attempt (insert crypto proof) >>= f) c)).events = c.events ++ events := by
  cases hx : elemOf crypto proof with
  | none =>
    obtain ⟨err, herr⟩ := insert_refused hx c.engine.store
    rw [attempt_error_bind herr, herror]
    exact ⟨[], .refused hx, (append_nil _).symm⟩
  | some x =>
    obtain ⟨fresh, store, hinsert, hstore, hview, hfresh⟩ := insert_accepts h hx
    rw [attempt_ok_bind hinsert]
    cases fresh with
    | false =>
      have hsame : view store.set = view c.engine.store.set := by
        by_contra hne
        cases hfresh.mpr hne
      rw [hold]
      exact ⟨[], .known hx hstore hview hsame, (append_nil _).symm⟩
    | true =>
      obtain ⟨n, rotation, hforward⟩ := forwardProof_eq proof exclude
        ⟨{ c.engine with store := store }, c.events ++ [.observed proof]⟩
      rw [hnew, emit_bind, hforward]
      exact ⟨_, .fresh hx hstore hview (hfresh.mp rfl), append_assoc ..⟩

theorem submit_learns {c : Ctx} (h : Healthy crypto c.engine.store) (proof : Bytes) : ∃ events,
    Learns crypto c.engine proof none (after (submit crypto proof c)).engine events ∧
      (after (submit crypto proof c)).events = c.events ++ events := by
  rw [submit]
  split
  · rename_i hempty
    exact ⟨[], .refused (elemOf_empty hempty), (append_nil _).symm⟩
  · exact insert_learns h proof none (fun _ _ => rfl) (fun _ => rfl) fun _ => rfl

def listed (minEpoch : UInt64) (x : Elem) : Bool := ¬ (minEpoch ≠ 0 ∧ tooOld minEpoch x.proof)

theorem collect_eq {minEpoch : UInt64} {slots : List (Option Elem)} (h : ids.length ≤ maxIds) :
    enumerate (collectIdsVisit minEpoch) slots ids =
      ids ++ (((slots.filterMap id).filter (listed minEpoch)).map Elem.contentId).take
        (maxIds - ids.length) := by
  induction slots generalizing ids with
  | nil => simp [enumerate]
  | cons slot slots ih =>
    cases slot with
    | none => exact ih h
    | some x =>
      rw [enumerate, collectIdsVisit, filterMap_cons_some (f := id) (b := x) rfl, filter_cons]
      by_cases hfull : ids.length ≥ maxIds
      · rw [if_pos hfull, Nat.sub_eq_zero_of_le hfull, take_zero, append_nil]
      rw [if_neg hfull]
      by_cases hold : minEpoch ≠ 0 ∧ tooOld minEpoch x.proof
      · rw [if_pos hold, if_neg (by simpa [listed] using hold)]
        exact ih h
      · obtain ⟨room, hroom⟩ : ∃ room, maxIds - ids.length = room + 1 := ⟨maxIds - ids.length - 1, by omega⟩
        have hlisted : listed minEpoch x = true := decide_eq_true hold
        rw [if_neg hold, if_pos hlisted, map_cons, hroom, take_succ_cons]
        have hadd : (ids ++ [x.contentId]).length = ids.length + 1 := by simp
        cases hmore : decide (ids.length + 1 < maxIds) with
        | true =>
          dsimp only
          rw [ih (by omega), hadd, append_assoc, show maxIds - (ids.length + 1) = room by omega]
          rfl
        | false =>
          have hlast : room = 0 := by
            have := of_decide_eq_false hmore
            omega
          rw [hlast, take_zero]

theorem digest_eq (e : Engine) :
    digest e = (((e.store.set.slots.filterMap id).filter (listed e.announceMinEpoch)).map
      Elem.contentId).take maxIds := by
  rw [Dissemination.digest, collect_eq (Nat.zero_le _)]
  rfl

theorem digest_length (e : Engine) : (digest e).length ≤ maxIds := by
  rw [digest_eq]
  exact length_take_le ..

theorem announce_eq (c : Ctx) : ∃ rotation, after (announce c) = ⟨{ c.engine with rotation := rotation },
    c.events ++ if digest c.engine = [] then
    [] else sends (fanoutPick c.engine none).1 (.ihave (digest c.engine))⟩ := by
  have hlen := digest_length c.engine
  rw [announce, getEngine_bind]
  by_cases hview : c.engine.view.length = 0
  · rw [if_pos hview, fanoutPick_nil hview, sends, map_nil, ite_self, append_nil]
    exact ⟨c.engine.rotation, rfl⟩
  rw [if_neg hview]
  by_cases hempty : digest c.engine = []
  · rw [if_pos (length_eq_zero_iff.mpr hempty), if_pos hempty, append_nil]
    exact ⟨c.engine.rotation, rfl⟩
  have hne : (digest c.engine).length ≠ 0 := fun h => hempty (length_eq_zero_iff.mp h)
  have hencode : idsEncode msgIhave (digest c.engine) frameBuf = .ok (Frame.ihave (digest c.engine)).bytes :=
    idsEncode_eq (f := .ihave (digest c.engine)) rfl hne hlen ⟨Nat.pos_of_ne_zero hne, hlen⟩
  obtain ⟨n, rotation, hsend⟩ := fanoutSend_eq (.ihave (digest c.engine)) none c
  refine ⟨rotation, ?_⟩
  rw [if_neg hne, if_neg hempty, hencode, orFail_ok_bind, hsend]
  rfl

def handle (crypto : Primitives) (fromPeer : Option Bytes32) (f : Frame) : GossipM Tally :=
  match f with
  | .push _ => handlePush crypto fromPeer f.bytes
  | .ihave _ => handleIhave fromPeer f.bytes
  | .iwant _ => handleIwant fromPeer f.bytes

theorem onMessage_eq {f : Frame} (hf : f.Sendable) (nowUs : UInt64) (fromPeer : Option Bytes32) (c : Ctx) :
    onMessage crypto nowUs fromPeer f.bytes c =
      if f.bytes.length > c.engine.maxFrameBytes then .error .malformed c else handle crypto fromPeer f c := by
  have hmax : ¬ f.bytes.length > chainMaxBlockFrame := Nat.not_lt.mpr (hf.length.trans (by decide))
  rw [onMessage, if_neg f.bytes_ne_nil]
  dsimp only
  rw [getEngine_bind, if_neg hmax, peekFrameType_eq hf, orFail_ok_bind]
  have htype : f.type ≠ msgBlock ∧ f.type ≠ msgAttest := by
    cases f with
    | push | ihave | iwant => exact ⟨of_decide_eq_true rfl, of_decide_eq_true rfl⟩
  by_cases hlarge : f.bytes.length > c.engine.maxFrameBytes
  · rw [if_pos ⟨htype.1, hlarge⟩, if_pos hlarge]
    rfl
  · rw [if_neg (fun h => hlarge h.2), if_neg hlarge, if_neg (by simp [htype])]
    cases f with
    | push | ihave | iwant => rfl

theorem handle_push_learns {c : Ctx} (h : Healthy crypto c.engine.store) {proof : Bytes}
    (hf : (Frame.push proof).Sendable)
    (fromPeer : Option Bytes32) : ∃ events,
    Learns crypto c.engine proof fromPeer (after (handle crypto fromPeer (.push proof) c)).engine events ∧
      (after (handle crypto fromPeer (.push proof) c)).events = c.events ++ events := by
  rw [handle, handlePush, pushDecode_eq hf, orFail_ok_bind]
  refine insert_learns h proof fromPeer (fun err c => ?_) (fun _ => rfl) fun c => ?_
  · cases err with
    | _ => rfl
  · obtain ⟨n, rotation, hforward⟩ :=
      forwardProof_eq proof fromPeer { c with events := c.events ++ [.observed proof] }
    dsimp only
    rw [emit_bind, emit_bind, bind_ok hforward, hforward]
    rfl

theorem handle_ihave_eq (hf : (Frame.ihave ids).Sendable) (peer : Bytes32) (c : Ctx) :
    handle crypto (some peer) (.ihave ids) c = .ok (0, 0) { c with
      events := c.events ++ if wanted c.engine ids = [] then
      [] else sends [peer] (.iwant (wanted c.engine ids)) } := by
  have hdecode : idsDecode (Frame.ihave ids).bytes msgIhave maxIds = .ok ids :=
    idsDecode_eq (f := .ihave ids) rfl hf.1.ne' hf.2 hf
  rw [handle, handleIhave, hdecode, orFail_ok_bind]
  dsimp only
  rw [getEngine_bind]
  by_cases hempty : wanted c.engine ids = []
  · rw [if_pos (length_eq_zero_iff.mpr hempty), if_pos hempty, append_nil]
    rfl
  have hne : (wanted c.engine ids).length ≠ 0 := fun h => hempty (length_eq_zero_iff.mp h)
  have hle : (wanted c.engine ids).length ≤ maxIds := (length_filter_le ..).trans hf.2
  have hencode : idsEncode msgIwant (wanted c.engine ids) frameBuf =
      .ok (Frame.iwant (wanted c.engine ids)).bytes :=
    idsEncode_eq (f := .iwant (wanted c.engine ids)) rfl hne hle ⟨Nat.pos_of_ne_zero hne, hle⟩
  rw [if_neg hne, if_neg hempty, hencode]
  rfl

def servable (want : List Bytes32) (x : Elem) : Bool :=
  x.contentId ∈ want && (0 < x.proof.length && x.proof.length ≤ maxProof)

def served (e : Engine) (want : List Bytes32) : List Bytes :=
  ((e.store.set.slots.filterMap id).filter (servable want)).map Elem.proof

theorem serveIwantVisit_eq (want : List Bytes32) (x : Elem) (frames : List Bytes) :
    serveIwantVisit want x.contentId x.proof frames =
      (frames ++ if servable want x then [(Frame.push x.proof).bytes] else [], true) := by
  rw [serveIwantVisit]
  by_cases hid : x.contentId ∈ want
  · rw [if_pos hid]
    by_cases hlen : x.proof.length ≤ maxProof
    · rw [if_pos hlen]
      by_cases hpos : 0 < x.proof.length
      · rw [@pushEncode_eq x.proof ⟨hpos, hlen⟩, if_pos (by simp [servable, hid, hpos, hlen])]
      · rw [pushEncode, if_pos (Nat.eq_zero_of_not_pos hpos), if_neg (by simp [servable, hpos]), append_nil]
    · rw [if_neg hlen, if_neg (by simp [servable, hlen]), append_nil]
  · rw [if_neg hid, if_neg (by simp [servable, hid]), append_nil]

theorem serve_eq (want : List Bytes32) (slots : List (Option Elem)) (frames : List Bytes) :
    enumerate (serveIwantVisit want) slots frames =
      frames ++ (((slots.filterMap id).filter (servable want)).map Elem.proof).map fun p =>
      (Frame.push p).bytes := by
  induction slots generalizing frames with
  | nil => exact (append_nil _).symm
  | cons slot slots ih =>
    cases slot with
    | none => exact ih frames
    | some x =>
      rw [enumerate, serveIwantVisit_eq]
      dsimp only
      rw [ih, filterMap_cons_some (f := id) (b := x) rfl, filter_cons]
      split
      · rw [map_cons, map_cons, append_assoc]
        rfl
      · rw [append_nil]

theorem handle_iwant_eq {want : List Bytes32} (hf : (Frame.iwant want).Sendable) (peer : Bytes32) (c : Ctx) :
    handle crypto (some peer) (.iwant want) c = .ok (0, 0) { c with
      events := c.events ++ (served c.engine want).flatMap fun p => sends [peer] (.push p) } := by
  have hdecode : idsDecode (Frame.iwant want).bytes msgIwant maxIds = .ok want :=
    idsDecode_eq (f := .iwant want) rfl hf.1.ne' hf.2 hf
  rw [handle, handleIwant, hdecode, orFail_ok_bind]
  dsimp only
  rw [getEngine_bind, emit_bind, serve_eq, nil_append, map_map, map_eq_flatMap]
  rfl

theorem mem_served {e : Engine} {want : List Bytes32} {proof : Bytes} : proof ∈ served e want ↔
    ∃ x ∈ stored e.store.set, x.contentId ∈ want ∧ x.proof = proof ∧ (Frame.push proof).Sendable := by
  rw [served, mem_map]
  constructor
  · intro ⟨x, hx, heq⟩
    rw [mem_filter, servable, Bool.and_eq_true, Bool.and_eq_true, decide_eq_true_iff,
      decide_eq_true_iff, decide_eq_true_iff] at hx
    exact ⟨x, mem_toFinset.mpr hx.1, hx.2.1, heq, heq ▸ hx.2.2⟩
  · intro ⟨x, hx, hid, heq, hsend⟩
    refine ⟨x, mem_filter.mpr ⟨mem_toFinset.mp hx, ?_⟩, heq⟩
    subst heq
    simp [servable, hid, hsend.1, hsend.2]

theorem served_length {e : Engine} (h : Inv e.store.set) (want : List Bytes32) :
    (served e want).length ≤ want.length := by
  have hnodup : (((e.store.set.slots.filterMap id).filter (servable want)).map Elem.contentId).Nodup :=
    (contentIds_nodup h).sublist (filter_sublist.map _)
  have hsub : ((e.store.set.slots.filterMap id).filter (servable want)).map Elem.contentId ⊆ want := by
    intro cid hcid
    obtain ⟨x, hx, rfl⟩ := mem_map.mp hcid
    have := (mem_filter.mp hx).2
    rw [servable, Bool.and_eq_true, decide_eq_true_iff] at this
    exact this.1
  rw [served, length_map, ← length_map Elem.contentId]
  exact (subperm_of_subset hnodup hsub).length_le

end AntsClient.Gossip.Reactions
