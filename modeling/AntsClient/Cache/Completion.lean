import AntsClient.Cache.Publish
import AntsClient.Cache.Servable
import AntsClient.Lib.Tally

namespace AntsClient.Cache.Completion

open Common Crypto Transport.Events Publish Lib.Tally List

def fins (st : State) (i : Nat) : Input → Bool
  | .transport e _ => e.kind = .streamFin && e.stream.isSome && (st.slots[i]?.bind Slot.stream) = e.stream
  | _ => false

def delivered (st : State) (inputs : List Input) (i : Nat) : Bool :=
  match inputs with
  | [] => false
  | input :: rest => fins st i input || delivered (step st input) rest i

/-- An event matched to a slot is of its own stream, and no failed slot is told of another end. -/
structure OrderlyEvent (e : Event) (s : Slot) : Prop where
  own : e.kind = .streamFin ∨ e.kind = .streamReset → e.stream.isSome ∧ s.stream = e.stream
  alive : e.kind = .streamFin ∨ e.kind = .streamReset ∨ e.kind = .connClosed → s.status ≠ .failed

def OrderlyInput (st : State) : Input → Prop
  | .transport e _ => st.phase = .deliver → ∀ i s, findSlot st.slots e = some i →
    st.slots[i]? = some s → OrderlyEvent e s
  | _ => True

def Orderly (st : State) (inputs : List Input) : Prop :=
  ∀ before input after, inputs = before ++ input :: after → OrderlyInput (run st before) input

structure Settles (fin : Nat → Bool) (st : State) : Prop where
  acked : st.ackedCount.toNat = st.slots.countP fun s => s.status = .acked
  failed : st.failedCount.toNat = st.slots.countP fun s => s.status = .failed
  few : st.slots.length ≤ 8
  within : ∀ i, fin i = true → i < st.slots.length
  fin_iff : ∀ (i : Nat) (s : Slot), st.slots[i]? = some s → (fin i = true ↔ s.status = .acked)
  handle : ∀ (i : Nat) (s : Slot) (stream : Stream), st.slots[i]? = some s → s.stream = some stream →
    stream.id < st.heap ∧ (s.status = .awaitingFin ∨ s.status = .acked ∨ s.status = .failed)
  apart : ∀ (i j : Nat) (s t : Slot) (stream : Stream), st.slots[i]? = some s →
    st.slots[j]? = some t → s.stream = some stream → t.stream = some stream → i = j

/-- A change of a slot that is counted when and only when the slot comes to its end. -/
structure Change (heap : Nat) (s s' : Slot) (tally : Tally) : Prop where
  acked : s'.status = .acked ↔ s.status = .acked ∨ tally = .acked
  ackedNew : tally = .acked → s.status ≠ .acked
  failed : s'.status = .failed ↔ s.status = .failed ∨ tally = .failed
  failedNew : tally = .failed → s.status ≠ .failed
  stream : ∀ stream, s'.stream = some stream → (s.stream = some stream ∨ stream.id = heap) ∧
    (s'.status = .awaitingFin ∨ s'.status = .acked ∨ s'.status = .failed)

section Change

variable {fin : Nat → Bool} {st : State} {i : Nat} {s s' : Slot} {tally : Tally}

theorem add_acked (st : State) (tally : Tally) :
    (st.add tally).ackedCount = if decide (tally = .acked) then st.ackedCount + 1 else st.ackedCount := by
  cases tally <;> rfl

theorem add_failed (st : State) (tally : Tally) :
    (st.add tally).failedCount = if decide (tally = .failed) then st.failedCount + 1 else st.failedCount := by
  cases tally <;> rfl

theorem Settles.change (h : Settles fin st) (hs : st.slots[i]? = some s) (hc : Change st.heap s s' tally) :
    Settles (fun k => fin k || (k = i && tally = .acked))
      ({ st with slots := st.slots.set i s', heap := st.heap + 1 }.add tally) := by
  have hlt : i < st.slots.length := (List.getElem?_eq_some_iff.mp hs).1
  have hfew : st.slots.length + 1 < 2 ^ 32 := by
    have := h.few
    omega
  constructor
  · rw [add_acked, State.add_slots]
    refine count_change hs hfew h.acked ?_ ?_
    · simpa using hc.acked
    · simpa using hc.ackedNew
  · rw [add_failed, State.add_slots]
    refine count_change hs hfew h.failed ?_ ?_
    · simpa using hc.failed
    · simpa using hc.failedNew
  · rw [State.add_slots, length_set]
    exact h.few
  · intro k hk
    rw [State.add_slots, length_set]
    rw [Bool.or_eq_true, Bool.and_eq_true, decide_eq_true_iff] at hk
    obtain hk | ⟨rfl, -⟩ := hk
    · exact h.within k hk
    · exact hlt
  · intro k t ht
    rw [State.add_slots] at ht
    obtain ⟨rfl, rfl⟩ | ⟨hk, ht⟩ := getElem?_set_cases ht
    · simp [h.fin_iff k s hs, hc.acked]
    · simp [h.fin_iff k t ht, hk]
  · intro k t stream ht hstream
    rw [State.add_slots] at ht
    rw [State.add_heap]
    obtain ⟨rfl, rfl⟩ | ⟨hk, ht⟩ := getElem?_set_cases ht
    · obtain ⟨hold | hnew, hstatus⟩ := hc.stream stream hstream
      · exact ⟨Nat.lt_succ_of_lt (h.handle k s stream hs hold).1, hstatus⟩
      · exact ⟨hnew ▸ Nat.lt_succ_self _, hstatus⟩
    · obtain ⟨hid, hstatus⟩ := h.handle k t stream ht hstream
      exact ⟨Nat.lt_succ_of_lt hid, hstatus⟩
  · intro j k t u stream ht hu htstream hustream
    rw [State.add_slots] at ht hu
    -- a stream that the changed slot shares with another was its own before
    have hshare {k : Nat} {u : Slot} (hk : k ≠ i) (hu : st.slots[k]? = some u)
      (hustream : u.stream = some stream)
        (hstream : s'.stream = some stream) : False := by
      obtain ⟨hold | hnew, -⟩ := hc.stream stream hstream
      · exact hk (h.apart k i u s stream hu hs hustream hold)
      · exact absurd (h.handle k u stream hu hustream).1 (hnew ▸ Nat.lt_irrefl _)
    obtain ⟨rfl, rfl⟩ | ⟨hj, hold⟩ := getElem?_set_cases ht
    · obtain ⟨rfl, -⟩ | ⟨hk, hold⟩ := getElem?_set_cases hu
      · rfl
      · exact (hshare hk hold hustream htstream).elim
    · obtain ⟨rfl, rfl⟩ | ⟨hk, hold'⟩ := getElem?_set_cases hu
      · exact (hshare hj hold htstream hustream).elim
      · exact h.apart j k t u stream hold hold' htstream hustream

end Change

section Steps

variable {fin : Nat → Bool} {st : State} {heap : Nat} {s : Slot} {e : Event} {opening : Opening}

def Sent (s : Slot) : Prop :=
  ∀ stream, s.stream = some stream → s.status = .awaitingFin ∨ s.status = .acked ∨ s.status = .failed

theorem Settles.sent (h : Settles fin st) {i : Nat} (hs : st.slots[i]? = some s) : Sent s :=
  fun stream hstream => (h.handle i s stream hs hstream).2

theorem change_none (h : Sent s) : Change heap s s .none :=
  ⟨by simp, nofun, by simp, nofun, fun stream hstream => ⟨.inl hstream, h stream hstream⟩⟩

theorem dial_change (h : Sent s) (dialed : Bool) : Change heap s (dial dialed heap s).1
      (dial dialed heap s).2 ∧ (dial dialed heap s).2 ≠ .acked := by
  rw [dial]
  split
  · exact ⟨change_none h, nofun⟩
  · rename_i hempty
    rw [not_not] at hempty
    have hstream (stream : Stream) (hsome : s.stream = some stream) : False := by
      have hstatus := h stream hsome
      rw [hempty] at hstatus
      simp at hstatus
    split
    · exact ⟨⟨by simp [hempty], nofun, by simp [hempty], nofun, fun stream hsome =>
        (hstream stream hsome).elim⟩, nofun⟩
    · exact ⟨⟨by simp [hempty], nofun, by simp, by simp [hempty], fun stream hsome =>
        (hstream stream hsome).elim⟩, nofun⟩

theorem failing_change {s' : Slot} (hacked : s.status ≠ .acked) (hfailed : s.status ≠ .failed)
    (hstatus : s'.status = .failed)
    (hstream : s'.stream = s.stream ∨ s'.stream = none) : Change heap s s' .failed := by
  refine ⟨by simp [hstatus, hacked], nofun, by simp [hstatus], fun _ => hfailed, fun stream hsome => ?_⟩
  obtain hsame | hnone := hstream
  · exact ⟨.inl (hsame ▸ hsome), .inr (.inr hstatus)⟩
  · rw [hnone] at hsome
    cases hsome

theorem onEvent_change (h : Sent s) (ho : OrderlyEvent e s) :
    Change heap s (onEvent e opening heap s).1 (onEvent e opening heap s).2 := by
  unfold onEvent
  split
  case h_1 hkind =>
    split
    · exact change_none h
    · rename_i hdialing
      rw [not_not] at hdialing
      have hacked : s.status ≠ .acked := by simp [hdialing]
      have hfailed : s.status ≠ .failed := by simp [hdialing]
      cases opening with
      | refused => exact failing_change hacked hfailed rfl (.inl rfl)
      | unsent => exact failing_change hacked hfailed rfl (.inr rfl)
      | sent =>
        refine ⟨by simp [hdialing], nofun, by simp [hdialing], nofun, fun stream hsome => ⟨.inr ?_, .inl rfl⟩⟩
        rw [← Option.some.inj hsome]
  case h_2 hkind =>
    split
    · rename_i hawaiting
      exact ⟨by simp, by simp [hawaiting], by simp [hawaiting], nofun, fun stream hsome =>
        ⟨.inl hsome, .inr (.inl rfl)⟩⟩
    · exact change_none h
  case h_3 hkind =>
    split
    · rename_i hacked
      exact failing_change hacked (ho.alive (.inr (.inl hkind))) rfl (.inl rfl)
    · exact change_none h
  case h_4 hkind =>
    split
    · rename_i hacked
      exact failing_change hacked (ho.alive (.inr (.inr hkind))) rfl (.inr rfl)
    · exact ⟨by simp, nofun, by simp, nofun, fun stream hsome => nomatch hsome⟩
  case h_5 => exact change_none h

theorem onEvent_acked : (onEvent e opening heap s).2 = .acked ↔ e.kind = .streamFin ∧
    s.status = .awaitingFin := by
  unfold onEvent
  split
  case h_1 hkind =>
    split
    · simp [hkind]
    · cases opening <;> simp [hkind]
  case h_2 hkind => split <;> simp_all
  case h_3 hkind => split <;> simp [hkind]
  case h_4 hkind => split <;> simp [hkind]
  case h_5 hfin _ _ => exact ⟨nofun, fun h => (hfin h.1).elim⟩

theorem maybeComplete_cases (st : State) : maybeComplete st = st ∨
    st.completionFired = false ∧ ¬ st.ackedCount + st.failedCount < UInt32.ofNat st.slots.length ∧
    maybeComplete st = { st with
        completionFired := true
        phase := .done
        calls := st.calls ++
          [⟨if st.ackedCount > 0 then none else some .peerUnreachable, st.ackedCount⟩] } := by
  rw [maybeComplete]
  by_cases hfired : st.completionFired
  · exact .inl (if_pos hfired)
  · rw [if_neg hfired]
    by_cases hphase : st.phase ≠ .deliver
    · exact .inl (if_pos hphase)
    · rw [if_neg hphase]
      by_cases hcount : st.ackedCount + st.failedCount < UInt32.ofNat st.slots.length
      · exact .inl (if_pos hcount)
      · exact .inr ⟨Bool.eq_false_iff.mpr hfired, hcount, if_neg hcount⟩

theorem Settles.complete (h : Settles fin st) : Settles fin (maybeComplete st) := by
  obtain heq | ⟨-, -, heq⟩ := maybeComplete_cases st
  · rwa [heq]
  · rw [heq]
    exact ⟨h.acked, h.failed, h.few, h.within, h.fin_iff, h.handle, h.apart⟩

theorem Settles.congr {fin' : Nat → Bool} (h : Settles fin st) (heq : ∀ i, fin i = fin' i) :
    Settles fin' st := by
  rwa [show fin' = fin from (funext heq).symm]

theorem Settles.dialFrom (h : Settles fin st) (dials : Nat → Bool) (i : Nat) :
    Settles fin (dialFrom dials i st) := by
  rw [Publish.dialFrom]
  cases hs : st.slots[i]? with
  | none => exact h
  | some s =>
    obtain ⟨hchange, hacked⟩ := @dial_change st.heap s (h.sent hs) (dials i)
    refine (h.change hs hchange).congr fun k => ?_
    rw [decide_eq_false hacked, Bool.and_false, Bool.or_false]

theorem Settles.tick (h : Settles fin st) (dials : Nat → Bool) : Settles fin (publishTick dials st) := by
  rw [publishTick]
  split
  · exact h
  · refine Settles.complete ?_
    rename_i hphase
    clear hphase
    generalize range st.slots.length = is
    induction is generalizing st with
    | nil => exact h
    | cons i is ih => exact ih (h.dialFrom dials i)

theorem Settles.dht (h : Settles fin st) (hslots : st.phase = .lookup → st.slots = [])
    (hfactor : st.replicationFactor ≤ publishMaxReplication)
    (event : DhtEvent) : Settles fin (handleDhtEvent event st) := by
  rw [handleDhtEvent]
  split
  · exact h
  · split
    · exact ⟨h.acked, h.failed, h.few, h.within, h.fin_iff, h.handle, h.apart⟩
    · rename_i hphase
      rw [not_not] at hphase
      have hnil := hslots hphase
      have hacked := h.acked
      have hfailed := h.failed
      rw [hnil, countP_nil] at hacked hfailed
      have hfin (i : Nat) : fin i = false := by
        rw [Bool.eq_false_iff]
        intro hi
        have hlt := h.within i hi
        rw [hnil] at hlt
        exact Nat.not_lt_zero i hlt
      have hempty {peers : List Dht.Lookup.Peer} :
          ∀ s ∈ peers.map fun peer => (⟨.empty, peer, none, none⟩ : Slot),
            s.status = .empty ∧ s.stream = none :=
        forall_mem_map.mpr fun _ _ => ⟨rfl, rfl⟩
      refine Settles.complete ⟨?_, ?_, ?_, ?_, ?_, ?_, ?_⟩
      · rw [hacked, eq_comm, countP_eq_zero]
        exact fun s hs => by simp [(hempty s hs).1]
      · rw [hfailed, eq_comm, countP_eq_zero]
        exact fun s hs => by simp [(hempty s hs).1]
      · rw [length_map]
        have hle : st.replicationFactor.toNat ≤ 8 := UInt32.le_iff_toNat_le.mp hfactor
        exact (length_take_le _ _).trans ((Nat.min_le_right _ _).trans hle)
      · exact fun i hi => absurd hi (by rw [hfin]; exact Bool.false_ne_true)
      · intro i s hs
        simp [hfin, (hempty s (mem_of_getElem? hs)).1]
      · intro i s stream hs hstream
        cases (hempty s (mem_of_getElem? hs)).2.symm.trans hstream
      · intro i j s u stream hs hu hstream
        cases (hempty s (mem_of_getElem? hs)).2.symm.trans hstream

theorem findSlot_cases (slots : List Slot) (e : Event) :
    findSlot slots e = none ∧ findSlotByStream slots e.stream = none ∨
    ∃ i s, findSlot slots e = some i ∧ slots[i]? = some s := by
  have hindex {p : Slot → Bool} {i : Nat} (h : slots.findIdx? p = some i) : ∃ s, slots[i]? = some s :=
    ⟨_, getElem?_eq_getElem (findIdx?_eq_some_iff_getElem.mp h).1⟩
  rw [findSlot]
  cases hconn : findSlotByConn slots e.conn with
  | some i =>
    obtain ⟨s, hs⟩ := hindex hconn
    exact .inr ⟨i, s, rfl, hs⟩
  | none =>
    cases hstream : findSlotByStream slots e.stream with
    | none => exact .inl ⟨rfl, rfl⟩
    | some i =>
      cases he : e.stream with
      | none =>
        rw [he] at hstream
        cases hstream
      | some stream =>
        rw [he] at hstream
        obtain ⟨s, hs⟩ := hindex hstream
        exact .inr ⟨i, s, rfl, hs⟩

theorem fins_iff {i : Nat} : fins st i (.transport e opening) = true ↔
    e.kind = .streamFin ∧ ∃ s stream, st.slots[i]? = some s ∧ s.stream = some stream ∧
    e.stream = some stream := by
  rw [fins, Bool.and_eq_true, Bool.and_eq_true, decide_eq_true_iff, decide_eq_true_iff, and_assoc,
    Option.isSome_iff_exists]
  constructor
  · rintro ⟨hkind, ⟨stream, he⟩, hbind⟩
    rw [he] at hbind
    obtain ⟨s, hs, hstream⟩ := Option.bind_eq_some_iff.mp hbind
    exact ⟨hkind, s, stream, hs, hstream, he⟩
  · rintro ⟨hkind, s, stream, hs, hstream, he⟩
    refine ⟨hkind, ⟨stream, he⟩, ?_⟩
    rw [hs, he]
    exact hstream

theorem not_fins_of_unmatched (h : findSlotByStream st.slots e.stream = none) (i : Nat) :
    fins st i (.transport e opening) = false := by
  rw [Bool.eq_false_iff]
  intro hfins
  obtain ⟨-, s, stream, hs, hstream, he⟩ := fins_iff.mp hfins
  rw [he, findSlotByStream] at h
  have hnot := findIdx?_eq_none_iff.mp h s (mem_of_getElem? hs)
  rw [hstream, decide_eq_false_iff_not] at hnot
  exact hnot rfl

theorem Settles.fins_matched (h : Settles fin st) {i : Nat} (hs : st.slots[i]? = some s)
    (ho : OrderlyEvent e s) (k : Nat) :
    (fin k || (decide (k = i) && decide ((onEvent e opening heap s).2 = .acked))) =
      (fin k || fins st k (.transport e opening)) := by
  rw [Bool.eq_iff_iff, Bool.or_eq_true, Bool.or_eq_true, Bool.and_eq_true, decide_eq_true_iff,
    decide_eq_true_iff, onEvent_acked, fins_iff]
  constructor
  · rintro (hfin | ⟨rfl, hkind, -⟩)
    · exact .inl hfin
    · obtain ⟨hsome, hown⟩ := ho.own (.inl hkind)
      obtain ⟨stream, he⟩ := Option.isSome_iff_exists.mp hsome
      exact .inr ⟨hkind, s, stream, hs, hown.trans he, he⟩
  · rintro (hfin | ⟨hkind, t, stream, ht, hstream, he⟩)
    · exact .inl hfin
    · have hown := (ho.own (.inl hkind)).2.trans he
      obtain rfl : k = i := h.apart k i t s stream ht hs hstream hown
      obtain hawaiting | hacked | hfailed := h.sent hs stream hown
      · exact .inr ⟨rfl, hkind, hawaiting⟩
      · exact .inl ((h.fin_iff k s hs).mpr hacked)
      · exact absurd hfailed (ho.alive (.inl hkind))

theorem Settles.transport (h : Settles fin st) (hphase : st.phase ≠ .done)
    (hslots : st.phase = .lookup → st.slots = [])
    (ho : OrderlyInput st (.transport e opening)) :
    Settles (fun i => fin i || fins st i (.transport e opening)) (handleTransportEvent e opening st) := by
  -- an event that is matched to no slot is no FIN of one
  have hunmatched (hnone : findSlotByStream st.slots e.stream = none) :
      Settles (fun i => fin i || fins st i (.transport e opening)) st :=
    h.congr fun i => by rw [not_fins_of_unmatched hnone, Bool.or_false]
  rw [handleTransportEvent]
  split
  case isTrue hdeliver =>
    apply hunmatched
    have hlookup : st.phase = .lookup := by
      cases hp : st.phase with
      | lookup => rfl
      | deliver => exact absurd hp hdeliver
      | done => exact absurd hp hphase
    rw [hslots hlookup]
    cases e.stream <;> rfl
  case isFalse hdeliver =>
    rw [not_not] at hdeliver
    obtain ⟨hfind, hnone⟩ | ⟨i, s, hfind, hs⟩ := findSlot_cases st.slots e
    · rw [hfind]
      exact hunmatched hnone
    · rw [hfind]
      dsimp only
      rw [hs]
      have horderly := ho hdeliver i s hfind hs
      refine Settles.complete ((h.change hs (onEvent_change (h.sent hs) horderly)).congr fun k => ?_)
      exact h.fins_matched hs horderly k

end Steps

variable {slots : List Slot} {st' : State} {input : Input} {factor : UInt32}

section Runs

variable {fin : Nat → Bool} {st : State}

structure Once (st : State) : Prop where
  done : st.phase = .done ↔ st.completionFired = true
  calls : st.calls.length = st.completionFired.toNat

structure Running (fin : Nat → Bool) (st : State) : Prop where
  settles : Settles fin st
  slots : st.phase = .lookup → st.slots = []
  factor : st.replicationFactor ≤ publishMaxReplication

theorem Once.complete (h : Once st) : Once (maybeComplete st) := by
  obtain heq | ⟨hfired, -, heq⟩ := maybeComplete_cases st
  · rwa [heq]
  · have hcalls := h.calls
    rw [hfired, Bool.toNat_false, length_eq_zero_iff] at hcalls
    rw [heq]
    exact ⟨by simp, by simp [hcalls]⟩

/-- All that a step does besides changing slots and counters and calling `complete_fn`. -/
structure Frame (st st' : State) : Prop where
  phase : st'.phase = st.phase ∨ st.phase = .lookup ∧ st'.phase = .deliver
  fired : st'.completionFired = st.completionFired
  calls : st'.calls = st.calls
  factor : st'.replicationFactor = st.replicationFactor
  slots : st'.phase = .lookup → st'.slots = st.slots

theorem Frame.refl (st : State) : Frame st st := ⟨.inl rfl, rfl, rfl, rfl, fun _ => rfl⟩

theorem frame_add {heap : Nat} (hphase : st.phase = .deliver) (tally : Tally) :
    Frame st ({ st with slots := slots, heap := heap }.add tally) := by
  have hfactor : ({ st with slots := slots, heap := heap }.add tally).replicationFactor =
      st.replicationFactor := by
    cases tally <;> rfl
  refine ⟨.inl (State.add_phase _ _), State.add_fired _ _, State.add_calls _ _, hfactor, fun hlookup => ?_⟩
  rw [State.add_phase, hphase] at hlookup
  cases hlookup

theorem Frame.phase_eq (h : Frame st st') (hphase : st.phase ≠ .lookup) : st'.phase = st.phase :=
  h.phase.resolve_right fun hp => hphase hp.1

theorem Frame.trans {st₁ st₂ : State} (hphase : st.phase = .deliver) (h : Frame st st₁)
    (h' : st₁.phase = .deliver → Frame st₁ st₂) :
    Frame st st₂ := by
  have hphase₁ : st₁.phase = .deliver := (h.phase_eq (by simp [hphase])).trans hphase
  have h₂ := h' hphase₁
  have hphase₂ : st₂.phase = .deliver := (h₂.phase_eq (by simp [hphase₁])).trans hphase₁
  refine ⟨.inl (hphase₂.trans hphase.symm), h₂.fired.trans h.fired, h₂.calls.trans h.calls,
    h₂.factor.trans h.factor, fun hlookup => ?_⟩
  rw [hphase₂] at hlookup
  cases hlookup

theorem dialFrom_frame (hphase : st.phase = .deliver) (dials : Nat → Bool) (i : Nat) :
    Frame st (dialFrom dials i st) := by
  rw [dialFrom]
  cases st.slots[i]? with
  | none => exact Frame.refl st
  | some s => exact frame_add hphase _

theorem foldl_dialFrom_frame (hphase : st.phase = .deliver) (dials : Nat → Bool) (is : List Nat) :
    Frame st (is.foldl (fun st i => dialFrom dials i st) st) := by
  induction is using reverseRecOn with
  | nil => exact Frame.refl st
  | append_singleton is i ih =>
    rw [foldl_append]
    exact ih.trans hphase fun hphase₁ => dialFrom_frame hphase₁ dials i

theorem step_frame (st : State) (input : Input) :
    ∃ st', Frame st st' ∧ (step st input = st' ∨ step st input = maybeComplete st') := by
  cases input with
  | tick dials =>
    rw [step, publishTick]
    split
    · exact ⟨st, Frame.refl st, .inl rfl⟩
    · rename_i hphase
      exact ⟨_, foldl_dialFrom_frame (not_not.mp hphase) dials _, .inr rfl⟩
  | dht event =>
    rw [step, handleDhtEvent]
    split
    · exact ⟨st, Frame.refl st, .inl rfl⟩
    · split
      · refine ⟨_, ?_, .inl rfl⟩
        exact ⟨.inl rfl, rfl, rfl, rfl, fun _ => rfl⟩
      · rename_i hphase
        refine ⟨_, ?_, .inr rfl⟩
        exact ⟨.inr ⟨not_not.mp hphase, rfl⟩, rfl, rfl, rfl, fun hlookup => nomatch hlookup⟩
  | transport e opening =>
    rw [step, handleTransportEvent]
    split
    · exact ⟨st, Frame.refl st, .inl rfl⟩
    · rename_i hphase
      split
      · exact ⟨st, Frame.refl st, .inl rfl⟩
      · split
        · exact ⟨st, Frame.refl st, .inl rfl⟩
        · exact ⟨_, frame_add (not_not.mp hphase) _, .inr rfl⟩

theorem Once.frame (h : Once st) (hf : Frame st st') : Once st' := by
  refine ⟨?_, ?_⟩
  · rw [hf.fired, ← h.done]
    obtain heq | ⟨hlookup, hdeliver⟩ := hf.phase
    · rw [heq]
    · rw [hlookup, hdeliver]
      simp
  · rw [hf.calls, hf.fired]
    exact h.calls

theorem Once.step (h : Once st) (input : Input) : Once (step st input) := by
  obtain ⟨st', hframe, heq | heq⟩ := step_frame st input
  · rw [heq]
    exact h.frame hframe
  · rw [heq]
    exact (h.frame hframe).complete

theorem Once.run (h : Once st) (inputs : List Input) : Once (run st inputs) := by
  induction inputs generalizing st with
  | nil => exact h
  | cons input inputs ih => exact ih (h.step input)

theorem Running.step (h : Running fin st) (hphase : st.phase ≠ .done) (ho : OrderlyInput st input) :
    Running (fun i => fin i || fins st i input) (step st input) := by
  have hsettles : Settles (fun i => fin i || fins st i input) (Publish.step st input) := by
    cases input with
    | tick dials => exact (h.settles.tick dials).congr fun i => (Bool.or_false _).symm
    | dht event => exact (h.settles.dht h.slots h.factor event).congr fun i => (Bool.or_false _).symm
    | transport e opening => exact h.settles.transport hphase h.slots ho
  obtain ⟨st', hframe, hstep⟩ := step_frame st input
  have hslots (hlookup : st'.phase = .lookup) : st'.slots = [] := by
    rw [hframe.slots hlookup]
    obtain heq | ⟨-, hdeliver⟩ := hframe.phase
    · exact h.slots (heq.symm.trans hlookup)
    · rw [hlookup] at hdeliver
      cases hdeliver
  have hfactor : st'.replicationFactor ≤ publishMaxReplication := by
    rw [hframe.factor]
    exact h.factor
  obtain heq | heq := hstep
  · rw [heq] at hsettles ⊢
    exact ⟨hsettles, hslots, hfactor⟩
  · rw [heq] at hsettles ⊢
    obtain hsame | ⟨-, -, hdone⟩ := maybeComplete_cases st'
    · rw [hsame] at hsettles ⊢
      exact ⟨hsettles, hslots, hfactor⟩
    · rw [hdone] at hsettles ⊢
      exact ⟨hsettles, nofun, hfactor⟩

theorem run_append (st : State) (before after : List Input) :
    run st (before ++ after) = run (run st before) after := foldl_append

theorem delivered_append (st : State) (before : List Input) (input : Input) (i : Nat) :
    delivered st (before ++ [input]) i = (delivered st before i || fins (run st before) i input) := by
  induction before generalizing st with
  | nil => rw [nil_append, delivered, delivered, delivered, Bool.or_false, Bool.false_or, run, foldl_nil]
  | cons first before ih =>
    rw [cons_append, delivered, ih, delivered, Bool.or_assoc]
    rfl

theorem Orderly.init {before after : List Input} (h : Orderly st (before ++ after)) : Orderly st before := by
  intro front input back heq
  exact h front input (back ++ after) (by rw [heq, append_assoc, cons_append])

theorem orderly_nil (st : State) : Orderly st [] := fun before input after heq => by simp at heq

theorem orderly_cons {rest : List Input} (hinput : OrderlyInput st input)
    (hrest : Orderly (step st input) rest) :
    Orderly st (input :: rest) := by
  intro before input' after heq
  cases before with
  | nil =>
    obtain ⟨rfl, -⟩ := List.cons.inj heq
    exact hinput
  | cons first before =>
    obtain ⟨rfl, htail⟩ := List.cons.inj heq
    exact hrest before input' after htail

theorem Running.run (h : Running (fun _ => false) st) {inputs : List Input} (ho : Orderly st inputs)
    (hphase : ∀ before after, inputs = before ++ after → after ≠ [] → (run st before).phase ≠ .done) :
    Running (delivered st inputs) (run st inputs) := by
  induction inputs using reverseRecOn with
  | nil => exact h
  | append_singleton inputs input ih =>
    have hbefore := ih ho.init fun before after heq hne =>
      hphase before (after ++ [input]) (by rw [heq, append_assoc]) (by simp)
    have hstep := hbefore.step (hphase inputs [input] rfl (by simp)) (ho inputs input [] rfl)
    rw [run_append, show delivered st (inputs ++ [input]) = fun i =>
      delivered st inputs i || fins (Publish.run st inputs) i input from
      funext (delivered_append st inputs input)]
    exact hstep

theorem step_done (h : st.phase = .done) (input : Input) : (step st input).phase = .done := by
  obtain ⟨st', hframe, hstep⟩ := step_frame st input
  have hdone : st'.phase = .done := (hframe.phase_eq (by simp [h])).trans h
  obtain heq | heq := hstep
  · rw [heq, hdone]
  · obtain hsame | ⟨-, -, hcomplete⟩ := maybeComplete_cases st'
    · rw [heq, hsame, hdone]
    · rw [heq, hcomplete]

theorem run_done (h : st.phase = .done) (inputs : List Input) : (run st inputs).phase = .done := by
  induction inputs generalizing st with
  | nil => exact h
  | cons input inputs ih => exact ih (step_done h input)

theorem step_call {call : Call} (h : (step st input).calls = st.calls ++ [call]) :
    ¬ (step st input).ackedCount + (step st input).failedCount < UInt32.ofNat (step st input).slots.length ∧
      call = ⟨if (step st input).ackedCount > 0 then none else some .peerUnreachable,
        (step st input).ackedCount⟩ := by
  obtain ⟨st', hframe, heq | heq⟩ := step_frame st input
  · rw [heq, hframe.calls] at h
    simp at h
  · rw [heq, ← hframe.calls] at h
    rw [heq]
    obtain hsame | ⟨-, hcount, hdone⟩ := maybeComplete_cases st'
    · rw [hsame] at h
      simp at h
    · rw [hdone] at h ⊢
      exact ⟨hcount, (singleton_inj.mp (append_cancel_left h)).symm⟩

theorem countP_range {p : Slot → Bool} (h : ∀ i s, slots[i]? = some s → (fin i = true ↔ p s = true)) :
    (range slots.length).countP fin = slots.countP p := by
  induction slots using reverseRecOn with
  | nil => rfl
  | append_singleton slots s ih =>
    have hlast := h slots.length s (by simp)
    rw [length_append, length_singleton, range_succ, countP_append, countP_append, countP_singleton,
      countP_singleton, ih fun i t ht =>
      h i t (by rw [getElem?_append_left (List.getElem?_eq_some_iff.mp ht).1, ht])]
    simp only [hlast]

theorem Settles.ended (h : Settles fin st)
    (hcount : ¬ st.ackedCount + st.failedCount < UInt32.ofNat st.slots.length) :
    ∀ s ∈ st.slots, s.status = .acked ∨ s.status = .failed := by
  have hfew := h.few
  have hacked : st.ackedCount.toNat ≤ 8 := h.acked ▸ countP_le_length.trans hfew
  have hfailed : st.failedCount.toNat ≤ 8 := h.failed ▸ countP_le_length.trans hfew
  have hle : st.slots.length ≤ st.ackedCount.toNat + st.failedCount.toNat := by
    rw [UInt32.lt_iff_toNat_lt, UInt32.toNat_add,
      UInt32.toNat_ofNat_of_lt' (lt_of_le_of_lt hfew (by decide))] at hcount
    omega
  -- no slot is counted twice
  have hsum : (st.slots.countP fun s => s.status = .acked) + (st.slots.countP fun s => s.status = .failed) =
      st.slots.countP fun s => decide (s.status = .acked) || decide (s.status = .failed) := by
    clear hle hacked hfailed hfew hcount h
    induction st.slots with
    | nil => rfl
    | cons s slots ih =>
      simp only [countP_cons] at ih ⊢
      cases hs : s.status <;> simp <;> omega
  rw [h.acked, h.failed, hsum] at hle
  intro s hs
  have hall := countP_eq_length.mp (Nat.le_antisymm countP_le_length hle) s hs
  simpa using hall

theorem publishInit_started {D : Type} {metric : Store.Metric D} {lookup : UInt64 → Except Error Unit}
    {allocated : Bool} {zero : ZeroRealloc} {e : Wire.Entry} {replicationFactor : UInt32}
    (hinit : publishInit metric lookup allocated zero e replicationFactor = .ok st) :
    ∃ entryCbor factor, factor ≤ publishMaxReplication ∧ st = started entryCbor factor := by
  rw [publishInit] at hinit
  dsimp only at hinit
  generalize (if replicationFactor = 0 then defaultReplication else replicationFactor) = factor at hinit
  split at hinit
  · cases hinit
  · rename_i hfactor
    cases allocated with
    | false => cases hinit
    | true =>
      obtain ⟨entryCbor, -, hinit⟩ := except_bind_eq_ok.mp hinit
      cases hemb : e.embedding with
      | none =>
        rw [hemb] at hinit
        cases hinit
      | some embedding =>
        rw [hemb] at hinit
        obtain ⟨-, -, hstarted⟩ := except_bind_eq_ok.mp hinit
        exact ⟨entryCbor, factor, UInt32.not_lt.mp hfactor, (Except.ok.inj hstarted).symm⟩

theorem started_running (entryCbor : Bytes) (hfactor : factor ≤ publishMaxReplication) :
    Once (started entryCbor factor) ∧ Running (fun _ => false) (started entryCbor factor) := by
  refine ⟨⟨by simp [started], rfl⟩, ⟨rfl, rfl, Nat.zero_le 8, nofun, ?_, ?_, ?_⟩, fun _ => rfl, hfactor⟩
  · exact fun i s hs => nomatch hs
  · exact fun i s stream hs => nomatch hs
  · exact fun i j s u stream hs => nomatch hs

/-- `complete_fn` is called at most once, and in an orderly run once all slots have ended, with the
number of those whose own stream delivered FIN. -/
theorem publish_complete {D : Type} {metric : Store.Metric D} {lookup : UInt64 → Except Error Unit}
    {allocated : Bool} {zero : ZeroRealloc} {e : Wire.Entry} {replicationFactor : UInt32} {st : State}
    (hinit : publishInit metric lookup allocated zero e replicationFactor = .ok st)
    (inputs : List Input) : (run st inputs).calls.length ≤ 1 ∧
      ∀ input call, Orderly st (inputs ++ [input]) →
      (run st (inputs ++ [input])).calls = (run st inputs).calls ++ [call] →
        (∀ s ∈ (run st (inputs ++ [input])).slots, s.status = .acked ∨ s.status = .failed) ∧
        call.peersAcked.toNat = (range (run st (inputs ++ [input])).slots.length).countP
          (delivered st (inputs ++ [input])) ∧
        (call.status = none ↔ 1 ≤ call.peersAcked.toNat) := by
  obtain ⟨entryCbor, factor, hfactor, rfl⟩ := publishInit_started hinit
  obtain ⟨honce, hrunning⟩ := started_running entryCbor hfactor
  generalize started entryCbor factor = st at honce hrunning
  have hcalls (inputs : List Input) : (run st inputs).calls.length ≤ 1 :=
    (honce.run inputs).calls.trans_le (Bool.toNat_le _)
  refine ⟨hcalls inputs, fun input call ho hcall => ?_⟩
  have hphase (before after : List Input) (heq : inputs ++ [input] = before ++ after) (hne : after ≠ []) :
      (run st before).phase ≠ .done := by
    intro hdone
    obtain ⟨rest, last, rfl⟩ : ∃ rest last, after = rest ++ [last] := ⟨_, _, (dropLast_append_getLast hne).symm⟩
    obtain ⟨rfl, -⟩ := append_inj' (heq.trans (append_assoc before rest [last]).symm) rfl
    -- the operation has ended, and this would be a second call
    have hfired := (honce.run (before ++ rest)).calls
    rw [(honce.run (before ++ rest)).done.mp (by rw [run_append]; exact run_done hdone rest)] at hfired
    have hle := hcalls (before ++ rest ++ [input])
    rw [hcall, length_append, hfired, length_singleton, Bool.toNat_true] at hle
    exact absurd hle (by decide)
  have hrun := hrunning.run ho hphase
  rw [run_append] at hcall hrun ⊢
  obtain ⟨hcount, rfl⟩ := step_call hcall
  refine ⟨hrun.settles.ended hcount, ?_, ?_⟩
  · exact hrun.settles.acked.trans (countP_range fun i s hs => by simpa using hrun.settles.fin_iff i s hs).symm
  · dsimp only
    split
    · rename_i hpos
      exact ⟨fun _ => UInt32.lt_iff_toNat_lt.mp hpos, fun _ => rfl⟩
    · rename_i hzero
      refine ⟨nofun, fun hpos => absurd ?_ hzero⟩
      exact UInt32.lt_iff_toNat_lt.mpr hpos

end Runs

section Sample

open Servable Records

def encoded : Bytes := Cbor.Values.Value.encode (entryValue namedEntry)

theorem encodeOnce_named : encodeOnce .freed namedEntry = .ok encoded := by
  have hsized : Sized namedEntry := ⟨by decide, by decide, by decide, by decide⟩
  have hlen : encoded.length ≤ (replicate 8192 (0 : UInt8)).length := by
    rw [length_replicate]
    exact (encode_entryValue_length namedEntry).trans (by decide)
  have hvalid : Wire.entryValidate namedEntry = .ok () := rfl
  rw [encodeOnce, (entryEncode_iff hsized).mpr ⟨hvalid, rfl, hlen⟩]
  rfl

theorem publishInit_named (hpos : factor ≠ 0) (hfactor : ¬ factor > publishMaxReplication) :
    publishInit whole.metric (fun _ => .ok ()) true .freed namedEntry factor =
      .ok (started encoded factor) := by
  rw [publishInit, encodeOnce_named, if_neg hpos, if_neg hfactor]
  rfl

def dialed (peers : List Dht.Lookup.Peer) : List Input :=
  [.dht ⟨.lookupComplete, true, peers⟩, .tick fun _ => true]

def event (kind : Kind) (conn : Conn) (stream : Option Stream) : Input := .transport ⟨kind, conn, stream⟩ .sent

/-- The peer opens a stream of its own on the connection, and ends it. -/
def foreignFin : List Input := dialed [⟨digest 1, []⟩] ++
  [event .connReady 0 none, event .streamOpened 0 (some ⟨9, true⟩), event .streamFin 0 (some ⟨9, true⟩)]

/-- The first of two peers resets the stream and closes the connection. -/
def failedTwice : List Input := dialed [⟨digest 1, []⟩, ⟨digest 2, []⟩] ++
  [event .connReady 0 none, event .streamReset 0 (some ⟨2, true⟩), event .connClosed 0 none]

/-- An entry that no peer has acknowledged is reported as published, and an operation ends
while a peer is still being dialed. -/
theorem publish_unfaithful :
    (∃ st, publishInit whole.metric (fun _ => .ok ()) true .freed namedEntry 1 = .ok st ∧
      (run st foreignFin).calls = [⟨none, 1⟩] ∧
      (range (run st foreignFin).slots.length).countP (delivered st foreignFin) = 0) ∧
    ∃ st, publishInit whole.metric (fun _ => .ok ()) true .freed namedEntry 2 = .ok st ∧
      (run st failedTwice).calls = [⟨some .peerUnreachable, 0⟩] ∧ ∃ s ∈ (run st failedTwice).slots,
      s.status = .dialing := by
  refine ⟨⟨_, publishInit_named (by decide) (by decide), rfl, rfl⟩, _,
    publishInit_named (by decide) (by decide), rfl, ?_⟩
  exact ⟨⟨.dialing, ⟨digest 2, []⟩, some 1, none⟩, @List.mem_of_getElem? _ _ 1 _ rfl, rfl⟩

def ownFin : List Input := dialed [⟨digest 1, []⟩] ++ [event .connReady 0 none]

theorem publish_complete_own :
    ∃ st, publishInit whole.metric (fun _ => .ok ()) true .freed namedEntry 1 = .ok st ∧
    Orderly st (ownFin ++ [event .streamFin 0 (some ⟨1, true⟩)]) ∧
    (∀ s ∈ (run st (ownFin ++ [event .streamFin 0 (some ⟨1, true⟩)])).slots, s.status = .acked ∨
      s.status = .failed) ∧
    (1 : UInt32).toNat = (range (run st (ownFin ++ [event .streamFin 0 (some ⟨1, true⟩)])).slots.length).countP
      (delivered st (ownFin ++ [event .streamFin 0 (some ⟨1, true⟩)])) := by
  have hinit := @publishInit_named 1 (by decide) (by decide)
  have horderly : Orderly (started encoded 1) (ownFin ++ [event .streamFin 0 (some ⟨1, true⟩)]) := by
    refine orderly_cons trivial (orderly_cons trivial
      (orderly_cons (fun _ i s _ _ => ?_) (orderly_cons (fun _ i s hi hs => ?_)
      (orderly_nil _))))
    · exact ⟨by simp, by simp⟩
    · obtain rfl : 0 = i := Option.some.inj hi
      obtain rfl := Option.some.inj hs
      exact ⟨fun _ => ⟨rfl, rfl⟩, fun _ => by decide⟩
  obtain ⟨hended, hacked, -⟩ := (publish_complete hinit ownFin).2 _ ⟨none, 1⟩ horderly rfl
  exact ⟨_, hinit, horderly, hended, hacked⟩

end Sample

end AntsClient.Cache.Completion
