import AntsClient.Crdt.Slashing

namespace AntsClient.Crdt.Table

open Common Crypto Lib.LinearProbe Crdt Proof Container Refine Operations Converge Slashing

variable (crypto : Primitives)

/-- What holds of the two tables of a set between calls, for probes of any length. -/
structure Ordered (s : GSet) : Prop where
  pow2 : ∃ k, s.slots.length = 2 ^ k
  count : s.count = s.slots.countP Option.isSome
  load : s.count * 10 < s.slots.length * 7
  stops : ∀ id fuel, s.slots.length ≤ fuel →
    probeLoop elemKey s.slots id fuel (idHash id &&& (s.slots.length - 1)) = crdtProbe s.slots id
  found : ∀ id, (crdtProbe s.slots id).2 = true ↔ ∃ e, some e ∈ s.slots ∧ e.contentId = id
  slot : ∀ id, s.slots[(crdtProbe s.slots id).1]?.bind elemKey = if (crdtProbe s.slots id).2 then
    some id else none
  distinct : ∀ (i j : Nat) e e', s.slots[i]? = some (some e) → s.slots[j]? = some (some e') →
    e.contentId = e'.contentId → i = j
  elem : ∀ e, some e ∈ s.slots → e.contentId = crypto.blake3 e.proof ∧
    verify crypto e.proof = .ok () ∧ s.floor ≤ e.epoch ∧
    ∃ view, faultProofDecode e.proof = .ok view ∧ e.subject = view.subject ∧ e.epoch = view.epoch.toNat
  nRetired : s.nRetired = s.retired.countP fun x => x ≠ zero32
  retiredLoad : s.nRetired * 2 ≤ s.retired.length
  retiredStops : s.retired ≠ [] → ∀ x fuel, s.retired.length ≤ fuel →
    probeLoop subjectKey s.retired x fuel (idHash x &&& (s.retired.length - 1)) = retiredProbe s.retired x
  retiredFound : ∀ x, retiredHas s x = true ↔ if x = zero32 then s.retiredZero = true else x ∈ s.retired

variable {crypto}

theorem probeLoop_stable {σ : Type} {key? : σ → Option Bytes32} {slots : List σ} {k fuel : Nat}
    (hk : slots.length = 2 ^ k)
    (hroom : (occupied key? slots).length < slots.length) (id : Bytes32) (hfuel : slots.length ≤ fuel) :
    probeLoop key? slots id fuel (idHash id &&& (slots.length - 1)) = probe key? idHash slots id := by
  have hmask : idHash id &&& (slots.length - 1) = idHash id % slots.length := by
    rw [hk, Nat.and_two_pow_sub_one_eq_mod]
  rw [probeLoop_eq hk, hmask]
  exact probe_stable (exists_empty hroom) id hfuel

variable {s : GSet} {x : Bytes32}

theorem keyAt_of_slot {i : Nat} {e : Elem} (h : s.slots[i]? = some (some e)) :
    keyAt elemKey s.slots i = some e.contentId := by
  rw [keyAt, h]
  rfl

theorem ordered_of_inv {offered : Set Bytes} (hs : Inv s) (hback : Backed crypto (view s) offered) :
    Ordered crypto s := by
  obtain ⟨k, hk⟩ := hs.pow2
  refine ⟨hs.pow2, ?_, hs.load, ?_, ?_, ?_, ?_, ?_, ?_, hs.retiredLoad, ?_, ?_⟩
  · rw [hs.count, occupied, List.countP_eq_length_filter]
    congr 2
    funext slot
    cases slot <;> rfl
  · intro id fuel hfuel
    rw [crdtProbe_eq hk]
    exact probeLoop_stable hk hs.room id hfuel
  · intro id
    have hcontains := @contains_iff s hs id
    simp only [mem_stored] at hcontains
    exact hcontains
  · intro id
    obtain ⟨-, -, -, -, hkey⟩ := @probe_spec _ _ _ idHash _ _ (exists_empty hs.room) id
    rw [crdtProbe_eq hk]
    exact hkey
  · intro i j e e' hi hj hid
    exact keyAt_inj hs.placed (keyAt_of_slot hi) (hid ▸ keyAt_of_slot hj)
  · intro e he
    obtain ⟨-, hsome⟩ := hback.stored e (mem_stored.mpr he)
    obtain ⟨hverify, v, hdecode, heq⟩ := elemOf_eq_some.mp hsome
    refine ⟨?_, hverify, hs.floor e (mem_stored.mpr he), v, hdecode, ?_, ?_⟩
    · exact congrArg Elem.contentId heq
    · exact congrArg Elem.subject heq
    · exact congrArg Elem.epoch heq
  · rw [hs.nRetired, occupied, List.countP_eq_length_filter]
    congr 2
    funext x
    by_cases hx : x = zero32
    · simp [subjectKey, hx]
    · simp [subjectKey, hx]
  · intro hne x fuel hfuel
    rcases hs.retiredPow2 with hnil | ⟨k', hk'⟩
    · exact absurd hnil hne
    · rw [retiredProbe_eq hk']
      exact probeLoop_stable hk' (hs.retired_room hk') x hfuel
  · intro x
    rw [retiredHas_iff hs, mem_retiredSubjects]

theorem retired_offerAll {v : View} (h : x ∈ v.retired) (es : List Elem) : x ∈ (offerAll v es).retired := by
  induction es generalizing v with
  | nil => exact h
  | cons e es ih =>
    refine ih ?_
    rw [offer]
    split
    · exact Finset.mem_insert_of_mem h
    · split <;> exact h

/-- A subject that was recorded is found after every later call, wherever its
allocations fail. -/
theorem retiredHas_perform (hs : Inv s) (c : Call) (mem : List Bool) (hx : retiredHas s x = true) :
    retiredHas (perform crypto s c mem) x = true := by
  obtain ⟨hinv, hadv⟩ := @perform_spec crypto s hs c mem
  rw [retiredHas_iff hinv]
  have hmem : x ∈ (view s).retired := (retiredHas_iff hs).mp hx
  change x ∈ (view (perform crypto s c mem)).retired
  rcases hadv with ⟨es, -, heq⟩ | ⟨m, heq⟩
  · rw [heq]
    exact retired_offerAll hmem es
  · rw [heq]
    exact Finset.mem_union_left _ hmem

/-- The tables of every reachable set are in order, and no call loses a recorded subject. -/
theorem reachable_ordered {s : GSet} {offered : Set Bytes} (h : Reachable crypto s offered) :
    Ordered crypto s ∧ ∀ c mem x, retiredHas s x = true → retiredHas (perform crypto s c mem) x = true := by
  obtain ⟨hinv, hback⟩ := reachable_spec h
  exact ⟨ordered_of_inv hinv hback, fun c mem x hx => retiredHas_perform hinv c mem hx⟩

theorem reachable_ordered_sample :
    Ordered sampleCrypto
      (perform sampleCrypto (perform sampleCrypto initial (.insert sampleProof) [true]) (.prune 8)
      [true, false]) := by
  have hreach : Reachable sampleCrypto (perform sampleCrypto initial (.insert sampleProof) [true])
      (∅ ∪ {sampleProof}) :=
    Reachable.init.call (.insert sampleProof) (by simp) [true]
  exact (reachable_ordered (hreach.call (.prune 8) (by simp) [true, false])).1

end AntsClient.Crdt.Table
