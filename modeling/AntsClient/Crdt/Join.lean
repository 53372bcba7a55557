import AntsClient.Crdt.Equivocation
import AntsClient.Crdt.Slashing

namespace AntsClient.Crdt.Join

open Common Crypto Crdt Proof Container Refine Operations Converge Slashing Equivocation

variable {a b : GSet} {E : Set Elem}

/-- Merging `a` and `b` unites the slashed subjects, both directions agree, and a second merge
changes nothing. -/
structure IsJoin (a b : GSet) : Prop where
  slashed : ∀ x, isSlashed (after (merge b) a) x = true ↔ isSlashed a x = true ∨ isSlashed b x = true
  contains_comm : ∀ id, contains (after (merge b) a) id = contains (after (merge a) b) id
  slashed_comm : ∀ x, isSlashed (after (merge b) a) x = isSlashed (after (merge a) b) x
  contains_again : ∀ id, contains (after (merge b) (after (merge b) a)) id = contains (after (merge b) a) id
  slashed_again : ∀ x, isSlashed (after (merge b) (after (merge b) a)) x = isSlashed (after (merge b) a) x
  size_again : size (after (merge b) (after (merge b) a)) = size (after (merge b) a)
  floor_again : pruneFloor (after (merge b) (after (merge b) a)) = pruneFloor (after (merge b) a)

/-- A subject that `src` only remembers is slashed in `dst` or has a proof left in `src`, none of
whose proofs is below the floor of `dst`. -/
structure Joinable (dst src : GSet) : Prop where
  retired : ∀ x, retiredHas src x = true → isSlashed dst x = true ∨ ∃ e, some e ∈ src.slots ∧ e.subject = x
  floor : ∀ e, some e ∈ src.slots → pruneFloor dst ≤ e.epoch

theorem after_merge (ha : Inv a) (b : GSet) :
    Inv (after (merge b) a) ∧ view (after (merge b) a) = offerAll (view a) (b.slots.filterMap id) := by
  obtain ⟨_, h⟩ := after_outcome (@mergeElems_outcome b.slots ⟨a, []⟩ ha)
  exact h

structure Named (E : Set Elem) (a b : GSet) : Prop where
  left : ∀ e ∈ stored a, e ∈ E
  right : ∀ e ∈ stored b, e ∈ E
  inj : Set.InjOn Elem.contentId E

theorem floor_merge (ha : Inv a) (b : GSet) : (after (merge b) a).floor = a.floor :=
  (congrArg View.floor (after_merge ha b).2).trans (offerAll_floor _ _)

section Merge

variable (ha : Inv a) (hE : Named E a b)
include ha hE

theorem merge_spec : (∀ e, e ∈ stored (after (merge b) a) ↔ e ∈ stored a ∨ e ∈ stored b ∧ a.floor ≤ e.epoch) ∧
      ∀ x, Slashed (view (after (merge b) a)) x ↔ Slashed (view a) x ∨ ∃ e ∈ stored b, e.subject = x := by
  have hinj : Set.InjOn Elem.contentId {e | e ∈ (view a).stored ∨ e ∈ b.slots.filterMap id} := by
    refine hE.inj.mono ?_
    rintro e (he | he)
    · exact hE.left e he
    · exact hE.right e (List.mem_toFinset.mpr he)
  have hspec := offerAll_spec hinj
  rw [← (after_merge ha b).2] at hspec
  simpa [view, stored] using hspec

theorem named_merge : Named E (after (merge b) a) b := by
  refine ⟨fun e he => ?_, hE.right, hE.inj⟩
  rcases ((merge_spec ha hE).1 e).mp he with he | ⟨he, -⟩
  · exact hE.left e he
  · exact hE.right e he

theorem merge_again : stored (after (merge b) (after (merge b) a)) = stored (after (merge b) a) ∧
      ∀ x, Slashed (view (after (merge b) (after (merge b) a))) x ↔ Slashed (view (after (merge b) a)) x := by
  have hinv := (after_merge ha b).1
  obtain ⟨hst, hsl⟩ := merge_spec ha hE
  obtain ⟨hst', hsl'⟩ := merge_spec hinv (named_merge ha hE)
  constructor
  · ext e
    rw [hst', floor_merge ha b, hst]
    tauto
  · intro x
    rw [hsl', hsl]
    tauto

end Merge

theorem Named.symm (h : Named E a b) : Named E b a := ⟨h.right, h.left, h.inj⟩

theorem contains_congr (ha : Inv a) (hb : Inv b) (hE : Named E a b) :
    (∀ id, contains a id = contains b id) ↔ stored a = stored b := by
  have hsub {a b : GSet} (ha : Inv a) (hb : Inv b) (hE : Named E a b)
      (h : ∀ id, contains a id = contains b id) : stored a ⊆ stored b := by
    intro e he
    have hc : contains b e.contentId = true := (h _).symm.trans ((contains_iff ha).mpr ⟨e, he, rfl⟩)
    obtain ⟨e', he', hid⟩ := (contains_iff hb).mp hc
    obtain rfl := hE.inj (hE.right e' he') (hE.left e he) hid
    exact he'
  constructor
  · intro h
    exact (hsub ha hb hE h).antisymm (hsub hb ha hE.symm fun id => (h id).symm)
  · intro h id
    rw [Bool.eq_iff_iff, contains_iff ha, contains_iff hb, h]

theorem stored_comm_iff (ha : Inv a) (hb : Inv b) (hE : Named E a b) :
    stored (after (merge b) a) = stored (after (merge a) b) ↔
      (∀ e ∈ stored b, a.floor ≤ e.epoch) ∧ ∀ e ∈ stored a, b.floor ≤ e.epoch := by
  have hab := (merge_spec ha hE).1
  have hba := (merge_spec hb hE.symm).1
  constructor
  · intro h
    have heq : ∀ e, e ∈ stored a ∨ e ∈ stored b ∧ a.floor ≤ e.epoch ↔ e ∈ stored b ∨ e ∈ stored a ∧
        b.floor ≤ e.epoch :=
      fun e => by rw [← hab, ← hba, h]
    constructor
    · intro e he
      rcases (heq e).mpr (.inl he) with he | he
      · exact ha.floor e he
      · exact he.2
    · intro e he
      rcases (heq e).mp (.inl he) with he | he
      · exact hb.floor e he
      · exact he.2
  · rintro ⟨hfa, hfb⟩
    ext e
    rw [hab, hba]
    constructor
    · rintro (he | he)
      · exact .inr ⟨he, hfb e he⟩
      · exact .inl he.1
    · rintro (he | he)
      · exact .inr ⟨he, hfa e he⟩
      · exact .inl he.1

theorem slashed_union_iff (ha : Inv a) (hE : Named E a b) :
    (∀ x, Slashed (view (after (merge b) a)) x ↔ Slashed (view a) x ∨ Slashed (view b) x) ↔
      ∀ x ∈ retiredSubjects b, Slashed (view a) x ∨ ∃ e ∈ stored b, e.subject = x := by
  have hsl := (merge_spec ha hE).2
  constructor
  · intro h x hx
    exact (hsl x).mp ((h x).mpr (.inr (.inr hx)))
  · intro h x
    rw [hsl]
    constructor
    · exact Or.imp_right .inl
    · rintro (hx | hx | hx)
      · exact .inl hx
      · exact .inr hx
      · exact h x hx

theorem joinable_iff (ha : Inv a) (hb : Inv b) :
    Joinable a b ↔ (∀ x ∈ retiredSubjects b, Slashed (view a) x ∨ ∃ e ∈ stored b, e.subject = x) ∧
    ∀ e ∈ stored b, a.floor ≤ e.epoch := by
  simp only [mem_stored, ← retiredHas_iff hb, ← isSlashed_iff ha]
  exact ⟨fun h => ⟨h.retired, h.floor⟩, fun h => ⟨h.1, h.2⟩⟩

theorem isJoin_iff (ha : Inv a) (hb : Inv b) (hE : Named E a b) : IsJoin a b ↔ Joinable a b ∧ Joinable b a := by
  have hinv := (after_merge ha b).1
  have hinv' := (after_merge hb a).1
  have hE' : Named E (after (merge b) a) (after (merge a) b) :=
    ⟨(named_merge ha hE).left, (named_merge hb hE.symm).left, hE.inj⟩
  rw [joinable_iff ha hb, joinable_iff hb ha]
  constructor
  · intro h
    have hunion : ∀ x, Slashed (view (after (merge b) a)) x ↔ Slashed (view a) x ∨
        Slashed (view b) x := fun x => by
      rw [← isSlashed_iff hinv, ← isSlashed_iff ha, ← isSlashed_iff hb, h.slashed]
    have hunion' : ∀ x, Slashed (view (after (merge a) b)) x ↔ Slashed (view b) x ∨
        Slashed (view a) x := fun x => by
      rw [← isSlashed_iff hinv', ← h.slashed_comm, isSlashed_iff hinv, hunion, or_comm]
    obtain ⟨hfb, hfa⟩ := (stored_comm_iff ha hb hE).mp ((contains_congr hinv hinv' hE').mp h.contains_comm)
    exact ⟨⟨(slashed_union_iff ha hE).mp hunion, hfb⟩, (slashed_union_iff hb hE.symm).mp hunion', hfa⟩
  · rintro ⟨⟨hrb, hfb⟩, hra, hfa⟩
    have hunion := (slashed_union_iff ha hE).mpr hrb
    have hunion' := (slashed_union_iff hb hE.symm).mpr hra
    have hinv₂ := (after_merge hinv b).1
    obtain ⟨hst, hsl⟩ := merge_again ha hE
    refine ⟨fun x => ?_,
      (contains_congr hinv hinv' hE').mpr ((stored_comm_iff ha hb hE).mpr ⟨hfb, hfa⟩), fun x => ?_,
      fun id => ?_, fun x => ?_, ?_, floor_merge hinv b⟩
    · rw [isSlashed_iff hinv, isSlashed_iff ha, isSlashed_iff hb, hunion]
    · rw [Bool.eq_iff_iff, isSlashed_iff hinv, isSlashed_iff hinv', hunion, hunion', or_comm]
    · rw [Bool.eq_iff_iff, contains_iff hinv₂, contains_iff hinv, hst]
    · rw [Bool.eq_iff_iff, isSlashed_iff hinv₂, isSlashed_iff hinv, hsl]
    · rw [size_eq hinv₂, size_eq hinv, hst]

theorem named_of_reachable {crypto : Primitives} {offered offered' : Set Bytes}
    (ha : Reachable crypto a offered) (hb : Reachable crypto b offered')
    (hinj : Set.InjOn crypto.blake3 {p | verify crypto p = .ok () ∧ p ∈ offered ∪ offered'}) :
    Named {e | Attested crypto (offered ∪ offered') e} a b := by
  refine ⟨?_, ?_, ?_⟩
  · exact ((reachable_spec ha).2.mono Set.subset_union_left).stored
  · exact ((reachable_spec hb).2.mono Set.subset_union_right).stored
  · rintro e ⟨hp, hsome⟩ e' ⟨hp', hsome'⟩ hid
    exact elemOf_inj hsome hsome' hid fun hv hv' h => hinj ⟨hv, hp⟩ ⟨hv', hp'⟩ h

/-- Merging is a join of two sets exactly when each is joinable into the other. -/
theorem merge_isJoin_iff {crypto : Primitives} {a b : GSet} {offered offered' : Set Bytes}
    (ha : Reachable crypto a offered) (hb : Reachable crypto b offered')
    (hinj : Set.InjOn crypto.blake3 {p | verify crypto p = .ok () ∧ p ∈ offered ∪ offered'}) :
    IsJoin a b ↔ Joinable a b ∧ Joinable b a :=
  isJoin_iff (reachable_spec ha).1 (reachable_spec hb).1 (named_of_reachable ha hb hinj)

section Faults

def lenient : Primitives where
  blake3 b := digest (Cbor.Head.beNat (slice b 35 40))
  blake3DeriveKey _ _ := zero32
  ed25519Verify _ _ _ := true

def fault (peer : Nat) (epoch : UInt64) : Bytes :=
  equivocation (digest peer) epoch ⟨⟨1, epoch, 3, [0xaa]⟩, signature 0 0⟩ ⟨⟨1, epoch, 3, [0xbb]⟩, signature 0 0⟩

def performAll (set : GSet) (cs : List Call) : GSet := cs.foldl (fun set c => perform lenient set c []) set

theorem reachable_performAll {set : GSet} {offered : Set Bytes} (h : Reachable lenient set offered)
    {cs : List Call}
    (hcs : ∀ c ∈ cs, ∀ src, c ≠ .merge src) :
    Reachable lenient (performAll set cs) (cs.foldl (fun offered c => offered ∪ offers c) offered) := by
  induction cs generalizing set offered with
  | nil => exact h
  | cons c cs ih =>
    obtain ⟨hc, hcs⟩ := List.forall_mem_cons.mp hcs
    exact ih (h.call c hc []) hcs

/-- Peer 1 is only remembered in the first set, and peer 3 in the second one has a later proof. -/
def firstCalls : List Call := [.insert (fault 1 3), .insert (fault 2 7), .prune 5]

def secondCalls : List Call := [.insert (fault 3 4), .insert (fault 3 8), .insert (fault 1 6), .prune 6]

theorem merge_isJoin_iff_sample : IsJoin (performAll initial firstCalls) (performAll initial secondCalls) ∧
    isSlashed (after (merge (performAll initial secondCalls)) (performAll initial firstCalls))
      (digest 1) = true := by
  have ha := reachable_performAll .init (show ∀ c ∈ firstCalls, ∀ src, c ≠ .merge src by simp [firstCalls])
  have hb := reachable_performAll .init (show ∀ c ∈ secondCalls, ∀ src, c ≠ .merge src by simp [secondCalls])
  refine ⟨(merge_isJoin_iff ha hb ?_).mpr ?_, by decide +kernel⟩
  · have hnodup : ([fault 1 6, fault 3 8, fault 3 4, fault 2 7, fault 1 3].map lenient.blake3).Nodup := by
      decide +kernel
    rintro p ⟨-, hp⟩ q ⟨-, hq⟩
    exact List.inj_on_of_nodup_map hnodup (by simpa [firstCalls, secondCalls, offers, or_assoc] using hp)
      (by simpa [firstCalls, secondCalls, offers, or_assoc] using hq)
  · rw [joinable_iff (reachable_spec ha).1 (reachable_spec hb).1,
      joinable_iff (reachable_spec hb).1 (reachable_spec ha).1]
    simp only [Slashed]
    decide +kernel

end Faults

def sampleHolder : GSet := perform sampleCrypto initial (.insert sampleProof) []

def samplePruned : GSet := perform sampleCrypto sampleHolder (.prune 8) []

theorem reachable_sampleHolder : Reachable sampleCrypto sampleHolder (∅ ∪ {sampleProof}) :=
  Reachable.init.call (.insert sampleProof) (by simp) []

theorem sample_injOn {S : Set Bytes} (hS : S ⊆ {sampleProof}) :
    Set.InjOn sampleCrypto.blake3 {p | verify sampleCrypto p = .ok () ∧ p ∈ S} := by
  rintro p ⟨-, hp⟩ q ⟨-, hq⟩ -
  exact (hS hp).trans (hS hq).symm

/-- A set that pruned its proof keeps the subject slashed, and merging it into a
fresh set does not. -/
theorem merge_drops_retired :
    Reachable sampleCrypto initial ∅ ∧ Reachable sampleCrypto samplePruned (∅ ∪ {sampleProof} ∪ ∅) ∧
      Set.InjOn sampleCrypto.blake3
        {p | verify sampleCrypto p = .ok () ∧ p ∈ (∅ ∪ (∅ ∪ {sampleProof} ∪ ∅) : Set Bytes)} ∧
      isSlashed samplePruned samplePeer = true ∧
      isSlashed (after (merge samplePruned) initial) samplePeer = false ∧
      isSlashed (after (merge initial) samplePruned) samplePeer = true := by
  refine ⟨.init, reachable_sampleHolder.call (.prune 8) (by simp) [], sample_injOn (by simp), ?_, ?_, ?_⟩ <;>
    decide +kernel

end AntsClient.Crdt.Join
