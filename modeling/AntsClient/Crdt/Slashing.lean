import AntsClient.Crdt.Converge

namespace AntsClient.Crdt.Slashing

open Common Cbor.Codec Crypto Crdt Proof Container Refine Operations Converge List

variable {E : Elem → Prop} {v : View} {x : Bytes32} {offered : Set Bytes}

def elemsFrom : Nat → Dec → List Bytes
  | 0, _ => []
  | n + 1, d =>
    match decBytesVal d with
    | .error _ _ => []
    | .ok p d' => p :: elemsFrom n d'

def snapshotElems (buf : Bytes) : List Bytes :=
  match decArray (decInit buf) with
  | .error _ _ => []
  | .ok n d => elemsFrom n.toNat d

inductive Call
  | insert (proof : Bytes)
  | prune (minEpochKeep : Nat)
  | merge (src : GSet)
  | snapshotMerge (buf : Bytes)

variable (crypto : Primitives)

def perform (s : GSet) (call : Call) (mem : List Bool) : GSet :=
  match call with
  | .insert proof => final (insert crypto proof ⟨s, mem⟩)
  | .prune minEpochKeep => final (prune minEpochKeep ⟨s, mem⟩)
  | .merge src => final (merge src ⟨s, mem⟩)
  | .snapshotMerge buf => final (snapshotMerge crypto buf ⟨s, mem⟩)

def offers : Call → Set Bytes
  | .insert proof => {proof}
  | .snapshotMerge buf => {p | p ∈ snapshotElems buf}
  | .prune _ | .merge _ => ∅

/-- The sets that calls can lead to, each with the byte strings that were offered to
it or to a set merged into it. -/
inductive Reachable : GSet → Set Bytes → Prop
  | init : Reachable initial ∅
  | call {s : GSet} {offered : Set Bytes} (h : Reachable s offered) (c : Call) (hc : ∀ src, c ≠ .merge src)
      (mem : List Bool) : Reachable (perform crypto s c mem) (offered ∪ offers c)
  | merge {s src : GSet} {offered offered' : Set Bytes} (h : Reachable s offered) (h' : Reachable src offered')
      (mem : List Bool) : Reachable (perform crypto s (.merge src) mem) (offered ∪ offered')

def Supplies : Call → Elem → Prop
  | .insert proof, e => elemOf crypto proof = some e
  | .prune _, _ => False
  | .merge src, e => e ∈ stored src
  | .snapshotMerge buf, e => ∃ p ∈ snapshotElems buf, elemOf crypto p = some e

variable {crypto}

def Advances (E : Elem → Prop) (v v' : View) : Prop :=
  (∃ es : List Elem, (∀ e ∈ es, E e) ∧ v' = offerAll v es) ∨ ∃ m, v' = trim v m

theorem advances_refl (v : View) : Advances E v v := .inl ⟨[], by simp, rfl⟩

theorem insert_final {s : Store} (hs : Inv s.set) (p : Bytes) :
    Inv (final (insert crypto p s)) ∧ ∃ es : List Elem, (∀ e ∈ es, elemOf crypto p = some e) ∧
      view (final (insert crypto p s)) = offerAll (view s.set) es := by
  cases he : elemOf crypto p with
  | none =>
    obtain ⟨err, herr⟩ := insert_refused he s
    rw [herr]
    exact ⟨hs, [], by simp, rfl⟩
  | some e =>
    rw [insert_accepted he]
    refine (crdtInsertElem_outcome hs e).final_of (R := fun t => Inv t ∧ ∃ es : List Elem,
      (∀ e' ∈ es, some e = some e') ∧ view t = offerAll (view s.set) es) ?_ ?_
    · rintro _ t ⟨hinv, hview, -⟩
      exact ⟨hinv, [e], by simp, hview⟩
    · rintro t ⟨hinv, hview⟩
      exact ⟨hinv, [], by simp, hview⟩

theorem snapshotLoop_final {n : Nat} {d : Dec} {acc : Nat × Nat} {s : Store} (hs : Inv s.set) :
    Inv (final (snapshotLoop crypto n d acc s)) ∧ ∃ es :
    List Elem, (∀ e ∈ es, ∃ p ∈ elemsFrom n d, elemOf crypto p = some e) ∧
        view (final (snapshotLoop crypto n d acc s)) = offerAll (view s.set) es := by
  induction n generalizing d acc s with
  | zero => exact ⟨hs, [], by simp, rfl⟩
  | succ n ih =>
    rw [snapshotLoop, elemsFrom]
    cases hd : decBytesVal d with
    | error err d' => exact ⟨hs, [], by simp, rfl⟩
    | ok p d' =>
      simp only
      have hrest : ∀ {acc' : Nat × Nat} {s' : Store} {es : List Elem}, Inv s'.set →
          (∀ e ∈ es, elemOf crypto p = some e) → view s'.set = offerAll (view s.set) es →
          Inv (final (snapshotLoop crypto n d' acc' s')) ∧ ∃ es : List Elem,
            (∀ e ∈ es, ∃ q ∈ p :: elemsFrom n d', elemOf crypto q = some e) ∧
              view (final (snapshotLoop crypto n d' acc' s')) = offerAll (view s.set) es := by
        intro acc' s' es hinv hes hview
        obtain ⟨hinv', es', hes', hview'⟩ := @ih d' acc' s' hinv
        refine ⟨hinv', es ++ es', ?_, ?_⟩
        · intro e he
          rcases mem_append.mp he with he | he
          · exact ⟨p, mem_cons_self, hes e he⟩
          · obtain ⟨q, hq, hqe⟩ := hes' e he
            exact ⟨q, mem_cons_of_mem _ hq, hqe⟩
        · rw [hview', hview, offerAll, offerAll, offerAll, foldl_append]
      cases hv : verify crypto p with
      | error err => exact @hrest _ _ [] hs (by simp) rfl
      | ok u =>
        obtain ⟨hinv, es, hes, hview⟩ := @insert_final crypto s hs p
        cases hr : Container.insert crypto p s with
        | ok ins s' =>
          rw [hr] at hinv hview
          simp only [bind_ok hr]
          exact hrest hinv hes hview
        | error err s' =>
          rw [hr] at hinv hview
          simp only [bind_error hr]
          exact ⟨hinv, es, fun e he => ⟨p, mem_cons_self, hes e he⟩, hview⟩

theorem snapshotMerge_final {s : Store} (hs : Inv s.set) (buf : Bytes) :
    Inv (final (snapshotMerge crypto buf s)) ∧ ∃ es : List Elem,
      (∀ e ∈ es, ∃ p ∈ snapshotElems buf, elemOf crypto p = some e) ∧
        view (final (snapshotMerge crypto buf s)) = offerAll (view s.set) es := by
  unfold snapshotMerge
  rw [snapshotElems]
  split
  · exact ⟨hs, [], by simp, rfl⟩
  · cases isCanonical buf with
    | error err => exact ⟨hs, [], by simp, rfl⟩
    | ok u =>
      cases decArray (decInit buf) with
      | error err d => exact ⟨hs, [], by simp, rfl⟩
      | ok n d =>
        have hloop := @snapshotLoop_final crypto n.toNat d (0, 0) s hs
        cases hr : snapshotLoop crypto n.toNat d (0, 0) s with
        | error err s' =>
          rw [hr] at hloop
          simp only [bind_error hr]
          exact hloop
        | ok r s' =>
          rw [hr] at hloop
          simp only [bind_ok hr]
          split <;> exact hloop

/-- Every call, at whatever allocation it fails, keeps the tables in order and only
offers elements or prunes. -/
theorem perform_spec {s : GSet} (hs : Inv s) (c : Call) (mem : List Bool) :
    Inv (perform crypto s c mem) ∧ Advances (Supplies crypto c) (view s) (view (perform crypto s c mem)) := by
  cases c with
  | insert p =>
    obtain ⟨hinv, hes⟩ := @insert_final crypto ⟨s, mem⟩ hs p
    exact ⟨hinv, .inl hes⟩
  | prune m =>
    refine (@prune_outcome ⟨s, mem⟩ hs m).final_of
      (R := fun t => Inv t ∧ Advances (Supplies crypto (.prune m)) (view s) (view t)) ?_ ?_
    · rintro _ t ⟨hinv, hview⟩
      exact ⟨hinv, .inr ⟨m, hview⟩⟩
    · rintro t rfl
      exact ⟨hs, advances_refl _⟩
  | merge src =>
    refine (@mergeElems_outcome src.slots ⟨s, mem⟩ hs).final_of
      (R := fun t => Inv t ∧ Advances (Supplies crypto (.merge src)) (view s) (view t)) ?_ ?_
    · rintro _ t ⟨hinv, hview⟩
      exact ⟨hinv, .inl ⟨_, fun e he => mem_toFinset.mpr he, hview⟩⟩
    · rintro t ⟨hinv, es, hes, hview⟩
      exact ⟨hinv, .inl ⟨es, fun e he => mem_toFinset.mpr (hes.subset he), hview⟩⟩
  | snapshotMerge buf =>
    obtain ⟨hinv, hes⟩ := @snapshotMerge_final crypto ⟨s, mem⟩ hs buf
    exact ⟨hinv, .inl hes⟩

theorem slashed_offerAll (h : Slashed v x) (es : List Elem) : Slashed (offerAll v es) x := by
  induction es generalizing v with
  | nil => exact h
  | cons e es ih => exact ih (slashed_offer_of h e)

variable {v' : View} {e : Elem}

theorem slashed_advances (hv : Advances E v v') (h : Slashed v x) : Slashed v' x := by
  rcases hv with ⟨es, -, rfl⟩ | ⟨m, rfl⟩
  · exact slashed_offerAll h es
  · exact slashed_trim.mpr h

variable (crypto) in
def Attested (offered : Set Bytes) (e : Elem) : Prop := e.proof ∈ offered ∧ elemOf crypto e.proof = some e

variable (crypto) in
/-- Everything a view holds against a subject goes back to an accepted proof. -/
structure Backed (v : View) (offered : Set Bytes) : Prop where
  stored : ∀ e ∈ v.stored, Attested crypto offered e
  retired : ∀ x ∈ v.retired, ∃ e, Attested crypto offered e ∧ e.subject = x

theorem attested_of_elemOf {p : Bytes} (h : elemOf crypto p = some e) (hp : p ∈ offered) :
    Attested crypto offered e := by
  obtain ⟨-, v, -, rfl⟩ := elemOf_eq_some.mp h
  exact ⟨hp, h⟩

theorem Backed.mono {offered' : Set Bytes} (h : Backed crypto v offered)
    (hsub : offered ⊆ offered') : Backed crypto v offered' := by
  refine ⟨fun e he => ?_, fun x hx => ?_⟩
  · obtain ⟨hp, hsome⟩ := h.stored e he
    exact ⟨hsub hp, hsome⟩
  · obtain ⟨e, ⟨hp, hsome⟩, rfl⟩ := h.retired x hx
    exact ⟨e, ⟨hsub hp, hsome⟩, rfl⟩

theorem Backed.offer (h : Backed crypto v offered) (he : Attested crypto offered e) :
    Backed crypto (offer v e) offered := by
  rw [Operations.offer]
  split
  · refine ⟨h.stored, fun x hx => ?_⟩
    rcases Finset.mem_insert.mp hx with rfl | hx
    · exact ⟨e, he, rfl⟩
    · exact h.retired x hx
  · split
    · exact h
    · refine ⟨fun e' he' => ?_, h.retired⟩
      rcases Finset.mem_insert.mp he' with rfl | he'
      · exact he
      · exact h.stored e' he'

theorem Backed.offerAll (h : Backed crypto v offered) {es : List Elem}
    (hes : ∀ e ∈ es, Attested crypto offered e) : Backed crypto (offerAll v es) offered := by
  induction es generalizing v with
  | nil => exact h
  | cons e es ih =>
    obtain ⟨he, hes⟩ := forall_mem_cons.mp hes
    exact ih (h.offer he) hes

theorem Backed.trim (h : Backed crypto v offered) (m : Nat) : Backed crypto (trim v m) offered := by
  refine ⟨fun e he => h.stored e (Finset.mem_filter.mp he).1, fun x hx => ?_⟩
  rcases Finset.mem_union.mp hx with hx | hx
  · exact h.retired x hx
  · obtain ⟨e, he, rfl⟩ := Finset.mem_image.mp hx
    exact ⟨e, h.stored e (Finset.mem_filter.mp he).1, rfl⟩

theorem Backed.advances (h : Backed crypto v offered)
    (hE : ∀ e, E e → Attested crypto offered e) (hv : Advances E v v') : Backed crypto v' offered := by
  rcases hv with ⟨es, hes, rfl⟩ | ⟨m, rfl⟩
  · exact h.offerAll fun e he => hE e (hes e he)
  · exact h.trim m

theorem reachable_spec {s : GSet} (h : Reachable crypto s offered) :
    Inv s ∧ Backed crypto (view s) offered := by
  induction h with
  | init =>
    refine ⟨inv_initial, fun e he => ?_, fun x hx => ?_⟩
    · simp [view, stored, initial] at he
    · simp [view, retiredSubjects, initial] at hx
  | @call s offered _ c hc mem ih =>
    obtain ⟨hinv, hadv⟩ := @perform_spec crypto s ih.1 c mem
    refine ⟨hinv, (ih.2.mono Set.subset_union_left).advances (fun e he => ?_) hadv⟩
    cases c with
    | insert p => exact attested_of_elemOf he (.inr rfl)
    | prune m => exact he.elim
    | merge src => exact absurd rfl (hc src)
    | snapshotMerge buf =>
      obtain ⟨p, hp, he⟩ := he
      exact attested_of_elemOf he (.inr hp)
  | @merge s src offered offered' _ _ mem ih ih' =>
    obtain ⟨hinv, hadv⟩ := @perform_spec crypto s ih.1 (.merge src) mem
    refine ⟨hinv, (ih.2.mono Set.subset_union_left).advances (fun e he => ?_) hadv⟩
    exact (ih'.2.mono Set.subset_union_right).stored e he

theorem Backed.slashed (h : Backed crypto v offered) (hx : Slashed v x) :
    ∃ e, Attested crypto offered e ∧ e.subject = x := by
  rcases hx with ⟨e, he, rfl⟩ | hx
  · exact ⟨e, h.stored e he, rfl⟩
  · exact h.retired x hx

theorem performs_spec {calls : List (Call × List Bool)} {s : GSet} (hs : Inv s) :
    Inv (calls.foldl (fun s c => perform crypto s c.1 c.2) s) ∧ ∀ x, Slashed (view s) x →
      Slashed (view (calls.foldl (fun s c => perform crypto s c.1 c.2) s)) x := by
  induction calls generalizing s with
  | nil => exact ⟨hs, fun _ h => h⟩
  | cons c calls ih =>
    obtain ⟨hinv, hadv⟩ := @perform_spec crypto s hs c.1 c.2
    obtain ⟨hinv', hrest⟩ := ih hinv
    exact ⟨hinv', fun x hx => hrest x (slashed_advances hadv hx)⟩

/-- A subject is slashed only for an accepted proof against it, and then stays so through any calls,
whatever allocations fail. -/
theorem isSlashed_irrevocable_justified {s : GSet} {offered : Set Bytes}
    (h : Reachable crypto s offered) {x : Bytes32}
    (hx : isSlashed s x = true) :
    (∀ calls : List (Call × List Bool),
      isSlashed (calls.foldl (fun s c => perform crypto s c.1 c.2) s) x = true) ∧
    ∃ p ∈ offered, verify crypto p = .ok () ∧ ∃ v, faultProofDecode p = .ok v ∧ v.subject = x := by
  obtain ⟨hinv, hback⟩ := reachable_spec h
  have hsl := (isSlashed_iff hinv).mp hx
  constructor
  · intro calls
    obtain ⟨hinv', hkeep⟩ := @performs_spec crypto calls s hinv
    exact (isSlashed_iff hinv').mpr (hkeep x hsl)
  · obtain ⟨e, ⟨hp, hsome⟩, rfl⟩ := hback.slashed hsl
    obtain ⟨hv, v, hd, heq⟩ := elemOf_eq_some.mp hsome
    exact ⟨e.proof, hp, hv, v, hd, by rw [heq]⟩

theorem isSlashed_irrevocable_justified_sample :
    isSlashed (perform sampleCrypto
      (perform sampleCrypto (perform sampleCrypto initial (.insert sampleProof) [true])
      (.prune 8) [true, false]) (.prune 9) [true, true]) samplePeer = true ∧
    ∃ p ∈ (∅ ∪ {sampleProof} : Set Bytes), verify sampleCrypto p = .ok () ∧
      ∃ v, faultProofDecode p = .ok v ∧ v.subject = samplePeer := by
  have hreach : Reachable sampleCrypto (perform sampleCrypto initial (.insert sampleProof) [true])
      (∅ ∪ {sampleProof}) :=
    Reachable.init.call (.insert sampleProof) (by simp) [true]
  obtain ⟨hkeep, hproof⟩ :=
    @isSlashed_irrevocable_justified sampleCrypto _ _ hreach samplePeer (by decide +kernel)
  have hlate := hkeep [(.prune 8, [true, false]), (.prune 9, [true, true])]
  simp only [foldl_cons, foldl_nil] at hlate
  exact ⟨hlate, hproof⟩

end AntsClient.Crdt.Slashing
