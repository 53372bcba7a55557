import AntsClient.Cbor.Sizes
import AntsClient.Crdt.Readers
import AntsClient.Crdt.Join

namespace AntsClient.Crdt.Snapshot

open Common Cbor Codec Tokens DecoderSpec EncoderSpec Values Walk Canonical Schema Sizes Value
  Crypto Crdt Proof Readers Container Refine
  Operations Converge Slashing Join List

variable {ps : List Bytes} {d : Dec} {s t : GSet} {e : Elem} {v : View} {es : List Elem}

def frameValue (ps : List Bytes) : Value := .array (ps.map .bytes)

def IsFrame (buf : Bytes) : Prop := ∃ ps, WellFormed (frameValue ps) ∧ encode (frameValue ps) = buf

theorem tokens_frame (ps : List Bytes) : tokens (frameValue ps) = .array ps.length :: ps.map .bytes := by
  rw [frameValue, tokens_array, length_map, flatMap_map]
  congr 1
  induction ps with
  | nil => rfl
  | cons p ps ih => rw [flatMap_cons, ih, tokens, map_cons, singleton_append]

theorem frame_wellFormed (hlen : ps.length < 2 ^ 64) (hps : ∀ p ∈ ps, p.length < 2 ^ 64) :
    WellFormed (frameValue ps) := by
  have hwithin : Within 1 (frameValue ps) := within_array_map hlen fun p hp => within_bytes (hps p hp)
  exact hwithin.wellFormed (by decide)

variable {d' : Dec} {p : Bytes} {offered : Set Bytes} {w : View}

section Reading

def readElems : Nat → DecM (List Bytes)
  | 0 => pure []
  | n + 1 => do
    let p ← decBytesVal
    let ps ← readElems n
    return p :: ps

def readFrame : DecM (List Bytes) := do
  let n ← orMalformed decArray
  let ps ← readElems n.toNat
  decFinish
  return ps

theorem yields_readElems (n : Nat) : Yields (readElems n) fun ps ts => ps.length = n ∧ ts = ps.map .bytes := by
  induction n with
  | zero => exact yields_pure ⟨rfl, rfl⟩
  | succ n ih =>
    refine yields_decBytesVal.step fun p => ih.bind ?_
    rintro ps _ ⟨rfl, rfl⟩
    exact yields_pure ⟨rfl, by rw [append_nil, map_cons]⟩

theorem yields_readFrame : Yields readFrame (fun ps ts => ts = tokens (frameValue ps)) True := by
  refine (yields_orMalformed yields_array).step fun n => (yields_readElems n.toNat).bind ?_
  rintro ps _ ⟨hlen, rfl⟩
  apply yields_decFinish
  rw [tokens_frame, hlen, append_nil]

theorem takes_readElems {us : List Token} (ps : List Bytes) :
    Takes (readElems ps.length) (ps.map .bytes ++ us) us ps := by
  induction ps with
  | nil => exact takes_pure
  | cons p ps ih => exact takes_decBytesVal.bind (ih.bind takes_pure)

theorem elemsFrom_of_readElems {n : Nat} (h : readElems n d = .ok ps d') : elemsFrom n d = ps := by
  induction n generalizing d d' ps with
  | zero =>
    obtain rfl : [] = ps := (EStateM.Result.ok.inj h).1
    rfl
  | succ n ih =>
    obtain ⟨p, d₁, hp, h⟩ := bind_eq_ok.mp h
    obtain ⟨ps', d₂, hps, h⟩ := bind_eq_ok.mp h
    obtain rfl : p :: ps' = ps := (EStateM.Result.ok.inj h).1
    rw [elemsFrom, hp]
    exact congrArg (p :: ·) (ih hps)

theorem decBytesVal_error {err : Error} (h : decBytesVal d = .error err d') : err = .malformed := by
  rw [decBytesVal] at h
  cases hpeek : decPeek .bytes d with
  | error err' d₁ =>
    rw [bind_error hpeek] at h
    rw [decPeek] at hpeek
    split at hpeek
    · cases hpeek
    · exact (EStateM.Result.error.inj h).1.symm.trans (EStateM.Result.error.inj hpeek).1.symm
  | ok u d₁ =>
    rw [bind_ok hpeek, orMalformed] at h
    split at h
    · cases h
    · exact (EStateM.Result.error.inj h).1.symm

end Reading

section Merging

variable {crypto : Primitives}

variable (crypto) in
def accepted (ps : List Bytes) : List Elem := ps.filterMap (elemOf crypto)

theorem accepted_cons (p : Bytes) (ps : List Bytes) :
    accepted crypto (p :: ps) = (elemOf crypto p).toList ++ accepted crypto ps := by
  rw [accepted, filterMap_cons]
  cases elemOf crypto p <;> rfl

theorem offerAll_append (v : View) (es es' : List Elem) :
    offerAll v (es ++ es') = offerAll (offerAll v es) es' :=
  foldl_append ..

variable (crypto) in
/-- The loop has gone over the byte strings `ps`, from the set `s` with the counts
`acc` to the set `t` with the counts `acc'`. -/
structure Absorbs (s : GSet) (acc : Nat × Nat) (ps : List Bytes) (acc' : Nat × Nat) (t : GSet) : Prop where
  inv : Inv t
  view : view t = offerAll (view s) (accepted crypto ps)
  added : (∀ e ∈ accepted crypto ps, s.floor ≤ e.epoch) → acc'.1 + size s = acc.1 + size t
  rejected : acc'.2 = acc.2 + ps.countP fun p => elemOf crypto p = none

theorem Absorbs.refl (hs : Inv s) (acc : Nat × Nat) : Absorbs crypto s acc [] acc s :=
  ⟨hs, rfl, fun _ => rfl, rfl⟩

theorem Absorbs.floor {acc acc' : Nat × Nat} (h : Absorbs crypto s acc ps acc' t) : t.floor = s.floor := by
  have hfloor := congrArg View.floor h.view
  rw [offerAll_floor] at hfloor
  exact hfloor

theorem Absorbs.cons {s₁ : GSet} {acc acc₁ acc' : Nat × Nat}
    (h : Absorbs crypto s acc [p] acc₁ s₁) (h' : Absorbs crypto s₁ acc₁ ps acc' t) :
    Absorbs crypto s acc (p :: ps) acc' t := by
  have hcons : accepted crypto (p :: ps) = accepted crypto [p] ++ accepted crypto ps :=
    @List.filterMap_append _ _ [p] ps (elemOf crypto)
  refine ⟨h'.inv, ?_, ?_, ?_⟩
  · rw [h'.view, h.view, hcons, offerAll_append]
  · intro hlow
    rw [hcons] at hlow
    have hhead := h.added fun e he => hlow e (mem_append_left _ he)
    have htail := h'.added fun e he => h.floor ▸ hlow e (mem_append_right _ he)
    omega
  · rw [h'.rejected, h.rejected, Nat.add_assoc, ← countP_append, singleton_append]

theorem card_offer {v : View} {e : Elem} (he : v.floor ≤ e.epoch) :
    offer v e = v ∨ offer v e ≠ v ∧ (offer v e).stored.card = v.stored.card + 1 := by
  rw [offer_above (Nat.not_lt.mpr he)]
  split
  · exact .inl rfl
  · rename_i hnew
    have hcard : (Insert.insert e v.stored).card = v.stored.card + 1 :=
      Finset.card_insert_of_notMem fun hmem => hnew ⟨e, hmem, rfl⟩
    refine .inr ⟨fun h => ?_, hcard⟩
    have hsame := congrArg (fun w => w.stored.card) h
    dsimp only at hsame
    omega

theorem absorbs_insert (hs : Inv s) (he : elemOf crypto p = some e) (acc : Nat × Nat) :
    ∃ fresh t, insert crypto p ⟨s, []⟩ = .ok fresh ⟨t, []⟩ ∧
    Absorbs crypto s acc [p] (if fresh then acc.1 + 1 else acc.1, acc.2) t := by
  have hout := @crdtInsertElem_outcome ⟨s, []⟩ hs e
  rw [insert_accepted he]
  cases hr : crdtInsertElem e ⟨s, []⟩ with
  | error err t =>
    rw [hr] at hout
    exact absurd hout.2.2.1 not_mem_nil
  | ok fresh t =>
    obtain ⟨t, mem⟩ := t
    rw [hr] at hout
    obtain ⟨hmem, hinv, hview, hfresh⟩ := hout
    obtain rfl : mem = [] := suffix_nil.mp hmem
    have hone : accepted crypto [p] = [e] := by rw [accepted_cons, he]; rfl
    refine ⟨fresh, t, rfl, hinv, ?_, ?_, ?_⟩
    · rw [hone]
      exact hview
    · rw [hone, forall_mem_singleton, size_eq hs, size_eq hinv]
      intro hlow
      have hstored : stored t = (offer (view s) e).stored := congrArg View.stored hview
      rw [hstored]
      rcases @card_offer (view s) e hlow with hsame | ⟨hne, hcard⟩
      · have hno : fresh = false := Bool.eq_false_iff.mpr fun hf => hfresh.mp hf (hview.trans hsame)
        rw [hno, hsame]
        rfl
      · have hyes : fresh = true := hfresh.mpr fun h => hne (hview.symm.trans h)
        rw [hyes, hcard]
        simp only [view, if_true]
        omega
    · simp [he]

theorem snapshotLoop_succ {s : GSet} (hs : Inv s) {d d₁ : Dec} {p : Bytes}
    (hp : decBytesVal d = .ok p d₁) (n : Nat)
    (acc : Nat × Nat) : ∃ acc₁ s₁, Absorbs crypto s acc [p] acc₁ s₁ ∧
      snapshotLoop crypto (n + 1) d acc ⟨s, []⟩ = snapshotLoop crypto n d₁ acc₁ ⟨s₁, []⟩ := by
  obtain ⟨added, rejected⟩ := acc
  rw [snapshotLoop, hp]
  cases hv : verify crypto p with
  | error err =>
    have hnone : elemOf crypto p = none := by rw [elemOf, hv]
    have hno : accepted crypto [p] = [] := by rw [accepted_cons, hnone]; rfl
    refine ⟨(added, rejected + 1), s, ⟨hs, ?_, fun _ => rfl, ?_⟩, ?_⟩
    · rw [hno]
      rfl
    · simp [hnone]
    · simp only [hv]
  | ok u =>
    obtain ⟨w, hw⟩ := decode_of_verify hv
    obtain ⟨fresh, t, hins, habs⟩ := absorbs_insert hs (elemOf_eq_some.mpr ⟨hv, w, hw, rfl⟩) (added, rejected)
    refine ⟨_, t, habs, ?_⟩
    simp only [hv, bind_ok hins]

theorem snapshotLoop_ok {n : Nat} {d d' : Dec} {ps : List Bytes} (h : readElems n d = .ok ps d')
    {s : GSet} (hs : Inv s)
    (acc : Nat × Nat) : ∃ acc' t, Absorbs crypto s acc ps acc' t ∧
    snapshotLoop crypto n d acc ⟨s, []⟩ = .ok (d', acc') ⟨t, []⟩ := by
  induction n generalizing d ps s acc with
  | zero =>
    obtain ⟨rfl, rfl⟩ := EStateM.Result.ok.inj h
    exact ⟨acc, s, .refl hs acc, rfl⟩
  | succ n ih =>
    obtain ⟨p, d₁, hp, h⟩ := bind_eq_ok.mp h
    obtain ⟨ps', d₂, hps, h⟩ := bind_eq_ok.mp h
    obtain ⟨rfl, rfl⟩ := EStateM.Result.ok.inj h
    obtain ⟨acc₁, s₁, habs, hround⟩ := @snapshotLoop_succ crypto s hs d d₁ p hp n acc
    obtain ⟨acc', t, habs', hrest⟩ := ih hps habs.inv acc₁
    exact ⟨acc', t, habs.cons habs', hround.trans hrest⟩

theorem snapshotLoop_error {n : Nat} {d d' : Dec} {err : Error} (h : readElems n d = .error err d')
    {s : GSet} (hs : Inv s)
    (acc : Nat × Nat) : ∃ acc' t, Absorbs crypto s acc (elemsFrom n d) acc' t ∧
      snapshotLoop crypto n d acc ⟨s, []⟩ = .error .malformed ⟨t, []⟩ := by
  induction n generalizing d s acc with
  | zero => cases h
  | succ n ih =>
    rw [elemsFrom]
    cases hp : decBytesVal d with
    | error err' d₁ =>
      obtain rfl := decBytesVal_error hp
      refine ⟨acc, s, .refl hs acc, ?_⟩
      rw [snapshotLoop, hp]
      rfl
    | ok p d₁ =>
      obtain ⟨acc₁, s₁, habs, hround⟩ := @snapshotLoop_succ crypto s hs d d₁ p hp n acc
      rw [readElems, bind_ok hp] at h
      cases hps : readElems n d₁ with
      | ok ps d₂ =>
        rw [bind_ok hps] at h
        cases h
      | error err₂ d₂ =>
        rw [bind_error hps] at h
        obtain ⟨rfl, rfl⟩ := EStateM.Result.error.inj h
        obtain ⟨acc', t, habs', hrest⟩ := ih hps habs.inv acc₁
        exact ⟨acc', t, habs.cons habs', hround.trans hrest⟩

theorem snapshotMerge_frame {ps : List Bytes} (hps : WellFormed (frameValue ps)) {s : GSet} (hs : Inv s) :
    ∃ counts t, Absorbs crypto s (0, 0) ps counts t ∧
    snapshotMerge crypto (encode (frameValue ps)) ⟨s, []⟩ = .ok counts ⟨t, []⟩ := by
  have hcount : (UInt64.ofNat ps.length).toNat = ps.length := by
    have hlen := (all_array.mp hps.inRange).1
    rw [InRange, length_map] at hlen
    exact UInt64.toNat_ofNat_of_lt' hlen
  have hleft := left_encode hps
  rw [tokens_frame, ← hcount] at hleft
  obtain ⟨d, harr, hleft⟩ := takes_array _ _ hleft
  rw [← append_nil (ps.map Token.bytes)] at hleft
  obtain ⟨d', hread, hleft⟩ := takes_readElems ps _ _ hleft
  obtain ⟨counts, t, habs, hloop⟩ := @snapshotLoop_ok crypto _ _ _ _ hread s hs (0, 0)
  refine ⟨counts, t, habs, ?_⟩
  have hpos := encode_length_pos (frameValue ps)
  rw [snapshotMerge, if_neg (by omega), isCanonical_encode.mpr ⟨_, hps, rfl⟩]
  simp only [harr, hcount, bind_ok hloop, hleft.finalise, ne_eq, not_true_eq_false, if_false]
  rfl

theorem isFrame_of_read {buf : Bytes} (h : readFrame (decInit buf) = .ok ps d) : IsFrame buf := by
  obtain ⟨ts, rfl, hvalid, hbuf, -⟩ := yields_readFrame.whole h
  rw [tokens_frame, forall_mem_cons, forall_mem_map] at hvalid
  exact ⟨ps, frame_wellFormed hvalid.1 hvalid.2, hbuf⟩

/-- Anything else that passes the canonical gate is given up at its first element of
another type, after the elements before it. -/
theorem snapshotMerge_bad {buf : Bytes} (hbad : ¬IsFrame buf) (hcanon : isCanonical buf = .ok ())
    {s : GSet} (hs : Inv s) :
    ∃ counts t, Absorbs crypto s (0, 0) (snapshotElems buf) counts t ∧
    snapshotMerge crypto buf ⟨s, []⟩ = .error .malformed ⟨t, []⟩ := by
  have hne : ¬buf.length = 0 := by
    obtain ⟨v, -, rfl⟩ := isCanonical_encode.mp hcanon
    exact Nat.pos_iff_ne_zero.mp (encode_length_pos v)
  rw [snapshotMerge, if_neg hne, hcanon, snapshotElems]
  cases harr : decArray (decInit buf) with
  | error err d => exact ⟨(0, 0), s, .refl hs _, rfl⟩
  | ok n d =>
    cases hread : readElems n.toNat d with
    | error err d' =>
      obtain ⟨counts, t, habs, hloop⟩ := @snapshotLoop_error crypto _ _ _ _ hread s hs (0, 0)
      exact ⟨counts, t, habs, bind_error hloop⟩
    | ok ps d' =>
      obtain ⟨counts, t, habs, hloop⟩ := @snapshotLoop_ok crypto _ _ _ _ hread s hs (0, 0)
      rw [← elemsFrom_of_readElems hread] at habs
      refine ⟨counts, t, habs, ?_⟩
      have hopen : decFinalise d' ≠ .ok () := by
        intro hfin
        have harr' : orMalformed decArray (decInit buf) = .ok n d := by rw [orMalformed, harr]
        have hfin' : decFinish d' = .ok () d' := by rw [decFinish, hfin]
        exact hbad (isFrame_of_read (bind_eq_ok.mpr
          ⟨n, d, harr', bind_eq_ok.mpr ⟨ps, d', hread, bind_eq_ok.mpr ⟨(), d', hfin', rfl⟩⟩⟩))
      simp only [bind_ok hloop, ne_eq, hopen, not_false_eq_true, if_true]
      rfl

end Merging

section Transfer

variable {crypto : Primitives}

def proofs (s : GSet) : List Bytes := (s.slots.filterMap id).map Elem.proof

theorem encProofs_eq (slots : List (Option Elem)) :
    encProofs slots = encCalls ((slots.filterMap id).map fun e => .bytes e.proof) := by
  induction slots with
  | nil => rfl
  | cons slot slots ih =>
    cases slot with
    | none => exact ih
    | some e => rw [encProofs, ih]; rfl

theorem snapshotEncode_eq (hs : Inv s) (buf : Bytes) :
    snapshotEncode s buf = encodeInto (frameValue (proofs s)) buf := by
  have hcount : s.count = (proofs s).length := by
    rw [hs.count, occupied_elem, length_map, proofs, length_map]
  have hcalls : calls (frameValue (proofs s)) = .array (UInt64.ofNat s.count) ::
      (s.slots.filterMap id).map fun e => .bytes e.proof := by
    rw [calls, tokens_frame, hcount, map_cons, map_map, proofs, map_map]
    rfl
  rw [snapshotEncode, encodeInto, hcalls, encProofs_eq]
  rfl

theorem bound_foldl (slots : List (Option Elem)) (total : Nat) :
    slots.foldl (fun total slot => total + slot.elim 0 fun e => 9 + e.proof.length) total =
      total + 9 * (slots.filterMap id).length + ((slots.filterMap id).flatMap Elem.proof).length := by
  induction slots generalizing total with
  | nil => rfl
  | cons slot slots ih =>
    rw [foldl_cons, ih]
    cases slot with
    | none => rfl
    | some e =>
      simp only [filterMap_cons, id, Option.elim, length_cons, flatMap_cons, length_append]
      omega

theorem encode_frame_le (s : GSet) : (encode (frameValue (proofs s))).length ≤ snapshotBound s := by
  have hpayload : ((proofs s).map Token.bytes).flatMap payload = (s.slots.filterMap id).flatMap Elem.proof := by
    rw [proofs, map_map, flatMap_map]
    rfl
  refine (encode_length_le _).trans ?_
  rw [tokens_frame, flatMap_cons, length_append, length_cons, length_map, hpayload, snapshotBound,
    bound_foldl, proofs, length_map]
  simp only [payload, length_nil]
  omega

theorem snapshotBound_ge (s : GSet) :
    (proofs s).length ≤ snapshotBound s ∧ ∀ p ∈ proofs s, p.length ≤ snapshotBound s := by
  rw [snapshotBound, bound_foldl, proofs, length_map]
  refine ⟨by omega, fun p hp => ?_⟩
  obtain ⟨e, he, rfl⟩ := mem_map.mp hp
  have hle := le_sum_of_mem (mem_map_of_mem (f := fun e : Elem => e.proof.length) he)
  rw [← length_flatMap] at hle
  omega

theorem accepted_proofs (h : Backed crypto (view s) offered) :
    accepted crypto (proofs s) = s.slots.filterMap id := by
  have hall : ∀ e ∈ s.slots.filterMap id, elemOf crypto e.proof = some e := fun e he =>
    (h.stored e (mem_toFinset.mpr he)).2
  rw [accepted, proofs, filterMap_map]
  exact (filterMap_congr hall).trans filterMap_some

theorem stored_transfer (hs : Inv s) (hback : Backed crypto (view s) offered)
    {counts : Nat × Nat} (h : Absorbs crypto initial (0, 0) (proofs s) counts t) : stored t = stored s := by
  have hinj : Set.InjOn Elem.contentId {e | e ∈ (view initial).stored ∨ e ∈ s.slots.filterMap id} := by
    rintro e (he | he) e' (he' | he') heq
    · simp [view, stored, initial] at he
    · simp [view, stored, initial] at he
    · simp [view, stored, initial] at he'
    · exact inj_on_of_nodup_map (contentIds_nodup hs) he he' heq
  ext e
  have hmem := (offerAll_spec hinj).1 e
  rw [← accepted_proofs hback, ← h.view] at hmem
  refine hmem.trans ?_
  rw [accepted_proofs hback]
  simp [view, stored, initial]

/-- A snapshot of any set, written into a buffer of its bound, gives a fresh set the
same proofs. -/
theorem snapshot_transfer {s : GSet} {offered : Set Bytes} (h : Reachable crypto s offered) {buf : Bytes}
    (hbuf : buf.length = snapshotBound s) (hmax : buf.length < 2 ^ 64) :
    ∃ frame t, snapshotEncode s buf = .ok frame ∧ isCanonical frame = .ok () ∧
      snapshotMerge crypto frame ⟨initial, []⟩ = .ok (size s, 0) ⟨t, []⟩ ∧ ∀ id,
      contains t id = contains s id := by
  obtain ⟨hs, hback⟩ := reachable_spec h
  have hfits := encode_frame_le s
  have hsized := snapshotBound_ge s
  have hwf : WellFormed (frameValue (proofs s)) :=
    frame_wellFormed (by omega) fun p hp => by
      have := hsized.2 p hp
      omega
  obtain ⟨counts, t, habs, hmerge⟩ := @snapshotMerge_frame crypto _ hwf initial inv_initial
  have hstored := stored_transfer hs hback habs
  have hadded : counts.1 = size s := by
    have hgrow := habs.added fun e _ => Nat.zero_le _
    rw [size_eq habs.inv, hstored, ← size_eq hs] at hgrow
    exact hgrow.trans (Nat.zero_add _)
  have hrejected : counts.2 = 0 := by
    rw [habs.rejected, Nat.zero_add, countP_eq_zero]
    intro p hp
    obtain ⟨e, he, rfl⟩ := mem_map.mp hp
    rw [(hback.stored e (mem_toFinset.mpr he)).2]
    simp
  refine ⟨encode (frameValue (proofs s)), t, ?_, isCanonical_encode.mpr ⟨_, hwf, rfl⟩, ?_, fun id => ?_⟩
  · rw [snapshotEncode_eq hs]
    exact (encodeInto_iff hwf).mpr ⟨rfl, hfits.trans hbuf.ge⟩
  · rw [hmerge, ← hadded, ← hrejected]
  · rw [Bool.eq_iff_iff, contains_iff habs.inv, contains_iff hs, hstored]

theorem snapshot_transfer_sample : size sampleHolder = 1 ∧ ∃ frame t,
    snapshotEncode sampleHolder (List.replicate 216 0) = .ok frame ∧
      snapshotMerge sampleCrypto frame ⟨initial, []⟩ = .ok (1, 0) ⟨t, []⟩ ∧
        contains t (contentId sampleCrypto sampleProof) = true := by
  have hsize : size sampleHolder = 1 := by decide +kernel
  have hbound : (List.replicate 216 (0 : UInt8)).length = snapshotBound sampleHolder := by decide +kernel
  have hholds : contains sampleHolder (contentId sampleCrypto sampleProof) = true := by decide +kernel
  obtain ⟨frame, t, henc, -, hmerge, hsame⟩ := snapshot_transfer reachable_sampleHolder hbound
    (by rw [length_replicate]; norm_num)
  rw [hsize] at hmerge
  exact ⟨hsize, frame, t, henc, hmerge, (hsame _).trans hholds⟩

end Transfer

section Wholesale

variable {crypto : Primitives}

structure Unchanged (s t : GSet) : Prop where
  size : size t = size s
  contains : ∀ id, contains t id = contains s id
  isSlashed : ∀ x, isSlashed t x = isSlashed s x

def Known (v : View) (e : Elem) : Prop :=
  if e.epoch < v.floor then Slashed v e.subject else ∃ e' ∈ v.stored, e'.contentId = e.contentId

structure Alike (v w : View) : Prop where
  stored : w.stored = v.stored
  floor : w.floor = v.floor
  slashed : ∀ x, Slashed w x ↔ Slashed v x

theorem Alike.known (h : Alike v w) : Known w e ↔ Known v e := by
  rw [Known, Known, h.floor, h.stored, h.slashed]

theorem Alike.trans {u : View} (h : Alike u v) (h' : Alike v w) : Alike u w :=
  ⟨h'.stored.trans h.stored, h'.floor.trans h.floor, fun x => (h'.slashed x).trans (h.slashed x)⟩

theorem alike_offer (h : Known v e) : Alike v (offer v e) := by
  rw [Known] at h
  split at h
  · rename_i hlow
    have hoffer : offer v e = { v with retired := Insert.insert e.subject v.retired } := if_pos hlow
    refine ⟨by rw [hoffer], offer_floor v e, fun x => ⟨fun hx => ?_, fun hx => slashed_offer_of hx e⟩⟩
    rcases slashed_of_offer hx with hx | rfl
    · exact hx
    · exact h
  · rename_i hlow
    rw [offer_above hlow, if_pos h]
    exact ⟨rfl, rfl, fun _ => Iff.rfl⟩

theorem alike_offerAll (h : ∀ e ∈ es, Known v e) : Alike v (offerAll v es) := by
  induction es generalizing v with
  | nil => exact ⟨rfl, rfl, fun _ => Iff.rfl⟩
  | cons e es ih =>
    obtain ⟨he, hes⟩ := forall_mem_cons.mp h
    have hone := alike_offer he
    exact hone.trans (ih fun e' he' => hone.known.mpr (hes e' he'))

theorem known_offer_self (v : View) (e : Elem) : Known (offer v e) e := by
  rw [Known, offer_floor]
  split
  · rename_i hlow
    rw [offer, if_pos hlow]
    exact .inr (Finset.mem_insert_self _ _)
  · rename_i hlow
    rw [offer_above hlow]
    split
    · assumption
    · exact ⟨e, Finset.mem_insert_self _ _, rfl⟩

theorem known_offer_of {e' : Elem} (h : Known v e') (e : Elem) : Known (offer v e) e' := by
  rw [Known] at h ⊢
  rw [offer_floor]
  split at h
  · rename_i hlow
    rw [if_pos hlow]
    exact slashed_offer_of h e
  · rename_i hlow
    rw [if_neg hlow]
    obtain ⟨e₀, he₀, hid⟩ := h
    exact ⟨e₀, stored_subset_offer v e he₀, hid⟩

theorem known_offerAll_of (h : Known v e) (es : List Elem) : Known (offerAll v es) e := by
  induction es generalizing v with
  | nil => exact h
  | cons e' es ih => exact ih (known_offer_of h e')

theorem known_offerAll : ∀ e ∈ es, Known (offerAll v es) e := by
  induction es generalizing v with
  | nil => simp
  | cons e es ih =>
    refine forall_mem_cons.mpr ⟨?_, ih⟩
    exact known_offerAll_of (known_offer_self v e) es

theorem unchanged_iff (hs : Inv s) (ht : Inv t) (hview : view t = offerAll (view s) es) :
    Unchanged s t ↔ ∀ e ∈ es, Known (view s) e := by
  constructor
  · intro h e he
    have hknown : Known (view t) e := hview ▸ known_offerAll e he
    have hfloor : (view t).floor = (view s).floor := hview ▸ offerAll_floor (view s) es
    rw [Known, hfloor] at hknown
    rw [Known]
    split at hknown
    · rename_i hlow
      rw [if_pos hlow, ← isSlashed_iff hs, ← h.isSlashed]
      exact (isSlashed_iff ht).mpr hknown
    · rename_i hlow
      rw [if_neg hlow]
      refine (contains_iff hs).mp ?_
      rw [← h.contains]
      exact (contains_iff ht).mpr hknown
  · intro h
    have halike : Alike (view s) (view t) := hview ▸ alike_offerAll h
    have hstored : stored t = stored s := halike.stored
    refine ⟨?_, fun id => ?_, fun x => ?_⟩
    · rw [size_eq ht, size_eq hs, hstored]
    · rw [Bool.eq_iff_iff, contains_iff ht, contains_iff hs, hstored]
    · rw [Bool.eq_iff_iff, isSlashed_iff ht, isSlashed_iff hs, halike.slashed]

variable (crypto) in
/-- No byte string listed in a canonical frame teaches the set anything: it fails to verify, is
stored, or its subject below the floor is slashed already. -/
def NothingNew (s : GSet) (buf : Bytes) : Prop :=
  isCanonical buf = .ok () → ∀ p ∈ snapshotElems buf, verify crypto p = .ok () → ∀ v,
    faultProofDecode p = .ok v →
    if v.epoch.toNat < s.floor then isSlashed s v.subject = true else contains s (contentId crypto p) = true

theorem known_iff (hs : Inv s) :
    (∀ e ∈ accepted crypto ps, Known (view s) e) ↔ ∀ p ∈ ps, verify crypto p = .ok () → ∀ v,
    faultProofDecode p = .ok v →
      if v.epoch.toNat < s.floor then
      isSlashed s v.subject = true else contains s (contentId crypto p) = true := by
  have hcase : ∀ p (v : FaultProofView), Known (view s) ⟨contentId crypto p, v.subject, v.epoch.toNat, p⟩ ↔
      if v.epoch.toNat < s.floor then
        isSlashed s v.subject = true else contains s (contentId crypto p) = true := by
    intro p v
    rw [isSlashed_iff hs, contains_iff hs]
    rfl
  constructor
  · intro h p hp hv v hd
    exact (hcase p v).mp (h _ (mem_filterMap.mpr ⟨p, hp, elemOf_eq_some.mpr ⟨hv, v, hd, rfl⟩⟩))
  · intro h e he
    obtain ⟨p, hp, he⟩ := mem_filterMap.mp he
    obtain ⟨hv, v, hd, rfl⟩ := elemOf_eq_some.mp he
    exact (hcase p v).mpr (h p hp hv v hd)

theorem snapshotMerge_gate {s : Store} {buf : Bytes} (h : isCanonical buf ≠ .ok ()) :
    ∃ err, snapshotMerge crypto buf s = .error err s := by
  unfold snapshotMerge
  split
  · exact ⟨_, rfl⟩
  · cases hc : isCanonical buf with
    | ok u => exact absurd hc h
    | error err => exact ⟨err, rfl⟩

/-- A frame refused for its form leaves the set as it was exactly when the elements before bring
nothing new. -/
theorem snapshot_wholesale_iff {s : GSet} {offered : Set Bytes} (h : Reachable crypto s offered) {buf : Bytes}
    (hbad : ¬IsFrame buf) :
    (∀ err t, snapshotMerge crypto buf ⟨s, []⟩ = .error err t → err = .malformed ∨ err = .nonCanonical →
      Unchanged s t.set) ↔ NothingNew crypto s buf := by
  have hs := (reachable_spec h).1
  by_cases hcanon : isCanonical buf = .ok ()
  · obtain ⟨counts, t, habs, hmerge⟩ := @snapshotMerge_bad crypto buf hbad hcanon s hs
    have hiff := (unchanged_iff hs habs.inv habs.view).trans (known_iff hs)
    constructor
    · intro hall _
      exact hiff.mp (hall _ _ hmerge (.inl rfl))
    · intro hknown err t' herr _
      obtain ⟨rfl, rfl⟩ := EStateM.Result.error.inj (hmerge.symm.trans herr)
      exact hiff.mpr (hknown hcanon)
  · obtain ⟨err, hmerge⟩ := @snapshotMerge_gate crypto ⟨s, []⟩ buf hcanon
    refine iff_of_true (fun err' t herr _ => ?_) fun h => absurd h hcanon
    obtain ⟨rfl, rfl⟩ := EStateM.Result.error.inj (hmerge.symm.trans herr)
    exact ⟨rfl, fun _ => rfl, fun _ => rfl⟩

def sampleMixed : Bytes := encode (.array [.bytes sampleProof, .uint 0])

theorem sampleMixed_within : Within 1 (.array [.bytes sampleProof, .uint 0]) := by
  have hlen : sampleProof.length < 2 ^ 64 := by decide +kernel
  exact within_array (by decide) (by simp [within_bytes hlen, within_uint])

theorem sampleMixed_bad : ¬IsFrame sampleMixed := by
  rintro ⟨ps, hps, heq⟩
  have hvalue := encode_inj hps.inRange sampleMixed_within.inRange heq
  rw [frameValue, Value.array.injEq] at hvalue
  have hmem : Value.uint 0 ∈ ps.map Value.bytes := by rw [hvalue]; simp
  obtain ⟨p, -, hp⟩ := mem_map.mp hmem
  cases hp

/-- The proof ahead of the bad element is kept although the frame is refused. -/
theorem snapshot_halfway : Reachable sampleCrypto initial ∅ ∧ ¬IsFrame sampleMixed ∧
    ∃ t, snapshotMerge sampleCrypto sampleMixed ⟨initial, []⟩ = .error .malformed ⟨t, []⟩ ∧
      size initial = 0 ∧ size t = 1 ∧ contains t (contentId sampleCrypto sampleProof) = true ∧
      isSlashed initial samplePeer = false ∧ isSlashed t samplePeer = true := by
  refine ⟨.init, sampleMixed_bad, sampleHolder, ?_, ?_, ?_, ?_, ?_, ?_⟩ <;> decide +kernel

theorem snapshot_wholesale_iff_sample : NothingNew sampleCrypto sampleHolder sampleMixed ∧
    ∀ err t, snapshotMerge sampleCrypto sampleMixed ⟨sampleHolder, []⟩ = .error err t →
      err = .malformed ∨ err = .nonCanonical → Unchanged sampleHolder t.set := by
  have hknown : NothingNew sampleCrypto sampleHolder sampleMixed := by
    have helems : snapshotElems sampleMixed = [sampleProof] := by decide +kernel
    have hfloor : sampleHolder.floor = 0 := by decide +kernel
    have hholds : contains sampleHolder (contentId sampleCrypto sampleProof) = true := by decide +kernel
    intro _ p hp _ v _
    rw [helems, mem_singleton] at hp
    subst hp
    rw [hfloor, if_neg (Nat.not_lt_zero _)]
    exact hholds
  refine ⟨?_, (snapshot_wholesale_iff reachable_sampleHolder sampleMixed_bad).mpr ?_⟩ <;> assumption

end Wholesale

end AntsClient.Crdt.Snapshot
