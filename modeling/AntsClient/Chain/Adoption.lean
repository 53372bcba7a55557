import AntsClient.Chain.Agreement
import AntsClient.Chain.BlockCodec

namespace AntsClient.Chain.Adoption

open Common Crypto Blocks BlockValues BlockCodec Committee Chain.Runtime Protocol Simulation Agreement List

variable {hash : Bytes32} {i : Nat} {height now : UInt64} {b : Block} {p : Proposal} {cfg : Config}

abbrev History (ι : Type) := List (Event ι × List Act)

section

variable {ι : Type} (crypto : Primitives)

def callNext (r : Rt × History ι) (e : Event ι) : Option (Rt × History ι) :=
  (call crypto r.1 e).map fun q => (q.1, r.2 ++ [(e, q.2)])

def calls (s : Rt) (es : List (Event ι)) : Option (Rt × History ι) := es.foldlM (callNext crypto) (s, [])

def Held (hist : History ι) (bytes : Bytes) : Prop :=
  ∃ r ∈ hist, r.1.input = .proposal bytes ∨
    r.1.input = .tick ∧ ∃ b, Act.hash b ∈ r.2 ∧ blockEncode b (replicate blockEncodedMax 0) = .ok bytes

def Obtained (self : Bytes32) (hist : History ι) (id hash : Bytes32) (sig : Signature) : Prop :=
  ∃ r ∈ hist, (∃ height, r.1.input = .attestation ⟨height, hash, id, sig⟩) ∨
    id = self ∧ r.1.cb.signFn hash = .ok sig ∧ ∃ p, Act.sign p ∈ r.2 ∧ p.hash = hash

/-- A head with the block behind it and the two thirds of that block's committee that
have signed it. -/
def Justified (genesis : Genesis) (self : Bytes32) (hist : History ι) (head : Head) : Prop :=
  ∃ bytes b c, ∃ signers : Finset Bytes32,
    Held hist bytes ∧ blockDecode bytes maxPatternFindings = .ok b ∧ b.degradedSeed = true ∧
    head = ⟨b.height, crypto.blake3 bytes, b.summary.cutoffTime, b.summary.epoch, true⟩ ∧
    committeeFor crypto genesis b.prevBlockHash b.height = some (.ok c) ∧
      (2 * c.length + 2) / 3 ≤ signers.card ∧
    ∀ id ∈ signers, id ∈ c.map (pubkeyAt genesis) ∧
      ∃ sig, Obtained self hist id head.hash sig ∧ crypto.ed25519Verify id head.hash.val sig.val = true

def proposalOf (b : Block) (bytes : Bytes) : Proposal :=
  ⟨true, b.height, b.summary.cutoffTime, b.summary.epoch, b.prevBlockHash, crypto.blake3 bytes, bytes⟩

def Grounded (p : Proposal) : Prop :=
  ∃ b, blockDecode p.bytes maxPatternFindings = .ok b ∧ b.degradedSeed = true ∧ p = proposalOf crypto b p.bytes

/-- Where everything in the tables comes from. -/
structure Founded (genesis : Genesis) (id : Bytes32) (hist : History ι) (s : Rt) : Prop where
  sameGenesis : s.genesis = genesis
  sameSelf : s.self = id
  grounded : ∀ p ∈ (view s).proposals, Grounded crypto p ∧ Held hist p.bytes
  obtained : ∀ a ∈ (view s).attestations, Obtained id hist a.signer a.blockHash a.sig

structure Shrinks (s s' : Rt) : Prop where
  genesis : s'.genesis = s.genesis
  self : s'.self = s.self
  head : s'.head = s.head
  proposals : (view s').proposals ⊆ (view s).proposals
  attestations : (view s').attestations ⊆ (view s).attestations

structure Attests (cb : Callbacks) (s : Rt) (p : Proposal) (acts : List Act) (s' : Rt) : Prop where
  genesis : s'.genesis = s.genesis
  self : s'.self = s.self
  member : s'.member = s.member
  head : s'.head = s.head
  props : s'.props = s.props
  silent : ∀ q, Act.final q ∉ acts
  atts : s'.atts = s.atts ∨ s.member = true ∧ ∃ sig, cb.signFn p.hash = .ok sig ∧ Act.sign p ∈ acts ∧
    s'.atts = (attFile s ⟨p.height, p.hash, s.self, sig⟩).atts

end

variable {ι : Type} {crypto : Primitives} {genesis : Genesis} {self : Bytes32}

theorem Held.mono {hist hist' : History ι} {bytes : Bytes} (hsub : hist ⊆ hist')
    (h : Held hist bytes) : Held hist' bytes := by
  obtain ⟨r, hr, h⟩ := h
  exact ⟨r, hsub hr, h⟩

theorem Obtained.mono {hist hist' : History ι} {id : Bytes32} {sig : Signature} (hsub : hist ⊆ hist')
    (h : Obtained self hist id hash sig) : Obtained self hist' id hash sig := by
  obtain ⟨r, hr, h⟩ := h
  exact ⟨r, hsub hr, h⟩

variable {s₁ : Rt} {prev : Bytes32} {P : Rt → History ι → Prop}

section Functions

variable {s s' : Rt} {cb : Callbacks}

theorem attFile_rest (s : Rt) (a : Attestation) :
    (attFile s a).genesis = s.genesis ∧ (attFile s a).self = s.self ∧
    (attFile s a).member = s.member ∧ (attFile s a).head = s.head ∧ (attFile s a).props = s.props := by
  obtain ⟨atts, seq, he, -⟩ := attFile_eq s a
  rw [he]
  exact ⟨rfl, rfl, rfl, rfl, rfl⟩

theorem signAndEmit_attests (hmember : s.member = true) (i : Nat) (p : Proposal) (emit : Bool) :
    Attests cb s p (signAndEmit cb s i p emit now).2 (signAndEmit cb s i p emit now).1 := by
  rw [signAndEmit]
  split
  · exact ⟨rfl, rfl, rfl, rfl, rfl, by simp, .inl rfl⟩
  rename_i sig hsig
  obtain ⟨hg, hself, hm, hhead, hprops⟩ :=
    attFile_rest { s with lastSignedHeight := p.height, cur := some i } ⟨p.height, p.hash, s.self, sig⟩
  refine ⟨hg, hself, hm, hhead, hprops, ?_, .inr ⟨hmember, sig, hsig, by simp, ?_⟩⟩
  · intro q hq
    cases emit <;> simp at hq
  · -- the place does not depend on the fields that were set before filing
    simp only [attFile]
    split
    · rfl
    split <;> rfl

theorem propose_attests (ha : propAlloc s = some (i, s₁)) (hmember : s.member = true) (p : Proposal) :
    Attests cb { s₁ with props := s₁.props.set i (some p) } p
      (signAndEmit cb { s₁ with props := s₁.props.set i (some p) } i p true now).2
      (signAndEmit cb { s₁ with props := s₁.props.set i (some p) } i p true now).1 := by
  obtain ⟨rfl, -⟩ := propAlloc_some ha
  exact signAndEmit_attests (s := { s with props := (s.props.set i none).set i (some p) }) hmember i p true

theorem considerSigning_attests (b : Block) (i : Nat) (p : Proposal) :
    Attests cb s p (considerSigning crypto cb s b i p now).2 (considerSigning crypto cb s b i p now).1 := by
  rcases considerSigning_cases crypto cb s b i p now with ⟨acts, heq, hacts⟩ | ⟨hcond, mine, q, -, -, heq⟩
  · rw [heq]
    refine ⟨rfl, rfl, rfl, rfl, rfl, ?_, .inl rfl⟩
    rcases hacts with rfl | ⟨mine, rfl⟩ <;> simp
  · have hsign : Attests cb s p (signAndEmit cb s i p false now).2 _ := signAndEmit_attests hcond.1 i p false
    obtain ⟨hg, hself, hm, hhead, hprops, hsilent, hatts⟩ := hsign
    rw [heq]
    refine ⟨hg, hself, hm, hhead, hprops, ?_, hatts.imp_right ?_⟩
    · intro q hq
      exact hsilent q (by simpa using hq)
    · rintro ⟨hmember, sig, hsig, hacts, h⟩
      exact ⟨hmember, sig, hsig, mem_cons_of_mem _ hacts, h⟩

theorem compose_grounded {cutoff : UInt64} (h : compose crypto genesis cb height prev cutoff = .ok (b, p)) :
    Grounded crypto p ∧ blockEncode b (replicate blockEncodedMax 0) = .ok p.bytes := by
  obtain ⟨rfl, rfl, rfl, hdegraded, hash, bytes, hh, hbytes, rfl⟩ := compose_eq h
  obtain ⟨henc, rfl, -⟩ := blockEncode_iff.mp hbytes
  rw [blockHash_eq, if_pos henc] at hh
  obtain rfl := Except.ok.inj hh
  exact ⟨⟨_, blockDecode_encode henc henc.1, hdegraded, rfl⟩, hbytes⟩

theorem blockHash_decoded {block : Bytes} (hb : blockDecode block maxPatternFindings = .ok b)
    (h : blockHash crypto b = .ok hash) : hash = crypto.blake3 block := by
  obtain ⟨⟨hlen, hsev⟩, rfl⟩ := blockDecode_sound hb
  rw [blockHash_eq, if_pos ⟨hlen, by simpa using hsev⟩] at h
  exact (Except.ok.inj h).symm

end Functions

section Step

variable {e : Event ι} {s s' : Rt} {acts all : List Act} {hist hist' : History ι}

theorem Shrinks.refl (s : Rt) : Shrinks s s := ⟨rfl, rfl, rfl, fun _ h => h, fun _ h => h⟩

theorem startAttempt_shrinks (h : startAttempt crypto s height now = some s') : Shrinks s s' := by
  obtain ⟨⟨hg, hself⟩, ⟨hhead, -, -⟩, hps, has⟩ := startAttempt_some h
  exact ⟨hg, hself, hhead, hps, has⟩

theorem Skips.shrinks (h : Skips crypto e s acts s') : Shrinks s s' ∧ ∀ q, Act.final q ∉ acts := by
  cases h with
  | stay => exact ⟨.refl s, by simp⟩
  | skip _ _ hs => exact ⟨startAttempt_shrinks hs, by simp⟩

theorem Rests.shrinks (h : Rests crypto e s acts s') : Shrinks s s' ∧ ∀ q, Act.final q ∉ acts := by
  cases h with
  | stay => exact ⟨.refl s, by simp⟩
  | hash b => exact ⟨.refl s, by simp⟩
  | rebroadcast =>
    rw [tickRebroadcast]
    split
    · exact ⟨.refl s, by simp⟩
    split
    · exact ⟨⟨rfl, rfl, rfl, fun _ h => h, fun _ h => h⟩, by simp⟩
    · exact ⟨.refl s, by simp⟩
  | evict _ _ ha _ =>
    obtain ⟨rfl, -⟩ := propAlloc_some ha
    exact ⟨⟨rfl, rfl, rfl, fun _ h => mem_of_mem_set_none h, fun _ h => h⟩, by simp⟩

theorem Files.head (hf : Files crypto e s acts s') : s'.head = s.head ∧ ∀ q, Act.final q ∉ acts := by
  cases hf with
  | @propose i s₁ b p _ hturn ha _ =>
    have hsign : Attests e.cb _ p (signAndEmit e.cb _ i p true e.now).2 _ := propose_attests ha hturn.1 p
    have hs₁ : s₁.head = s.head := by rw [(propAlloc_some ha).1]
    exact ⟨hsign.head.trans hs₁, fun q hq => hsign.silent q (by simpa using hq)⟩
  | @proposal block b hash i p s₁ _ hb _ _ hh hfile =>
    have hsign : Attests e.cb s₁ p (considerSigning crypto e.cb s₁ b i p e.now).2 _ :=
      considerSigning_attests b i p
    refine ⟨hsign.head.trans ?_, fun q hq => hsign.silent q (by simpa using hq)⟩
    obtain ⟨-, ⟨rfl, -⟩ | ⟨-, -, s₂, ha, rfl⟩⟩ := fileProposal_cases hfile
    · rfl
    · obtain ⟨rfl, -⟩ := propAlloc_some ha
      rfl
  | attestation => exact ⟨(attFile_rest s _).2.2.2.1, by simp⟩

variable (h : Founded crypto genesis self hist s)

include h

theorem Founded.shrink (hs : Shrinks s s') : Founded crypto genesis self hist s' where
  sameGenesis := hs.genesis.trans h.sameGenesis
  sameSelf := hs.self.trans h.sameSelf
  grounded p hp := h.grounded p (hs.proposals hp)
  obtained a ha := h.obtained a (hs.attestations ha)

theorem Founded.mono (hsub : hist ⊆ hist') : Founded crypto genesis self hist' s where
  sameGenesis := h.sameGenesis
  sameSelf := h.sameSelf
  grounded p hp := ⟨(h.grounded p hp).1, (h.grounded p hp).2.mono hsub⟩
  obtained a ha := (h.obtained a ha).mono hsub

theorem Founded.attest (ha : Attests e.cb s p acts s') (hmem : (e, all) ∈ hist) (hacts : acts ⊆ all) :
    Founded crypto genesis self hist s' where
  sameGenesis := ha.genesis.trans h.sameGenesis
  sameSelf := ha.self.trans h.sameSelf
  grounded := by
    rw [view, ha.props]
    exact h.grounded
  obtained := by
    rintro a ⟨seq, hm⟩
    rcases ha.atts with hatts | ⟨-, sig, hsig, hsign, hatts⟩
    · exact h.obtained a ⟨seq, hatts ▸ hm⟩
    obtain ⟨atts, n, he, hsub⟩ := attFile_eq s ⟨p.height, p.hash, s.self, sig⟩
    rw [hatts, he] at hm
    rcases hsub _ hm with hm | rfl
    · exact h.obtained a ⟨seq, hm⟩
    · exact ⟨_, hmem, .inr ⟨h.sameSelf, hsig, p, hacts hsign, rfl⟩⟩

theorem Founded.insert (ha : propAlloc s = some (i, s₁)) (hp : Grounded crypto p) (hheld : Held hist p.bytes) :
    Founded crypto genesis self hist { s₁ with props := s₁.props.set i (some p) } := by
  obtain ⟨rfl, -⟩ := propAlloc_some ha
  refine ⟨h.sameGenesis, h.sameSelf, fun q hq => ?_, h.obtained⟩
  rcases mem_of_mem_set_some hq with hq | rfl
  · exact h.grounded q (mem_of_mem_set_none hq)
  · exact ⟨hp, hheld⟩

theorem Files.founded (hf : Files crypto e s acts s') (hmem : (e, all) ∈ hist) (hacts : acts ⊆ all) :
    Founded crypto genesis self hist s' := by
  cases hf with
  | @propose i s₁ b p hin hturn ha hc =>
    obtain ⟨hp, hbytes⟩ := compose_grounded hc
    have hheld : Held hist p.bytes := ⟨_, hmem, .inr ⟨hin, b, hacts (by simp), hbytes⟩⟩
    exact (h.insert ha hp hheld).attest (propose_attests ha hturn.1 p) hmem fun act ha => hacts (by simp [ha])
  | @proposal block b hash i p s₁ hin hb hdegraded _ hh hfile =>
    refine Founded.attest ?_ (considerSigning_attests b i p) hmem fun act ha => hacts (by simp [ha])
    obtain ⟨-, ⟨rfl, -⟩ | ⟨-, rfl, s₂, ha, rfl⟩⟩ := fileProposal_cases hfile
    · exact h
    · obtain rfl := blockHash_decoded hb hh
      exact h.insert ha ⟨b, hb, hdegraded, rfl⟩ ⟨_, hmem, .inl hin⟩
  | @attestation a hin _ _ _ _ =>
    obtain ⟨atts, n, he, hsub⟩ := attFile_eq s a
    rw [he]
    refine ⟨h.sameGenesis, h.sameSelf, h.grounded, ?_⟩
    rintro a' ⟨seq, hm⟩
    rcases hsub _ hm with hm | rfl
    · exact h.obtained a' ⟨seq, hm⟩
    · exact ⟨_, hmem, .inl ⟨_, hin⟩⟩

end Step

section Justify

variable {s : Rt} {hist : History ι}

theorem pubkeys_nodup {c : List Nat} (hn : genesis.trustees.Nodup)
    (hsize : genesis.trustees.length ≤ committeeKMax)
    (hc : committeeFor crypto genesis prev height = some (.ok c)) :
    (c.map (pubkeyAt genesis)).Nodup := by
  obtain ⟨-, -, -, -, hnodup, -, hlt⟩ := committeeSelect_ok (lt_of_le_of_lt hsize (by decide)) hc
  refine hnodup.map_on fun i hi j hj h => ?_
  simp only [pubkeyAt, getD_eq_getElem?_getD, getElem?_eq_getElem (hlt i hi), getElem?_eq_getElem (hlt j hj),
    Option.getD_some] at h
  exact hn.getElem_inj_iff.mp h

theorem Founded.justified (h : Founded crypto genesis self hist s) (hn : genesis.trustees.Nodup)
    (hsize : genesis.trustees.length ≤ committeeKMax) (hp : p ∈ (view s).proposals)
    (hf : isFinal crypto s p = some true) :
    Justified crypto genesis self hist (headOf p) := by
  obtain ⟨⟨b, hb, hdegraded, he⟩, hheld⟩ := h.grounded p hp
  obtain ⟨A, ⟨c, hc, hquorum⟩, hA⟩ := isFinal_final hf
  rw [h.sameGenesis] at hc hquorum
  have hnodup := pubkeys_nodup hn hsize hc
  refine ⟨p.bytes, b, c, ((c.map (pubkeyAt genesis)).filter A).toFinset, hheld, hb, hdegraded, by rw [he]; rfl,
    by rw [he] at hc; exact hc, ?_, fun id hid => ?_⟩
  · rw [toFinset_card_of_nodup (hnodup.filter A), ← countP_eq_length_filter]
    omega
  · obtain ⟨hid, hAid⟩ := mem_filter.mp (mem_toFinset.mp hid)
    obtain ⟨a, ha, hhash, rfl, hverify⟩ := hA id hAid
    rw [hhash] at hverify
    refine ⟨hid, a.sig, ?_, hverify⟩
    have hobt := h.obtained a ha
    rwa [hhash] at hobt

end Justify

section Run

variable {e : Event ι} {s s' s₀ : Rt} {acts : List Act} {hist : History ι} {es : List (Event ι)}

theorem Founded.call (h : Founded crypto genesis self hist s) (hc : call crypto s e = some (s', acts)) :
    Founded crypto genesis self (hist ++ [(e, acts)]) s' ∧
      ((s'.head = s.head ∧ ∀ q, Act.final q ∉ acts) ∨ ∃ s₂ p,
        Founded crypto genesis self (hist ++ [(e, acts)]) s₂ ∧
        s₂.head = s.head ∧ p ∈ (view s₂).proposals ∧ s.head.height < p.height ∧
        isFinal crypto s₂ p = some true ∧
        s'.head = headOf p ∧ ∀ q, Act.final q ∈ acts → q = p) := by
  have h := h.mono (subset_append_left hist [(e, acts)])
  have hmem : (e, acts) ∈ hist ++ [(e, acts)] := by simp
  obtain ⟨s₁, skipped, rest, hskip, rfl, hrest | ⟨s₂, filed, fin, hfiles, hfin, rfl⟩⟩ := call_cases hc
  · obtain ⟨hs₁, hquiet₁⟩ := Skips.shrinks hskip
    obtain ⟨hs', hquiet'⟩ := Rests.shrinks hrest
    refine ⟨(h.shrink hs₁).shrink hs', .inl ⟨hs'.head.trans hs₁.head, fun q hq => ?_⟩⟩
    rcases mem_append.mp hq with hq | hq
    · exact hquiet₁ q hq
    · exact hquiet' q hq
  · obtain ⟨hs₁, hquiet₁⟩ := Skips.shrinks hskip
    obtain ⟨hhead, hquiet₂⟩ := Files.head hfiles
    have hquiet (q : Proposal) : Act.final q ∉ skipped ++ filed := by
      rw [mem_append, not_or]
      exact ⟨hquiet₁ q, hquiet₂ q⟩
    have h₂ := Files.founded (h.shrink hs₁) hfiles hmem (by simp)
    rw [← append_assoc] at h₂ ⊢
    rw [hs₁.head] at hhead
    rcases tryFinalize_cases hfin with ⟨rfl, rfl, -⟩ | ⟨p, hbest, rfl, hstart⟩
    · exact ⟨h₂, .inl ⟨hhead, by simpa using hquiet⟩⟩
    · obtain hb | ⟨hp, hlt, hf⟩ := bestFinal_some hbest
      · cases hb
      have hs' := startAttempt_shrinks hstart
      have hnew : Founded crypto genesis self (hist ++ [(e, skipped ++ filed ++ [.final p])])
          { s₂ with head := headOf p } :=
        ⟨h₂.sameGenesis, h₂.sameSelf, h₂.grounded, h₂.obtained⟩
      refine ⟨hnew.shrink hs', .inr ⟨s₂, p, h₂, hhead, hp, hhead ▸ hlt, hf, hs'.head, fun q hq => ?_⟩⟩
      rcases mem_append.mp hq with hq | hq
      · exact absurd hq (hquiet q)
      · simpa using hq

theorem init_founded (h : init crypto cfg now = some (.ok s)) :
    Founded crypto cfg.genesis cfg.self ([] : History ι) s := by
  obtain ⟨hg, hself, hview, -⟩ := init_ok h
  refine ⟨hg, hself, ?_, ?_⟩
  · simp [hview, initial]
  · simp [hview, initial]

theorem calls_concat (h : calls crypto s₀ (es ++ [e]) = some (s, hist)) : ∃ s₁ hist₁ acts,
    calls crypto s₀ es = some (s₁, hist₁) ∧ call crypto s₁ e = some (s, acts) ∧
    hist = hist₁ ++ [(e, acts)] := by
  rw [calls, foldlM_append] at h
  obtain ⟨⟨s₁, hist₁⟩, hrun, h⟩ := Option.bind_eq_some_iff.mp h
  obtain ⟨r, hlast, h⟩ := Option.bind_eq_some_iff.mp h
  obtain ⟨⟨s₂, acts⟩, hcall, rfl⟩ := Option.map_eq_some_iff.mp hlast
  cases h
  exact ⟨s₁, hist₁, acts, hrun, hcall, rfl⟩

theorem calls_history (hrun : calls crypto s₀ es = some (s, hist)) : hist.map Prod.fst = es := by
  induction es using reverseRecOn generalizing s hist with
  | nil =>
    cases hrun
    rfl
  | append_singleton es e ih =>
    obtain ⟨s₁, hist₁, acts, hrun₁, -, rfl⟩ := calls_concat hrun
    rw [map_append, ih hrun₁]
    rfl

/-- A property that the calls keep where a condition is met is kept by a run that meets it at each call. -/
theorem calls_keep_of {C : Rt → Event ι → List Act → Prop}
    (hstep : ∀ s hist e s' acts, P s hist → C s e acts → call crypto s e = some (s', acts) →
      P s' (hist ++ [(e, acts)]))
    (h₀ : P s₀ []) (hrun : calls crypto s₀ es = some (s, hist))
    (hC : ∀ es₁ e es₂ s₁ hist₁ s₂ acts, es = es₁ ++ e :: es₂ → calls crypto s₀ es₁ = some (s₁, hist₁) →
      call crypto s₁ e = some (s₂, acts) → C s₁ e acts) : P s hist := by
  induction es using reverseRecOn generalizing s hist with
  | nil =>
    cases hrun
    exact h₀
  | append_singleton es e ih =>
    obtain ⟨s₁, hist₁, acts, hrun₁, hcall, rfl⟩ := calls_concat hrun
    refine hstep _ _ _ _ _ (ih hrun₁ ?_) (hC es e [] _ _ _ _ rfl hrun₁ hcall) hcall
    intro es₁ e' es₂ s₂ hist₂ s₃ acts' hes
    exact hC es₁ e' (es₂ ++ [e]) s₂ hist₂ s₃ acts' (by rw [hes, append_assoc, cons_append])

theorem calls_keep (hstep : ∀ s hist e s' acts, P s hist → call crypto s e = some (s', acts) →
      P s' (hist ++ [(e, acts)]))
    (h₀ : P s₀ []) (hrun : calls crypto s₀ es = some (s, hist)) : P s hist :=
  calls_keep_of (C := fun _ _ _ => True) (fun s hist e s' acts h _ hc => hstep s hist e s' acts h hc) h₀ hrun
    fun _ _ _ _ _ _ _ _ _ _ => trivial

theorem calls_founded (hinit : init crypto cfg now = some (.ok s₀))
    (hrun : calls crypto s₀ es = some (s, hist)) : Founded crypto cfg.genesis cfg.self hist s :=
  calls_keep (P := fun s hist => Founded crypto cfg.genesis cfg.self hist s)
    (fun _ _ _ _ _ h hc => (h.call hc).1)
    (init_founded hinit) hrun

theorem init_trustees (h : init crypto cfg now = some (.ok s)) : cfg.genesis.trustees.Nodup :=
  Merkle.nodup_of_ascending strictlyAscending (fun _ _ _ => rfl) (init_start h).2.1

/-- A head adopted in any run is higher than the one before and stands on a block the node has seen
and on signatures of two thirds of its committee. -/
theorem adoption_sound {cfg : Config} {now : UInt64} {s₀ : Rt} {es : List (Event ι)}
    (hinit : init crypto cfg now = some (.ok s₀)) (hrun : calls crypto s₀ es = some (s, hist))
    (hcall : call crypto s e = some (s', acts)) (hnew : s'.head ≠ s.head ∨ ∃ p, Act.final p ∈ acts) :
    s.head.height < s'.head.height ∧ (∀ p, Act.final p ∈ acts → s'.head = headOf p) ∧
      Justified crypto cfg.genesis cfg.self (hist ++ [(e, acts)]) s'.head := by
  obtain ⟨-, ⟨hhead, hquiet⟩ | ⟨s₂, p, h₂, -, hp, hlt, hf, hhead, hfinal⟩⟩ :=
    (calls_founded hinit hrun).call hcall
  · rcases hnew with hnew | ⟨p, hp⟩
    · exact absurd hhead hnew
    · exact absurd hp (hquiet p)
  · rw [hhead]
    refine ⟨hlt, fun q hq => by rw [hfinal q hq], ?_⟩
    exact h₂.justified (init_trustees hinit) (init_ok hinit).2.2.2 hp hf

end Run

theorem sampleNode_init : init sampleCrypto ⟨sampleSetup.genesis, sampleSetup.self 1, true, true⟩
      0 = some (.ok (sampleWorld.nodes 1)) := by
  decide +kernel

/-- The second trustee proposes, and adopts with the first one's signature. -/
theorem adoption_sound_sample : ∃ s hist s' acts,
    calls sampleCrypto (sampleWorld.nodes 1) [sampleEvent 1 30 .tick] = some (s, hist) ∧
      call sampleCrypto s (sampleEvent 1 32 (.attestation (attestationBy 0 proposal₁))) = some (s', acts) ∧
      Act.final proposal₁ ∈ acts ∧ s.head.height < s'.head.height ∧
      (∀ p, Act.final p ∈ acts → s'.head = headOf p) ∧
      Justified sampleCrypto sampleSetup.genesis (sampleSetup.self 1)
        (hist ++ [(sampleEvent 1 32 (.attestation (attestationBy 0 proposal₁)), acts)]) s'.head := by
  have hacts : ((calls sampleCrypto (sampleWorld.nodes 1) [sampleEvent 1 30 .tick]).bind fun r =>
      call sampleCrypto r.1 (sampleEvent 1 32 (.attestation (attestationBy 0 proposal₁)))).map Prod.snd =
        some [.final proposal₁] := by
    unfold calls callNext call tick tickPropose onProposal considerSigning compose
    simp only [blockHash_eq, blockEncode_eq]
    decide +kernel
  obtain ⟨⟨s', acts⟩, hbind, rfl⟩ := Option.map_eq_some_iff.mp hacts
  obtain ⟨⟨s, hist⟩, hrun, hcall⟩ := Option.bind_eq_some_iff.mp hbind
  have hmem : Act.final proposal₁ ∈ [Act.final proposal₁] := by simp
  exact ⟨s, hist, s', _, hrun, hcall, hmem, adoption_sound sampleNode_init hrun hcall (.inr ⟨_, hmem⟩)⟩

end AntsClient.Chain.Adoption
