import AntsClient.Chain.Adoption
import AntsClient.Lib.Slots

namespace AntsClient.Chain.Completeness

open Common Crypto Blocks BlockValues BlockCodec Committee Chain.Runtime Protocol Simulation
  Agreement Adoption Lib.Slots List

section

variable {ι : Type} (crypto : Primitives) (genesis : Genesis) (id : Bytes32)

def Roomy (s : Rt) (e : Event ι) : Prop :=
  ∀ skipped s₁, Skips crypto e s skipped s₁ → e.input = .tick → Turn s₁ e.now →
    none ∈ s₁.props ∧ ∀ b p, compose crypto s₁.genesis e.cb s₁.h s₁.head.hash e.now = .ok (b, p) →
      propFind s₁ p.hash = none

/-- What a call must meet for the block `hash` to be adopted: no trustee's signature over it comes
with a lower height, a slot is left for an own block, and the signatures that `sign_fn` returns
verify. -/
structure Meets (hash : Bytes32) (height : UInt64) (s : Rt) (e : Event ι) : Prop where
  height : ∀ a, e.input = .attestation a → a.blockHash = hash → a.signer ∈ genesis.trustees →
    crypto.ed25519Verify a.signer a.blockHash.val a.sig.val = true → height ≤ a.height
  room : Roomy crypto s e
  signs : ∀ hash sig, e.cb.signFn hash = .ok sig → crypto.ed25519Verify id hash.val sig.val = true

def Fits (hist : History ι) : Prop :=
  (∃ blocks : Finset Bytes, blocks.card ≤ 4 ∧
    ∀ bytes b, Held hist bytes → blockDecode bytes maxPatternFindings = .ok b → bytes ∈ blocks) ∧
  ∃ pairs : Finset (Bytes32 × Bytes32), pairs.card ≤ 128 ∧
    ∀ signer hash sig, Obtained id hist signer hash sig → signer ∈ genesis.trustees →
      crypto.ed25519Verify signer hash.val sig.val = true → (hash, signer) ∈ pairs

def Attested (p : Proposal) (a : Attestation) : Prop :=
  a.height = p.height ∧ a.blockHash = p.hash ∧ a.signer ∈ genesis.trustees ∧
    crypto.ed25519Verify a.signer a.blockHash.val a.sig.val = true

end

def pairOf (x : UInt64 × Attestation) : Bytes32 × Bytes32 := (x.2.blockHash, x.2.signer)

/-- The tables of a run with room for the blocks `hashes` and the signatures `pairs`,
seen from the block `target`. -/
structure Tables (crypto : Primitives) (genesis : Genesis) (id : Bytes32) (hashes : Finset Bytes32)
    (pairs : Finset (Bytes32 × Bytes32)) (target : Proposal) (s : Rt) : Prop where
  sameGenesis : s.genesis = genesis
  sameSelf : s.self = id
  member : s.member = true → id ∈ genesis.trustees
  propsLength : s.props.length = 4
  attsLength : s.atts.length = 128
  props : Distinct Proposal.hash s.props
  known : ∀ p, some p ∈ s.props → p.hash ∈ hashes ∧ (p.hash = target.hash → p = target)
  atts : Distinct pairOf s.atts
  valid : ∀ x, some x ∈ s.atts →
    crypto.ed25519Verify x.2.signer x.2.blockHash.val x.2.sig.val = true ∧ pairOf x ∈ pairs ∧
    (x.2.blockHash = target.hash → target.height ≤ x.2.height)

structure Keeps (target : Proposal) (s s' : Rt) : Prop where
  head : s.head.height ≤ s'.head.height
  proposal : s'.head.height < target.height → target ∈ (view s).proposals → target ∈ (view s').proposals
  attestations : s'.head.height < target.height → ∀ a ∈ (view s).attestations, a.blockHash = target.hash →
    a ∈ (view s').attestations

def Settled (crypto : Primitives) (target : Proposal) (s : Rt) : Prop :=
  s.head.height < target.height → target ∈ (view s).proposals →
    ¬Final crypto s.genesis (view s).attestations target

variable {hash : Bytes32} {a : Attestation} {p : Proposal} {s : Rt} {block : Bytes} {b : Block}

section Scans

theorem propVictim_free {cur : Option Nat} {slots : List (Option Proposal)} (h : none ∈ slots) :
    ∃ n, propVictim cur slots 0 none = some n ∧ slots[n]? = some none := by
  have hfree := scan_free (propVictim cur) (fun _ _ _ => rfl) (fun p slots i victim => ?_) h 0 none
  · simpa using hfree
  rw [propVictim]
  split
  · exact ⟨_, rfl⟩
  split <;> exact ⟨_, rfl⟩

theorem attPlace_free {slots : List (Option (UInt64 × Attestation))} (h : none ∈ slots) :
    ∃ n, attPlace slots 0 none = some n ∧ slots[n]? = some none := by
  have hfree := scan_free attPlace (fun _ _ _ => rfl) (fun x slots i oldest => ?_) h 0 none
  · simpa using hfree
  rw [attPlace]
  split <;> exact ⟨_, rfl⟩

theorem propAlloc_free (h : none ∈ s.props) : ∃ i, propAlloc s = some (i, s) ∧ s.props[i]? = some none := by
  obtain ⟨n, hn, hfree⟩ := @propVictim_free s.cur _ h
  exact ⟨n, by rw [propAlloc, hn, Option.map_some, set_free hfree], hfree⟩

theorem propFind_none : propFind s hash = none ↔ ∀ p, some p ∈ s.props → p.hash ≠ hash := by
  rw [propFind, findIdx?_eq_none_iff]
  constructor
  · intro h p hp
    simpa using h _ hp
  · intro h slot hslot
    cases slot with
    | none => rfl
    | some p => simpa using h p hslot

theorem attFind_none {atts : List (Option (UInt64 × Attestation))} {signer : Bytes32} :
    attFind atts hash signer = none ↔ ∀ x, some x ∈ atts → pairOf x ≠ (hash, signer) := by
  rw [attFind, findSome?_eq_none_iff]
  constructor
  · intro h x hx hpair
    have := h _ hx
    simp [attMatches, Option.filter_some, pairOf] at this hpair
    exact this hpair.1 hpair.2
  · intro h slot hslot
    cases slot with
    | none => rfl
    | some x =>
      have := h x hslot
      simpa [attMatches, Option.filter_some, pairOf] using this

theorem trusteeIndex_isSome {genesis : Genesis} {id : Bytes32} :
    (trusteeIndex genesis id).isSome = true ↔ id ∈ genesis.trustees := by
  simp [trusteeIndex, findIdx?_isSome]

end Scans

variable {ι : Type} {crypto : Primitives} {genesis : Genesis} {self : Bytes32} {hashes : Finset Bytes32}
  {pairs : Finset (Bytes32 × Bytes32)} {target : Proposal}

theorem Keeps.refl (s : Rt) : Keeps target s s := ⟨UInt64.le_refl _, fun _ h => h, fun _ _ h _ => h⟩

theorem Keeps.trans {s' s'' : Rt} (h : Keeps target s s') (h' : Keeps target s' s'') : Keeps target s s'' where
  head := UInt64.le_trans h.head h'.head
  proposal hlt hp := h'.proposal hlt (h.proposal (UInt64.lt_of_le_of_lt h'.head hlt) hp)
  attestations hlt a ha hhash :=
    h'.attestations hlt a (h.attestations (UInt64.lt_of_le_of_lt h'.head hlt) a ha hhash) hhash

section Step

variable {s s' : Rt} {now : UInt64}

theorem Keeps.congr (hhead : s'.head = s.head) (hprops : s'.props = s.props)
    (hatts : s'.atts = s.atts) : Keeps target s s' := by
  refine ⟨hhead ▸ UInt64.le_refl _, fun _ hp => ?_, fun _ a ha _ => ?_⟩
  · rw [view, hprops]
    exact hp
  · rw [view, hatts]
    exact ha

variable (h : Tables crypto genesis self hashes pairs target s)

include h

theorem Tables.congr (hg : s'.genesis = s.genesis) (hself : s'.self = s.self)
    (hmember : s'.member = s.member) (hprops : s'.props = s.props) (hatts : s'.atts = s.atts) :
    Tables crypto genesis self hashes pairs target s' where
  sameGenesis := hg.trans h.sameGenesis
  sameSelf := hself.trans h.sameSelf
  member := hmember ▸ h.member
  propsLength := hprops ▸ h.propsLength
  attsLength := hatts ▸ h.attsLength
  props := hprops ▸ h.props
  known := hprops ▸ h.known
  atts := hatts ▸ h.atts
  valid := hatts ▸ h.valid

theorem Tables.purge : Tables crypto genesis self hashes pairs target (purgeBelowHead s) where
  sameGenesis := h.sameGenesis
  sameSelf := h.sameSelf
  member := h.member
  propsLength := by rw [purgeBelowHead, length_map, h.propsLength]
  attsLength := by rw [purgeBelowHead, length_map, h.attsLength]
  props := h.props.filter _
  known p hp := h.known p (mem_filter.mp hp).1
  atts := h.atts.filter _
  valid x hx := h.valid x (mem_filter.mp hx).1

theorem Keeps.purge : Keeps target s (purgeBelowHead s) where
  head := UInt64.le_refl _
  proposal hlt hp := mem_filter.mpr ⟨hp, decide_eq_true hlt⟩
  attestations := by
    rintro hlt a ⟨seq, ha⟩ hhash
    refine ⟨seq, mem_filter.mpr ⟨ha, ?_⟩⟩
    exact decide_eq_true (UInt64.lt_of_lt_of_le hlt ((h.valid _ ha).2.2 hhash))

theorem Tables.attempt {height : UInt64} (hs : startAttempt crypto s height now = some s') :
    Tables crypto genesis self hashes pairs target s' ∧ Keeps target s s' := by
  obtain ⟨member, myPos, proposerPos, hmember, hs'⟩ := startAttempt_cases hs
  have h₁ : Tables crypto genesis self hashes pairs target (begun s height now member myPos proposerPos) := by
    refine ⟨h.sameGenesis, h.sameSelf, fun hm =>
      ?_, h.propsLength, h.attsLength, h.props, h.known, h.atts, h.valid⟩
    obtain ⟨-, i, -, hi, -⟩ := hmember hm
    rw [← h.sameGenesis, ← h.sameSelf]
    exact trusteeIndex_isSome.mp (hi ▸ rfl)
  have hkeeps : Keeps target s (begun s height now member myPos proposerPos) := Keeps.congr rfl rfl rfl
  rcases hs' with ⟨rfl, -⟩ | rfl
  · exact ⟨h₁, hkeeps⟩
  · exact ⟨h₁.purge, hkeeps.trans (Keeps.purge h₁)⟩

theorem Tables.file (hverify : crypto.ed25519Verify a.signer a.blockHash.val a.sig.val = true)
    (hpair : (a.blockHash, a.signer) ∈ pairs)
    (hheight : a.blockHash = target.hash → target.height ≤ a.height) (hcard : pairs.card ≤ 128) :
    Tables crypto genesis self hashes pairs target (attFile s a) ∧ Keeps target s (attFile s a) ∧
      ∃ a' ∈ (view (attFile s a)).attestations, a'.blockHash = a.blockHash ∧ a'.signer = a.signer := by
  cases hfind : attFind s.atts a.blockHash a.signer with
  | some a' =>
    obtain ⟨hmem, hmatch⟩ := attFind_some hfind
    have hsame : attFile s a = s := by simp [attFile, hfind]
    rw [hsame]
    exact ⟨h, Keeps.refl s, a', hmem, hmatch⟩
  | none =>
    have hnew := attFind_none.mp hfind
    have hfree : none ∈ s.atts :=
      exists_free (hcard.trans_eq h.attsLength.symm) h.atts (fun x hx => (h.valid x hx).2.1)
      hpair hnew
    obtain ⟨n, hplace, hn⟩ := attPlace_free hfree
    have hfiled : attFile s a = { s with
        atts := s.atts.set n (some (s.nextAttSeq + 1, a))
        nextAttSeq := s.nextAttSeq + 1 } := by
      simp [attFile, hfind, hplace]
    rw [hfiled]
    refine ⟨⟨h.sameGenesis, h.sameSelf, h.member, h.propsLength, ?_, h.props, h.known,
      h.atts.set hn hnew, ?_⟩, ⟨UInt64.le_refl _,
      fun _ hp => hp, ?_⟩, a, ⟨_, (mem_set_free hn).mpr (.inl rfl)⟩, rfl, rfl⟩
    · rw [length_set, h.attsLength]
    · intro x hx
      rcases (mem_set_free hn).mp hx with rfl | hx
      · exact ⟨hverify, hpair, hheight⟩
      · exact h.valid x hx
    · rintro - a' ⟨seq, ha'⟩ -
      exact ⟨seq, (mem_set_free hn).mpr (.inr ha')⟩

theorem Tables.insert {i : Nat} (hfree : s.props[i]? = some none) (hp : p.hash ∈ hashes)
    (htarget : p.hash = target.hash → p = target)
    (hnew : ∀ q, some q ∈ s.props → q.hash ≠ p.hash) :
    Tables crypto genesis self hashes pairs target { s with props := s.props.set i (some p) } ∧
      Keeps target s { s with props := s.props.set i (some p) } := by
  refine ⟨⟨h.sameGenesis, h.sameSelf, h.member, ?_, h.attsLength, h.props.set hfree hnew, ?_, h.atts, h.valid⟩,
    ⟨UInt64.le_refl _, fun _ hq => (mem_set_free hfree).mpr (.inr hq), fun _ _ ha _ => ha⟩⟩
  · rw [length_set, h.propsLength]
  · intro q hq
    rcases (mem_set_free hfree).mp hq with rfl | hq
    · exact ⟨hp, htarget⟩
    · exact h.known q hq

end Step

section Finality

variable {s s' : Rt} {now : UInt64}

theorem packed_length (pubkeys : List Bytes32) (found : Bytes32 → Option Attestation) :
    ((pubkeys.map found).flatMap fun a => (a.map fun a => a.sig.val).getD []).length =
      (pubkeys.zip ((pubkeys.map found).map Option.isSome)).countP Prod.snd * signatureSize := by
  induction pubkeys with
  | nil => rfl
  | cons id pubkeys ih =>
    simp only [map_cons, flatMap_cons, length_append, ih, zip_cons_cons, countP_cons]
    cases found id with
    | none => simp
    | some a =>
      have hl : a.sig.val.length = signatureSize := a.sig.length_val
      simp [Nat.add_mul, hl, Nat.add_comm]

theorem isFinal_of_final (hatts : Distinct pairOf s.atts) (hsize : s.genesis.trustees.length ≤ committeeKMax)
    (hdegraded : target.degraded = true) (hf : Final crypto s.genesis (view s).attestations target) :
    isFinal crypto s target = some true := by
  obtain ⟨A, ⟨c, hc, hquorum⟩, hA⟩ := hf
  obtain ⟨-, hl, hk, hcap, -⟩ := committeeSelect_ok (lt_of_le_of_lt hsize (by decide)) hc
  have hfound : ∀ id, A id = true → ((attFind s.atts target.hash id).any fun a =>
      crypto.ed25519Verify id target.hash.val a.sig.val) = true := by
    intro id hid
    obtain ⟨a, ⟨seq, ha⟩, hhash, rfl, hverify⟩ := hA id hid
    cases hfind : attFind s.atts target.hash a.signer with
    | none => exact absurd (by rw [pairOf, hhash]) (attFind_none.mp hfind _ ha)
    | some a' =>
      obtain ⟨⟨seq', ha'⟩, hhash', hsigner'⟩ := attFind_some hfind
      have heq := hatts.eq ha ha' (by rw [pairOf, pairOf, hhash, hhash', hsigner'])
      cases heq
      rwa [Option.any_some, ← hhash]
  have hcount : (c.map (pubkeyAt s.genesis)).countP A ≤ (c.map (pubkeyAt s.genesis)).countP fun id =>
      (attFind s.atts target.hash id).any fun a => crypto.ed25519Verify id target.hash.val a.sig.val :=
    countP_mono_left fun id _ => hfound id
  rw [isFinal, if_neg (by simp [hdegraded]), hc]
  simp only [finalityVerify, length_zip, length_map, Nat.min_self, packed_length, countValid_found]
  rw [if_neg (by omega), if_neg (by simp)]
  have hthreshold : finalityThreshold c.length ≤ (c.map (pubkeyAt s.genesis)).countP fun id =>
      (attFind s.atts target.hash id).any fun a => crypto.ed25519Verify id target.hash.val a.sig.val := by
    simp only [finalityThreshold, finalityNum, finalityDen]
    omega
  simpa using hthreshold

theorem bestFinal_max {slots : List (Option Proposal)} {best r : Option Proposal}
    (h : bestFinal crypto s slots best = some r) :
    (∀ q, best = some q → ∃ q', r = some q' ∧ q.height ≤ q'.height) ∧ ∀ p, some p ∈ slots →
    s.head.height < p.height →
        isFinal crypto s p = some false ∨ ∃ q, r = some q ∧ p.height ≤ q.height := by
  induction slots generalizing best with
  | nil =>
    obtain rfl : best = r := Option.some.inj h
    exact ⟨fun q hq => ⟨q, hq, UInt64.le_refl _⟩, by simp⟩
  | cons slot slots ih =>
    cases slot with
    | none =>
      obtain ⟨hbest, hslots⟩ := ih h
      exact ⟨hbest, fun p hp => hslots p (by simpa using hp)⟩
    | some x =>
      rw [bestFinal] at h
      split at h
      · rename_i hlow
        obtain ⟨hbest, hslots⟩ := ih h
        exact ⟨hbest, forall_some_mem_cons.mpr ⟨fun hlt => absurd hlow (UInt64.not_le.mpr hlt), hslots⟩⟩
      split at h
      · rename_i hany
        obtain ⟨hbest, hslots⟩ := ih h
        refine ⟨hbest, forall_some_mem_cons.mpr ⟨fun _ => ?_, hslots⟩⟩
        obtain ⟨q, rfl, hq⟩ := (Option.any_eq_true _ _).mp hany
        obtain ⟨q', hq', hle⟩ := hbest q rfl
        exact .inr ⟨q', hq', UInt64.le_trans (UInt64.not_lt.mp (by simpa using hq)) hle⟩
      rename_i hany
      split at h
      · cases h
      rename_i final hfinal
      obtain ⟨hbest, hslots⟩ := ih h
      refine ⟨fun q hq => ?_, forall_some_mem_cons.mpr ⟨fun _ => ?_, hslots⟩⟩
      · cases final with
        | false => exact hbest q hq
        | true =>
          obtain ⟨q', hq', hle⟩ := hbest x rfl
          have hqx : q.height ≤ x.height := by
            subst hq
            exact UInt64.le_of_lt (by simpa using hany)
          exact ⟨q', hq', UInt64.le_trans hqx hle⟩
      · cases final with
        | false => exact .inl hfinal
        | true => exact .inr (hbest x rfl)

theorem Final.mono {as as' : Set Attestation} (hsub : as ⊆ as') (h : Final crypto genesis as p) :
    Final crypto genesis as' p := by
  obtain ⟨A, hquorum, hA⟩ := h
  refine ⟨A, hquorum, fun id hid => ?_⟩
  obtain ⟨a, ha, hrest⟩ := hA id hid
  exact ⟨a, hsub ha, hrest⟩

theorem Settled.shrink (h : Settled crypto target s) (hs : Shrinks s s') : Settled crypto target s' := by
  intro hlt hp hf
  rw [hs.head] at hlt
  rw [hs.genesis] at hf
  exact h hlt (hs.proposals hp) (Final.mono hs.attestations hf)

theorem Tables.finalize {fin : List Act} (h : Tables crypto genesis self hashes pairs target s)
    (hsize : genesis.trustees.length ≤ committeeKMax) (hdegraded : target.degraded = true)
    (hfin : tryFinalize crypto s now = some (s', fin)) :
    Tables crypto genesis self hashes pairs target s' ∧ Keeps target s s' ∧ Settled crypto target s' := by
  have hfinal (hf : Final crypto s.genesis (view s).attestations target) :
      isFinal crypto s target ≠ some false := by
    rw [isFinal_of_final h.atts (h.sameGenesis ▸ hsize) hdegraded hf]
    simp
  rcases tryFinalize_cases hfin with ⟨rfl, -, hbest⟩ | ⟨p, hbest, -, hstart⟩
  · refine ⟨h, Keeps.refl _, fun hlt hp hf => ?_⟩
    obtain ⟨q, hq, -⟩ := ((bestFinal_max hbest).2 target hp hlt).resolve_left (hfinal hf)
    cases hq
  · obtain hb | ⟨hp, hlt, -⟩ := bestFinal_some hbest
    · cases hb
    have h₁ : Tables crypto genesis self hashes pairs target { s with head := headOf p } :=
      ⟨h.sameGenesis, h.sameSelf, h.member, h.propsLength, h.attsLength, h.props, h.known, h.atts, h.valid⟩
    have hkeeps : Keeps target s { s with head := headOf p } :=
      ⟨UInt64.le_of_lt hlt, fun _ hp => hp, fun _ _ ha _ => ha⟩
    have hsettled : Settled crypto target { s with head := headOf p } := by
      intro hlow hmem hf
      have hlow : p.height < target.height := hlow
      obtain ⟨q, hq, hle⟩ :=
        ((bestFinal_max hbest).2 target hmem (UInt64.lt_trans hlt hlow)).resolve_left (hfinal hf)
      obtain rfl := Option.some.inj hq
      exact absurd hlow (UInt64.not_lt.mpr hle)
    obtain ⟨h', hkeeps'⟩ := h₁.attempt hstart
    exact ⟨h', hkeeps.trans hkeeps', hsettled.shrink (startAttempt_shrinks hstart)⟩

end Finality

structure Bounds (crypto : Primitives) (genesis : Genesis) (id : Bytes32) (hist : History ι)
    (hashes : Finset Bytes32)
    (pairs : Finset (Bytes32 × Bytes32)) (target : Proposal) : Prop where
  trustees : genesis.trustees.length ≤ committeeKMax
  degraded : target.degraded = true
  fewHashes : hashes.card ≤ 4
  fewPairs : pairs.card ≤ 128
  held : ∀ p, Grounded crypto p → Held hist p.bytes → p.hash ∈ hashes ∧ (p.hash = target.hash → p = target)
  obtained : ∀ signer hash sig, Obtained id hist signer hash sig → signer ∈ genesis.trustees →
    crypto.ed25519Verify signer hash.val sig.val = true → (hash, signer) ∈ pairs

def Targets (crypto : Primitives) (genesis : Genesis) (block : Bytes) (b : Block) (target : Proposal) : Prop :=
  blockDecode block maxPatternFindings = .ok b ∧ b.degradedSeed = true ∧
    genesis.genesisTime ≤ b.summary.cutoffTime ∧
    target = proposalOf crypto b block

section Call

variable {hist : History ι} {s s' : Rt} {e : Event ι} {acts all : List Act}
  (hb : Bounds crypto genesis self hist hashes pairs target) (hmem : (e, all) ∈ hist)
  (h : Tables crypto genesis self hashes pairs target s)

include hb hmem h

theorem Tables.attest
    (hsigns : ∀ hash sig, e.cb.signFn hash = .ok sig → crypto.ed25519Verify self hash.val sig.val = true)
    (hp : p.hash = target.hash → p = target) (ha : Attests e.cb s p acts s') (hacts : acts ⊆ all) :
    Tables crypto genesis self hashes pairs target s' ∧ Keeps target s s' := by
  rcases ha.atts with hatts | ⟨hmember, sig, hsig, hsign, hatts⟩
  · exact ⟨h.congr ha.genesis ha.self ha.member ha.props hatts, Keeps.congr ha.head ha.props hatts⟩
  have hverify := hsigns _ sig hsig
  have hpair : (p.hash, self) ∈ pairs :=
    hb.obtained self p.hash sig ⟨_, hmem, .inr ⟨rfl, hsig, p, hacts hsign, rfl⟩⟩ (h.member hmember) hverify
  rw [h.sameSelf] at hatts
  obtain ⟨hfile, hkeeps, -⟩ := h.file (a := ⟨p.height, p.hash, self, sig⟩) hverify hpair
    (fun hhash => hp hhash ▸ UInt64.le_refl _) hb.fewPairs
  obtain ⟨hg, hself, hm, hhead, hprops⟩ := attFile_rest s ⟨p.height, p.hash, self, sig⟩
  refine ⟨hfile.congr (ha.genesis.trans hg.symm) (ha.self.trans hself.symm) (ha.member.trans hm.symm)
    (ha.props.trans hprops.symm) hatts,
    hkeeps.trans (Keeps.congr (ha.head.trans hhead.symm) (ha.props.trans hprops.symm) hatts)⟩

theorem Tables.fileProposal
    (hin : e.input = .proposal block) (hdec : blockDecode block maxPatternFindings = .ok b)
    (hdegraded : b.degradedSeed = true)
    (hh : blockHash crypto b = .ok hash) : ∃ i p s₁, fileProposal s b hash block = some (i, p, s₁) ∧
      Tables crypto genesis self hashes pairs target s₁ ∧ Keeps target s s₁ ∧ some p ∈ s₁.props ∧
      p.hash = hash := by
  obtain rfl := blockHash_decoded hdec hh
  rw [Runtime.fileProposal]
  cases hfind : propFind s (crypto.blake3 block) with
  | some i =>
    obtain ⟨hlt, hmatch, -⟩ := findIdx?_eq_some_iff_getElem.mp hfind
    obtain ⟨p, hslot, hhash⟩ := (Option.any_eq_true _ _).mp hmatch
    refine ⟨i, p, s, ?_, h, Keeps.refl s, hslot ▸ getElem_mem hlt, by simpa using hhash⟩
    simp [getElem?_eq_getElem hlt, hslot]
  | none =>
    have hnew := propFind_none.mp hfind
    obtain ⟨hhash, htarget⟩ := hb.held (proposalOf crypto b block) ⟨b, hdec, hdegraded, rfl⟩ ⟨_, hmem, .inl hin⟩
    have hfree : none ∈ s.props := exists_free (hb.fewHashes.trans_eq h.propsLength.symm) h.props
      (fun q hq => (h.known q hq).1) hhash hnew
    obtain ⟨i, hi, hslot⟩ := propAlloc_free hfree
    obtain ⟨h₁, hkeeps⟩ := h.insert hslot hhash htarget hnew
    refine ⟨i, proposalOf crypto b block, _, ?_, h₁, hkeeps, (mem_set_free hslot).mpr (.inl rfl), rfl⟩
    simp [hi, proposalOf]

theorem Tables.files
    (hsigns : ∀ hash sig, e.cb.signFn hash = .ok sig → crypto.ed25519Verify self hash.val sig.val = true)
    (hheight : ∀ a, e.input = .attestation a → a.blockHash = target.hash → a.signer ∈ genesis.trustees →
      crypto.ed25519Verify a.signer a.blockHash.val a.sig.val = true → target.height ≤ a.height)
    (hroom : e.input = .tick → Turn s e.now → none ∈ s.props ∧
      ∀ b p, compose crypto s.genesis e.cb s.h s.head.hash e.now = .ok (b, p) → propFind s p.hash = none)
    (hf : Files crypto e s acts s') (hacts : acts ⊆ all) :
    Tables crypto genesis self hashes pairs target s' ∧ Keeps target s s' := by
  cases hf with
  | @propose i s₁ b p hin hturn ha hc =>
    obtain ⟨hfree, hnew⟩ := hroom hin hturn
    obtain ⟨j, hj, hslot⟩ := propAlloc_free hfree
    cases hj.symm.trans ha
    obtain ⟨hp, hbytes⟩ := compose_grounded hc
    obtain ⟨hhash, htarget⟩ := hb.held p hp ⟨_, hmem, .inr ⟨hin, b, hacts (by simp), hbytes⟩⟩
    obtain ⟨h₁, hkeeps⟩ := h.insert hslot hhash htarget (propFind_none.mp (hnew b p hc))
    obtain ⟨h', hkeeps'⟩ := Tables.attest hb hmem h₁ hsigns htarget (propose_attests ha hturn.1 p)
      fun act hact => hacts (mem_append_right _ hact)
    exact ⟨h', hkeeps.trans hkeeps'⟩
  | @proposal block b hash i p s₁ hin hdec hdegraded _ hh hfile =>
    obtain ⟨i', p', s₁', hfile', h₁, hkeeps, hp, -⟩ := Tables.fileProposal hb hmem h hin hdec hdegraded hh
    cases hfile.symm.trans hfile'
    obtain ⟨h', hkeeps'⟩ := Tables.attest hb hmem h₁ hsigns (h₁.known p hp).2 (considerSigning_attests b i p)
      fun act hact => hacts (mem_append_right _ hact)
    exact ⟨h', hkeeps.trans hkeeps'⟩
  | @attestation a hin htrustee hverify _ _ =>
    rw [h.sameGenesis, trusteeIndex_isSome] at htrustee
    have hpair := hb.obtained a.signer a.blockHash a.sig ⟨_, hmem, .inl ⟨a.height, hin⟩⟩ htrustee hverify
    obtain ⟨h', hkeeps, -⟩ :=
      h.file hverify hpair (fun hhash => hheight a hin hhash htrustee hverify) hb.fewPairs
    exact ⟨h', hkeeps⟩

omit hb hmem h in
theorem Keeps.of_rests (hroom : e.input = .tick → Turn s e.now → none ∈ s.props)
    (hr : Rests crypto e s acts s') :
    s' = { s with lastEmit := s'.lastEmit } := by
  rcases Rests.cases hr with ⟨n, rfl⟩ | ⟨hin, hturn, i, ha⟩
  · rfl
  · obtain ⟨j, hj, -⟩ := propAlloc_free (hroom hin hturn)
    cases hj.symm.trans ha
    rfl

theorem Tables.call (hs : Settled crypto target s)
    (hmeets : Meets crypto genesis self target.hash target.height s e) (hc : call crypto s e = some (s', all)) :
    Tables crypto genesis self hashes pairs target s' ∧ Keeps target s s' ∧ Settled crypto target s' := by
  obtain ⟨s₁, skipped, rest, hskip, rfl, hrest⟩ := call_cases hc
  have hroom := hmeets.room skipped s₁ hskip
  obtain ⟨h₁, hkeeps₁⟩ : Tables crypto genesis self hashes pairs target s₁ ∧ Keeps target s s₁ := by
    cases hskip with
    | stay => exact ⟨h, Keeps.refl s⟩
    | skip _ _ hstart => exact h.attempt hstart
  rcases hrest with hrest | ⟨s₂, filed, fin, hfiles, hfin, rfl⟩
  · have heq := Keeps.of_rests (fun hin hturn => (hroom hin hturn).1) hrest
    have hkeeps : Keeps target s₁ s' := by
      rw [heq]
      exact Keeps.congr rfl rfl rfl
    have htables : Tables crypto genesis self hashes pairs target s' := by
      rw [heq]
      exact h₁.congr rfl rfl rfl rfl rfl
    exact ⟨htables, hkeeps₁.trans hkeeps, (hs.shrink (Skips.shrinks hskip).1).shrink (Rests.shrinks hrest).1⟩
  · obtain ⟨h₂, hkeeps₂⟩ := Tables.files hb hmem h₁ hmeets.signs hmeets.height hroom hfiles
      fun act hact => mem_append_right _ (mem_append_left _ hact)
    obtain ⟨h', hkeeps', hsettled⟩ := h₂.finalize hb.trustees hb.degraded hfin
    exact ⟨h', hkeeps₁.trans (hkeeps₂.trans hkeeps'), hsettled⟩

theorem Tables.attestation_filed (hin : e.input = .attestation a)
    (ha : Attested crypto genesis target a) (hc : Simulation.call crypto s e = some (s', all))
    (hlow : s'.head.height < target.height) :
    ∃ a' ∈ (view s').attestations, a'.blockHash = target.hash ∧ a'.signer = a.signer := by
  obtain ⟨hheight, hhash, htrustee, hverify⟩ := ha
  have hindex : (trusteeIndex s.genesis a.signer).isNone = false := by
    rw [h.sameGenesis, Option.isNone_eq_false_iff]
    exact trusteeIndex_isSome.mpr htrustee
  rw [Simulation.call, hin] at hc
  simp only [onAttestation, hindex, hverify, Bool.false_eq_true, Bool.not_true, or_self, if_false] at hc
  cases hfind : attFind s.atts a.blockHash a.signer with
  | some known =>
    obtain ⟨hmem, hmatch⟩ := attFind_some hfind
    simp only [hfind, Option.map_some, Option.some.injEq, Prod.mk.injEq] at hc
    obtain ⟨rfl, -⟩ := hc
    exact ⟨known, hmem, hmatch.1.trans hhash, hmatch.2⟩
  | none =>
    simp only [hfind] at hc
    split at hc
    · rename_i hbelow
      simp only [Option.map_some, Option.some.injEq, Prod.mk.injEq] at hc
      obtain ⟨rfl, -⟩ := hc
      exact absurd hlow (UInt64.not_lt.mpr (hheight ▸ hbelow))
    · simp only [Option.map_map, Function.comp_def, Option.map_id'] at hc
      have hpair := hb.obtained a.signer a.blockHash a.sig ⟨_, hmem, .inl ⟨a.height, hin⟩⟩ htrustee hverify
      obtain ⟨h₁, -, a', ha', hhash', hsigner'⟩ :=
        h.file hverify hpair (fun _ => hheight ▸ UInt64.le_refl _) hb.fewPairs
      obtain ⟨-, hkeeps, -⟩ := h₁.finalize hb.trustees hb.degraded hc
      have hhash' := hhash'.trans hhash
      exact ⟨a', hkeeps.attestations hlow a' ha' hhash', hhash', hsigner'⟩

theorem Tables.proposal_filed (ht : Targets crypto genesis block b target)
    (hmeets : Meets crypto genesis self target.hash target.height s e) (hin : e.input = .proposal block)
    (hatt : ∃ a ∈ (view s).attestations, a.blockHash = target.hash)
    (hc : Simulation.call crypto s e = some (s', all))
    (hbelow : s.head.height < target.height) (hlow : s'.head.height < target.height) :
    target ∈ (view s').proposals := by
  obtain ⟨hdec, hdegraded, hcutoff, htarget⟩ := ht
  obtain ⟨⟨hlen, hsev⟩, hbytes⟩ := blockDecode_sound hdec
  have henc : Encodable b.summary := ⟨hlen, by simpa using hsev⟩
  have hh : blockHash crypto b = .ok target.hash := by rw [blockHash_eq, if_pos henc, hbytes, htarget]; rfl
  have hsize : ¬block.length > blockEncodedMax := by
    rw [← hbytes]
    exact Nat.not_lt.mpr (block_fits hlen)
  have hany : attAnyFor s target.hash = true := by
    obtain ⟨a, ⟨seq, ha⟩, hhash⟩ := hatt
    exact any_eq_true.mpr ⟨_, ha, by simpa using hhash⟩
  have hheight : ¬(b.height ≤ s.head.height ∨ b.summary.cutoffTime < s.genesis.genesisTime) := by
    rw [not_or, UInt64.not_le, UInt64.not_lt, h.sameGenesis]
    exact ⟨by rwa [htarget] at hbelow, hcutoff⟩
  obtain ⟨i, p, s₁, hfile, h₁, -, hp, hhash⟩ := Tables.fileProposal hb hmem h hin hdec hdegraded hh
  obtain rfl := (h₁.known p hp).2 hhash
  rw [Simulation.call, hin] at hc
  simp only [onProposal, hsize, hdec, hdegraded, hheight, hh, hany, hfile, Bool.not_true,
    Bool.false_eq_true, and_false,
    if_false, Option.map_map, Function.comp_def] at hc
  obtain ⟨⟨s₂, fin⟩, hfin, he⟩ := Option.map_eq_some_iff.mp hc
  obtain ⟨rfl, rfl⟩ := Prod.mk.inj he
  obtain ⟨h₂, hkeeps₂⟩ := Tables.attest hb hmem h₁ hmeets.signs (fun _ => rfl) (considerSigning_attests b i p)
    fun act hact => mem_append_left _ (mem_append_right _ hact)
  obtain ⟨-, hkeeps₃, -⟩ := h₂.finalize hb.trustees hb.degraded hfin
  exact (hkeeps₂.trans hkeeps₃).proposal hlow hp

end Call

/-- The run brings the block and, with its true height, the signatures of two thirds of its
committee, one before the block. -/
def Offered (crypto : Primitives) (genesis : Genesis) (es : List (Event ι)) (block : Bytes)
    (b : Block) : Prop :=
  blockDecode block maxPatternFindings = .ok b ∧ b.degradedSeed = true ∧
    genesis.genesisTime ≤ b.summary.cutoffTime ∧
    ∃ c, ∃ signers : Finset Bytes32, committeeFor crypto genesis b.prevBlockHash b.height = some (.ok c) ∧
      (2 * c.length + 2) / 3 ≤ signers.card ∧
      (∀ id ∈ signers, id ∈ c.map (pubkeyAt genesis) ∧ ∃ e ∈ es, ∃ sig,
        e.input = .attestation ⟨b.height, crypto.blake3 block, id, sig⟩ ∧
          crypto.ed25519Verify id (crypto.blake3 block).val sig.val = true) ∧
      ∃ es₁ e es₂, es = es₁ ++ e :: es₂ ∧ e.input = .proposal block ∧ ∃ id ∈ signers, ∃ e' ∈ es₁, ∃ sig,
        e'.input = .attestation ⟨b.height, crypto.blake3 block, id, sig⟩ ∧
          crypto.ed25519Verify id (crypto.blake3 block).val sig.val = true

def heldBlocks (hist : History ι) : Set Bytes :=
  { bytes | Held hist bytes ∧ ∃ b, blockDecode bytes maxPatternFindings = .ok b }

structure Arrived (crypto : Primitives) (genesis : Genesis) (block : Bytes) (target : Proposal)
    (hist : History ι) (s : Rt) :
    Prop where
  attestations : ∀ r ∈ hist, ∀ a, r.1.input = .attestation a → Attested crypto genesis target a →
    ∃ a' ∈ (view s).attestations, a'.blockHash = target.hash ∧ a'.signer = a.signer
  proposal : ∀ h₁ r h₂, hist = h₁ ++ r :: h₂ → r.1.input = .proposal block →
    (∃ r' ∈ h₁, ∃ a, r'.1.input = .attestation a ∧ Attested crypto genesis target a) →
      target ∈ (view s).proposals

section Run

variable {s s' s₀ : Rt} {e : Event ι} {acts : List Act} {hist all : History ι} {es : List (Event ι)}
  {cfg : Config}
  {now : UInt64} {block : Bytes} {b : Block}

theorem init_tables (hinit : init crypto cfg now = some (.ok s₀)) :
    Tables crypto cfg.genesis cfg.self hashes pairs target s₀ := by
  refine (Tables.attempt ?_ (init_start hinit).2.2).1
  exact ⟨rfl, rfl, by simp [blank], rfl, rfl, distinct_replicate _, by simp [blank],
    distinct_replicate _, by simp [blank]⟩

theorem init_settled (hinit : init crypto cfg now = some (.ok s₀)) : Settled crypto target s₀ := by
  intro _ hp
  rw [(init_ok hinit).2.2.1] at hp
  cases hp

theorem Arrived.call (hb : Bounds crypto genesis self all hashes pairs target) (hmem : (e, acts) ∈ all)
    (h : Tables crypto genesis self hashes pairs target s) (hs : Settled crypto target s)
    (hmeets : Meets crypto genesis self target.hash target.height s e)
    (ht : Targets crypto genesis block b target)
    (ha : s.head.height < target.height → Arrived crypto genesis block target hist s)
    (hc : call crypto s e = some (s', acts)) (hlow : s'.head.height < target.height) :
    Arrived crypto genesis block target (hist ++ [(e, acts)]) s' := by
  obtain ⟨-, hkeeps, -⟩ := Tables.call hb hmem h hs hmeets hc
  have hbelow : s.head.height < target.height := UInt64.lt_of_le_of_lt hkeeps.head hlow
  obtain ⟨hatts, hprop⟩ := ha hbelow
  refine ⟨fun r hr a hin hatt => ?_, fun h₁ r h₂ hsplit hin hbefore => ?_⟩
  · rcases mem_append.mp hr with hr | hr
    · obtain ⟨a', ha', hhash, hsigner⟩ := hatts r hr a hin hatt
      exact ⟨a', hkeeps.attestations hlow a' ha' hhash, hhash, hsigner⟩
    · obtain rfl := mem_singleton.mp hr
      exact Tables.attestation_filed hb hmem h hin hatt hc hlow
  · -- the block was delivered before this call, or it is what this call delivers
    rcases eq_nil_or_concat h₂ with rfl | ⟨h₂', r₂, rfl⟩
    · obtain ⟨rfl, hr⟩ := append_inj' hsplit rfl
      obtain rfl := (singleton_inj.mp hr).symm
      obtain ⟨r', hr', a, hin', hatt⟩ := hbefore
      obtain ⟨a', ha', hhash, -⟩ := hatts r' hr' a hin' hatt
      exact Tables.proposal_filed hb hmem h ht hmeets hin ⟨a', ha', hhash⟩ hc hbelow hlow
    · have hsplit : hist = h₁ ++ r :: h₂' := by
        rw [concat_eq_append, ← cons_append, ← append_assoc] at hsplit
        exact (append_inj' hsplit rfl).1
      exact hkeeps.proposal hlow (hprop h₁ r h₂' hsplit hin hbefore)

theorem calls_arrived (hb : Bounds crypto cfg.genesis cfg.self hist hashes pairs target)
    (hinit : init crypto cfg now = some (.ok s₀)) (hrun : calls crypto s₀ es = some (s, hist))
    (ht : Targets crypto cfg.genesis block b target)
    (hmeets : ∀ es₁ e es₂ s₁ h₁ s₂ acts, es = es₁ ++ e :: es₂ → calls crypto s₀ es₁ = some (s₁, h₁) →
      call crypto s₁ e = some (s₂, acts) → Meets crypto cfg.genesis cfg.self target.hash target.height s₁ e) :
    Tables crypto cfg.genesis cfg.self hashes pairs target s ∧ Settled crypto target s ∧
      (s.head.height < target.height → Arrived crypto cfg.genesis block target hist s) := by
  refine calls_keep_of (P := fun s h => h <+: hist → Tables crypto cfg.genesis cfg.self hashes pairs target s ∧
    Settled crypto target s ∧
    (s.head.height < target.height → Arrived crypto cfg.genesis block target h s)) ?_ ?_ hrun hmeets
    (List.prefix_refl _)
  · intro s₁ h₁ e s₂ acts hih hm hcall hpre
    obtain ⟨h₁s, hs₁, harr⟩ := hih ((List.prefix_append _ _).trans hpre)
    have hmem : (e, acts) ∈ hist := hpre.subset (by simp)
    obtain ⟨h₂s, -, hs₂⟩ := Tables.call hb hmem h₁s hs₁ hm hcall
    exact ⟨h₂s, hs₂, Arrived.call hb hmem h₁s hs₁ hm ht harr hcall⟩
  · intro _
    exact ⟨init_tables hinit, init_settled hinit, fun _ => ⟨by simp, by simp⟩⟩

theorem Fits.bounds (hfits : Fits crypto cfg.genesis cfg.self hist)
    (hinj : Set.InjOn crypto.blake3 (heldBlocks hist))
    (hinit : init crypto cfg now = some (.ok s₀)) (hdec : blockDecode block maxPatternFindings = .ok b)
    (hheld : Held hist block) :
    ∃ hashes pairs, Bounds crypto cfg.genesis cfg.self hist hashes pairs (proposalOf crypto b block) := by
  obtain ⟨⟨blocks, hblocks, hin⟩, pairs, hpairs, hobtained⟩ := hfits
  refine ⟨blocks.image crypto.blake3, pairs, (init_ok hinit).2.2.2, rfl,
    Finset.card_image_le.trans hblocks, hpairs, ?_, hobtained⟩
  rintro p ⟨b', hdec', -, he⟩ hp
  have hhash : p.hash = crypto.blake3 p.bytes := by rw [he]; rfl
  refine ⟨hhash ▸ Finset.mem_image_of_mem _ (hin _ _ hp hdec'), fun htarget => ?_⟩
  have hbytes : p.bytes = block := hinj ⟨hp, b', hdec'⟩ ⟨hheld, b, hdec⟩ (hhash.symm.trans htarget)
  rw [hbytes] at hdec' he
  obtain rfl : b' = b := Except.ok.inj (hdec'.symm.trans hdec)
  exact he

/-- In a run whose calls meet the condition, a block signed by two thirds of its committee is
adopted, or the head is already above it. -/
theorem adoption_complete (hinit : init crypto cfg now = some (.ok s₀))
    (hrun : calls crypto s₀ es = some (s, hist))
    (hfits : Fits crypto cfg.genesis cfg.self hist) (hinj : Set.InjOn crypto.blake3 (heldBlocks hist))
    (hoffered : Offered crypto cfg.genesis es block b)
    (hmeets : ∀ es₁ e es₂ s₁ h₁ s₂ acts, es = es₁ ++ e :: es₂ → calls crypto s₀ es₁ = some (s₁, h₁) →
      call crypto s₁ e = some (s₂, acts) →
      Meets crypto cfg.genesis cfg.self (crypto.blake3 block) b.height s₁ e) :
    b.height ≤ s.head.height := by
  obtain ⟨hdec, hdegraded, hcutoff, c, signers, hc, hcard, hsigned, es₁, e, es₂, rfl, hin, id, hid,
    hfirst⟩ := hoffered
  have hhist := calls_history hrun
  obtain ⟨h₁, h₂, rfl, hes₁, hes₂⟩ := map_eq_append_iff.mp hhist
  obtain ⟨r, h₂', rfl, rfl, hes₂⟩ := map_eq_cons_iff.mp hes₂
  have hheld : Held (h₁ ++ r :: h₂') block := ⟨r, by simp, .inl hin⟩
  obtain ⟨hashes, pairs, hb⟩ := hfits.bounds hinj hinit hdec hheld
  obtain ⟨htables, hsettled, harrived⟩ := calls_arrived hb hinit hrun ⟨hdec, hdegraded, hcutoff, rfl⟩ hmeets
  have hsize := (init_ok hinit).2.2.2
  have hmember : ∀ id ∈ signers, id ∈ cfg.genesis.trustees := fun id hid =>
    (@committeeFor_trustees Unit crypto ⟨cfg.genesis, fun _ => cfg.self, fun _ => now, ∅⟩ _ _ _
      hsize hc).2 id (hsigned id hid).1
  by_contra hlow
  have hlow : s.head.height < (proposalOf crypto b block).height := UInt64.not_le.mp hlow
  obtain ⟨hatts, hprop⟩ := harrived hlow
  have hfile : proposalOf crypto b block ∈ (view s).proposals := by
    obtain ⟨e', he', sig, hin', hverify⟩ := hfirst
    obtain ⟨r', hr', rfl⟩ := mem_map.mp (hes₁ ▸ he')
    exact hprop h₁ r h₂' rfl hin ⟨r', hr', _, hin', rfl, rfl, hmember id hid, hverify⟩
  refine hsettled hlow hfile ⟨fun id =>
    decide (id ∈ signers), ⟨c, by rw [htables.sameGenesis]; exact hc, ?_⟩, fun id hid => ?_⟩
  · have hsub : signers ⊆ ((c.map (pubkeyAt s.genesis)).filter (· ∈ signers)).toFinset := by
      intro id hid
      rw [htables.sameGenesis]
      exact mem_toFinset.mpr (mem_filter.mpr ⟨(hsigned id hid).1, decide_eq_true hid⟩)
    have hle := (Finset.card_le_card hsub).trans (toFinset_card_le _)
    rw [← countP_eq_length_filter] at hle
    omega
  · obtain ⟨hid', e', he', sig, hin', hverify⟩ := hsigned id (of_decide_eq_true hid)
    rw [← hhist] at he'
    obtain ⟨r', hr', rfl⟩ := mem_map.mp he'
    obtain ⟨a, ha, hhash, hsigner⟩ :=
      hatts r' hr' _ hin' ⟨rfl, rfl, hmember id (of_decide_eq_true hid), hverify⟩
    obtain ⟨seq, hslot⟩ := ha
    exact ⟨a, ⟨seq, hslot⟩, hhash, hsigner, (htables.valid _ hslot).1⟩

end Run

def followerConfig : Config := ⟨⟨[trustee₁], 0, zero32, 5⟩, trustee₀, true, true⟩

def follower : Rt :=
  match init sampleCrypto followerConfig 0 with
  | some (.ok s) => s
  | _ => zeroRt

def followerEvent (input : Input) : Event Unit :=
  ⟨(), 40, input, { signFn := fun _ => .error .invalidArg, viewFn := fun _ => .ok ([], []) }⟩

/-- The trustee's signature over the second block comes twice, first with the height `height`, then
both blocks. -/
def offers (height : UInt64) : List (Event Unit) := [
  followerEvent (.attestation { attestationBy lead proposal₂ with height := height }),
  followerEvent (.attestation (attestationBy lead proposal₂)),
  followerEvent (.attestation (attestationBy lead proposal₁)),
  followerEvent (.proposal (blockBytes block₁)),
  followerEvent (.proposal (blockBytes block₂))]

theorem follower_init : init sampleCrypto followerConfig 0 = some (.ok follower) := by decide +kernel

theorem sample_blake3 : sampleCrypto.blake3 (blockBytes block₁) = blockHash₁ ∧
    sampleCrypto.blake3 (blockBytes block₂) = blockHash₂ ∧ blockHash₁ ≠ blockHash₂ := by decide +kernel

section Sample

variable {height : UInt64} {s : Rt} {hist : History Unit}

theorem offers_input {e : Event Unit} (he : e ∈ offers height) : e.cb.signFn = (fun _ => .error .invalidArg) ∧
    ((∃ a, e.input = .attestation a ∧ a.signer = trustee₁ ∧
      (a.blockHash = blockHash₁ ∨ a.blockHash = blockHash₂ ∧ (a.height = height ∨ a.height = 2))) ∨
    e.input = .proposal (blockBytes block₁) ∨ e.input = .proposal (blockBytes block₂)) := by
  simp only [offers, mem_cons, not_mem_nil, or_false] at he
  rcases he with rfl | rfl | rfl | rfl | rfl
  · exact ⟨rfl, .inl ⟨_, rfl, rfl, .inr ⟨rfl, .inl rfl⟩⟩⟩
  · exact ⟨rfl, .inl ⟨_, rfl, rfl, .inr ⟨rfl, .inr rfl⟩⟩⟩
  · exact ⟨rfl, .inl ⟨_, rfl, rfl, .inl rfl⟩⟩
  · exact ⟨rfl, .inr (.inl rfl)⟩
  · exact ⟨rfl, .inr (.inr rfl)⟩

theorem offers_held {bytes : Bytes} (hrun : calls sampleCrypto follower (offers height) = some (s, hist))
    (h : Held hist bytes) : bytes = blockBytes block₁ ∨ bytes = blockBytes block₂ := by
  obtain ⟨r, hr, h⟩ := h
  obtain ⟨-, hin⟩ := offers_input (calls_history hrun ▸ mem_map_of_mem hr)
  rcases hin with ⟨a, hin, -⟩ | hin | hin
  · simp [hin] at h
  · exact .inl (by simpa [hin, eq_comm] using h)
  · exact .inr (by simpa [hin, eq_comm] using h)

theorem offers_fit (hrun : calls sampleCrypto follower (offers height) = some (s, hist)) :
    Fits sampleCrypto followerConfig.genesis followerConfig.self hist := by
  refine ⟨⟨{blockBytes block₁, blockBytes block₂}, Finset.card_le_two.trans (by decide), fun bytes b h _ => ?_⟩,
    {(blockHash₁, trustee₁), (blockHash₂, trustee₁)}, Finset.card_le_two.trans (by decide), ?_⟩
  · simpa using offers_held hrun h
  · rintro signer hash sig ⟨r, hr, h⟩ - -
    obtain ⟨hsign, hin⟩ := offers_input (calls_history hrun ▸ mem_map_of_mem hr)
    rcases h with ⟨n, h⟩ | ⟨-, h, -⟩
    · rcases hin with ⟨a, hin, hsigner, hhash⟩ | hin | hin
      · rw [hin, Input.attestation.injEq] at h
        subst h
        rcases hhash with hhash | ⟨hhash, -⟩
        · simp_all
        · simp_all
      · simp [hin] at h
      · simp [hin] at h
    · simp [hsign] at h

theorem offers_injOn (hrun : calls sampleCrypto follower (offers height) = some (s, hist)) :
    Set.InjOn sampleCrypto.blake3 (heldBlocks hist) := by
  obtain ⟨h₁, h₂, hne⟩ := sample_blake3
  refine (Set.injOn_pair.mpr fun heq => ?_).mono fun bytes h => offers_held hrun h.1
  exact absurd (h₁.symm.trans (heq.trans h₂)) hne

theorem offers_offered (height : UInt64) :
    Offered sampleCrypto followerConfig.genesis (offers height) (blockBytes block₂) block₂ := by
  have hdec : blockDecode (blockBytes block₂) maxPatternFindings = .ok block₂ :=
    blockDecode_encode (by simp [BlockValues.Encodable, block₂]) (by simp [block₂])
  have hc : committeeFor sampleCrypto followerConfig.genesis block₂.prevBlockHash block₂.height =
      some (.ok [0]) := by
    decide +kernel
  have hverify : sampleCrypto.ed25519Verify trustee₁ blockHash₂.val
      (attestationBy lead proposal₂).sig.val = true := by
    decide +kernel
  have hbrings {es : List (Event Unit)}
    (hes : followerEvent (.attestation (attestationBy lead proposal₂)) ∈ es) :
      ∃ e ∈ es, ∃ sig, e.input =
        .attestation ⟨block₂.height, sampleCrypto.blake3 (blockBytes block₂), trustee₁, sig⟩ ∧
        sampleCrypto.ed25519Verify trustee₁ (sampleCrypto.blake3 (blockBytes block₂)).val sig.val = true := by
    rw [sample_blake3.2.1]
    exact ⟨_, hes, _, rfl, hverify⟩
  refine ⟨hdec, rfl, by decide, [0], {trustee₁}, hc, by simp, ?_, (offers height).take 4, _, [],
    rfl, rfl, trustee₁, by simp,
    hbrings (by simp [offers])⟩
  intro id hid
  obtain rfl := Finset.mem_singleton.mp hid
  exact ⟨by simp [pubkeyAt, followerConfig], hbrings (by simp [offers])⟩

end Sample

/-- With the height 1 the copy is filed in place of the true one and goes when the first block is
adopted. -/
theorem relabelled_not_adopted : ∃ s hist, init sampleCrypto followerConfig 0 = some (.ok follower) ∧
    calls sampleCrypto follower (offers 1) = some (s, hist) ∧
      Fits sampleCrypto followerConfig.genesis followerConfig.self hist ∧
      Set.InjOn sampleCrypto.blake3 (heldBlocks hist) ∧
      Offered sampleCrypto followerConfig.genesis (offers 1) (blockBytes block₂) block₂ ∧
      ¬block₂.height ≤ s.head.height := by
  have hhead : (calls sampleCrypto follower (offers 1)).map (fun r => r.1.head.height) = some 1 := by
    unfold calls callNext call tick tickPropose onProposal considerSigning compose
    simp only [blockHash_eq, blockEncode_eq]
    decide +kernel
  obtain ⟨⟨s, hist⟩, hrun, hheight⟩ := Option.map_eq_some_iff.mp hhead
  refine ⟨s, hist, follower_init, hrun, offers_fit hrun, offers_injOn hrun, offers_offered 1, ?_⟩
  rw [hheight]
  decide

theorem adoption_complete_sample : ∃ s hist, calls sampleCrypto follower (offers 7) = some (s, hist) ∧
    block₂.height ≤ s.head.height := by
  have hsome : (calls sampleCrypto follower (offers 7)).isSome = true := by
    unfold calls callNext call tick tickPropose onProposal considerSigning compose
    simp only [blockHash_eq, blockEncode_eq]
    decide +kernel
  obtain ⟨⟨s, hist⟩, hrun⟩ := Option.isSome_iff_exists.mp hsome
  refine ⟨s, hist, hrun, adoption_complete follower_init hrun (offers_fit hrun) (offers_injOn hrun)
    (offers_offered 7) ?_⟩
  intro es₁ e es₂ s₁ h₁ s₂ acts hes _ _
  obtain ⟨hsign, hin⟩ := offers_input (show e ∈ offers 7 by simp [hes])
  refine ⟨fun a ha hhash _ _ => ?_, fun _ _ _ htick => ?_, fun _ sig h => by simp [hsign] at h⟩
  · rw [sample_blake3.2.1] at hhash
    rcases hin with ⟨a', hin, -, hin'⟩ | hin | hin
    · obtain rfl : a' = a := by simpa [hin] using ha
      rcases hin' with hne | ⟨-, hheight | hheight⟩
      · exact absurd (hne.symm.trans hhash) sample_blake3.2.2
      · rw [hheight]
        decide
      · rw [hheight]
        decide
    · simp [hin] at ha
    · simp [hin] at ha
  · rcases hin with ⟨a', hin, -⟩ | hin | hin <;> simp [hin] at htick

end AntsClient.Chain.Completeness
