import AntsClient.Chain.Protocol
import AntsClient.Lib.Slots

namespace AntsClient.Chain.Simulation

open Common Crypto Blocks Committee Chain.Runtime Protocol Lib.Slots List

variable {l l' : Local} {acts : List Act} {s s' : Rt} {α : Type} {i : Nat} {now : UInt64}
  {p : Proposal} {cb : Callbacks}
variable {b : Block}

inductive Input
  | tick
  | proposal (block : Bytes)
  | attestation (a : Attestation)
  deriving DecidableEq

structure Event (ι : Type) where
  node : ι
  now : UInt64
  input : Input
  cb : Callbacks

structure World (ι : Type) where
  nodes : ι → Rt
  log : Log ι

section

variable {ι : Type} (crypto : Primitives) (setup : Setup ι)

def call (s : Rt) (e : Event ι) : Option (Rt × List Act) :=
  match e.input with
  | .tick => tick crypto e.cb s e.now
  | .proposal block => (onProposal crypto e.cb s block e.now).map Prod.snd
  | .attestation a => (onAttestation crypto s a e.now).map Prod.snd

def Delivers (log : Log ι) : Input → Prop
  | .attestation a => Genuine crypto setup log a
  | _ => True

instance (log : Log ι) (a : Attestation) : Decidable (Genuine crypto setup log a) :=
  inferInstanceAs (Decidable (_ ∨ _ ∨ ∃ e ∈ log, _))

instance (log : Log ι) (input : Input) : Decidable (Delivers crypto setup log input) :=
  match input with
  | .tick => isTrue trivial
  | .proposal _ => isTrue trivial
  | .attestation _ => inferInstanceAs (Decidable (Genuine ..))

def Starts (w : World ι) : Prop :=
  w.log = [] ∧ ∀ i, ∃ signFn viewFn,
    init crypto ⟨setup.genesis, setup.self i, signFn, viewFn⟩ (setup.startTime i) = some (.ok (w.nodes i))

variable [DecidableEq ι]

/-- There is no next state where the signature is forged or the call never returns. -/
def step (w : World ι) (e : Event ι) : Option (World ι) :=
  if Delivers crypto setup w.log e.input then
    (call crypto (w.nodes e.node) e).map fun r =>
      ⟨Function.update w.nodes e.node r.1, record w.log e.node r.2⟩
  else none

def run (w : World ι) (es : List (Event ι)) : Option (World ι) := es.foldlM (step crypto setup) w

end

section

variable {ι : Type} (crypto : Primitives) (e : Event ι) (s : Rt)

def Turn (now : UInt64) : Prop :=
  s.member ∧ s.myPos = s.proposerPos ∧ s.cur = none ∧ s.lastSignedHeight < s.h ∧
    now ≥ s.attemptStart + drandFloorS ∧
    now ≥ s.head.cutoffTime + blockTimeS

instance (now : UInt64) : Decidable (Turn s now) := inferInstanceAs (Decidable (_ ∧ _))

inductive Skips : List Act → Rt → Prop
  | stay : (e.input = .tick → e.now < s.attemptStart + finalityTimeoutS) → Skips [] s
  | skip {s' : Rt} : e.input = .tick → e.now ≥ s.attemptStart + finalityTimeoutS →
      startAttempt crypto s (s.h + 1) e.now = some s' → Skips [.skip s.h s.lastSignedHeight] s'

/-- A call that files nothing. On a node's turn the slot is taken before the block is
composed, and stays empty if that fails. -/
inductive Rests : List Act → Rt → Prop
  | stay : Rests [] s
  | hash (b : Block) : Rests [.hash b] s
  | rebroadcast : Rests (tickRebroadcast s e.now).2 (tickRebroadcast s e.now).1
  | evict {i : Nat} {s' : Rt} {err : Error} : e.input = .tick → Turn s e.now → propAlloc s = some (i, s') →
      compose crypto s'.genesis e.cb s'.h s'.head.hash e.now = .error err → Rests [] s'

inductive Files : List Act → Rt → Prop
  | propose {i : Nat} {s' : Rt} {b : Block} {p : Proposal} :
    e.input = .tick → Turn s e.now → propAlloc s = some (i, s') →
      compose crypto s'.genesis e.cb s'.h s'.head.hash e.now = .ok (b, p) →
      Files ([.hash b] ++ (signAndEmit e.cb { s' with props := s'.props.set i (some p) } i p true e.now).2)
        (signAndEmit e.cb { s' with props := s'.props.set i (some p) } i p true e.now).1
  | proposal {block : Bytes} {b : Block} {hash : Bytes32} {i : Nat} {p : Proposal} {s' : Rt} :
    e.input = .proposal block →
      blockDecode block maxPatternFindings = .ok b → b.degradedSeed = true → s.head.height < b.height →
      blockHash crypto b = .ok hash → fileProposal s b hash block = some (i, p, s') →
      Files ([.hash b] ++ (considerSigning crypto e.cb s' b i p e.now).2)
        (considerSigning crypto e.cb s' b i p e.now).1
  | attestation {a : Attestation} : e.input = .attestation a → (trusteeIndex s.genesis a.signer).isSome = true →
      crypto.ed25519Verify a.signer a.blockHash.val a.sig.val = true →
        attFind s.atts a.blockHash a.signer = none →
      s.head.height < a.height → Files [] (attFile s a)

def Ends (acts : List Act) (s' : Rt) : Prop :=
  Rests crypto e s acts s' ∨ ∃ s₂ filed fin, Files crypto e s filed s₂ ∧
    tryFinalize crypto s₂ e.now = some (s', fin) ∧
    acts = filed ++ fin

end

def begun (s : Rt) (height now : UInt64) (member : Bool) (myPos proposerPos : Nat) : Rt :=
  { s with
    h := height, attemptStart := now, cur := none, lastEmit := 0, member := member,
    myPos := myPos, proposerPos := proposerPos }

def view (s : Rt) : Local where
  head := s.head
  attempt := s.h
  lastSigned := s.lastSignedHeight
  proposals := { p | some p ∈ s.props }
  attestations := { a | ∃ seq, some (seq, a) ∈ s.atts }

section

variable (crypto : Primitives) (genesis : Genesis) (self : Bytes32) (genuine : Attestation → Prop)

inductive Moves (l : Local) : List Act → Local → Prop
  | refl : Moves l [] l
  | tail {acts acts' : List Act} {l' l'' : Local} :
    Moves l acts l' → Move crypto genesis self genuine l' acts' l'' →
      Moves l (acts ++ acts') l''

/-- The runtime went from `s` to `s'` by moves of the protocol. -/
structure Follows (s : Rt) (acts : List Act) (s' : Rt) : Prop where
  genesis : s'.genesis = s.genesis
  self : s'.self = s.self
  moves : Moves crypto s.genesis s.self genuine (view s) acts (view s')

end

variable {crypto : Primitives} {genesis : Genesis} {self : Bytes32} {genuine : Attestation → Prop}

theorem Moves.single (h : Move crypto genesis self genuine l acts l') :
    Moves crypto genesis self genuine l acts l' := .tail .refl h

variable {l'' : Local} {acts' : List Act} {slots : List (Option Proposal)} {hash prev : Bytes32}
  {a : Attestation} {height cutoff : UInt64}
  {block : Bytes} {code : Except Error Unit} {cfg : Config}

theorem Moves.trans (h : Moves crypto genesis self genuine l acts l')
    (h' : Moves crypto genesis self genuine l' acts' l'') :
    Moves crypto genesis self genuine l (acts ++ acts') l'' := by
  induction h' with
  | refl => rwa [append_nil]
  | tail _ hm ih =>
    rw [← append_assoc]
    exact ih.tail hm

theorem Moves.forget (h : Moves crypto genesis self genuine l acts l')
    (hhead : l''.head = l'.head) (hattempt : l''.attempt = l'.attempt) (hlast : l''.lastSigned = l'.lastSigned)
    (hps : l''.proposals ⊆ l'.proposals) (has : l''.attestations ⊆ l'.attestations) :
    Moves crypto genesis self genuine l acts l'' := by
  have hm : Move crypto genesis self genuine l' [] l'' := by
    obtain ⟨head, attempt, last, ps, as⟩ := l''
    obtain rfl : head = l'.head := hhead
    obtain rfl : attempt = l'.attempt := hattempt
    obtain rfl : last = l'.lastSigned := hlast
    exact .forget hps has
  rw [← append_nil acts]
  exact h.tail hm

theorem Follows.refl (s : Rt) : Follows crypto genuine s [] s := ⟨rfl, rfl, .refl⟩

theorem Follows.trans {s'' : Rt} (h : Follows crypto genuine s acts s')
    (h' : Follows crypto genuine s' acts' s'') : Follows crypto genuine s (acts ++ acts') s'' :=
  ⟨h'.genesis.trans h.genesis, h'.self.trans h.self, h.moves.trans (h.genesis ▸ h.self ▸ h'.moves)⟩

section Tables

theorem mem_of_mem_set_none {l : List (Option α)} {x : α} (h : some x ∈ l.set i none) : some x ∈ l :=
  (mem_or_eq_of_mem_set h).resolve_right (by simp)

theorem mem_of_mem_set_some {l : List (Option α)} {x y : α} (h : some x ∈ l.set i (some y)) :
    some x ∈ l ∨ x = y := (mem_or_eq_of_mem_set h).imp_right Option.some.inj

theorem propVictim_lt {cur : Option Nat} {j : Nat} {victim : Option (Nat × UInt64)}
    (hv : ∀ v ∈ victim, v.1 < i) (h : propVictim cur slots i victim = some j) : j < i + slots.length := by
  induction slots generalizing i victim with
  | nil =>
    obtain ⟨v, hm, rfl⟩ := Option.map_eq_some_iff.mp h
    exact hv v hm
  | cons slot slots ih =>
    have hold : ∀ v ∈ victim, v.1 < i + 1 := fun v hm => Nat.lt_succ_of_lt (hv v hm)
    rw [length_cons, Nat.add_comm slots.length, ← Nat.add_assoc]
    cases slot with
    | none =>
      obtain rfl : i = j := Option.some.inj h
      omega
    | some p =>
      rw [propVictim] at h
      split at h
      · exact ih hold h
      split at h
      · exact ih hold h
      · exact ih (by simp) h

theorem propAlloc_some (h : propAlloc s = some (i, s')) :
    s' = { s with props := s.props.set i none } ∧ i < s.props.length := by
  obtain ⟨j, hv, hj⟩ := Option.map_eq_some_iff.mp h
  cases hj
  have hlt := propVictim_lt (by simp) hv
  exact ⟨rfl, by rwa [Nat.zero_add] at hlt⟩

theorem attFind_some {atts : List (Option (UInt64 × Attestation))} {signer : Bytes32}
    (h : attFind atts hash signer = some a) :
    (∃ seq, some (seq, a) ∈ atts) ∧ a.blockHash = hash ∧ a.signer = signer := by
  obtain ⟨slot, hm, hs⟩ := exists_of_findSome?_eq_some h
  rw [Option.filter_eq_some_iff, Option.map_eq_some_iff] at hs
  obtain ⟨⟨⟨seq, a'⟩, rfl, rfl⟩, hmatch⟩ := hs
  simp only [attMatches, Bool.and_eq_true, decide_eq_true_eq] at hmatch
  exact ⟨⟨seq, hm⟩, hmatch⟩

theorem attFile_eq (s : Rt) (a : Attestation) :
    ∃ atts seq, attFile s a = { s with atts := atts, nextAttSeq := seq } ∧
      ∀ x, some x ∈ atts → some x ∈ s.atts ∨ x.2 = a := by
  rw [attFile]
  split
  · exact ⟨s.atts, s.nextAttSeq, rfl, fun x hx => .inl hx⟩
  split
  · exact ⟨s.atts, s.nextAttSeq, rfl, fun x hx => .inl hx⟩
  · refine ⟨_, _, rfl, fun x hx => ?_⟩
    exact (mem_of_mem_set_some hx).imp_right (congrArg Prod.snd)

end Tables

theorem startAttempt_cases (h : startAttempt crypto s height now = some s') : ∃ member myPos proposerPos,
    (member = true → ∃ committee i, committeeFor crypto s.genesis s.head.hash height = some (.ok committee) ∧
      trusteeIndex s.genesis s.self = some i ∧ i ∈ committee) ∧
    (s' = begun s height now member myPos proposerPos ∧
      (∃ err, committeeFor crypto s.genesis s.head.hash height = some (.error err)) ∨
      s' = purgeBelowHead (begun s height now member myPos proposerPos)) := by
  rw [startAttempt] at h
  simp only at h
  split at h
  · cases h
  · rename_i err hc
    cases h
    exact ⟨false, _, _, by simp, .inl ⟨rfl, err, hc⟩⟩
  · rename_i committee hc
    cases h
    refine ⟨_, _, _, fun hm => ?_, .inr rfl⟩
    obtain ⟨pos, hpos⟩ := Option.isSome_iff_exists.mp hm
    obtain ⟨i, hi, hpos⟩ := Option.bind_eq_some_iff.mp hpos
    split at hi
    · obtain ⟨hlt, hat, -⟩ := findIdx?_eq_some_iff_getElem.mp hpos
      rw [decide_eq_true_eq] at hat
      exact ⟨committee, i, hc, hi, hat ▸ getElem_mem hlt⟩
    · cases hi

theorem startAttempt_some (h : startAttempt crypto s height now = some s') :
    (s'.genesis = s.genesis ∧ s'.self = s.self) ∧
      (s'.head = s.head ∧ s'.h = height ∧ s'.lastSignedHeight = s.lastSignedHeight) ∧
      (view s').proposals ⊆ (view s).proposals ∧ (view s').attestations ⊆ (view s).attestations := by
  obtain ⟨member, myPos, proposerPos, -, ⟨rfl, -⟩ | rfl⟩ := startAttempt_cases h
  · exact ⟨⟨rfl, rfl⟩, ⟨rfl, rfl, rfl⟩, fun _ h => h, fun _ h => h⟩
  · refine ⟨⟨rfl, rfl⟩, ⟨rfl, rfl, rfl⟩, fun p hp => (mem_filter.mp hp).1, ?_⟩
    rintro a ⟨seq, ha⟩
    exact ⟨seq, (mem_filter.mp ha).1⟩

theorem countValid_found (hash : Bytes32) (pubkeys : List Bytes32) (found : Bytes32 → Option Attestation) :
    countValid crypto hash (pubkeys.zip ((pubkeys.map found).map Option.isSome))
        ((pubkeys.map found).flatMap fun a => (a.map fun a => a.sig.val).getD []) =
      pubkeys.countP fun id => (found id).any fun a => crypto.ed25519Verify id hash.val a.sig.val := by
  induction pubkeys with
  | nil => rfl
  | cons id pubkeys ih =>
    cases hf : found id with
    | none => simpa [countValid, hf] using ih
    | some a =>
      have hl : signatureSize = a.sig.val.length := a.sig.length_val.symm
      simp only [map_cons, hf, Option.isSome_some, zip_cons_cons, flatMap_cons, Option.map_some,
        Option.getD_some, countValid, countP_cons, Option.any_some]
      rw [hl, take_left, drop_left, ih, Nat.add_comm]

theorem isFinal_final (h : isFinal crypto s p = some true) :
    Final crypto s.genesis (view s).attestations p := by
  rw [isFinal] at h
  split at h
  · cases h
  split at h
  · cases h
  · cases h
  rename_i c hc
  simp only [Option.some.injEq, finalityVerify] at h
  split at h
  · cases h
  split at h
  · cases h
  simp only [Except.ok.injEq, decide_eq_true_eq, countValid_found] at h
  refine ⟨fun id => (attFind s.atts p.hash id).any fun a =>
    crypto.ed25519Verify id p.hash.val a.sig.val, ⟨c, hc, ?_⟩, ?_⟩
  · simp only [length_zip, length_map, Nat.min_self, finalityThreshold, finalityNum, finalityDen] at h
    omega
  · intro id hid
    cases hf : attFind s.atts p.hash id with
    | none => simp [hf] at hid
    | some a =>
      obtain ⟨ha, hhash, rfl⟩ := attFind_some hf
      simp only [hf, Option.any_some] at hid
      exact ⟨a, ha, hhash, rfl, hhash ▸ hid⟩

theorem bestFinal_some {best : Option Proposal} (h : bestFinal crypto s slots best = some (some p)) :
    best = some p ∨ some p ∈ slots ∧ s.head.height < p.height ∧ isFinal crypto s p = some true := by
  induction slots generalizing best with
  | nil => exact .inl (Option.some.inj h)
  | cons slot slots ih =>
    have hlater {best' : Option Proposal} (h : bestFinal crypto s slots best' = some (some p)) :
        best' = some p ∨ some p ∈ slot :: slots ∧ s.head.height < p.height ∧ isFinal crypto s p = some true :=
      (ih h).imp_right fun hp => ⟨mem_cons_of_mem _ hp.1, hp.2⟩
    cases slot with
    | none => exact hlater h
    | some q =>
      rw [bestFinal] at h
      split at h
      · exact hlater h
      rename_i hq
      split at h
      · exact hlater h
      split at h
      · cases h
      rename_i final hf
      cases final with
      | false => exact hlater h
      | true =>
        rcases hlater h with hp | hp
        · obtain rfl : q = p := by simpa using hp
          exact .inr ⟨mem_cons_self, UInt64.not_le.mp hq, hf⟩
        · exact .inr hp

theorem tryFinalize_cases {fin : List Act} (h : tryFinalize crypto s now = some (s', fin)) :
    (s' = s ∧ fin = [] ∧ bestFinal crypto s s.props none = some none) ∨
      ∃ p, bestFinal crypto s s.props none = some (some p) ∧ fin = [.final p] ∧
        startAttempt crypto { s with head := headOf p } (p.height + 1) now = some s' := by
  rw [tryFinalize] at h
  split at h
  · cases h
  · rename_i hbest
    cases h
    exact .inl ⟨rfl, rfl, hbest⟩
  · rename_i p hbest
    obtain ⟨s'', hs, he⟩ := Option.map_eq_some_iff.mp h
    cases he
    exact .inr ⟨p, hbest, rfl, hs⟩

theorem tryFinalize_follows (h : tryFinalize crypto s now = some (s', acts)) :
    Follows crypto genuine s acts s' := by
  rcases tryFinalize_cases h with ⟨rfl, rfl, -⟩ | ⟨best, hbest, rfl, hs⟩
  · exact .refl _
  · obtain hb | ⟨hmem, hlt, hfinal⟩ := bestFinal_some hbest
    · cases hb
    obtain ⟨⟨hg, hself⟩, ⟨hhead, hh, hlast⟩, hps, has⟩ := startAttempt_some hs
    exact ⟨hg, hself, (Moves.single (.adopt hmem hlt (isFinal_final hfinal))).forget hhead hh hlast hps has⟩

theorem compose_eq (h : compose crypto genesis cb height prev cutoff = .ok (b, p)) :
    b.height = height ∧ b.prevBlockHash = prev ∧ b.summary.cutoffTime = cutoff ∧ b.degradedSeed = true ∧
      ∃ hash bytes, blockHash crypto b = .ok hash ∧ blockEncode b (replicate blockEncodedMax 0) = .ok bytes ∧
        p = ⟨true, height, cutoff, b.summary.epoch, prev, hash, bytes⟩ := by
  obtain ⟨⟨ids, events⟩, -, h⟩ := except_bind_eq_ok.mp h
  obtain ⟨b', hb, h⟩ := except_bind_eq_ok.mp h
  obtain ⟨bytes, hbytes, h⟩ := except_bind_eq_ok.mp h
  obtain ⟨hash, hh, h⟩ := except_bind_eq_ok.mp h
  cases h
  obtain ⟨root, -, hb⟩ := except_bind_eq_ok.mp hb
  obtain ⟨findings, -, hb⟩ := except_bind_eq_ok.mp hb
  simp only [except_guard_iff] at hb
  obtain rfl := Except.ok.inj hb.2
  exact ⟨rfl, rfl, rfl, rfl, hash, bytes, hh, hbytes, rfl⟩

theorem compose_ok (h : compose crypto genesis cb height prev cutoff = .ok (b, p)) :
    Denotes crypto b p ∧ b.height = height ∧ b.prevBlockHash = prev := by
  obtain ⟨rfl, rfl, -, -, hash, bytes, hh, -, rfl⟩ := compose_eq h
  exact ⟨⟨hh, rfl, rfl⟩, rfl, rfl⟩

/-- The state `s` that signs differs from `l` in what it has forgotten, and may already hold the
proposal. -/
theorem signAndEmit_moves {emit : Bool} (hhead : s.head = l.head) (hh : s.h = l.attempt)
    (hlast : s.lastSignedHeight = l.lastSigned)
    (hps : (view s).proposals ⊆ insert p l.proposals) (has : (view s).attestations ⊆ l.attestations)
    (hp : p ∈ l.proposals ∨ Denotes crypto b p) (hb : blockHash crypto b = .ok p.hash) (hbh : b.height = s.h)
    (hprev : b.prevBlockHash = s.head.hash) (hlt : s.lastSignedHeight < s.h) :
    Moves crypto genesis s.self genuine l ([.hash b] ++ (signAndEmit cb s i p emit now).2)
      (view (signAndEmit cb s i p emit now).1) := by
  rw [signAndEmit]
  split
  · rcases hp with hp | hp
    · rw [Set.insert_eq_of_mem hp] at hps
      exact (Moves.single (.hash b)).forget hhead hh hlast hps has
    · exact (Moves.single (.learn hp)).forget hhead hh hlast hps has
  · rename_i sig hsig
    obtain ⟨atts, seq, he, hatts⟩ :=
      attFile_eq { s with lastSignedHeight := p.height, cur := some i } ⟨p.height, p.hash, s.self, sig⟩
    simp only [he]
    rw [hh] at hbh
    rw [hhead] at hprev
    rw [hlast, hh] at hlt
    have hsigned : Moves crypto genesis s.self genuine l _ _ :=
      (Moves.single (.sign sig hp hb hbh hprev hlt)).tail (.attest ⟨p.height, p.hash, s.self, sig⟩)
    have hsub : { a | ∃ seq, some (seq, a) ∈ atts } ⊆
        insert (⟨p.height, p.hash, s.self, sig⟩ : Attestation) l.attestations := by
      rintro a ⟨seq, ha⟩
      rcases hatts _ ha with ha | ha
      · exact .inr (has ⟨seq, ha⟩)
      · exact .inl ha
    cases emit with
    | false => exact hsigned.forget hhead hh rfl hps hsub
    | true => exact (hsigned.tail (.propose p.bytes)).forget hhead hh rfl hps hsub

theorem signAndEmit_const (cb : Callbacks) (s : Rt) (i : Nat) (p : Proposal) (emit : Bool) (now : UInt64) :
    (signAndEmit cb s i p emit now).1.genesis = s.genesis ∧
    (signAndEmit cb s i p emit now).1.self = s.self := by
  rw [signAndEmit]
  split
  · exact ⟨rfl, rfl⟩
  · rename_i sig hsig
    obtain ⟨atts, seq, he, -⟩ :=
      attFile_eq { s with lastSignedHeight := p.height, cur := some i } ⟨p.height, p.hash, s.self, sig⟩
    simp only [he, and_self]

theorem propose_follows (hlt : s.lastSignedHeight < s.h)
    (hc : compose crypto s.genesis cb s.h s.head.hash now = .ok (b, p)) :
    Follows crypto genuine s
      ([.hash b] ++ (signAndEmit cb { s with props := (s.props.set i none).set i (some p) } i p true now).2)
      (signAndEmit cb { s with props := (s.props.set i none).set i (some p) } i p true now).1 := by
  obtain ⟨hd, hbh, hprev⟩ := compose_ok hc
  refine ⟨(signAndEmit_const ..).1, (signAndEmit_const ..).2, ?_⟩
  refine signAndEmit_moves (s := { s with props := (s.props.set i none).set i (some p) })
    (l := view s) rfl rfl rfl ?_
    (fun _ h => h) (.inr hd) hd.1 hbh hprev hlt
  intro q hq
  exact (mem_of_mem_set_some hq).symm.imp_right mem_of_mem_set_none

theorem tickRebroadcast_follows (s : Rt) (now : UInt64) :
    Follows crypto genuine s (tickRebroadcast s now).2 (tickRebroadcast s now).1 := by
  rw [tickRebroadcast]
  split
  · exact .refl s
  split
  · refine ⟨rfl, rfl, ?_⟩
    dsimp only
    cases attFind s.atts _ s.self with
    | none => exact .single (.propose _)
    | some a => exact (Moves.single (.attest a)).tail (.propose _)
  · exact .refl s

theorem fileProposal_cases (h : fileProposal s b hash block = some (i, p, s')) :
    s'.props[i]? = some (some p) ∧ ((s' = s ∧ p.hash = hash) ∨ propFind s hash = none ∧
      p = ⟨true, b.height, b.summary.cutoffTime, b.summary.epoch, b.prevBlockHash, hash, block⟩ ∧
      ∃ s₁, propAlloc s = some (i, s₁) ∧ s' = { s₁ with props := s₁.props.set i (some p) }) := by
  rw [fileProposal] at h
  split at h
  · rename_i j hj
    obtain ⟨q, hq, he⟩ := Option.map_eq_some_iff.mp h
    cases he
    obtain ⟨hlt, hmatch, -⟩ := findIdx?_eq_some_iff_getElem.mp hj
    rw [getD_eq_getElem?_getD, getElem?_eq_getElem hlt, Option.getD_some] at hq
    rw [hq] at hmatch
    exact ⟨by rw [getElem?_eq_getElem hlt, hq], .inl ⟨rfl, by simpa using hmatch⟩⟩
  · rename_i hnew
    obtain ⟨⟨j, s₁⟩, ha, he⟩ := Option.map_eq_some_iff.mp h
    cases he
    refine ⟨?_, .inr ⟨hnew, rfl, s₁, ha, rfl⟩⟩
    obtain ⟨rfl, hlt⟩ := propAlloc_some ha
    simp [hlt]

theorem fileProposal_some (hb : blockHash crypto b = .ok hash)
    (h : fileProposal s b hash block = some (i, p, s')) :
    Follows crypto genuine s [.hash b] s' ∧ p ∈ (view s').proposals := by
  obtain ⟨hat, ⟨rfl, -⟩ | ⟨-, rfl, s₁, ha, rfl⟩⟩ := fileProposal_cases h
  · exact ⟨⟨rfl, rfl, .single (.hash b)⟩, mem_of_getElem? hat⟩
  · obtain ⟨rfl, hlt⟩ := propAlloc_some ha
    have hd : Denotes crypto b
        ⟨true, b.height, b.summary.cutoffTime, b.summary.epoch, b.prevBlockHash, hash, block⟩ :=
      ⟨hb, rfl, rfl⟩
    refine ⟨⟨rfl, rfl, (Moves.single (.learn hd)).forget rfl rfl rfl ?_ fun _ h => h⟩, mem_of_getElem? hat⟩
    intro q hq
    exact (mem_of_mem_set_some hq).symm.imp_right mem_of_mem_set_none

/-- A proposal is signed if it is this attempt's and the node composes the same block. -/
theorem considerSigning_cases (crypto : Primitives) (cb : Callbacks) (s : Rt) (b : Block) (i : Nat)
    (p : Proposal) (now : UInt64) :
    (∃ acts, considerSigning crypto cb s b i p now = (s, acts) ∧ (acts = [] ∨ ∃ mine, acts = [.hash mine])) ∨
    (s.member ∧ b.height = s.h ∧ s.lastSignedHeight < s.h ∧ b.prevBlockHash = s.head.hash ∧
      p.cutoff ≥ s.head.cutoffTime + blockTimeS ∧ p.cutoff ≤ now + clockSkewS) ∧
    ∃ mine q, compose crypto s.genesis cb s.h s.head.hash p.cutoff = .ok (mine, q) ∧ q.hash = p.hash ∧
      considerSigning crypto cb s b i p now =
        ((signAndEmit cb s i p false now).1,
        [.hash mine] ++ (signAndEmit cb s i p false now).2) := by
  rw [considerSigning]
  split
  · rename_i hcond
    split
    · exact .inl ⟨_, rfl, .inl rfl⟩
    rename_i mine q hc
    split
    · rename_i hhash
      exact .inr ⟨hcond, mine, q, hc, hhash, rfl⟩
    · exact .inl ⟨_, rfl, .inr ⟨mine, rfl⟩⟩
  · exact .inl ⟨_, rfl, .inl rfl⟩

theorem considerSigning_follows (hp : p ∈ (view s).proposals) :
    Follows crypto genuine s (considerSigning crypto cb s b i p now).2
      (considerSigning crypto cb s b i p now).1 := by
  rcases considerSigning_cases crypto cb s b i p now with ⟨acts, heq, hacts⟩ | ⟨hcond, mine, q, hc, hhash, heq⟩
  · rw [heq]
    rcases hacts with rfl | ⟨mine, rfl⟩
    · exact .refl s
    · exact ⟨rfl, rfl, .single (.hash mine)⟩
  · obtain ⟨hd, hbh, hprev⟩ := compose_ok hc
    rw [heq]
    refine ⟨(signAndEmit_const ..).1, (signAndEmit_const ..).2, ?_⟩
    exact signAndEmit_moves rfl rfl rfl (Set.subset_insert _ _) (fun _ h => h) (.inl hp)
      (hhash ▸ hd.1) hbh hprev hcond.2.2.1

section Calls

variable {ι : Type} {e : Event ι}

theorem tick_cases (hin : e.input = .tick) (h : tick crypto e.cb s e.now = some (s', acts)) :
    ∃ s₁ skipped rest, Skips crypto e s skipped s₁ ∧ acts = skipped ++ rest ∧ Ends crypto e s₁ rest s' := by
  have hrest {s₁ : Rt} {skipped : List Act} (hs : Skips crypto e s skipped s₁)
      (h : (if Turn s₁ e.now then (tickPropose crypto e.cb s₁ e.now).map fun r => (r.1, skipped ++ r.2)
        else some ((tickRebroadcast s₁ e.now).1, skipped ++ (tickRebroadcast s₁ e.now).2)) = some (s', acts)) :
      ∃ s₁ skipped rest, Skips crypto e s skipped s₁ ∧ acts = skipped ++ rest ∧ Ends crypto e s₁ rest s' := by
    split at h
    · rename_i hturn
      obtain ⟨⟨s₂, rest⟩, hp, he⟩ := Option.map_eq_some_iff.mp h
      cases he
      refine ⟨s₁, skipped, rest, hs, rfl, ?_⟩
      rw [tickPropose] at hp
      split at hp
      · cases hp
        exact .inl .stay
      rename_i i s₂ ha
      split at hp
      · rename_i err hc
        cases hp
        exact .inl (.evict hin hturn ha hc)
      · rename_i b p hc
        obtain ⟨⟨s₃, fin⟩, hf, he⟩ := Option.map_eq_some_iff.mp hp
        cases he
        exact .inr ⟨_, _, _, .propose hin hturn ha hc, hf, rfl⟩
    · cases h
      exact ⟨s₁, skipped, _, hs, rfl, .inl .rebroadcast⟩
  rw [tick] at h
  by_cases hskip : e.now ≥ s.attemptStart + finalityTimeoutS
  · simp only [hskip, decide_true, if_true] at h
    split at h
    · cases h
    rename_i s₁ hs
    exact hrest (.skip hin hskip hs) h
  · simp only [hskip, decide_false, Bool.false_eq_true, if_false] at h
    exact hrest (.stay fun _ => UInt64.not_le.mp hskip) h

theorem onProposal_cases (hin : e.input = .proposal block)
    (h : onProposal crypto e.cb s block e.now = some (code, s', acts)) : Ends crypto e s acts s' := by
  rw [onProposal] at h
  split at h
  · cases h
    exact .inl .stay
  split at h
  · cases h
    exact .inl .stay
  rename_i b hb
  split at h
  · cases h
    exact .inl .stay
  rename_i hdegraded
  split at h
  · cases h
    exact .inl .stay
  rename_i hlow
  split at h
  · cases h
    exact .inl .stay
  rename_i hash hh
  split at h
  · cases h
    exact .inl (.hash b)
  split at h
  · cases h
    exact .inl (.hash b)
  rename_i i p s₁ hfile
  obtain ⟨⟨s₂, fin⟩, hfin, he⟩ := Option.map_eq_some_iff.mp h
  cases he
  rw [not_or, UInt64.not_le] at hlow
  exact .inr ⟨_, _, _, .proposal hin hb (by simpa using hdegraded) hlow.1 hh hfile, hfin, rfl⟩

theorem onAttestation_cases (hin : e.input = .attestation a)
    (h : onAttestation crypto s a e.now = some (code, s', acts)) : Ends crypto e s acts s' := by
  rw [onAttestation] at h
  split at h
  · cases h
    exact .inl .stay
  rename_i hvalid
  split at h
  · cases h
    exact .inl .stay
  rename_i hnew
  split at h
  · cases h
    exact .inl .stay
  rename_i hlow
  obtain ⟨⟨s₁, fin⟩, hfin, he⟩ := Option.map_eq_some_iff.mp h
  cases he
  simp only [not_or, Bool.not_eq_true, Option.isNone_eq_false_iff, Bool.not_eq_false'] at hvalid
  exact .inr ⟨_, _, _, .attestation hin hvalid.1 hvalid.2 hnew (UInt64.not_le.mp hlow), hfin, rfl⟩

theorem call_cases (h : call crypto s e = some (s', acts)) :
    ∃ s₁ skipped rest, Skips crypto e s skipped s₁ ∧ acts = skipped ++ rest ∧ Ends crypto e s₁ rest s' := by
  rw [call] at h
  split at h
  · rename_i hin
    exact tick_cases hin h
  · rename_i block hin
    obtain ⟨⟨code, r⟩, hr, rfl⟩ := Option.map_eq_some_iff.mp h
    exact ⟨s, [], acts, .stay (by simp [hin]), rfl, onProposal_cases hin hr⟩
  · rename_i a hin
    obtain ⟨⟨code, r⟩, hr, rfl⟩ := Option.map_eq_some_iff.mp h
    exact ⟨s, [], acts, .stay (by simp [hin]), rfl, onAttestation_cases hin hr⟩

theorem Skips.follows (h : Skips crypto e s acts s') : Follows crypto genuine s acts s' := by
  cases h with
  | stay => exact .refl s
  | skip _ _ hs =>
    obtain ⟨⟨hg, hself⟩, ⟨hhead, hh, hlast⟩, hps, has⟩ := startAttempt_some hs
    exact ⟨hg, hself, (Moves.single .skip).forget hhead hh hlast hps has⟩

theorem Rests.cases (h : Rests crypto e s acts s') :
    (∃ n, s' = { s with lastEmit := n }) ∨ e.input = .tick ∧ Turn s e.now ∧ ∃ i,
    propAlloc s = some (i, s') := by
  cases h with
  | stay | hash => exact .inl ⟨_, rfl⟩
  | rebroadcast =>
    rw [tickRebroadcast]
    split
    · exact .inl ⟨_, rfl⟩
    split <;> exact .inl ⟨_, rfl⟩
  | evict hin hturn ha _ => exact .inr ⟨hin, hturn, _, ha⟩

theorem Rests.follows (h : Rests crypto e s acts s') : Follows crypto genuine s acts s' := by
  cases h with
  | stay => exact .refl s
  | hash b => exact ⟨rfl, rfl, .single (.hash b)⟩
  | rebroadcast => exact tickRebroadcast_follows s e.now
  | evict _ _ ha _ =>
    obtain ⟨rfl, -⟩ := propAlloc_some ha
    exact ⟨rfl, rfl, Moves.refl.forget rfl rfl rfl (fun p hp => mem_of_mem_set_none hp) fun _ h => h⟩

theorem Files.follows (hgenuine : ∀ a, e.input = .attestation a → genuine a) (h : Files crypto e s acts s') :
    Follows crypto genuine s acts s' := by
  cases h with
  | propose _ hturn ha hc =>
    obtain ⟨rfl, -⟩ := propAlloc_some ha
    exact propose_follows hturn.2.2.2.1 hc
  | proposal _ _ _ _ hh hfile =>
    obtain ⟨hf, hp⟩ := fileProposal_some hh hfile
    exact hf.trans (considerSigning_follows hp)
  | @attestation a hin _ _ _ _ =>
    obtain ⟨atts, seq, hfile, hatts⟩ := attFile_eq s a
    rw [hfile]
    refine ⟨rfl, rfl, (Moves.single (.receive (hgenuine a hin))).forget rfl rfl rfl (fun _ h => h) ?_⟩
    rintro a' ⟨n, ha⟩
    exact (hatts _ ha).symm.imp_right fun h => ⟨n, h⟩

theorem call_follows (hgenuine : ∀ a, e.input = .attestation a → genuine a)
    (h : call crypto s e = some (s', acts)) :
    Follows crypto genuine s acts s' := by
  obtain ⟨s₁, skipped, rest, hskip, rfl, hrest | ⟨s₂, filed, fin, hfiles, hfin, rfl⟩⟩ := call_cases h
  · exact hskip.follows.trans hrest.follows
  · exact hskip.follows.trans ((hfiles.follows hgenuine).trans (tryFinalize_follows hfin))

end Calls

def blank (cfg : Config) : Rt :=
  { genesis := cfg.genesis, self := cfg.self, isTrustee := (trusteeIndex cfg.genesis cfg.self).isSome
    head := ⟨0, cfg.genesis.genesisHash, cfg.genesis.genesisTime, 0, false⟩
    h := 0, attemptStart := 0, member := false, myPos := 0, proposerPos := 0, cur := none, lastEmit := 0
    lastSignedHeight := 0, props := replicate maxProposals none, atts := replicate maxAttestations none
    nextAttSeq := 0 }

theorem init_start (h : init crypto cfg now = some (.ok s)) :
    ¬ (cfg.genesis.trustees.length = 0 ∨ cfg.genesis.trustees.length > committeeKMax ∨ cfg.genesis.kPhase = 0 ∨
      now < cfg.genesis.genesisTime) ∧
    strictlyAscending cfg.genesis.trustees = true ∧ startAttempt crypto (blank cfg) 1 now = some s := by
  rw [init] at h
  simp only at h
  split at h
  · cases h
  rename_i hcond
  split at h
  · cases h
  rename_i hasc
  split at h
  · cases h
  obtain ⟨s', hs, he⟩ := Option.map_eq_some_iff.mp h
  cases he
  exact ⟨hcond, by simpa using hasc, hs⟩

theorem init_ok (h : init crypto cfg now = some (.ok s)) :
    s.genesis = cfg.genesis ∧ s.self = cfg.self ∧ view s = initial cfg.genesis ∧
    cfg.genesis.trustees.length ≤ committeeKMax := by
  obtain ⟨hcond, -, hs⟩ := init_start h
  obtain ⟨⟨hg, hself⟩, ⟨hhead, hh, hlast⟩, hps, has⟩ := startAttempt_some hs
  refine ⟨hg, hself, ?_, by omega⟩
  have hempty : (view s).proposals = ∅ ∧ (view s).attestations = ∅ := by
    constructor
    · refine Set.subset_eq_empty hps ?_
      simp [view, blank]
    · refine Set.subset_eq_empty has ?_
      simp [view, blank]
  rw [show view s = ⟨s.head, s.h, s.lastSignedHeight, (view s).proposals, (view s).attestations⟩
    from rfl, hempty.1, hempty.2,
    hhead, hh, hlast]
  rfl

section Runs

variable {ι : Type} {setup : Setup ι}

theorem move_mono {genuine' : Attestation → Prop} (hg : ∀ a, genuine a → genuine' a)
    (h : Move crypto genesis self genuine l acts l') : Move crypto genesis self genuine' l acts l' := by
  cases h with
  | forget hps has => exact .forget hps has
  | hash b => exact .hash b
  | learn hd => exact .learn hd
  | receive ha => exact .receive (hg _ ha)
  | sign sig hp hb hh hprev hlt => exact .sign sig hp hb hh hprev hlt
  | attest a => exact .attest a
  | propose block => exact .propose block
  | adopt hp hlt hf => exact .adopt hp hlt hf
  | skip => exact .skip

variable [DecidableEq ι]

theorem reaches_moves {L : ι → Local} {log : Log ι} {i : ι} (hr : Reaches crypto setup L log)
    (hm : Moves crypto setup.genesis (setup.self i) (Genuine crypto setup log) (L i) acts l) :
    Reaches crypto setup (Function.update L i l) (record log i acts) := by
  induction hm with
  | refl => rwa [Function.update_eq_self, record, map_nil, append_nil]
  | @tail acts acts' l' l'' _ hm ih =>
    have hg : ∀ a, Genuine crypto setup log a → Genuine crypto setup (record log i acts) a :=
      fun a ha => ha.mono (subset_record log i acts)
    have hlast : Reaches crypto setup (Function.update (Function.update L i l') i l'')
        (record (record log i acts) i acts') := by
      refine ih.move ?_
      rw [Function.update_self]
      exact move_mono hg hm
    rwa [Function.update_idem, ← record_append] at hlast

/-- The protocol accounts for the nodes of a world and for what they have done. -/
structure Simulates (crypto : Primitives) (setup : Setup ι) (w : World ι) : Prop where
  reaches : Reaches crypto setup (fun i => view (w.nodes i)) w.log
  genesis : ∀ i, (w.nodes i).genesis = setup.genesis
  self : ∀ i, (w.nodes i).self = setup.self i

theorem Simulates.step {w w' : World ι} {e : Event ι} (hw : Simulates crypto setup w)
    (h : step crypto setup w e = some w') :
    Simulates crypto setup w' := by
  rw [Simulation.step] at h
  split at h
  · rename_i hd
    obtain ⟨⟨s, acts⟩, hc, he⟩ := Option.map_eq_some_iff.mp h
    cases he
    have hgenuine : ∀ a, e.input = .attestation a → Genuine crypto setup w.log a :=
      fun a ha => by rwa [ha] at hd
    have hf := call_follows hgenuine hc
    have hviews : (fun i => view (Function.update w.nodes e.node s i)) =
        Function.update (fun i => view (w.nodes i)) e.node (view s) :=
          Function.comp_update view w.nodes e.node s
    have hnode (i : ι) : (Function.update w.nodes e.node s i).genesis = setup.genesis ∧
        (Function.update w.nodes e.node s i).self = setup.self i := by
      by_cases hi : i = e.node
      · subst hi
        rw [Function.update_self]
        exact ⟨hf.genesis.trans (hw.genesis _), hf.self.trans (hw.self _)⟩
      · rw [Function.update_of_ne hi]
        exact ⟨hw.genesis i, hw.self i⟩
    refine ⟨?_, fun i => (hnode i).1, fun i => (hnode i).2⟩
    rw [hviews]
    exact reaches_moves hw.reaches (hw.genesis e.node ▸ hw.self e.node ▸ hf.moves)
  · cases h

theorem Starts.simulates {w : World ι} (h : Starts crypto setup w) : Simulates crypto setup w := by
  obtain ⟨hlog, hinit⟩ := h
  have hi (i : ι) : (w.nodes i).genesis = setup.genesis ∧ (w.nodes i).self = setup.self i ∧
      view (w.nodes i) = initial setup.genesis := by
    obtain ⟨signFn, viewFn, hs⟩ := hinit i
    obtain ⟨hg, hself, hview, -⟩ := init_ok hs
    exact ⟨hg, hself, hview⟩
  refine ⟨?_, fun i => (hi i).1, fun i => (hi i).2.1⟩
  rw [hlog, funext fun i => (hi i).2.2]
  exact .start

theorem Simulates.run {w w' : World ι} {es : List (Event ι)} (hw : Simulates crypto setup w)
    (h : run crypto setup w es = some w') : Simulates crypto setup w' := by
  induction es generalizing w with
  | nil => exact Option.some.inj h ▸ hw
  | cons e es ih =>
    rw [Simulation.run, foldlM_cons] at h
    obtain ⟨w₁, h₁, h⟩ := Option.bind_eq_some_iff.mp h
    exact ih (hw.step h₁) h

theorem run_simulates {w w' : World ι} {es : List (Event ι)} (hw : Starts crypto setup w)
    (h : run crypto setup w es = some w') : Simulates crypto setup w' := hw.simulates.run h

end Runs

end AntsClient.Chain.Simulation
