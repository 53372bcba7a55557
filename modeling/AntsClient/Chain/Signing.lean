import AntsClient.Chain.Completeness

namespace AntsClient.Chain.Signing

open Common Crypto Blocks BlockValues Chain.Runtime Simulation Agreement Adoption Completeness List

variable {b : Block} {p : Proposal} {block : Bytes} {acts : List Act} {r : Rt × List Act} {s : Rt}
  {hash : Bytes32} {i : Nat}

/-- A call of `sign_fn`: the state in which it is made, the block composed for it, and
the slot whose hash it is given. -/
structure SignCall where
  state : Rt
  block : Block
  slot : Proposal

def Ours (s : Rt) (b : Block) (p : Proposal) (now : UInt64) : Prop :=
  s.member ∧ b.height = s.h ∧ s.lastSignedHeight < s.h ∧ b.prevBlockHash = s.head.hash ∧
    p.cutoff ≥ s.head.cutoffTime + blockTimeS ∧ p.cutoff ≤ now + clockSkewS

instance (s : Rt) (b : Block) (p : Proposal) (now : UInt64) : Decidable (Ours s b p now) :=
  inferInstanceAs (Decidable (_ ∧ _))

section

variable {ι : Type} (crypto : Primitives)

def answered (cb : Callbacks) (c : Option SignCall) : Option SignCall :=
  c.filter fun c => (cb.signFn c.slot.hash).isOk

def tickSigns (cb : Callbacks) (s : Rt) (now : UInt64) : Option SignCall := do
  guard (Turn s now)
  let (i, s) ← propAlloc s
  let (b, p) ← (compose crypto s.genesis cb s.h s.head.hash now).toOption
  return ⟨{ s with props := s.props.set i (some p) }, b, p⟩

def considerSigns (cb : Callbacks) (s : Rt) (b : Block) (p : Proposal) (now : UInt64) : Option SignCall := do
  guard (Ours s b p now)
  let (mine, q) ← (compose crypto s.genesis cb s.h s.head.hash p.cutoff).toOption
  guard (q.hash = p.hash)
  return ⟨s, mine, p⟩

def proposalSigns (cb : Callbacks) (s : Rt) (block : Bytes) (now : UInt64) : Option SignCall := do
  guard (block.length ≤ blockEncodedMax)
  let b ← (blockDecode block maxPatternFindings).toOption
  guard (b.degradedSeed = true)
  guard (s.head.height < b.height ∧ s.genesis.genesisTime ≤ b.summary.cutoffTime)
  let hash ← (blockHash crypto b).toOption
  guard ((propFind s hash).isSome ∨ attAnyFor s hash = true)
  let (_, p, s) ← fileProposal s b hash block
  considerSigns crypto cb s b p now

def signCall (s : Rt) (e : Event ι) : Option SignCall :=
  match e.input with
  | .tick =>
    if e.now ≥ s.attemptStart + finalityTimeoutS then
      (startAttempt crypto s (s.h + 1) e.now).bind fun s => tickSigns crypto e.cb s e.now
    else tickSigns crypto e.cb s e.now
  | .proposal block => proposalSigns crypto e.cb s block e.now
  | .attestation _ => none

def signed (s : Rt) (e : Event ι) : Option SignCall := answered e.cb (signCall crypto s e)

def OnCommittee (genesis : Genesis) (id prev : Bytes32) (height : UInt64) : Prop :=
  ∃ committee i, committeeFor crypto genesis prev height = some (.ok committee) ∧
    trusteeIndex genesis id = some i ∧
    i ∈ committee

def Seated (s : Rt) : Prop := s.member = true → OnCommittee crypto s.genesis s.self s.head.hash s.h

end

def signedSlot : Act → Option Proposal
  | .sign p => some p
  | _ => none

/-- What a call leaves behind of the calls of `sign_fn`: the slots it has signed, and the
last height signed. -/
def Leaves (cb : Callbacks) (c : Option SignCall) (last : UInt64) (r : Rt × List Act) : Prop :=
  r.2.filterMap signedSlot = (answered cb c).toList.map SignCall.slot ∧
    r.1.lastSignedHeight = (answered cb c).elim last fun c => c.slot.height

structure SameAttempt (s s' : Rt) : Prop where
  genesis : s'.genesis = s.genesis
  self : s'.self = s.self
  head : s'.head = s.head
  h : s'.h = s.h
  member : s'.member = s.member

structure Careful (crypto : Primitives) (cb : Callbacks) (now : UInt64) (c : SignCall) : Prop where
  member : c.state.member = true
  above : c.state.lastSignedHeight < c.state.h
  composed : ∃ cutoff q, compose crypto c.state.genesis cb c.state.h c.state.head.hash cutoff =
    .ok (c.block, q) ∧
    q.hash = c.slot.hash ∧ c.state.head.cutoffTime + blockTimeS ≤ cutoff ∧
      (cutoff = now ∨ cutoff ≤ now + clockSkewS)

variable {ι : Type} {crypto : Primitives} {α : Type} {last : UInt64} {fin : List Act} {s₁ : Rt}
  {code : Except Error Unit}

theorem toOption_eq_some {ε : Type} {x : Except ε α} {a : α} : x.toOption = some a ↔ x = .ok a := by
  cases x with
  | error err => simp [Except.toOption]
  | ok b => simp [Except.toOption]

theorem guard_bind_eq_some {p : Prop} [Decidable p] {f : Unit → Option α} {a : α} :
    (guard p >>= f) = some a ↔ p ∧ f () = some a := by
  by_cases hp : p
  · simp [guard, hp]
  · simp [guard, hp]

section Ways

variable {cb : Callbacks} {s : Rt} {now : UInt64} {c : SignCall}

theorem tickSigns_some (h : tickSigns crypto cb s now = some c) :
    Turn s now ∧ ∃ i s₁, propAlloc s = some (i, s₁) ∧
    compose crypto s₁.genesis cb s₁.h s₁.head.hash now = .ok (c.block, c.slot) ∧
      c.state = { s₁ with props := s₁.props.set i (some c.slot) } := by
  obtain ⟨hturn, h⟩ := guard_bind_eq_some.mp h
  obtain ⟨⟨i, s₁⟩, ha, h⟩ := Option.bind_eq_some_iff.mp h
  obtain ⟨⟨b, p⟩, hc, h⟩ := Option.bind_eq_some_iff.mp h
  cases h
  exact ⟨hturn, i, s₁, ha, toOption_eq_some.mp hc, rfl⟩

theorem considerSigns_some (h : considerSigns crypto cb s b p now = some c) :
    c.state = s ∧ c.slot = p ∧ Ours s b p now ∧
      ∃ q, compose crypto s.genesis cb s.h s.head.hash p.cutoff = .ok (c.block, q) ∧ q.hash = p.hash := by
  obtain ⟨hours, h⟩ := guard_bind_eq_some.mp h
  obtain ⟨⟨mine, q⟩, hc, h⟩ := Option.bind_eq_some_iff.mp h
  obtain ⟨hq, h⟩ := guard_bind_eq_some.mp h
  cases h
  exact ⟨rfl, rfl, hours, q, toOption_eq_some.mp hc, hq⟩

theorem proposalSigns_some (h : proposalSigns crypto cb s block now = some c) :
    ∃ b hash i, blockDecode block maxPatternFindings = .ok b ∧ blockHash crypto b = .ok hash ∧
      fileProposal s b hash block = some (i, c.slot, c.state) ∧
      considerSigns crypto cb c.state b c.slot now = some c := by
  obtain ⟨-, h⟩ := guard_bind_eq_some.mp h
  obtain ⟨b, hb, h⟩ := Option.bind_eq_some_iff.mp h
  obtain ⟨-, h⟩ := guard_bind_eq_some.mp h
  obtain ⟨-, h⟩ := guard_bind_eq_some.mp h
  obtain ⟨hash, hh, h⟩ := Option.bind_eq_some_iff.mp h
  obtain ⟨-, h⟩ := guard_bind_eq_some.mp h
  obtain ⟨⟨i, p, s₁⟩, hf, h⟩ := Option.bind_eq_some_iff.mp h
  obtain ⟨rfl, rfl, -⟩ := considerSigns_some h
  exact ⟨b, hash, i, toOption_eq_some.mp hb, toOption_eq_some.mp hh, hf, h⟩

theorem leaves_nothing {c : Option SignCall} (hc : c = none) (h : acts.filterMap signedSlot = []) :
    Leaves cb c s.lastSignedHeight (s, acts) := by
  rw [hc]
  exact ⟨h, rfl⟩

theorem signAndEmit_leaves (s s₁ : Rt) (i : Nat) (b : Block) (p : Proposal) (emit : Bool) :
    Leaves cb (some ⟨s₁, b, p⟩) s.lastSignedHeight (signAndEmit cb s i p emit now) := by
  rw [signAndEmit]
  split
  · rename_i err herr
    simp [Leaves, answered, Option.filter_some, herr, Except.isOk, Except.toBool]
  · rename_i sig hsig
    obtain ⟨atts, seq, hfile, -⟩ :=
      attFile_eq { s with lastSignedHeight := p.height, cur := some i } ⟨p.height, p.hash, s.self, sig⟩
    simp only [Leaves, answered, Option.filter_some, hfile, hsig, Except.isOk, Except.toBool, if_true]
    cases emit with
    | false => exact ⟨rfl, rfl⟩
    | true => exact ⟨rfl, rfl⟩

theorem Leaves.append {c : Option SignCall} (h : Leaves cb c last r)
    (hacts : acts.filterMap signedSlot = []) : Leaves cb c last (r.1, acts ++ r.2) := by
  refine ⟨?_, h.2⟩
  rw [filterMap_append, hacts]
  exact h.1

theorem considerSigning_leaves (b : Block) (i : Nat) (p : Proposal) :
    Leaves cb (considerSigns crypto cb s b p now) s.lastSignedHeight
      (considerSigning crypto cb s b i p now) := by
  rw [considerSigning]
  split
  · rename_i h
    have hours : Ours s b p now := h
    cases hc : compose crypto s.genesis cb s.h s.head.hash p.cutoff with
    | error err =>
      have hnone : considerSigns crypto cb s b p now = none := by
        simp [considerSigns, guard, hours, hc, Except.toOption]
      exact leaves_nothing hnone rfl
    | ok r =>
      by_cases hq : r.2.hash = p.hash
      · have hsome : considerSigns crypto cb s b p now = some ⟨s, r.1, p⟩ := by
          simp [considerSigns, guard, hours, hc, hq, Except.toOption]
        simp only [hsome, hq, if_true]
        exact (signAndEmit_leaves s s i r.1 p false).append rfl
      · have hnone : considerSigns crypto cb s b p now = none := by
          simp [considerSigns, guard, hours, hc, hq, Except.toOption]
        simp only [hq, if_false]
        exact leaves_nothing hnone rfl
  · rename_i h
    have hours : ¬Ours s b p now := h
    have hnone : considerSigns crypto cb s b p now = none := by simp [considerSigns, guard, hours]
    exact leaves_nothing hnone rfl

theorem tryFinalize_leaves {s' : Rt} {c : Option SignCall} (h : Leaves cb c last (s, acts))
    (hfin : tryFinalize crypto s now = some (s', fin)) : Leaves cb c last (s', acts ++ fin) := by
  obtain ⟨hacts, hlast⟩ := h
  rcases tryFinalize_cases hfin with ⟨rfl, rfl, -⟩ | ⟨p, -, rfl, hs⟩
  · rw [append_nil]
    exact ⟨hacts, hlast⟩
  · obtain ⟨-, ⟨-, -, hsame⟩, -⟩ := startAttempt_some hs
    refine ⟨?_, hsame.trans hlast⟩
    rw [filterMap_append, hacts]
    simp [signedSlot]

theorem tickRebroadcast_leaves (s : Rt) (now : UInt64) :
    Leaves cb none s.lastSignedHeight (tickRebroadcast s now) := by
  rw [tickRebroadcast]
  split
  · exact leaves_nothing rfl rfl
  split
  · refine ⟨?_, rfl⟩
    dsimp only
    cases attFind s.atts _ s.self with
    | none => rfl
    | some a => rfl
  · exact leaves_nothing rfl rfl

theorem tickRest_leaves (h : (if Turn s now then tickPropose crypto cb s now
    else some (tickRebroadcast s now)) = some r) :
    Leaves cb (tickSigns crypto cb s now) s.lastSignedHeight r := by
  split at h
  · rename_i hturn
    rw [tickPropose] at h
    cases ha : propAlloc s with
    | none =>
      have hnone : tickSigns crypto cb s now = none := by simp [tickSigns, guard, hturn, ha]
      rw [ha] at h
      cases h
      exact leaves_nothing hnone rfl
    | some x =>
      obtain ⟨i, s₁⟩ := x
      obtain ⟨hs₁, -⟩ := propAlloc_some ha
      have hlast : s₁.lastSignedHeight = s.lastSignedHeight := by rw [hs₁]
      rw [ha] at h
      cases hc : compose crypto s₁.genesis cb s₁.h s₁.head.hash now with
      | error err =>
        have hnone : tickSigns crypto cb s now = none := by
          simp [tickSigns, guard, hturn, ha, hc, Except.toOption]
        simp only [hc] at h
        cases h
        rw [← hlast]
        exact leaves_nothing hnone rfl
      | ok x =>
        obtain ⟨b, p⟩ := x
        have hsome : tickSigns crypto cb s now = some ⟨{ s₁ with props := s₁.props.set i (some p) }, b, p⟩ := by
          simp [tickSigns, guard, hturn, ha, hc, Except.toOption]
        simp only [hc] at h
        obtain ⟨⟨s₂, fin⟩, hfin, rfl⟩ := Option.map_eq_some_iff.mp h
        rw [hsome, ← hlast]
        exact tryFinalize_leaves ((signAndEmit_leaves { s₁ with props := s₁.props.set i (some p) } _
          i b p true).append rfl) hfin
  · rename_i hturn
    have hnone : tickSigns crypto cb s now = none := by simp [tickSigns, guard, hturn]
    cases h
    rw [hnone]
    exact tickRebroadcast_leaves s now

theorem proposalSigns_filed (hlen : ¬block.length > blockEncodedMax)
    (hb : blockDecode block maxPatternFindings = .ok b)
    (hdegraded : ¬(!b.degradedSeed) = true)
    (hlow : ¬(b.height ≤ s.head.height ∨ b.summary.cutoffTime < s.genesis.genesisTime))
    (hh : blockHash crypto b = .ok hash)
    (hknown : ¬((propFind s hash).isNone = true ∧ (!attAnyFor s hash) = true))
    (hfile : fileProposal s b hash block = some (i, p, s₁)) :
    proposalSigns crypto cb s block now = considerSigns crypto cb s₁ b p now := by
  rw [not_lt] at hlen
  rw [Bool.not_eq_true, Bool.not_eq_false'] at hdegraded
  rw [not_or, UInt64.not_le, UInt64.not_lt] at hlow
  have hcond : (propFind s hash).isSome ∨ attAnyFor s hash = true := by
    by_contra hn
    exact hknown (by simpa [not_or] using hn)
  simp [proposalSigns, guard, hlen, hb, hdegraded, hlow, hh, hcond, hfile, Except.toOption]

theorem onProposal_leaves (h : onProposal crypto cb s block now = some (code, r)) :
    Leaves cb (proposalSigns crypto cb s block now) s.lastSignedHeight r := by
  rw [onProposal] at h
  split at h
  · rename_i hlen
    cases h
    exact leaves_nothing (by simp [proposalSigns, guard, Nat.not_le.mpr hlen]) rfl
  rename_i hlen
  split at h
  · rename_i hb
    cases h
    exact leaves_nothing (by simp [proposalSigns, guard, hb, Except.toOption]) rfl
  rename_i b hb
  split at h
  · rename_i hdegraded
    cases h
    exact leaves_nothing (by simp_all [proposalSigns, guard, Except.toOption]) rfl
  rename_i hdegraded
  split at h
  · rename_i hlow
    cases h
    refine leaves_nothing ?_ rfl
    have hcond : ¬(s.head.height < b.height ∧ s.genesis.genesisTime ≤ b.summary.cutoffTime) := by
      rwa [not_and_or, UInt64.not_lt, UInt64.not_le]
    simp [proposalSigns, guard, hb, hcond, Except.toOption]
  rename_i hlow
  split at h
  · rename_i hh
    cases h
    exact leaves_nothing (by simp [proposalSigns, guard, hb, hh, Except.toOption]) rfl
  rename_i hash hh
  split at h
  · rename_i hunknown
    cases h
    refine leaves_nothing ?_ rfl
    have hcond : ¬((propFind s hash).isSome ∨ attAnyFor s hash = true) := by simpa [not_or] using hunknown
    simp [proposalSigns, guard, hb, hh, hcond, Except.toOption]
  rename_i hknown
  split at h
  · rename_i hfile
    cases h
    exact leaves_nothing (by simp [proposalSigns, guard, hb, hh, hfile, Except.toOption]) rfl
  rename_i i p s₁ hfile
  have hlast : s₁.lastSignedHeight = s.lastSignedHeight := by
    obtain ⟨-, ⟨rfl, -⟩ | ⟨-, -, s₂, ha, rfl⟩⟩ := fileProposal_cases hfile
    · rfl
    · rw [(propAlloc_some ha).1]
  obtain ⟨⟨s₂, fin⟩, hfin, he⟩ := Option.map_eq_some_iff.mp h
  cases he
  rw [proposalSigns_filed hlen hb hdegraded hlow hh hknown hfile, ← hlast]
  exact tryFinalize_leaves ((considerSigning_leaves b i p).append rfl) hfin

theorem onAttestation_leaves {a : Attestation}
    (h : onAttestation crypto s a now = some (code, r)) : Leaves cb none s.lastSignedHeight r := by
  rw [onAttestation] at h
  split at h
  · cases h
    exact leaves_nothing rfl rfl
  split at h
  · cases h
    exact leaves_nothing rfl rfl
  split at h
  · cases h
    exact leaves_nothing rfl rfl
  obtain ⟨⟨s₁, fin⟩, hfin, he⟩ := Option.map_eq_some_iff.mp h
  cases he
  obtain ⟨atts, seq, hfile, -⟩ := attFile_eq s a
  rw [hfile] at hfin
  have hfiled : Leaves cb none s.lastSignedHeight ({ s with atts := atts, nextAttSeq := seq }, []) := ⟨rfl, rfl⟩
  exact tryFinalize_leaves hfiled hfin

theorem tick_leaves (h : tick crypto cb s now = some r) :
    Leaves cb (if now ≥ s.attemptStart + finalityTimeoutS then
        (startAttempt crypto s (s.h + 1) now).bind fun s => tickSigns crypto cb s now
      else tickSigns crypto cb s now) s.lastSignedHeight r := by
  have hrest {s₁ : Rt} {skipped : List Act} (hskipped : skipped.filterMap signedSlot = [])
      (h : (if Turn s₁ now then (tickPropose crypto cb s₁ now).map fun r => (r.1, skipped ++ r.2)
        else some ((tickRebroadcast s₁ now).1, skipped ++ (tickRebroadcast s₁ now).2)) = some r) :
      Leaves cb (tickSigns crypto cb s₁ now) s₁.lastSignedHeight r := by
    have hmap : ((if Turn s₁ now then
        tickPropose crypto cb s₁ now else some (tickRebroadcast s₁ now)).map fun r =>
        (r.1, skipped ++ r.2)) = some r := by
      rw [apply_ite (Option.map _)]
      exact h
    obtain ⟨r₁, hr, rfl⟩ := Option.map_eq_some_iff.mp hmap
    exact (tickRest_leaves hr).append hskipped
  rw [tick] at h
  by_cases hskip : now ≥ s.attemptStart + finalityTimeoutS
  · simp only [hskip, decide_true, if_true] at h ⊢
    split at h
    · cases h
    rename_i s₁ hs
    obtain ⟨-, ⟨-, -, hlast⟩, -⟩ := startAttempt_some hs
    rw [hs, Option.bind_some, ← hlast]
    exact hrest rfl h
  · simp only [hskip, decide_false, Bool.false_eq_true, if_false] at h ⊢
    exact hrest rfl h

end Ways

theorem call_leaves {e : Event ι} (h : call crypto s e = some r) :
    Leaves e.cb (signCall crypto s e) s.lastSignedHeight r := by
  rw [call] at h
  rw [signCall]
  cases hin : e.input with
  | tick =>
    rw [hin] at h
    exact tick_leaves h
  | proposal block =>
    rw [hin] at h
    obtain ⟨⟨code, r⟩, hr, rfl⟩ := Option.map_eq_some_iff.mp h
    exact onProposal_leaves hr
  | attestation a =>
    rw [hin] at h
    obtain ⟨⟨code, r⟩, hr, rfl⟩ := Option.map_eq_some_iff.mp h
    exact onAttestation_leaves hr

section Attempts

variable {cb : Callbacks} {s s' s'' : Rt} {now : UInt64} {e : Event ι} {acts : List Act} {c : SignCall}

theorem SameAttempt.refl (s : Rt) : SameAttempt s s := ⟨rfl, rfl, rfl, rfl, rfl⟩

theorem SameAttempt.trans (h : SameAttempt s s') (h' : SameAttempt s' s'') : SameAttempt s s'' :=
  ⟨h'.genesis.trans h.genesis, h'.self.trans h.self, h'.head.trans h.head, h'.h.trans h.h,
    h'.member.trans h.member⟩

theorem Seated.same (h : Seated crypto s) (hs : SameAttempt s s') : Seated crypto s' := by
  intro hm
  rw [hs.genesis, hs.self, hs.head, hs.h]
  exact h (hs.member ▸ hm)

theorem propAlloc_same (h : propAlloc s = some (i, s')) : SameAttempt s s' := by
  obtain ⟨rfl, -⟩ := propAlloc_some h
  exact ⟨rfl, rfl, rfl, rfl, rfl⟩

theorem attFile_same (s : Rt) (a : Attestation) : SameAttempt s (attFile s a) := by
  obtain ⟨atts, seq, he, -⟩ := attFile_eq s a
  rw [he]
  exact ⟨rfl, rfl, rfl, rfl, rfl⟩

theorem signAndEmit_same (s : Rt) (i : Nat) (p : Proposal) (emit : Bool) :
    SameAttempt s (signAndEmit cb s i p emit now).1 := by
  rw [signAndEmit]
  split
  · exact .refl s
  · rename_i sig _
    have hfile := attFile_same { s with lastSignedHeight := p.height, cur := some i }
      ⟨p.height, p.hash, s.self, sig⟩
    exact ⟨hfile.genesis, hfile.self, hfile.head, hfile.h, hfile.member⟩

theorem considerSigning_same (s : Rt) (b : Block) (i : Nat) (p : Proposal) :
    SameAttempt s (considerSigning crypto cb s b i p now).1 := by
  rcases considerSigning_cases crypto cb s b i p now with ⟨acts, heq, -⟩ | ⟨-, mine, q, -, -, heq⟩
  · rw [heq]
    exact .refl s
  · rw [heq]
    exact signAndEmit_same s i p false

theorem fileProposal_same (h : fileProposal s b hash block = some (i, p, s')) :
    SameAttempt s s' ∧ s'.lastSignedHeight = s.lastSignedHeight := by
  obtain ⟨-, ⟨rfl, -⟩ | ⟨-, -, s₁, ha, rfl⟩⟩ := fileProposal_cases h
  · exact ⟨.refl _, rfl⟩
  · obtain ⟨rfl, -⟩ := propAlloc_some ha
    exact ⟨⟨rfl, rfl, rfl, rfl, rfl⟩, rfl⟩

theorem Files.same (h : Files crypto e s acts s') : SameAttempt s s' := by
  cases h with
  | @propose i s₁ b p _ _ ha _ =>
    have hset : SameAttempt s { s₁ with props := s₁.props.set i (some p) } :=
      (propAlloc_same ha).trans ⟨rfl, rfl, rfl, rfl, rfl⟩
    exact hset.trans (signAndEmit_same _ i p true)
  | @proposal block b hash i p s₁ _ _ _ _ _ hfile =>
    exact (fileProposal_same hfile).1.trans (considerSigning_same s₁ b i p)
  | attestation => exact attFile_same s _

theorem Rests.same (h : Rests crypto e s acts s') : SameAttempt s s' := by
  rcases Rests.cases h with ⟨n, rfl⟩ | ⟨-, -, i, ha⟩
  · exact ⟨rfl, rfl, rfl, rfl, rfl⟩
  · exact propAlloc_same ha

theorem startAttempt_seated {height : UInt64} (h : startAttempt crypto s height now = some s') :
    Seated crypto s' := by
  obtain ⟨member, myPos, proposerPos, hmember, ⟨rfl, -⟩ | rfl⟩ := startAttempt_cases h
  · exact hmember
  · exact hmember

theorem tryFinalize_seated (h : Seated crypto s)
    (hfin : tryFinalize crypto s now = some (s', fin)) : Seated crypto s' := by
  rcases tryFinalize_cases hfin with ⟨rfl, -⟩ | ⟨p, -, -, hs⟩
  · exact h
  · exact startAttempt_seated hs

theorem Skips.seated (h : Seated crypto s) (hs : Skips crypto e s acts s') : Seated crypto s' := by
  cases hs with
  | stay => exact h
  | skip _ _ hs => exact startAttempt_seated hs

theorem call_seated (h : Seated crypto s) (hc : call crypto s e = some (s', acts)) : Seated crypto s' := by
  obtain ⟨s₁, skipped, rest, hskip, -, hrest | ⟨s₂, filed, fin, hfiles, hfin, -⟩⟩ := call_cases hc
  · exact (Skips.seated h hskip).same (Rests.same hrest)
  · exact tryFinalize_seated ((Skips.seated h hskip).same (Files.same hfiles)) hfin

theorem init_seated {cfg : Config} (h : init crypto cfg now = some (.ok s)) : Seated crypto s :=
  startAttempt_seated (init_start h).2.2

theorem tickSigns_careful (h : tickSigns crypto cb s now = some c) :
    SameAttempt s c.state ∧ c.state.lastSignedHeight = s.lastSignedHeight ∧ Careful crypto cb now c := by
  obtain ⟨⟨hmember, -, -, hlast, -, hcutoff⟩, i, s₁, ha, hc, hstate⟩ := tickSigns_some h
  obtain ⟨rfl, -⟩ := propAlloc_some ha
  have hsame : SameAttempt s c.state := by
    rw [hstate]
    exact ⟨rfl, rfl, rfl, rfl, rfl⟩
  have hsigned : c.state.lastSignedHeight = s.lastSignedHeight := by rw [hstate]
  refine ⟨hsame, hsigned, hsame.member.trans hmember, ?_, now, c.slot, ?_, rfl, ?_, .inl rfl⟩
  · rwa [hsigned, hsame.h]
  · rwa [hsame.genesis, hsame.h, hsame.head]
  · rwa [hsame.head]

theorem proposalSigns_careful (h : proposalSigns crypto cb s block now = some c) :
    SameAttempt s c.state ∧ c.state.lastSignedHeight = s.lastSignedHeight ∧ Careful crypto cb now c := by
  obtain ⟨b, hash, i, -, -, hfile, hcon⟩ := proposalSigns_some h
  obtain ⟨hsame, hlast⟩ := fileProposal_same hfile
  obtain ⟨-, -, ⟨hmember, -, habove, -, hlow, hhigh⟩, q, hc, hq⟩ := considerSigns_some hcon
  exact ⟨hsame, hlast, hmember, habove, c.slot.cutoff, q, hc, hq, hlow, .inr hhigh⟩

/-- A call of `sign_fn` is made in the attempt the call found, or in the next one if the
tick gave that up. -/
theorem signCall_some (h : signCall crypto s e = some c) :
    ∃ s₁, (s₁ = s ∨ startAttempt crypto s (s.h + 1) e.now = some s₁) ∧ SameAttempt s₁ c.state ∧
      c.state.lastSignedHeight = s.lastSignedHeight ∧ Careful crypto e.cb e.now c := by
  rw [signCall] at h
  split at h
  · split at h
    · obtain ⟨s₁, hs, h⟩ := Option.bind_eq_some_iff.mp h
      obtain ⟨hsame, hlast, hcareful⟩ := tickSigns_careful h
      obtain ⟨-, ⟨-, -, hlast'⟩, -⟩ := startAttempt_some hs
      exact ⟨s₁, .inr hs, hsame, hlast.trans hlast', hcareful⟩
    · exact ⟨s, .inl rfl, tickSigns_careful h⟩
  · exact ⟨s, .inl rfl, proposalSigns_careful h⟩
  · cases h

theorem signCall_seated (hseated : Seated crypto s) (h : signCall crypto s e = some c) :
    OnCommittee crypto s.genesis s.self c.state.head.hash c.state.h := by
  obtain ⟨s₁, hs, hsame, -, hcareful⟩ := signCall_some h
  rcases hs with rfl | hs
  · have hon := hseated.same hsame hcareful.member
    rwa [hsame.genesis, hsame.self] at hon
  · have hon := (startAttempt_seated hs).same hsame hcareful.member
    obtain ⟨⟨hg, hself⟩, -⟩ := startAttempt_some hs
    rwa [hsame.genesis, hsame.self, hg, hself] at hon

end Attempts

section Run

variable {s s' s₀ : Rt} {e : Event ι} {acts : List Act} {c : SignCall} {hist all : History ι}
  {es : List (Event ι)}
  {cfg : Config} {genesis : Genesis} {self : Bytes32} {now : UInt64}

theorem signed_some (h : signed crypto s e = some c) : signCall crypto s e = some c :=
  (Option.filter_eq_some_iff.mp h).1

theorem call_lastSigned (h : call crypto s e = some (s', acts)) :
    s'.lastSignedHeight = (signed crypto s e).elim s.lastSignedHeight fun c => c.slot.height :=
  (call_leaves h).2

section Height

variable (hf : Founded crypto genesis self hist s) (hsub : hist ⊆ all) (hmem : (e, acts) ∈ all)
  (hinj : Set.InjOn crypto.blake3 (heldBlocks all))

include hf hsub hmem hinj

theorem fileProposal_height (hin : e.input = .proposal block)
    (hb : blockDecode block maxPatternFindings = .ok b)
    (hh : blockHash crypto b = .ok hash) (hfile : fileProposal s b hash block = some (i, p, s')) :
    p.height = b.height := by
  obtain ⟨hat, ⟨rfl, hhash⟩ | ⟨-, hp, -⟩⟩ := fileProposal_cases hfile
  · obtain ⟨⟨b', hb', -, hground⟩, hheld⟩ := hf.grounded _ (mem_of_getElem? hat)
    have hsame : crypto.blake3 p.bytes = crypto.blake3 block := by
      rw [← blockHash_decoded hb hh, ← hhash]
      exact (congrArg Proposal.hash hground).symm
    have hbytes := hinj ⟨hheld.mono hsub, b', hb'⟩ ⟨⟨_, hmem, .inl hin⟩, b, hb⟩ hsame
    rw [hbytes, hb] at hb'
    cases hb'
    exact congrArg Proposal.height hground
  · rw [hp]

theorem signCall_height (h : signCall crypto s e = some c) : c.slot.height = c.state.h := by
  have htick {s : Rt} (h : tickSigns crypto e.cb s e.now = some c) : c.slot.height = c.state.h := by
    obtain ⟨-, i, s₁, -, hc, hstate⟩ := tickSigns_some h
    obtain ⟨⟨-, hheight, -⟩, hblock, -⟩ := compose_ok hc
    rw [hstate]
    exact hheight.symm.trans hblock
  rw [signCall] at h
  split at h
  · split at h
    · obtain ⟨s₁, -, h⟩ := Option.bind_eq_some_iff.mp h
      exact htick h
    · exact htick h
  · rename_i block hin
    obtain ⟨b, hash, i, hb, hh, hfile, hcon⟩ := proposalSigns_some h
    obtain ⟨-, -, ⟨-, hheight, -⟩, -⟩ := considerSigns_some hcon
    rw [← hheight]
    exact fileProposal_height hf hsub hmem hinj hin hb hh hfile
  · cases h

theorem call_lastSigned_mono (h : call crypto s e = some (s', acts)) :
    s.lastSignedHeight ≤ s'.lastSignedHeight := by
  rw [call_lastSigned h]
  cases hs : signed crypto s e with
  | none => exact UInt64.le_refl _
  | some c =>
    obtain ⟨-, -, -, hlast, hcareful⟩ := signCall_some (signed_some hs)
    rw [Option.elim_some, signCall_height hf hsub hmem hinj (signed_some hs), ← hlast]
    exact UInt64.le_of_lt hcareful.above

end Height

theorem heldBlocks_mono (h : hist ⊆ all) : heldBlocks hist ⊆ heldBlocks all := by
  rintro bytes ⟨hheld, hb⟩
  exact ⟨hheld.mono h, hb⟩

theorem signed_le (hinit : init crypto cfg now = some (.ok s₀)) (hrun : calls crypto s₀ es = some (s, hist))
    (hinj : Set.InjOn crypto.blake3 (heldBlocks hist)) {es₁ es₂ : List (Event ι)} {e' : Event ι}
    {hist₁ : History ι} {c' : SignCall} (hes : es = es₁ ++ e' :: es₂)
    (hrun₁ : calls crypto s₀ es₁ = some (s₁, hist₁))
    (hsigned : signed crypto s₁ e' = some c') : c'.state.h ≤ s.lastSignedHeight := by
  induction es using reverseRecOn generalizing s hist es₂ with
  | nil => simp at hes
  | append_singleton es e ih =>
    obtain ⟨s₂, hist₂, acts, hrun₂, hcall, rfl⟩ := calls_concat hrun
    have hsub : hist₂ ⊆ hist₂ ++ [(e, acts)] := subset_append_left _ _
    have hmem : (e, acts) ∈ hist₂ ++ [(e, acts)] := by simp
    have hfounded := calls_founded hinit hrun₂
    rcases eq_nil_or_concat es₂ with rfl | ⟨es₃, e₃, rfl⟩
    · obtain ⟨rfl, hlast⟩ := append_inj' hes rfl
      obtain rfl : e = e' := by simpa using hlast
      obtain ⟨rfl, rfl⟩ : s₂ = s₁ ∧ hist₂ = hist₁ := by simpa using hrun₂.symm.trans hrun₁
      rw [call_lastSigned hcall, hsigned, Option.elim_some,
        signCall_height hfounded hsub hmem hinj (signed_some hsigned)]
      exact UInt64.le_refl _
    · rw [concat_eq_append, ← cons_append, ← append_assoc] at hes
      obtain ⟨hes, -⟩ := append_inj' hes rfl
      exact UInt64.le_trans (ih hrun₂ (hinj.mono (heldBlocks_mono hsub)) hes)
        (call_lastSigned_mono hfounded hsub hmem hinj hcall)

theorem calls_seated (hinit : init crypto cfg now = some (.ok s₀))
    (hrun : calls crypto s₀ es = some (s, hist)) : Seated crypto s :=
  calls_keep (P := fun s _ => Seated crypto s) (fun _ _ _ _ _ h hc => call_seated h hc) (init_seated hinit) hrun

/-- In any run `sign_fn` is called only for the block that the node composes for its attempt on its
head, as a member of its committee, and above every height signed before. -/
theorem signing_discipline (hinit : init crypto cfg now = some (.ok s₀))
    (hrun : calls crypto s₀ es = some (s, hist))
    (hsign : signCall crypto s e = some c) :
    (∃ cutoff q, compose crypto cfg.genesis e.cb c.state.h c.state.head.hash cutoff = .ok (c.block, q) ∧
      blockHash crypto c.block = .ok c.slot.hash ∧
      (c.state.head.cutoffTime.toNat + 30 < 2 ^ 64 → c.state.head.cutoffTime.toNat + 30 ≤ cutoff.toNat) ∧
      (e.now.toNat + 10 < 2 ^ 64 → cutoff.toNat ≤ e.now.toNat + 10)) ∧
    OnCommittee crypto cfg.genesis cfg.self c.state.head.hash c.state.h ∧
    (Set.InjOn crypto.blake3 (heldBlocks hist) → ∀ es₁ e' es₂ s₁ hist₁ c', es = es₁ ++ e' :: es₂ →
      calls crypto s₀ es₁ = some (s₁, hist₁) → signed crypto s₁ e' = some c' → c'.state.h < c.state.h) := by
  have hfounded := calls_founded hinit hrun
  obtain ⟨s₂, hs₂, hsame, hlast, hcareful⟩ := signCall_some hsign
  have hgenesis : c.state.genesis = cfg.genesis := by
    rw [hsame.genesis, ← hfounded.sameGenesis]
    rcases hs₂ with rfl | hs₂
    · rfl
    · exact (startAttempt_some hs₂).1.1
  refine ⟨?_, ?_, ?_⟩
  · obtain ⟨cutoff, q, hc, hq, hlow, hhigh⟩ := hcareful.composed
    obtain ⟨⟨hhash, -⟩, -⟩ := compose_ok hc
    refine ⟨cutoff, q, hgenesis ▸ hc, hq ▸ hhash, fun hsum => ?_, fun hsum => ?_⟩
    · rw [UInt64.le_iff_toNat_le, UInt64.toNat_add] at hlow
      have h30 : blockTimeS.toNat = 30 := rfl
      omega
    · rcases hhigh with rfl | hhigh
      · omega
      · rw [UInt64.le_iff_toNat_le, UInt64.toNat_add] at hhigh
        have h10 : clockSkewS.toNat = 10 := rfl
        omega
  · rw [← hfounded.sameGenesis, ← hfounded.sameSelf]
    exact signCall_seated (calls_seated hinit hrun) hsign
  · intro hinj es₁ e' es₂ s₁ hist₁ c' hes hrun₁ hsigned
    refine UInt64.lt_of_le_of_lt (signed_le hinit hrun hinj hes hrun₁ hsigned) ?_
    rw [← hlast]
    exact hcareful.above

end Run

/-- The second trustee signs the first block, gives the attempt up and is offered the
second one. -/
def laterEvents : List (Event (Fin 3)) := [
  sampleEvent lead 30 .tick,
  sampleEvent lead 120 .tick,
  sampleEvent lead 151 (.attestation (attestationBy third proposal₂))]

def laterActs : List Act := [.hash block₁, .sign proposal₁, .attestation (attestationBy lead proposal₁),
  .proposal (blockBytes block₁), .skip 1 1]

theorem later_injOn {hist : History (Fin 3)}
    (hrun : calls sampleCrypto (sampleWorld.nodes 1) laterEvents = some (s, hist))
    (hacts : hist.flatMap Prod.snd = laterActs) : Set.InjOn sampleCrypto.blake3 (heldBlocks hist) := by
  have hheld {bytes : Bytes} (h : Held hist bytes) : bytes = blockBytes block₁ := by
    obtain ⟨r, hr, hin | ⟨-, b, hb, he⟩⟩ := h
    · have hmem : r.1 ∈ laterEvents := calls_history hrun ▸ mem_map_of_mem hr
      simp only [laterEvents, mem_cons, not_mem_nil, or_false] at hmem
      rcases hmem with h | h | h <;> simp [h, sampleEvent] at hin
    · have hmem : Act.hash b ∈ laterActs := hacts ▸ mem_flatMap.mpr ⟨r, hr, hb⟩
      obtain rfl : b = block₁ := by simpa [laterActs] using hmem
      rw [blockEncode_eq] at he
      split at he
      · exact (Except.ok.inj he).symm
      · cases he
  rintro x ⟨hx, -⟩ y ⟨hy, -⟩ -
  exact (hheld hx).trans (hheld hy).symm

theorem signing_discipline_sample : ∃ s hist c c',
    calls sampleCrypto (sampleWorld.nodes 1) laterEvents = some (s, hist) ∧
      signCall sampleCrypto s (sampleEvent 1 151 (.proposal (blockBytes block₂))) = some c ∧
      signed sampleCrypto (sampleWorld.nodes 1) (sampleEvent 1 30 .tick) = some c' ∧
      OnCommittee sampleCrypto sampleSetup.genesis (sampleSetup.self 1) c.state.head.hash c.state.h ∧
      c'.state.h < c.state.h := by
  have hlater : ((calls sampleCrypto (sampleWorld.nodes 1) laterEvents).bind fun r =>
      (signCall sampleCrypto r.1 (sampleEvent 1 151 (.proposal (blockBytes block₂)))).map fun _ =>
        r.2.flatMap Prod.snd) = some laterActs := by
    unfold calls callNext call tick tickPropose onProposal considerSigning signCall proposalSigns
      considerSigns compose
    simp only [blockHash_eq, blockEncode_eq]
    decide +kernel
  have hfirst : (signed sampleCrypto (sampleWorld.nodes 1) (sampleEvent 1 30 .tick)).isSome = true := by
    unfold signed signCall tickSigns compose
    simp only [blockHash_eq, blockEncode_eq]
    decide +kernel
  obtain ⟨⟨s, hist⟩, hrun, hsign⟩ := Option.bind_eq_some_iff.mp hlater
  obtain ⟨c, hsign, hacts⟩ := Option.map_eq_some_iff.mp hsign
  obtain ⟨c', hc'⟩ := Option.isSome_iff_exists.mp hfirst
  obtain ⟨-, hon, habove⟩ := signing_discipline sampleNode_init hrun hsign
  exact ⟨s, hist, c, c', hrun, hsign, hc', hon, habove (later_injOn hrun hacts) [] _ _ _ _ c' rfl rfl hc'⟩

end AntsClient.Chain.Signing
