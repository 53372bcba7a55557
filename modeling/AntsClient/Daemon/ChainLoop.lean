import AntsClient.Chain.Filing

namespace AntsClient.Daemon.ChainLoop

open Common Crypto Chain Blocks BlockValues Runtime Simulation Agreement Signing Filing

structure AntsdGenesis where
  time : UInt64
  hash : Bytes32
  trustees : List Bytes32
  deriving DecidableEq

structure Loop where
  genesis : AntsdGenesis
  pub : Bytes32
  on : Bool
  pending : Bool
  rt : Option Rt
  deriving DecidableEq

def phase1K : Nat := 5

def config (genesis : AntsdGenesis) (pub : Bytes32) : Config :=
  ⟨⟨genesis.trustees, genesis.time, genesis.hash, phase1K⟩, pub, true, true⟩

section

variable {ι : Type} (crypto : Primitives)

def chainBegin (c : Loop) (now : UInt64) : Option (Except Error Loop) :=
  (init crypto (config c.genesis c.pub) now).map fun r => r.map fun rt =>
    { c with rt := some rt, on := true, pending := false }

def chainStart (genesis : AntsdGenesis) (pub : Bytes32) (now : UInt64) : Option (Except Error Loop) :=
  let c : Loop := ⟨genesis, pub, false, false, none⟩
  if now < genesis.time then some (.ok { c with pending := true }) else chainBegin crypto c now

def chainWake (c : Loop) (now : UInt64) : Option Loop :=
  if c.pending ∧ now ≥ c.genesis.time then
    match chainBegin crypto c now with
    | none => none
    | some (.ok c) => some c
    | some (.error _) => some { c with pending := false }
  else some c

def found (c : Loop) (e : Event ι) : Option Loop := if e.input = .tick then chainWake crypto c e.now else some c

/-- The runtime that a call reaches. Frames come in only while the loop is on. -/
def reached (c : Loop) : Option Rt := if c.on then c.rt else none

def loopCall (c : Loop) (e : Event ι) : Option (Loop × List Act) :=
  (found crypto c e).bind fun c =>
    match reached c with
    | none => some (c, [])
    | some rt => (call crypto rt e).map fun r => ({ c with rt := some r.1 }, r.2)

def signedBlock (c : Loop) (e : Event ι) : Option Block :=
  (found crypto c e).bind fun c => (reached c).bind fun rt => (signed crypto rt e).map SignCall.block

/-- The lives of a process started again with the same genesis and identity: the blocks signed
earlier, the loop, and those signed in this one. Every call meets `C`. -/
inductive Lives (genesis : AntsdGenesis) (pub : Bytes32) (C : List Block → Loop → Event ι → Prop) :
    List Block → Loop → List Block → Prop
  | start {now : UInt64} {c : Loop} :
    chainStart crypto genesis pub now = some (.ok c) → Lives genesis pub C [] c []
  | restart {before blocks : List Block} {c c' : Loop} {now : UInt64} : Lives genesis pub C before c blocks →
      chainStart crypto genesis pub now = some (.ok c') → Lives genesis pub C (before ++ blocks) c' []
  | call {before blocks : List Block} {c c' : Loop} {e : Event ι} {acts : List Act} :
    Lives genesis pub C before c blocks →
      C before c e → loopCall crypto c e = some (c', acts) →
      Lives genesis pub C before c' (blocks ++ (signedBlock crypto c e).toList)

/-- The call may come to sign: a tick on the node's turn, or a block of its attempt on its head. -/
def MaySign (s : Rt) (e : Event ι) : Prop :=
  match e.input with
  | .tick => if e.now ≥ s.attemptStart + finalityTimeoutS then e.now ≥ e.now + drandFloorS else Turn s e.now
  | .proposal block => ∃ b, blockDecode block maxPatternFindings = .ok b ∧ s.member = true ∧ b.height = s.h ∧
      s.lastSignedHeight < s.h ∧ b.prevBlockHash = s.head.hash
  | .attestation _ => False

/-- A call that may come to sign is at a height at which nothing was signed in earlier lives. -/
def FreshHeight (before : List Block) (c : Loop) (e : Event ι) : Prop :=
  ∀ rt, (found crypto c e).bind reached = some rt → MaySign rt e →
    ∀ b ∈ before, b.height ≠ attemptOf rt e

end

variable {ι : Type} {crypto : Primitives}

theorem startAttempt_start {s s' : Rt} {height now : UInt64}
    (h : startAttempt crypto s height now = some s') : s'.attemptStart = now := by
  obtain ⟨member, myPos, proposerPos, -, ⟨rfl, -⟩ | rfl⟩ := startAttempt_cases h
  · rfl
  · rfl

section

variable {s : Rt} {e : Event ι} {c : SignCall}

theorem signCall_maySign (h : signCall crypto s e = some c) : MaySign s e ∧ c.state.h = attemptOf s e := by
  rw [signCall] at h
  rw [MaySign, attemptOf]
  split at h
  · rename_i hin
    rw [hin]
    by_cases hlate : e.now ≥ s.attemptStart + finalityTimeoutS
    · rw [if_pos hlate] at h
      obtain ⟨s₁, hs, h⟩ := Option.bind_eq_some_iff.mp h
      obtain ⟨⟨-, -, -, -, hfloor, -⟩, -⟩ := tickSigns_some h
      obtain ⟨hsame, -⟩ := tickSigns_careful h
      rw [startAttempt_start hs] at hfloor
      simp only [hlate, if_true, and_self]
      exact ⟨hfloor, hsame.h.trans (startAttempt_some hs).2.1.2.1⟩
    · rw [if_neg hlate] at h
      obtain ⟨hturn, -⟩ := tickSigns_some h
      simp only [hlate, if_false, and_false]
      exact ⟨hturn, (tickSigns_careful h).1.h⟩
  · rename_i block hin
    obtain ⟨b, hash, i, hb, -, -, hcon⟩ := proposalSigns_some h
    obtain ⟨hsame, hlast, -⟩ := proposalSigns_careful h
    obtain ⟨-, -, ⟨hmember, hheight, habove, hprev, -⟩, -⟩ := considerSigns_some hcon
    rw [hsame.member] at hmember
    rw [hsame.h] at hheight
    rw [hlast, hsame.h] at habove
    rw [hsame.head] at hprev
    simp only [hin, reduceCtorEq, false_and, if_false]
    exact ⟨⟨b, hb, hmember, hheight, habove, hprev⟩, hsame.h⟩
  · cases h

theorem signCall_block (h : signCall crypto s e = some c) : c.block.height = c.state.h := by
  obtain ⟨-, -, -, -, hcareful⟩ := signCall_some h
  obtain ⟨cutoff, q, hc, -⟩ := hcareful.composed
  exact (compose_ok hc).2.1

end

theorem signedBlock_fresh {c : Loop} {e : Event ι} {before : List Block} {b b' : Block}
    (hfresh : FreshHeight crypto before c e) (hb' : signedBlock crypto c e = some b') (hb : b ∈ before) :
    b.height ≠ b'.height := by
  obtain ⟨c', hfound, hb'⟩ := Option.bind_eq_some_iff.mp hb'
  obtain ⟨rt, hrt, hb'⟩ := Option.bind_eq_some_iff.mp hb'
  obtain ⟨sc, hsigned, rfl⟩ := Option.map_eq_some_iff.mp hb'
  obtain ⟨hmay, hattempt⟩ := signCall_maySign (signed_some hsigned)
  rw [signCall_block (signed_some hsigned), hattempt]
  exact hfresh rt (by rw [hfound, Option.bind_some, hrt]) hmay b hb

/-- As long as a restarted process is at no height of its earlier lives when it may sign, it signs
no other block there. -/
theorem restart_signs_anew {genesis : AntsdGenesis} {pub : Bytes32} {before blocks : List Block} {c : Loop}
    (h : Lives crypto genesis pub (@FreshHeight ι crypto) before c blocks) :
    ∀ b ∈ before, ∀ b' ∈ blocks, b'.height = b.height → b' = b := by
  induction h with
  | start _ => simp
  | restart _ _ _ => simp
  | @call before blocks c c' e acts _ hfresh _ ih =>
    intro b hb b' hb' hheight
    rcases List.mem_append.mp hb' with hb' | hb'
    · exact ih b hb b' hb' hheight
    · exact absurd hheight.symm (signedBlock_fresh hfresh (Option.mem_toList.mp hb') hb)

def sampleGenesis : AntsdGenesis := ⟨0, zero32, [trustee₀, trustee₁, trustee₂]⟩

def zeroLoop : Loop := ⟨sampleGenesis, zero32, false, false, none⟩

def loopStart (crypto : Primitives) (now : UInt64) : Loop :=
  match chainStart crypto sampleGenesis trustee₁ now with
  | some (.ok c) => c
  | _ => zeroLoop

def loopAfter (crypto : Primitives) (c : Loop) (e : Event Unit) : Loop :=
  ((loopCall crypto c e).map Prod.fst).getD zeroLoop

def lateBlock : Block := ⟨1, zero32, true, 0, 90, noProofs, []⟩

def lateHash : Bytes32 := digest 0x08f7cf7e86d76f59b60fa372b592cb1888f84110fdfe6e1025bfa14b662c6e31

def restartSignatures : List (Bytes32 × Bytes32 × Signature) := sampleSignatures ++ [
  (trustee₁, lateHash, Chain.Agreement.signature
    0xf37e4afdbb627f4e6604be85f7eb69c7df34d51c08438fa8971b6ab5468753f9ba743a7e6324ed5f141d7023e46e64400b7e33f6166fda50a3914fdf733dbb0f)]

def restartCrypto : Primitives :=
  tablePrimitives sampleDraws (sampleHashes ++ [(blockBytes lateBlock, lateHash)]) restartSignatures

def restartEvent (now : UInt64) (input : Input) : Event Unit :=
  ⟨(), now, input, tableCallbacks trustee₁ restartSignatures⟩

section Sample

variable {C : List Block → Loop → Event Unit → Prop}

theorem restart_start : chainStart restartCrypto sampleGenesis trustee₁ 0 =
      some (.ok (loopStart restartCrypto 0)) ∧
    chainStart restartCrypto sampleGenesis trustee₁ 60 = some (.ok (loopStart restartCrypto 60)) := by
  decide +kernel

theorem restart_call {before blocks : List Block} {c : Loop} {e : Event Unit} {b : Option Block}
    (h : Lives restartCrypto sampleGenesis trustee₁ C before c blocks) (hC : C before c e)
    (hreturn : (loopCall restartCrypto c e).isSome = true) (hsigned : signedBlock restartCrypto c e = b) :
    Lives restartCrypto sampleGenesis trustee₁ C before (loopAfter restartCrypto c e) (blocks ++ b.toList) := by
  obtain ⟨⟨c', acts⟩, hcall⟩ := Option.isSome_iff_exists.mp hreturn
  have hafter : loopAfter restartCrypto c e = c' := by rw [loopAfter, hcall, Option.map_some, Option.getD_some]
  rw [hafter, ← hsigned]
  exact h.call hC hcall

theorem restart_ticks :
    ((loopCall restartCrypto (loopStart restartCrypto 0) (restartEvent 30 .tick)).isSome = true ∧
      signedBlock restartCrypto (loopStart restartCrypto 0) (restartEvent 30 .tick) = some block₁) ∧
    (loopCall restartCrypto (loopStart restartCrypto 60) (restartEvent 90 .tick)).isSome = true ∧
      signedBlock restartCrypto (loopStart restartCrypto 60) (restartEvent 90 .tick) = some lateBlock := by
  unfold loopCall signedBlock call tick tickPropose onProposal considerSigning signed signCall
    tickSigns proposalSigns
    considerSigns compose
  simp only [blockHash_eq, blockEncode_eq]
  decide +kernel

theorem restart_lives (hC : C [] (loopStart restartCrypto 0) (restartEvent 30 .tick)) :
    Lives restartCrypto sampleGenesis trustee₁ C [block₁] (loopStart restartCrypto 60) [] := by
  have hlives := restart_call (.start restart_start.1) hC restart_ticks.1.1 restart_ticks.1.2
  exact hlives.restart restart_start.2

end Sample

/-- The process is started again a minute later, and signs a second block at the same
height. -/
theorem restart_equivocates : ∃ before c blocks, ∃ b ∈ before, ∃ b' ∈ blocks,
    Lives restartCrypto sampleGenesis trustee₁ (fun _ _ (_ : Event Unit) => True) before c blocks ∧
      b'.height = b.height ∧ b' ≠ b := by
  have hfirst : Lives restartCrypto sampleGenesis trustee₁ (fun _ _ (_ : Event Unit) => True) [block₁]
      (loopStart restartCrypto 60) [] := restart_lives trivial
  have hlives := restart_call hfirst trivial restart_ticks.2.1 restart_ticks.2.2
  exact ⟨[block₁], _, [lateBlock], block₁, by simp, lateBlock, by simp, hlives, rfl, by decide⟩

def laterLoop : Loop := loopAfter restartCrypto (loopStart restartCrypto 60) (restartEvent 180 .tick)

def attestedLoop : Loop := loopAfter restartCrypto laterLoop
      (restartEvent 181 (.attestation (attestationBy third proposal₂)))

theorem restart_later :
    ((loopCall restartCrypto (loopStart restartCrypto 60) (restartEvent 180 .tick)).isSome = true ∧
      signedBlock restartCrypto (loopStart restartCrypto 60) (restartEvent 180 .tick) = none ∧
      ((found restartCrypto (loopStart restartCrypto 60) (restartEvent 180 .tick)).bind reached).map
        Rt.attemptStart = some 60) ∧
    ((loopCall restartCrypto laterLoop
      (restartEvent 181 (.attestation (attestationBy 2 proposal₂)))).isSome = true ∧
      signedBlock restartCrypto laterLoop
        (restartEvent 181 (.attestation (attestationBy 2 proposal₂))) = none) ∧
    (loopCall restartCrypto attestedLoop (restartEvent 181 (.proposal (blockBytes block₂)))).isSome = true ∧
      signedBlock restartCrypto attestedLoop (restartEvent 181 (.proposal (blockBytes block₂))) = some block₂ ∧
      ((found restartCrypto attestedLoop (restartEvent 181 (.proposal (blockBytes block₂)))).bind
        reached).map Rt.h = some 2 := by
  unfold attestedLoop laterLoop loopAfter loopCall signedBlock call tick tickPropose onProposal
    considerSigning signed signCall
    tickSigns proposalSigns considerSigns compose
  simp only [blockHash_eq, blockEncode_eq]
  decide +kernel

theorem restart_freshHeight :
    FreshHeight restartCrypto [block₁] (loopStart restartCrypto 60) (restartEvent 180 .tick) ∧
      FreshHeight restartCrypto [block₁] laterLoop
        (restartEvent 181 (.attestation (attestationBy 2 proposal₂))) ∧
      FreshHeight restartCrypto [block₁] attestedLoop (restartEvent 181 (.proposal (blockBytes block₂))) := by
  refine ⟨?_, ?_, ?_⟩
  · intro rt hrt hmay
    have hstart := restart_later.1.2.2
    rw [hrt] at hstart
    have hlate : rt.attemptStart = 60 := Option.some.inj hstart
    simp only [MaySign, restartEvent, hlate] at hmay
    rw [if_pos (by decide)] at hmay
    exact absurd hmay (by decide)
  · intro rt _ hmay
    exact False.elim hmay
  · intro rt hrt _ b hb
    have hheight := restart_later.2.2.2.2
    rw [hrt] at hheight
    have hh : rt.h = 2 := Option.some.inj hheight
    obtain rfl : b = block₁ := by simpa using hb
    simp only [attemptOf, restartEvent, reduceCtorEq, false_and, if_false, hh]
    decide

theorem restart_signs_anew_sample : ∃ c,
    Lives restartCrypto sampleGenesis trustee₁ (@FreshHeight Unit restartCrypto) [block₁] c [block₂] ∧
      ∀ b ∈ [block₁], ∀ b' ∈ [block₂], b'.height = b.height → b' = b := by
  obtain ⟨⟨hreturn₁, hsigned₁, -⟩, ⟨hreturn₂, hsigned₂⟩, hreturn₃, hsigned₃, -⟩ := restart_later
  obtain ⟨hfresh₁, hfresh₂, hfresh₃⟩ := restart_freshHeight
  have h₀ : Lives restartCrypto sampleGenesis trustee₁ (@FreshHeight Unit restartCrypto) [block₁]
      (loopStart restartCrypto 60) [] :=
    restart_lives fun rt _ _ b hb => by cases hb
  have h₁ : Lives restartCrypto sampleGenesis trustee₁ _ [block₁] laterLoop [] :=
    restart_call h₀ hfresh₁ hreturn₁ hsigned₁
  have h₂ : Lives restartCrypto sampleGenesis trustee₁ _ [block₁] attestedLoop [] :=
    restart_call h₁ hfresh₂ hreturn₂ hsigned₂
  have h₃ := restart_call h₂ hfresh₃ hreturn₃ hsigned₃
  exact ⟨_, h₃, restart_signs_anew h₃⟩

end AntsClient.Daemon.ChainLoop
