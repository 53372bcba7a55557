import AntsClient.Chain.Blocks
import AntsClient.Chain.Committee

namespace AntsClient.Chain.Runtime

open Common Crypto Blocks Committee

def maxProposals : Nat := 4

def maxAttestations : Nat := 2 * committeeKMax

def drandFloorS : UInt64 := 30

def epochDurationS : UInt64 := 86400

def clockSkewS : UInt64 := 10

def rebroadcastS : UInt64 := 10

def blockTimeS : UInt64 := 30

def finalityTimeoutS : UInt64 := 120

def viewWindowEpochs : UInt64 := 30

structure Attestation where
  height : UInt64
  blockHash : Bytes32
  signer : Bytes32
  sig : Signature
  deriving DecidableEq

structure Head where
  height : UInt64
  hash : Bytes32
  cutoffTime : UInt64
  epoch : UInt64
  degradedSeed : Bool
  deriving DecidableEq

structure Proposal where
  degraded : Bool
  height : UInt64
  cutoff : UInt64
  epoch : UInt64
  prev : Bytes32
  hash : Bytes32
  bytes : Bytes
  deriving DecidableEq

structure Genesis where
  trustees : List Bytes32
  genesisTime : UInt64
  genesisHash : Bytes32
  kPhase : Nat
  deriving DecidableEq

/-- The two callbacks that the runtime takes answers from, as they behave during one
call of the interface. -/
structure Callbacks where
  signFn : Bytes32 → Except Error Signature
  viewFn : UInt64 → Except Error (List Bytes32 × List Event)

/-- What the runtime did: a block hash it took, a proposal signed, what it handed to
`attestation_fn`, `proposal_fn` and `final_fn`, and the height of an attempt given up, with the last
height signed by then. -/
inductive Act
  | hash (b : Block)
  | sign (p : Proposal)
  | attestation (a : Attestation)
  | proposal (block : Bytes)
  | final (p : Proposal)
  | skip (height lastSigned : UInt64)
  deriving DecidableEq

/-- `struct rt_state`. A slot that is not in use is `none`; the number beside an
attestation is its place in the filing order. -/
structure Rt where
  genesis : Genesis
  self : Bytes32
  isTrustee : Bool
  head : Head
  h : UInt64
  attemptStart : UInt64
  member : Bool
  myPos : Nat
  proposerPos : Nat
  cur : Option Nat
  lastEmit : UInt64
  lastSignedHeight : UInt64
  props : List (Option Proposal)
  atts : List (Option (UInt64 × Attestation))
  nextAttSeq : UInt64
  deriving DecidableEq

def zeroProposal : Proposal := ⟨false, 0, 0, 0, zero32, zero32, []⟩

def trusteeIndex (genesis : Genesis) (id : Bytes32) : Option Nat := genesis.trustees.findIdx? (· = id)

def epochOf (genesis : Genesis) (cutoff : UInt64) : UInt64 := (cutoff - genesis.genesisTime) / epochDurationS

def viewEpochs (genesisTime cutoff : UInt64) : Option (UInt64 × UInt64) :=
  if cutoff < genesisTime then none
  else
    let e := (cutoff - genesisTime) / epochDurationS
    some (if e ≥ viewWindowEpochs - 1 then e - (viewWindowEpochs - 1) else 0, e)

def propFind (s : Rt) (hash : Bytes32) : Option Nat :=
  s.props.findIdx? fun slot => slot.any fun p => p.hash = hash

def propVictim (cur : Option Nat) : List (Option Proposal) → Nat → Option (Nat × UInt64) → Option Nat
  | [], _, victim => victim.map Prod.fst
  | none :: _, i, _ => some i
  | some p :: slots, i, victim =>
    if some i = cur then propVictim cur slots (i + 1) victim
    else if victim.any fun v => ¬p.height < v.2 then propVictim cur slots (i + 1) victim
    else propVictim cur slots (i + 1) (some (i, p.height))

def propAlloc (s : Rt) : Option (Nat × Rt) :=
  (propVictim s.cur s.props 0 none).map fun i => (i, { s with props := s.props.set i none })

def attMatches (hash signer : Bytes32) (a : Attestation) : Bool := a.blockHash = hash && a.signer = signer

def attFind (atts : List (Option (UInt64 × Attestation))) (hash signer : Bytes32) : Option Attestation :=
  atts.findSome? fun slot => (slot.map Prod.snd).filter (attMatches hash signer)

def attPlace : List (Option (UInt64 × Attestation)) → Nat → Option (Nat × UInt64) → Option Nat
  | [], _, oldest => oldest.map Prod.fst
  | none :: _, i, _ => some i
  | some (seq, _) :: slots, i, oldest =>
    if oldest.any fun o => ¬seq < o.2 then
      attPlace slots (i + 1) oldest else attPlace slots (i + 1) (some (i, seq))

def attFile (s : Rt) (a : Attestation) : Rt :=
  if (attFind s.atts a.blockHash a.signer).isSome then s
  else match attPlace s.atts 0 none with
    | none => s
    | some i => { s with atts := s.atts.set i (some (s.nextAttSeq + 1, a)), nextAttSeq := s.nextAttSeq + 1 }

def attAnyFor (s : Rt) (hash : Bytes32) : Bool := s.atts.any fun slot => slot.any fun a => a.2.blockHash = hash

def purgeBelowHead (s : Rt) : Rt :=
  { s with
    props := s.props.map fun slot => slot.filter fun p => p.height > s.head.height
    atts := s.atts.map fun slot => slot.filter fun a => a.2.height > s.head.height }

section

variable (crypto : Primitives)

def committeeFor (genesis : Genesis) (prev : Bytes32) (height : UInt64) : Option (Except Error (List Nat)) :=
  let k := if genesis.trustees.length < genesis.kPhase then genesis.trustees.length else genesis.kPhase
  committeeSelect crypto prev (vrfSeedDegraded crypto prev height) genesis.trustees.length k committeeKMax

def compose (genesis : Genesis) (cb : Callbacks) (height : UInt64) (prev : Bytes32) (cutoff : UInt64) :
    Except Error (Block × Proposal) := do
  let (ids, events) ← cb.viewFn cutoff
  let b ← blockPropose crypto height prev (epochOf genesis cutoff) cutoff true ids events maxPatternFindings
  let bytes ← blockEncode b (List.replicate blockEncodedMax 0)
  let hash ← blockHash crypto b
  return (b, ⟨true, height, cutoff, b.summary.epoch, prev, hash, bytes⟩)

def startAttempt (s : Rt) (height now : UInt64) : Option Rt :=
  let s := { s with h := height, attemptStart := now, cur := none, lastEmit := 0, member := false }
  match committeeFor crypto s.genesis s.head.hash height with
  | none => none
  | some (.error _) => some s
  | some (.ok committee) =>
    let mine := if s.isTrustee then trusteeIndex s.genesis s.self else none
    let pos := mine.bind fun i => committee.findIdx? (· = i)
    some (purgeBelowHead { s with
      member := pos.isSome
      myPos := pos.getD s.myPos
      proposerPos := ((proposer height committee.length).toOption).getD s.proposerPos })

def signAndEmit (cb : Callbacks) (s : Rt) (i : Nat) (p : Proposal) (emitProposal : Bool)
    (now : UInt64) : Rt × List Act :=
  match cb.signFn p.hash with
  | .error _ => (s, [])
  | .ok sig =>
    let a : Attestation := ⟨p.height, p.hash, s.self, sig⟩
    ({ attFile { s with lastSignedHeight := p.height, cur := some i } a with lastEmit := now },
      [.sign p, .attestation a] ++ if emitProposal then [.proposal p.bytes] else [])

def pubkeyAt (genesis : Genesis) (i : Nat) : Bytes32 := genesis.trustees.getD i zero32

def isFinal (s : Rt) (p : Proposal) : Option Bool :=
  if !p.degraded then some false
  else match committeeFor crypto s.genesis p.prev p.height with
    | none => none
    | some (.error _) => some false
    | some (.ok committee) =>
      let pubkeys := committee.map (pubkeyAt s.genesis)
      let found := pubkeys.map fun pubkey => attFind s.atts p.hash pubkey
      let sigs := found.flatMap fun a => (a.map fun a => a.sig.val).getD []
      some (finalityVerify crypto p.hash (pubkeys.zip (found.map Option.isSome)) sigs = .ok true)

def bestFinal (s : Rt) : List (Option Proposal) → Option Proposal → Option (Option Proposal)
  | [], best => some best
  | none :: slots, best => bestFinal s slots best
  | some p :: slots, best =>
    if p.height ≤ s.head.height then bestFinal s slots best
    else if best.any fun q => ¬p.height > q.height then bestFinal s slots best
    else match isFinal crypto s p with
      | none => none
      | some final => bestFinal s slots (if final then some p else best)

def headOf (p : Proposal) : Head := ⟨p.height, p.hash, p.cutoff, p.epoch, p.degraded⟩

def tryFinalize (s : Rt) (now : UInt64) : Option (Rt × List Act) :=
  match bestFinal crypto s s.props none with
  | none => none
  | some none => some (s, [])
  | some (some best) =>
    (startAttempt crypto { s with head := headOf best } (best.height + 1) now).map fun s => (s, [.final best])

structure Config where
  genesis : Genesis
  self : Bytes32
  signFn : Bool
  viewFn : Bool

def strictlyAscending : List Bytes32 → Bool
  | a :: b :: rest => memcmp a.val b.val = .lt && strictlyAscending (b :: rest)
  | _ => true

def init (cfg : Config) (now : UInt64) : Option (Except Error Rt) :=
  let genesis := cfg.genesis
  if genesis.trustees.length = 0 ∨ genesis.trustees.length > committeeKMax ∨ genesis.kPhase = 0 ∨
      now < genesis.genesisTime then
    some (.error .invalidArg)
  else if !strictlyAscending genesis.trustees then some (.error .invalidArg)
  else
    let isTrustee := (trusteeIndex genesis cfg.self).isSome
    if isTrustee ∧ (!cfg.signFn ∨ !cfg.viewFn) then some (.error .invalidArg)
    else
      let s : Rt :=
        { genesis := genesis, self := cfg.self, isTrustee := isTrustee
          head := ⟨0, genesis.genesisHash, genesis.genesisTime, 0, false⟩
          h := 0, attemptStart := 0, member := false, myPos := 0, proposerPos := 0, cur := none, lastEmit := 0
          lastSignedHeight := 0, props := List.replicate maxProposals none, atts :=
          List.replicate maxAttestations none
          nextAttSeq := 0 }
      (startAttempt crypto s 1 now).map .ok

def tickPropose (cb : Callbacks) (s : Rt) (now : UInt64) : Option (Rt × List Act) :=
  match propAlloc s with
  | none => some (s, [])
  | some (i, s) =>
    match compose crypto s.genesis cb s.h s.head.hash now with
    | .error _ => some (s, [])
    | .ok (b, p) =>
      let signed := signAndEmit cb { s with props := s.props.set i (some p) } i p true now
      (tryFinalize crypto signed.1 now).map fun r => (r.1, [.hash b] ++ signed.2 ++ r.2)

def tickRebroadcast (s : Rt) (now : UInt64) : Rt × List Act :=
  match s.cur with
  | none => (s, [])
  | some i =>
    if now ≥ s.lastEmit + rebroadcastS then
      let p := (s.props.getD i none).getD zeroProposal
      ({ s with lastEmit := now },
        ((attFind s.atts p.hash s.self).map Act.attestation).toList ++ [.proposal p.bytes])
    else (s, [])

def tick (cb : Callbacks) (s : Rt) (now : UInt64) : Option (Rt × List Act) :=
  let skips : Bool := now ≥ s.attemptStart + finalityTimeoutS
  let skipped : List Act := if skips then [.skip s.h s.lastSignedHeight] else []
  match if skips then startAttempt crypto s (s.h + 1) now else some s with
  | none => none
  | some s =>
    if s.member ∧ s.myPos = s.proposerPos ∧ s.cur = none ∧ s.lastSignedHeight < s.h ∧
        now ≥ s.attemptStart + drandFloorS ∧ now ≥ s.head.cutoffTime + blockTimeS then
      (tickPropose crypto cb s now).map fun r => (r.1, skipped ++ r.2)
    else
      let r := tickRebroadcast s now
      some (r.1, skipped ++ r.2)

def fileProposal (s : Rt) (b : Block) (hash : Bytes32) (block : Bytes) : Option (Nat × Proposal × Rt) :=
  match propFind s hash with
  | some i => (s.props.getD i none).map fun p => (i, p, s)
  | none =>
    let p : Proposal := ⟨true, b.height, b.summary.cutoffTime, b.summary.epoch, b.prevBlockHash, hash, block⟩
    (propAlloc s).map fun r => (r.1, p, { r.2 with props := r.2.props.set r.1 (some p) })

def considerSigning (cb : Callbacks) (s : Rt) (b : Block) (i : Nat) (p : Proposal) (now : UInt64) :
    Rt × List Act :=
  if s.member ∧ b.height = s.h ∧ s.lastSignedHeight < s.h ∧ b.prevBlockHash = s.head.hash ∧
      p.cutoff ≥ s.head.cutoffTime + blockTimeS ∧ p.cutoff ≤ now + clockSkewS then
    match compose crypto s.genesis cb s.h s.head.hash p.cutoff with
    | .error _ => (s, [])
    | .ok (mine, q) =>
      if q.hash = p.hash then
        let r := signAndEmit cb s i p false now
        (r.1, [.hash mine] ++ r.2)
      else (s, [.hash mine])
  else (s, [])

abbrev Result := Except Error Unit × Rt × List Act

def onProposal (cb : Callbacks) (s : Rt) (block : Bytes) (now : UInt64) : Option Result :=
  if block.length > blockEncodedMax then some (.error .invalidArg, s, [])
  else match blockDecode block maxPatternFindings with
    | .error err => some (.error err, s, [])
    | .ok b =>
      if !b.degradedSeed then some (.error .unsupportedType, s, [])
      else if b.height ≤ s.head.height ∨ b.summary.cutoffTime < s.genesis.genesisTime then some (.ok (), s, [])
      else match blockHash crypto b with
        | .error err => some (.error err, s, [])
        | .ok hash =>
          if (propFind s hash).isNone ∧ !attAnyFor s hash then some (.error .unsupportedType, s, [.hash b])
          else match fileProposal s b hash block with
            | none => some (.ok (), s, [.hash b])
            | some (i, p, s) =>
              let signed := considerSigning crypto cb s b i p now
              (tryFinalize crypto signed.1 now).map fun r => (.ok (), r.1, [.hash b] ++ signed.2 ++ r.2)

def onAttestation (s : Rt) (att : Attestation) (now : UInt64) : Option Result :=
  if (trusteeIndex s.genesis att.signer).isNone ∨
      !crypto.ed25519Verify att.signer att.blockHash.val att.sig.val then
    some (.error .malformed, s, [])
  else match attFind s.atts att.blockHash att.signer with
    | some known => some (if known.height = att.height then .ok () else .error .unsupportedType, s, [])
    | none =>
      if att.height ≤ s.head.height then some (.error .unsupportedType, s, [])
      else (tryFinalize crypto (attFile s att) now).map fun r => (.ok (), r)

end

end AntsClient.Chain.Runtime
