import AntsClient.Chain.BlockCodec
import AntsClient.Crdt.Converge
import AntsClient.Lib.MerklePath

namespace AntsClient.Chain.Honest

open Common Cbor Head EncoderSpec Crypto Lib MerkleTree MerklePath Merkle Blocks BlockSpec
  BlockCodec Crdt Proof Container Operations Converge

def claimedPath (t : Transition) : List (Sibling Bytes32) :=
  siblings (cpSibling t.path) t.nLeaves t.leafIndex t.nLeaves 0

variable {crypto : Primitives}

theorem cpFold_eq_foldPath (path : Bytes) (fuel idx count consumed : Nat) (cur : Bytes32) :
    cpFold crypto path fuel idx count consumed cur =
      foldPath (nodeHash crypto) (cpSibling path) fuel idx count consumed cur := by
  induction fuel generalizing idx count consumed cur with
  | zero => rfl
  | succ fuel ih =>
    rw [cpFold, foldPath, ih, ih, ih]
    rfl

theorem cpFold_eq_climb (path : Bytes) (fuel idx count consumed : Nat) (cur : Bytes32) :
    cpFold crypto path fuel idx count consumed cur =
      climb (inputHash crypto) cur (siblings (cpSibling path) fuel idx count consumed) := by
  rw [cpFold_eq_foldPath, ← foldPath_eq_climb]
  rfl

variable (crypto) in
def foldInputs (t : Transition) : Set Bytes :=
  inputBytes '' insert (.leaf (contentId crypto t.cited))
    (climbInputs (inputHash crypto) (inputHash crypto (.leaf (contentId crypto t.cited))) (claimedPath t))

theorem verifyInvalidTransition_iff {judge : Bytes → Except Error Unit} {evidence : Bytes}
    {subject : Bytes32} {epoch : UInt64} :
    verifyInvalidTransition crypto judge evidence subject epoch = .ok () ↔
      ∃ t root, runDec decTransition evidence = .ok t ∧ t.block ≠ [] ∧ t.sig.length = sigSize ∧ t.cited ≠ [] ∧
        t.nLeaves ≤ 2 ^ cpMerkleMaxDepth ∧ t.leafIndex < t.nLeaves ∧
        t.path.length = cpPathLen t.nLeaves t.leafIndex t.nLeaves * 32 ∧
        parseBlockSummary t.block = .ok (epoch, root) ∧
        crypto.ed25519Verify subject (crypto.blake3 t.block).val t.sig = true ∧
        cpFoldToRoot crypto (contentId crypto t.cited) t.leafIndex t.nLeaves t.path = root ∧
        judgeCited judge t.cited = .ok () := by
  constructor
  · intro h
    obtain ⟨t, ht, h⟩ := except_bind_eq_ok.mp h
    simp only [except_guard_iff, not_or, not_not, ne_eq, List.length_eq_zero_iff, Nat.not_lt,
      ge_iff_le, Nat.not_le] at h
    obtain ⟨⟨hblock, hsig, hcited⟩, ⟨-, hmax⟩, hindex, hpath, h⟩ := h
    obtain ⟨⟨sumEpoch, root⟩, hr, h⟩ := except_bind_eq_ok.mp h
    simp only [except_guard_iff, not_not, Bool.not_eq_true', Bool.not_eq_false] at h
    obtain ⟨rfl, hverify, hroot, hjudge⟩ := h
    exact ⟨t, root, ht, hblock, hsig, hcited, hmax, hindex, hpath, hr, hverify, hroot, hjudge⟩
  · rintro ⟨t, root, ht, hblock, hsig, hcited, hmax, hindex, hpath, hr, hverify, hroot, hjudge⟩
    refine except_bind_eq_ok.mpr ⟨t, ht, ?_⟩
    simp only [except_guard_iff, not_or, not_not, ne_eq, List.length_eq_zero_iff, Nat.not_lt,
      ge_iff_le, Nat.not_le]
    refine ⟨⟨hblock, hsig, hcited⟩, ⟨by omega, hmax⟩, hindex, hpath, except_bind_eq_ok.mpr ⟨_, hr, ?_⟩⟩
    simp only [except_guard_iff, not_not, Bool.not_eq_true', Bool.not_eq_false]
    exact ⟨trivial, hverify, hroot, hjudge⟩

theorem judgeCited_accepted {cited : Bytes} (h : verify crypto cited = .ok ()) :
    judgeCited (verifyLevel crypto 1) cited ≠ .ok () := by
  obtain ⟨v, hv⟩ := decode_of_verify h
  rw [verify, verifyLevel_of_decode hv] at h
  rw [judgeCited, hv]
  simp only
  by_cases h2 : v.faultType = faultEquivocation
  · have hinner : verifyLevel crypto 1 cited = .ok () := by
      rw [if_pos h2] at h
      rw [verifyLevel_of_decode hv, if_pos h2, h]
    simp [h2, hinner, faultEquivocation, faultInvalidTransition, faultReservedMin]
  · by_cases h1 : v.faultType = faultInvalidTransition
    · simp [h1]
    · rw [if_neg h2, if_neg h1] at h
      cases h

/-- Nobody can be slashed for signing a block composed from accepted proofs, whatever the accusation
claims. -/
theorem propose_not_slashable {P : Finset Bytes} {ids : List Bytes32}
    {height epoch cutoffTime : UInt64} {prev : Bytes32}
    {degraded : Bool} {events : List Event} {findingsCap : Nat} {b : Block} {buf block accusation : Bytes}
    {view : FaultProofView} {t : Transition} (hP : ∀ p ∈ P, verify crypto p = .ok ())
    (hids : ∀ id, id ∈ ids ↔ ∃ p ∈ P, contentId crypto p = id)
    (hpropose : blockPropose crypto height prev epoch cutoffTime degraded ids events findingsCap = .ok b)
    (hencode : blockEncode b buf = .ok block) (hview : faultProofDecode accusation = .ok view)
    (htype : view.faultType = faultInvalidTransition) (ht : runDec decTransition view.evidence = .ok t)
    (hblock : t.block = block)
    (hinj : Set.InjOn crypto.blake3 (insert t.cited ↑P ∪ (rootInputs crypto ids ∪ foldInputs crypto t))) :
    verify crypto accusation ≠ .ok () := by
  intro hverify
  have hroot : confirmedRoot crypto ids = .ok b.summary.confirmedProofs := by
    obtain ⟨root, hroot, h⟩ := except_bind_eq_ok.mp hpropose
    obtain ⟨findings, -, h⟩ := except_bind_eq_ok.mp h
    simp only [except_guard_iff] at h
    obtain rfl := Except.ok.inj h.2
    exact hroot
  have hdiff : faultInvalidTransition ≠ faultEquivocation := by decide
  rw [verify, verifyLevel_of_decode hview, htype, if_neg hdiff, if_pos rfl] at hverify
  obtain ⟨t', root, ht', -, -, -, -, -, -, hparse, -, hfold, hjudge⟩ := verifyInvalidTransition_iff.mp hverify
  obtain rfl : t = t' := Except.ok.inj (ht.symm.trans ht')
  rw [hblock, parseBlockSummary_encode hencode] at hparse
  rw [← (Prod.mk.inj (Except.ok.inj hparse)).2, cpFoldToRoot, cpFold_eq_climb] at hfold
  have hmem : contentId crypto t.cited ∈ ids :=
    mem_of_climb hroot (hinj.mono Set.subset_union_right) hfold
  obtain ⟨p, hp, hid⟩ := (hids _).mp hmem
  obtain rfl : p = t.cited := hinj (.inl (.inr hp)) (.inl (.inl rfl)) hid
  exact judgeCited_accepted (hP _ hp) hjudge

def sampleBlock : Block where
  height := 5
  prevBlockHash := zero32
  degradedSeed := true
  summary :=
    { epoch := 7
      cutoffTime := 1000
      confirmedProofs := ⟨beBytes 32 0xed93c97f8afab85ab3a70cf8bfa46130d5821bd75626e9ff71ad0c5c58f7c057, rfl⟩
      findings := [⟨samplePeer, 1, 2592000, 1, 1⟩] }

def sampleBlockBytes : Bytes :=
  callBytes (blockCalls sampleBlock (callBytes (summaryCalls sampleBlock.summary)))

def sampleBlockHash : Bytes32 :=
  ⟨beBytes 32 0x67af71f2d3f87335c79e8e72b7089cce5091495064a137424649b2b44cb2e5b8, rfl⟩

def sampleSigner : Bytes32 :=
  ⟨beBytes 32 0x3d4017c3e843895a92b70aa74d1b7ebc9c982ccf2ec4968cc0cd55f12af4660c, rfl⟩

def sampleBlockSig : Bytes :=
  beBytes 32 0x2377af093978272cc958c1b5896835811d3f2777e68afec0c5f71956966d5d34 ++
    beBytes 32 0x398b7524edbd22aa531696cb8bba7bd6c620863c797aa6bdc53f5a61a8a74908

def sampleAccusation : Bytes :=
  [0xa4, 0x00, 0x58, 0x20] ++ sampleSigner.val ++
    [0x01, 0x01, 0x02, 0x07, 0x03, 0x86, 0x58, 0x87] ++ sampleBlockBytes ++
    [0x58, 0x40] ++ sampleBlockSig ++ [0x58, 0xc6] ++ sampleProof ++ [0x00, 0x01, 0x40]

def accusedCrypto : Primitives where
  blake3 b :=
    if b = 0x00 :: (sampleCrypto.blake3 sampleProof).val then sampleBlock.summary.confirmedProofs
    else if b = sampleBlockBytes then sampleBlockHash
    else sampleCrypto.blake3 b
  blake3DeriveKey := sampleCrypto.blake3DeriveKey
  ed25519Verify peer msg sig :=
    peer = sampleSigner && msg = sampleBlockHash.val && sig = sampleBlockSig ||
      sampleCrypto.ed25519Verify peer msg sig

theorem sampleBlock_encode : blockEncode sampleBlock (List.replicate 135 0) = .ok sampleBlockBytes := by
  have hsummary : epochSummaryEncode sampleBlock.summary (List.replicate epochSummaryEncodedMax 0) =
      .ok (callBytes (summaryCalls sampleBlock.summary)) := by
    rw [epochSummaryEncode, if_neg (by decide), if_neg (by decide), encSummary_eq, encodeBuf_iff,
      List.length_replicate]
    exact ⟨by decide +kernel, rfl, by decide +kernel, by decide +kernel⟩
  rw [blockEncode, hsummary]
  simp only
  rw [encBlock_eq, encodeBuf_iff, List.length_replicate]
  exact ⟨by decide +kernel, rfl, by decide +kernel, by decide +kernel⟩

theorem propose_not_slashable_sample : verify accusedCrypto sampleAccusation ≠ .ok () := by
  have hcited : accusedCrypto.blake3 sampleProof = sampleCrypto.blake3 sampleProof := by decide +kernel
  have hinj : Set.InjOn accusedCrypto.blake3 {sampleProof, 0x00 :: (sampleCrypto.blake3 sampleProof).val} := by
    have hne : accusedCrypto.blake3 sampleProof ≠
        accusedCrypto.blake3 (0x00 :: (sampleCrypto.blake3 sampleProof).val) := by
      decide +kernel
    exact Set.injOn_pair.mpr fun heq => absurd heq hne
  refine @propose_not_slashable accusedCrypto {sampleProof} [accusedCrypto.blake3 sampleProof] 5 7
    1000 zero32 true
    [⟨samplePeer, 900, 0⟩] 256 sampleBlock (List.replicate 135 0) sampleBlockBytes sampleAccusation
    ⟨sampleSigner, 1, 7, sampleAccusation.drop 41⟩ ⟨sampleBlockBytes, sampleBlockSig, sampleProof, 0, 1, []⟩
    ?_ ?_ ?_ sampleBlock_encode ?_ rfl ?_ rfl ?_
  · intro p hp
    rw [Finset.mem_singleton.mp hp]
    decide +kernel
  · intro id
    simp [contentId, eq_comm]
  · decide +kernel
  · decide +kernel
  · decide +kernel
  · refine hinj.mono ?_
    rintro p ((rfl | hp) | (⟨i, rfl, rfl⟩ | ⟨i, (rfl | hi), rfl⟩))
    · exact .inl rfl
    · exact .inl (Finset.mem_singleton.mp hp)
    · exact .inr (congrArg (fun id : Bytes32 => 0x00 :: id.val) hcited)
    · exact .inr (congrArg (fun id : Bytes32 => 0x00 :: id.val) hcited)
    · exact hi.elim

end AntsClient.Chain.Honest
