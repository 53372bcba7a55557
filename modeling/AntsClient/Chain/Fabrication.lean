import AntsClient.Chain.Honest
import AntsClient.Crypto.Tree

namespace AntsClient.Chain.Fabrication

open Common Cbor Head Tokens EncoderSpec Values Walk Canonical Schema Sizes Value Crypto Lib
  MerkleTree MerklePath Merkle Blocks BlockValues
  FieldReaders BlockCodec Honest Crdt Proof Readers Operations List

variable {crypto : Primitives}

theorem cpPathLen_eq (fuel idx count : Nat) : cpPathLen fuel idx count = pathLen fuel idx count := by
  induction fuel generalizing idx count with
  | zero => rfl
  | succ fuel ih => rw [cpPathLen, pathLen, ih]

theorem cpSibling_eq_hashAt (path : Bytes) : cpSibling path = Tree.hashAt path := by
  funext k
  rfl

theorem build_subtreeRootRange {ids : List Bytes32} (lo hi : Nat) (hlt : lo < hi)
    (hle : hi ≤ (ids.map (leafHash crypto)).length) :
    build (nodeHash crypto) (((ids.map (leafHash crypto)).drop lo).take (hi - lo)) =
      some (subtreeRootRange crypto ids lo hi) := by
  rw [length_map] at hle
  have hne : ((ids.drop lo).take (hi - lo)).map (leafHash crypto) ≠ [] := by
    rw [← length_pos_iff, length_map, length_take, length_drop]
    omega
  obtain ⟨root, hroot⟩ : ∃ root, build (nodeHash crypto) _ = some root := exists_root hne
  rw [subtreeRootRange, hroot, ← map_drop, ← map_take, hroot]
  rfl

variable {ids : List Bytes32} {root : Bytes32} {t : Transition}

theorem confirmedProve_spec {i : Nat} {id : Bytes32} (hi : ids[i]? = some id)
    (hroot : confirmedRoot crypto ids = .ok root) :
    ∃ path, path.length = merklePathLen i ids.length * 32 ∧ cpFoldToRoot crypto id i ids.length path = root ∧
      ∀ pathCap, path.length ≤ pathCap → confirmedProve crypto ids i pathCap = .ok path := by
  have hlt : i < ids.length := (List.getElem?_eq_some_iff.mp hi).1
  have hne : ids.length ≠ 0 := by omega
  rw [confirmedRoot, if_neg hne] at hroot
  split at hroot
  · cases hroot
  rename_i hmax
  split at hroot
  · cases hroot
  rename_i hasc
  obtain rfl := Except.ok.inj hroot
  have hleaf : (ids.map (leafHash crypto))[i]? = some (leafHash crypto id) := by
    rw [getElem?_map, hi]
    rfl
  have hlen : (ids.map (leafHash crypto)).length = ids.length := length_map _
  have hrange := @build_subtreeRootRange crypto ids
  have hwhole : build (nodeHash crypto) (ids.map (leafHash crypto)) =
      some (subtreeRootRange crypto ids 0 ids.length) := by
    have hall := hrange 0 ids.length (by omega) (le_of_eq hlen.symm)
    rwa [drop_zero, Nat.sub_zero, ← hlen, take_length, hlen] at hall
  obtain ⟨hplen, hfold⟩ := Tree.foldPath_provePath hrange hleaf hwhole
  rw [hlen] at hplen hfold
  refine ⟨_, hplen, ?_, fun pathCap hcap => ?_⟩
  · rw [cpFoldToRoot, cpFold_eq_foldPath, cpSibling_eq_hashAt]
    exact hfold
  · rw [confirmedProve, if_neg (by omega), if_neg hmax, if_neg hasc, if_neg (Nat.not_lt.mpr (hplen ▸ hcap))]

def evidenceValue (t : Transition) : Value :=
  .array [.bytes t.block, .bytes t.sig, .bytes t.cited, .uint t.leafIndex, .uint t.nLeaves, .bytes t.path]

def accusationValue (subject : Bytes32) (epoch : UInt64) (t : Transition) : Value :=
  .map [(.uint 0, .bytes subject.val), (.uint 1, .uint 1), (.uint 2, .uint epoch.toNat),
    (.uint 3, evidenceValue t)]

structure Sized (t : Transition) : Prop where
  block : t.block.length < 2 ^ 64
  sig : t.sig.length < 2 ^ 64
  cited : t.cited.length < 2 ^ 64
  leafIndex : t.leafIndex < 2 ^ 64
  nLeaves : t.nLeaves < 2 ^ 64
  path : t.path.length < 2 ^ 64

theorem tokens_evidence (t : Transition) : tokens (evidenceValue t) =
    [.array 6, .bytes t.block, .bytes t.sig, .bytes t.cited, .uint t.leafIndex, .uint t.nLeaves,
      .bytes t.path] := by
  simp [evidenceValue, tokens, tokensList]

theorem tokens_accusation (subject : Bytes32) (epoch : UInt64) (t : Transition) :
    tokens (accusationValue subject epoch t) =
    [.map 4, .uint 0, .bytes subject.val, .uint 1, .uint 1, .uint 2, .uint epoch.toNat, .uint 3] ++
      tokens (evidenceValue t) := by
  simp [accusationValue, tokens, tokensPairs]

theorem evidence_within (h : Sized t) : Within 1 (evidenceValue t) :=
  within_array (by simp)
    (by simp [within_bytes h.block, within_bytes h.sig, within_bytes h.cited, within_uint h.leafIndex,
    within_uint h.nLeaves, within_bytes h.path])

theorem accusation_wellFormed {subject : Bytes32} {epoch : UInt64} (h : Sized t) :
    WellFormed (accusationValue subject epoch t) := by
  have hwithin : Within 2 (accusationValue subject epoch t) :=
    within_fields [0, 1, 2, 3] rfl (by decide) (by simp [within_uint, evidence_within h])
  exact hwithin.wellFormed (by decide)

def transition (block : Bytes) (sig : Signature) (cited : Bytes) (leafIndex nLeaves : UInt64)
    (path : Bytes) : Transition :=
  ⟨block, sig.val, cited, leafIndex.toNat, nLeaves.toNat, path⟩

section Envelope

variable {subject : Bytes32} {epoch leafIndex nLeaves : UInt64} {block cited path : Bytes} {sig : Signature}

theorem faultProofDecode_accusation (h : Sized t) :
    faultProofDecode (encode (accusationValue subject epoch t)) =
      .ok ⟨subject, faultInvalidTransition, epoch, encode (evidenceValue t)⟩ := by
  have hwf : WellFormed (accusationValue subject epoch t) := accusation_wellFormed h
  have hleft := left_encode hwf
  rw [tokens_accusation] at hleft
  obtain ⟨d, hd, hrest⟩ := @takes_decEnvelope _ subject (fun s => s.length = 32) faultInvalidTransition epoch
    (by simp [subject.length_val]) _ _ hleft
  have hlt := hrest
  rw [tokens_evidence] at hlt
  rw [faultProofDecode, if_neg (encode_length_pos _).ne', isCanonical_encode.mpr ⟨_, hwf, rfl⟩]
  simp only [hd, if_neg (Nat.not_le.mpr hlt.pos_lt), toBytes32_eq_some.mpr rfl, hrest.rest]
  rfl

variable (ht : transition block sig cited leafIndex nLeaves path = t)

include ht

theorem encTransition_eq : encTransition subject epoch block sig cited leafIndex nLeaves path =
    encCalls (calls (accusationValue subject epoch t)) := by
  have hcalls : calls (accusationValue subject epoch t) =
      [.map 4, .uint 0, .bytes subject.val, .uint 1, .uint 1, .uint 2, .uint epoch, .uint 3,
        .array 6, .bytes block,
        .bytes sig.val, .bytes cited, .uint leafIndex, .uint nLeaves, .bytes path] := by
    simp [calls, tokens_accusation, tokens_evidence, ← ht, transition, Token.call]
  rw [hcalls]
  simp only [encTransition, faultInvalidTransition, encCalls, encCall, bind_pure_unit]

theorem invalidTransitionEncode_eq {buf : Bytes} (hblock : block ≠ []) (hcited : cited ≠ [])
    (hlt : leafIndex < nLeaves)
    (hsized : Sized t) (hbuf : (encode (accusationValue subject epoch t)).length ≤ buf.length) :
    invalidTransitionEncode subject epoch block sig cited leafIndex nLeaves path buf =
      .ok (encode (accusationValue subject epoch t)) := by
  have hpos : ¬ (nLeaves = 0 ∨ leafIndex ≥ nLeaves) := by
    rintro (rfl | hge)
    · exact UInt64.not_lt_zero hlt
    · exact UInt64.not_lt.mpr hge hlt
  rw [invalidTransitionEncode, if_neg (by simp [hblock, hcited]), if_neg hpos, encTransition_eq ht]
  exact (encodeInto_iff (accusation_wellFormed hsized)).mpr ⟨rfl, hbuf⟩

theorem decTransition_evidence (hsized : Sized t) :
    runDec decTransition (encode (evidenceValue t)) = .ok t := by
  have htakes : Takes decTransition (tokens (evidenceValue t)) [] t := by
    rw [tokens_evidence, ← ht]
    exact takes_decArrayOf.bind
      (takes_decBytesVal.bind (takes_decBytesVal.bind (takes_decBytesVal.bind (takes_decUintVal.bind
      (takes_decUintVal.bind (takes_decBytesVal.bind (takes_decFinish.bind takes_pure)))))))
  exact runDec_of_takes ((evidence_within hsized).wellFormed (by decide)) htakes

end Envelope

variable (crypto) in
def Fabricated (cited : Bytes) : Prop :=
  (∀ view, faultProofDecode cited ≠ .ok view) ∨
    ∃ view, faultProofDecode cited = .ok view ∧ view.faultType = faultEquivocation ∧
      verify crypto cited = .error .malformed

theorem judgeCited_fabricated {cited : Bytes} (h : Fabricated crypto cited) :
    judgeCited (verifyLevel crypto 1) cited = .ok () := by
  rcases h with h | ⟨view, hview, htype, hverify⟩
  · rw [judgeCited]
    cases hd : faultProofDecode cited with
    | error err => rfl
    | ok view => exact absurd hd (h view)
  · have hinner : verifyLevel crypto 1 cited = .error .malformed := by
      rw [verify, verifyLevel_of_decode hview, if_pos htype] at hverify
      rw [verifyLevel_of_decode hview, if_pos htype, hverify]
    rw [judgeCited, hview]
    simp [htype, hinner, faultEquivocation, faultInvalidTransition, faultReservedMin]

theorem confirmedRoot_length (h : confirmedRoot crypto ids = .ok root) : ids.length ≤ 2 ^ merkleMaxDepth := by
  rw [confirmedRoot] at h
  split at h
  · rename_i hnil
    exact hnil ▸ Nat.zero_le _
  · split at h
    · cases h
    · omega

/-- Whoever signs a block that confirms fabricated bytes can be convicted, by the block, the bytes
and their audit path. -/
theorem fabrication_provable {ids : List Bytes32} {i : Nat} {cited block buf : Bytes} {b : Block}
    {subject : Bytes32}
    {sig : Signature} (hi : ids[i]? = some (crypto.blake3 cited)) (hcited : cited ≠ [])
    (hsize : cited.length < 2 ^ 64)
    (hfab : Fabricated crypto cited) (hroot : confirmedRoot crypto ids = .ok b.summary.confirmedProofs)
    (hblock : blockEncode b buf = .ok block)
    (hsig : crypto.ed25519Verify subject (crypto.blake3 block).val sig.val = true) :
    ∃ path, (∀ pathCap, path.length ≤ pathCap → confirmedProve crypto ids i pathCap = .ok path) ∧
      ∃ accusation, (∀ buf' : Bytes, accusation.length ≤ buf'.length →
        invalidTransitionEncode subject b.summary.epoch block sig cited (UInt64.ofNat i)
          (UInt64.ofNat ids.length) path buf' =
          .ok accusation) ∧ verify crypto accusation = .ok () := by
  obtain ⟨path, hpath, hfold, hprove⟩ := confirmedProve_spec hi hroot
  have hlt : i < ids.length := (List.getElem?_eq_some_iff.mp hi).1
  have hmax := confirmedRoot_length hroot
  have hin : (UInt64.ofNat i).toNat = i := ofNat_toNat (by norm_num [merkleMaxDepth] at hmax; omega)
  have hnn : (UInt64.ofNat ids.length).toNat = ids.length :=
    ofNat_toNat (by norm_num [merkleMaxDepth] at hmax; omega)
  obtain ⟨hb, hbytes, -⟩ := blockEncode_iff.mp hblock
  have hbne : block ≠ [] := by
    rintro rfl
    have := encode_length_pos (blockValue b)
    rw [hbytes] at this
    exact Nat.lt_irrefl _ this
  have hsized : Sized (transition block sig cited (UInt64.ofNat i) (UInt64.ofNat ids.length) path) := by
    refine ⟨?_, ?_, hsize, UInt64.toNat_lt _, UInt64.toNat_lt _, ?_⟩
    · have := block_fits hb.1
      rw [hbytes] at this
      exact lt_of_le_of_lt this (by norm_num [blockEncodedMax, epochSummaryEncodedMax, maxPatternFindings])
    · exact lt_of_eq_of_lt sig.length_val (by norm_num)
    · have := pathLen_le ids.length i ids.length
      change path.length < 2 ^ 64
      rw [hpath, merklePathLen]
      norm_num [merkleMaxDepth] at hmax
      omega
  refine ⟨path, hprove, encode (accusationValue subject b.summary.epoch
    (transition block sig cited (UInt64.ofNat i) (UInt64.ofNat ids.length) path)), fun buf' hbuf' => ?_, ?_⟩
  · refine invalidTransitionEncode_eq rfl hbne hcited ?_ hsized hbuf'
    rw [UInt64.lt_iff_toNat_lt, hin, hnn]
    exact hlt
  · have hdiff : faultInvalidTransition ≠ faultEquivocation := by decide
    rw [verify, verifyLevel_of_decode (faultProofDecode_accusation hsized)]
    simp only [if_neg hdiff, if_true]
    refine verifyInvalidTransition_iff.mpr
      ⟨_, b.summary.confirmedProofs, decTransition_evidence rfl hsized, hbne, sig.length_val,
      hcited, ?_, ?_, ?_, parseBlockSummary_encode hblock, hsig, ?_, judgeCited_fabricated hfab⟩
    · simp only [transition, hnn]
      exact hmax
    · simp only [transition, hin, hnn]
      exact hlt
    · simp only [transition, hin, hnn, cpPathLen_eq]
      exact hpath
    · simp only [transition, hin, hnn]
      exact hfold

def sampleIds : List Bytes32 :=
  [⟨beBytes 32 0x2d3adedff11b61f14c886e35afa036736dcd87a74d27b5c1510225d0f592e213, rfl⟩,
    ⟨beBytes 32 0x48fc721fbbc172e0925fa27af1671de225ba927134802998b10a1568a188652b, rfl⟩]

def sampleLeaves : List Bytes32 :=
  [⟨beBytes 32 0x06c735e42b9a521df7e4904a4f685c1e84777bd9cf2755c4fa975b0fda387054, rfl⟩,
    ⟨beBytes 32 0xa0fc6980307627d5be313492f4512b6ff45f2a747a9c23c131ac78c87f64722d, rfl⟩]

def fabricatedBlock : Block where
  height := 5
  prevBlockHash := zero32
  degradedSeed := true
  summary :=
    { epoch := 7
      cutoffTime := 1000
      confirmedProofs := ⟨beBytes 32 0x37d48b68a108669a1088e77e73fc20485e41d22841b0412a4bf56b7bdad41a8b, rfl⟩
      findings := [] }

def fabricatedHash : Bytes32 :=
  ⟨beBytes 32 0x482c49a342d49b6bd96e1ca96ef0f770b7a9f5db7a62ebc6d3a44ac0d8584b0c, rfl⟩

def fabricatedSig : Signature where
  val :=
    beBytes 32 0x1e950c85d1b8e333295ce3ade1550635918bec94c497a56a65591d2024f7a9f7 ++
      beBytes 32 0x7a2972f47edaa0dde02499a294d4edfde14ca6e4d4465465654a44bf5eae4404
  length_val := rfl

def fabricatedCrypto : Primitives where
  blake3 b :=
    if b = [0x00] then sampleIds.headD zero32
    else if b = [0x01] then sampleIds.getD 1 zero32
    else if b = 0x00 :: (sampleIds.headD zero32).val then sampleLeaves.headD zero32
    else if b = 0x00 :: (sampleIds.getD 1 zero32).val then sampleLeaves.getD 1 zero32
    else if b = 0x01 :: sampleLeaves.flatMap Bytes32.val then fabricatedBlock.summary.confirmedProofs
    else if b = encode (blockValue fabricatedBlock) then fabricatedHash
    else zero32
  blake3DeriveKey _ _ := zero32
  ed25519Verify peer msg sig := peer = sampleSigner && msg = fabricatedHash.val && sig = fabricatedSig.val

theorem fabrication_provable_sample :
    ∃ path, (∀ pathCap, path.length ≤ pathCap →
      confirmedProve fabricatedCrypto sampleIds 1 pathCap = .ok path) ∧
      ∃ accusation, (∀ buf' : Bytes, accusation.length ≤ buf'.length →
        invalidTransitionEncode sampleSigner 7 (encode (blockValue fabricatedBlock)) fabricatedSig
          [0x01] 1 2 path buf' =
          .ok accusation) ∧ verify fabricatedCrypto accusation = .ok () := by
  have hdecode : ∀ view, faultProofDecode [0x01] ≠ .ok view := by
    intro view h
    have herr : faultProofDecode [0x01] = .error .malformed := by decide +kernel
    rw [herr] at h
    cases h
  refine @fabrication_provable fabricatedCrypto sampleIds 1 [0x01] (encode (blockValue fabricatedBlock))
    (List.replicate 87 0) fabricatedBlock sampleSigner fabricatedSig ?_ (by decide) (by decide)
      (.inl hdecode) ?_ ?_ ?_
  · decide +kernel
  · decide +kernel
  · exact blockEncode_iff.mpr ⟨by decide, rfl, by decide +kernel⟩
  · decide +kernel

end AntsClient.Chain.Fabrication
