import AntsClient.Chain.Fabrication

namespace AntsClient.Chain.Confirmed

open Common Crypto Lib MerkleTree MerklePath Merkle Honest Fabrication Crdt.Proof List

variable (crypto : Primitives)

def verifyLoop (path : Bytes) : Nat → Nat → Nat → Nat → Bytes32 → Nat × Bytes32
  | 0, _, _, consumed, cur => (consumed, cur)
  | fuel + 1, idx, count, consumed, cur =>
    if count > 1 then
      let sib := (toBytes32 (slice path (consumed * 32) (consumed * 32 + 32))).getD zero32
      if idx % 2 = 1 then
        verifyLoop path fuel (idx / 2) ((count + 1) / 2) (consumed + 1) (nodeHash crypto sib cur)
      else if idx + 1 < count then
        verifyLoop path fuel (idx / 2) ((count + 1) / 2) (consumed + 1) (nodeHash crypto cur sib)
      else verifyLoop path fuel (idx / 2) ((count + 1) / 2) consumed cur
    else (consumed, cur)

def confirmedVerify (leafContentId : Bytes32) (index n : Nat) (path : Bytes) (root : Bytes32) :
    Except Error Bool :=
  if n = 0 ∨ index ≥ n then .error .invalidArg
  else if n > 2 ^ merkleMaxDepth then .error .invalidArg
  else if path.length ≠ merklePathLen index n * 32 then .error .invalidArg
  else
    let (consumed, cur) := verifyLoop crypto path n index n 0 (leafHash crypto leafContentId)
    .ok (consumed * 32 = path.length && cur = root)

def verifyInputs (leafContentId : Bytes32) (index n : Nat) (path : Bytes) : Set Bytes :=
  inputBytes '' insert (.leaf leafContentId)
    (climbInputs (inputHash crypto) (inputHash crypto (.leaf leafContentId))
    (siblings (cpSibling path) n index n 0))

variable {crypto}

theorem verifyLoop_eq (path : Bytes) (fuel idx count consumed : Nat) (cur : Bytes32) :
    verifyLoop crypto path fuel idx count consumed cur =
      (consumed + pathLen fuel idx count,
        foldPath (nodeHash crypto) (cpSibling path) fuel idx count consumed cur) := by
  induction fuel generalizing idx count consumed cur with
  | zero => rfl
  | succ fuel ih =>
    rw [verifyLoop, pathLen, foldPath]
    split
    · dsimp only
      split
      · rw [ih, Nat.add_assoc]
        rfl
      · split
        · rw [ih, Nat.add_assoc]
          rfl
        · rw [ih, Nat.zero_add]
    · rfl

theorem confirmedVerify_iff {leaf root : Bytes32} {index n : Nat} {path : Bytes} :
    confirmedVerify crypto leaf index n path root = .ok true ↔ index < n ∧ n ≤ 2 ^ merkleMaxDepth ∧
      path.length = merklePathLen index n * 32 ∧ cpFoldToRoot crypto leaf index n path = root := by
  rw [confirmedVerify, cpFoldToRoot, cpFold_eq_foldPath, verifyLoop_eq, Nat.zero_add]
  split
  · rename_i hrange
    exact iff_of_false (fun h => by cases h) fun h => by omega
  rename_i hrange
  split
  · rename_i hmax
    exact iff_of_false (fun h => by cases h) fun h => by omega
  rename_i hmax
  split
  · rename_i hlen
    exact iff_of_false (fun h => by cases h) fun h => hlen h.2.2.1
  rename_i hlen
  have hlen : path.length = merklePathLen index n * 32 := not_not.mp hlen
  have hfull : pathLen n index n * 32 = path.length := hlen.symm
  simp only [hfull, decide_true, Bool.true_and, Except.ok.injEq, decide_eq_true_eq]
  exact ⟨fun h => ⟨by omega, by omega, hlen, h⟩, fun h => h.2.2.2⟩

theorem confirmedRoot_eq {ids : List Bytes32} (hne : ids ≠ []) (hsize : ids.length ≤ 2 ^ merkleMaxDepth)
    (hasc : idsStrictlyAscending ids = true) :
    confirmedRoot crypto ids = .ok (subtreeRootRange crypto ids 0 ids.length) := by
  rw [confirmedRoot, if_neg (mt length_eq_zero_iff.mp hne), if_neg (Nat.not_lt.mpr hsize), hasc]
  rfl

theorem peaks_room {ids : List Bytes32} {lo k : Nat} (hsize : ids.length ≤ 2 ^ merkleMaxDepth)
    (hk : k < ids.length - lo) :
    (peaks (nodeHash crypto) (((ids.drop lo).take k).map (leafHash crypto))).length < merkleMaxDepth + 2 := by
  have hcount := @two_pow_peaks_le _ (nodeHash crypto) (((ids.drop lo).take k).map (leafHash crypto))
  rw [length_map, length_take, length_drop, Nat.min_eq_left hk.le] at hcount
  have hle : (2 : Nat) ^ (peaks (nodeHash crypto)
      (((ids.drop lo).take k).map (leafHash crypto))).length ≤ 2 ^ merkleMaxDepth := by
    omega
  have := (Nat.pow_le_pow_iff_right one_lt_two).mp hle
  omega

/-- Every confirmed id has a proof that the verifier accepts, and the online build gives the root of
the tree built level by level. -/
theorem confirmed_complete {ids : List Bytes32} {i : Nat} {id : Bytes32} (hsize : ids.length ≤ 2 ^ 32)
    (hasc : idsStrictlyAscending ids = true) (hi : ids[i]? = some id) :
    ∃ path root, confirmedProve crypto ids i (merklePathLen i ids.length * 32) = .ok path ∧
      path.length = merklePathLen i ids.length * 32 ∧ merklePathLen i ids.length ≤ Nat.clog 2 ids.length ∧
      confirmedRoot crypto ids = .ok root ∧ confirmedVerify crypto id i ids.length path root = .ok true ∧
      ∀ lo hi, lo < hi → hi ≤ ids.length →
        level (nodeHash crypto) (Nat.clog 2 (hi - lo)) (((ids.drop lo).take (hi - lo)).map (leafHash crypto)) =
          [subtreeRootRange crypto ids lo hi] ∧
        ∀ k < hi - lo, (peaks (nodeHash crypto) (((ids.drop lo).take k).map (leafHash crypto))).length <
          merkleMaxDepth + 2 := by
  have hlt : i < ids.length := (List.getElem?_eq_some_iff.mp hi).1
  have hne : ids ≠ [] := ne_nil_of_mem (mem_of_getElem? hi)
  have hroot := @confirmedRoot_eq crypto ids hne hsize hasc
  obtain ⟨path, hlen, hfold, hprove⟩ := confirmedProve_spec hi hroot
  refine ⟨path, _, hprove _ hlen.le, hlen, pathLen_le_clog .., hroot, ?_, ?_⟩
  · exact confirmedVerify_iff.mpr ⟨hlt, hsize, hlen, hfold⟩
  · intro lo hi hlohi hhi
    have hbuild := @build_subtreeRootRange crypto ids lo hi hlohi (by rwa [length_map])
    have htop := level_top hbuild
    rw [← map_drop, ← map_take] at htop
    rw [length_map, length_take, length_drop, Nat.min_eq_left (by omega)] at htop
    exact ⟨htop, fun k hk => peaks_room hsize (by omega)⟩

theorem confirmed_complete_sample : ∃ path root, confirmedProve fabricatedCrypto sampleIds 1 32 = .ok path ∧
    path.length = 32 ∧ confirmedRoot fabricatedCrypto sampleIds = .ok root ∧
    confirmedVerify fabricatedCrypto (sampleIds.getD 1 zero32) 1 2 path root = .ok true := by
  obtain ⟨path, root, hprove, hlen, -, hroot, hverify, -⟩ :=
    @confirmed_complete fabricatedCrypto sampleIds 1 _ (by decide) (by decide +kernel) rfl
  exact ⟨path, root, hprove, hlen, hroot, hverify⟩

variable {ids : List Bytes32} {r x : Bytes32} {i n : Nat} {path : Bytes}

theorem accepted_position (hroot : confirmedRoot crypto ids = .ok r)
    (hinj : Set.InjOn crypto.blake3 (rootInputs crypto ids ∪ verifyInputs crypto x i n path))
    (h : confirmedVerify crypto x i n path r = .ok true) :
    ∃ t k, build .node (ids.map HashTree.leaf) = some t ∧
    t.position (sides n i n).reverse = some k ∧ ids[k]? = some x := by
  obtain ⟨-, -, -, hfold⟩ := confirmedVerify_iff.mp h
  have hclimb := (cpFold_eq_climb path n i n 0 (inputHash crypto (.leaf x))).symm.trans hfold
  rcases confirmedRoot_spec hroot with ⟨rfl, rfl⟩ | ⟨t, ht, hleaves, rfl⟩
  · obtain ⟨j, hj, heq⟩ := @exists_input_climb _ _ (inputHash crypto) x (siblings (cpSibling path) n i n 0)
    have hbytes := hinj (.inr ⟨j, hj, rfl⟩) (.inl rfl) (heq.trans hclimb)
    exact absurd hbytes (inputBytes_ne_empty j)
  · rw [rootInputs, ht, verifyInputs, ← Set.image_union] at hinj
    obtain ⟨k, hk, hx⟩ := position_of_climb
      (fun a ha b hb heq => inputBytes_inj (hinj ⟨a, ha, rfl⟩ ⟨b, hb, rfl⟩ heq)) hclimb
    rw [siblings_sides] at hk
    exact ⟨t, k, ht, hk, hleaves ▸ hx⟩

/-- What the verifier accepts against the root of a list is an id of it, at its own index if the
count is right, and one index for each id whatever the count. -/
theorem confirmed_binding (hroot : confirmedRoot crypto ids = .ok r)
    (hinj : Set.InjOn crypto.blake3 (rootInputs crypto ids ∪ verifyInputs crypto x i n path))
    (h : confirmedVerify crypto x i n path r = .ok true) :
    1 ≤ ids.length ∧ x ∈ ids ∧ (n = ids.length → ids[i]? = some x) ∧
      ∀ y j path', Set.InjOn crypto.blake3 (rootInputs crypto ids ∪ verifyInputs crypto y j n path') →
        confirmedVerify crypto y j n path' r = .ok true → i ≠ j →
          ∃ k l : Nat, k ≠ l ∧ ids[k]? = some x ∧ ids[l]? = some y := by
  obtain ⟨t, k, ht, hk, hx⟩ := accepted_position hroot hinj h
  have hin : i < n := (confirmedVerify_iff.mp h).1
  refine ⟨?_, mem_of_getElem? hx, ?_, ?_⟩
  · exact Nat.one_le_of_lt (List.getElem?_eq_some_iff.mp hx).1
  · rintro rfl
    have hne : ids.length ≠ 0 := by omega
    have hasc : idsStrictlyAscending ids = true := by
      by_contra hasc
      rw [confirmedRoot, if_neg hne, if_neg (Nat.not_lt.mpr (confirmedVerify_iff.mp h).2.1),
        if_pos (by simpa using hasc)] at hroot
      cases hroot
    have hi := position_sides (nodup_of_ascending idsStrictlyAscending (fun _ _ _ => rfl) hasc) ht hin
    obtain rfl : k = i := Option.some.inj (hk.symm.trans hi)
    exact hx
  · intro y j path' hinj' h' hij
    obtain ⟨t', l, ht', hl, hy⟩ := accepted_position hroot hinj' h'
    obtain rfl : t' = t := Option.some.inj (ht'.symm.trans ht)
    refine ⟨k, l, ?_, hx, hy⟩
    rintro rfl
    have hsides := reverse_inj.mp (HashTree.position_inj hk hl)
    exact hij (sides_suffix le_rfl hin (confirmedVerify_iff.mp h').1 (hsides ▸ suffix_rfl))

def sampleHashed : List Bytes :=
  [0x00 :: (sampleIds.headD zero32).val, 0x00 :: (sampleIds.getD 1 zero32).val,
    0x01 :: sampleLeaves.flatMap Bytes32.val]

theorem sampleHashed_injOn : Set.InjOn fabricatedCrypto.blake3 (rootInputs fabricatedCrypto sampleIds ∪
    verifyInputs fabricatedCrypto (sampleIds.getD 1 zero32) 1 2 (sampleLeaves.headD zero32).val) := by
  have hnodup : (sampleHashed.map fabricatedCrypto.blake3).Nodup := by decide +kernel
  have hroot : rootInputs fabricatedCrypto sampleIds ⊆ sampleHashed.toFinset := by
    rintro _ ⟨i, rfl | rfl | rfl, rfl⟩ <;> decide +kernel
  have hpath : verifyInputs fabricatedCrypto (sampleIds.getD 1 zero32) 1 2 (sampleLeaves.headD zero32).val ⊆
      sampleHashed.toFinset := by
    rintro _ ⟨i, rfl | rfl | hnone, rfl⟩
    · decide +kernel
    · decide +kernel
    · cases hnone
  intro a ha b hb heq
  exact inj_on_of_nodup_map hnodup (mem_toFinset.mp (Set.union_subset hroot hpath ha))
    (mem_toFinset.mp (Set.union_subset hroot hpath hb)) heq

theorem confirmed_binding_sample : 1 ≤ sampleIds.length ∧ sampleIds.getD 1 zero32 ∈ sampleIds ∧
    sampleIds[1]? = some (sampleIds.getD 1 zero32) := by
  obtain ⟨hone, hmem, hat, -⟩ :=
    @confirmed_binding fabricatedCrypto sampleIds fabricatedBlock.summary.confirmedProofs
    (sampleIds.getD 1 zero32) 1 2 (sampleLeaves.headD zero32).val (by decide +kernel)
      sampleHashed_injOn (by decide +kernel)
  exact ⟨hone, hmem, hat rfl⟩

end AntsClient.Chain.Confirmed
