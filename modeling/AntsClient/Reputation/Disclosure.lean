import AntsClient.Reputation.Bound

namespace AntsClient.Reputation.Disclosure

open Common Crypto Crypto.Tree Lib MerkleTree MerklePath Saturating Receipts Bag Reputation.Bound List

section Model

variable (crypto : Primitives)

def siblingOf (idx count : Nat) : Option Nat :=
  if idx % 2 = 1 then some (idx - 1) else if idx + 1 < count then some (idx + 1) else none

def proveLoop (receipts : List Receipt) : Nat → Nat → Nat → Nat → Except Error Bytes
  | 0, _, _, _ => .ok []
  | fuel + 1, idx, count, level =>
    if count > 1 then
      match siblingOf idx count with
      | some sib => do
        let root ← repSubtreeRootRange crypto receipts (sib * 2 ^ level)
          (min ((sib + 1) * 2 ^ level) receipts.length)
        let rest ← proveLoop receipts fuel (idx / 2) ((count + 1) / 2) (level + 1)
        return root.val ++ rest
      | none => proveLoop receipts fuel (idx / 2) ((count + 1) / 2) (level + 1)
    else .ok []

def bagProve (receipts : List Receipt) (index pathCap : Nat) : Except Error Bytes := do
  let n := receipts.length
  if n = 0 ∨ index ≥ n then throw .invalidArg
  if n > maxReceipts then throw .invalidArg
  let ordered ← receiptsCanonicalOrdered crypto receipts
  if !ordered then throw .nonCanonical
  if repMerklePathLen index n * 32 > pathCap then throw .bufferTooSmall
  proveLoop crypto receipts n index n 0

variable (peerId : Bytes32) (now : UInt64) (params : Params) (b : UInt64) (indicesCap : Nat)

def selectLoop : List (Receipt × Nat) → UInt64 → List Nat → Except Error (List Nat × Bool)
  | [], _, out => .ok (out, false)
  | (r, i) :: rest, acc, out => do
    let ok ← receiptVerify crypto r
    if !ok || r.server ≠ peerId || r.timestampUnixS > now then selectLoop rest acc out
    else if out.length = indicesCap then throw .bufferTooSmall
    else
      let acc := satAdd acc (receiptAContribution r.toReceiptBody now params)
      if acc ≥ b then return (out ++ [i], true)
      else selectLoop rest acc (out ++ [i])

def bagSelectForBound (receipts : List Receipt) : Except Error (List Nat × Bool) := do
  if receipts.length = 0 ∨ receipts.length > maxReceipts then throw .invalidArg
  if params.binWidthS = 0 ∨ params.decayRatioAQ32 = 0 then throw .invalidArg
  let ordered ← receiptsCanonicalOrdered crypto receipts
  if !ordered then throw .nonCanonical
  if b = 0 then return ([], true)
  selectLoop crypto peerId now params b indicesCap receipts.zipIdx.reverse 0 []

end Model

variable {crypto : Primitives} {peer root : Bytes32} {now : UInt64} {params : Params} {receipts : List Receipt}

section Prover

variable (crypto) in
def rangeRoot (receipts : List Receipt) (lo hi : Nat) : Bytes32 :=
  (build (nodeHash crypto)
    ((((receipts.map leafData).map (leafHash crypto)).drop lo).take (hi - lo))).getD zero32

theorem repSubtreeRootRange_eq (lo hi : Nat) :
    repSubtreeRootRange crypto receipts lo hi = .ok (rangeRoot crypto receipts lo hi) := by
  rw [repSubtreeRootRange, receiptLeafHash_eq, mapM_pure, rangeRoot, map_map, map_drop.symm, map_take.symm]
  rfl

theorem build_rangeRoot (lo hi : Nat) (hlt : lo < hi)
    (hle : hi ≤ ((receipts.map leafData).map (leafHash crypto)).length) :
    build (nodeHash crypto) ((((receipts.map leafData).map (leafHash crypto)).drop lo).take (hi - lo)) =
      some (rangeRoot crypto receipts lo hi) := by
  have hne : (((receipts.map leafData).map (leafHash crypto)).drop lo).take (hi - lo) ≠ [] := by
    rw [← length_pos_iff, length_take, length_drop]
    omega
  obtain ⟨built, hbuilt⟩ : ∃ built, build (nodeHash crypto) _ = some built := exists_root hne
  rw [rangeRoot, hbuilt, Option.getD_some]

theorem proveLoop_eq (fuel idx count level : Nat) : proveLoop crypto receipts fuel idx count level =
    .ok ((provePath (rangeRoot crypto receipts) receipts.length fuel idx count level).flatMap Bytes32.val) := by
  induction fuel generalizing idx count level with
  | zero => rfl
  | succ fuel ih =>
    rw [proveLoop, provePath, siblingOf]
    by_cases hcount : count > 1
    · rw [if_pos hcount, if_pos hcount]
      dsimp only
      by_cases hodd : idx % 2 = 1
      · rw [if_pos hodd, if_pos hodd, flatMap_append, flatMap_singleton, ih]
        dsimp only
        rw [repSubtreeRootRange_eq]
        rfl
      · rw [if_neg hodd, if_neg hodd]
        by_cases hnext : idx + 1 < count
        · rw [if_pos hnext, if_pos hnext, flatMap_append, flatMap_singleton, ih]
          dsimp only
          rw [repSubtreeRootRange_eq]
          rfl
        · rw [if_neg hnext, if_neg hnext, nil_append]
          exact ih _ _ _
    · rw [if_neg hcount, if_neg hcount]
      rfl

theorem bagRoot_ok (h : bagRoot crypto receipts peer = .ok root) (hne : receipts ≠ []) :
    receipts.length ≤ maxReceipts ∧ receiptsCanonicalOrdered crypto receipts = .ok true := by
  simp only [bagRoot, except_guard_iff] at h
  obtain ⟨hmax, h⟩ := h
  rw [if_neg (mt length_eq_zero_iff.mp hne)] at h
  obtain ⟨ordered, hordered, h⟩ := except_bind_eq_ok.mp h
  simp only [except_guard_iff] at h
  obtain ⟨htrue, -⟩ := h
  cases ordered with
  | false => exact absurd rfl htrue
  | true => exact ⟨Nat.not_lt.mp hmax, hordered⟩

def openingAt (crypto : Primitives) (receipts : List Receipt) (r : Receipt) (i : Nat) : Opening :=
  ⟨r, i, some ((provePath (rangeRoot crypto receipts) receipts.length receipts.length i
    receipts.length 0).flatMap Bytes32.val)⟩

theorem bagProve_eq (hroot : bagRoot crypto receipts peer = .ok root) {i : Nat}
    (hi : i < receipts.length) {pathCap : Nat}
    (hcap : repMerklePathLen i receipts.length * 32 ≤ pathCap) :
    bagProve crypto receipts i pathCap =
      .ok ((provePath (rangeRoot crypto receipts) receipts.length receipts.length i receipts.length
        0).flatMap Bytes32.val) := by
  obtain ⟨hmax, hordered⟩ := bagRoot_ok hroot (ne_nil_of_length_pos (Nat.zero_lt_of_lt hi))
  rw [bagProve, if_neg (by omega)]
  dsimp only
  rw [if_neg (Nat.not_lt.mpr hmax), hordered]
  simp only [bind, Except.bind]
  rw [if_neg (Nat.not_lt.mpr hcap), proveLoop_eq]
  rfl

theorem openingAt_proper (hroot : bagRoot crypto receipts peer = .ok root) {r : Receipt} {i : Nat}
    (hr : receipts[i]? = some r)
    (heligible : Eligible crypto peer now r = true) {also : Receipt → Bool} (halso : also r = true) :
    Proper crypto receipts.length peer root now also (openingAt crypto receipts r i) := by
  have hi : i < receipts.length := (List.getElem?_eq_some_iff.mp hr).1
  have hlen : ((receipts.map leafData).map (leafHash crypto)).length = receipts.length := by
    rw [length_map, length_map]
  have hleaf : ((receipts.map leafData).map (leafHash crypto))[i]? = some (leafHash crypto (leafData r)) := by
    rw [getElem?_map, getElem?_map, hr]
    rfl
  obtain ⟨built, hbuilt⟩ : ∃ built,
      build (nodeHash crypto) ((receipts.map leafData).map (leafHash crypto)) = some built :=
    exists_root (ne_nil_of_length_pos (hlen ▸ Nat.zero_lt_of_lt hi))
  obtain ⟨hplen, hfold⟩ := foldPath_provePath build_rangeRoot hleaf hbuilt
  rw [hlen] at hplen hfold
  refine ⟨⟨hi, heligible, ?_⟩, ⟨_, rfl, hplen⟩, halso⟩
  rw [claimedRoot, claimedPath, ← foldPath_eq_climb, bagRoot_eq hroot, merkleRoot, hbuilt, Option.getD_some]
  exact congrArg (deriveBagRoot crypto peer) hfold

end Prover

section Selection

variable {b : UInt64} {cap : Nat}

theorem selectLoop_spec {rs : List (Receipt × Nat)} {acc : UInt64} {out : List Nat} (hacc : acc < b)
    (hcap : out.length + (rs.filter fun p => Eligible crypto peer now p.1).length ≤ cap) :
    ∃ (taken : List (Receipt × Nat)) (reached : Bool),
      selectLoop crypto peer now params b cap rs acc out = .ok (out ++ taken.map Prod.snd, reached) ∧
      taken.Sublist (rs.filter fun p => Eligible crypto peer now p.1) ∧
      (reached = true ↔ b ≤ ((rs.filter fun p => Eligible crypto peer now p.1).map fun p =>
        receiptAContribution p.1.toReceiptBody now params).foldl satAdd acc) ∧
      (reached = true → b ≤ (taken.map fun p =>
        receiptAContribution p.1.toReceiptBody now params).foldl satAdd acc) := by
  induction rs generalizing acc out with
  | nil =>
    refine ⟨[], false, ?_, List.Sublist.refl _, ?_, nofun⟩
    · rw [map_nil, append_nil]
      rfl
    · exact iff_of_false nofun (UInt64.not_le.mpr hacc)
  | cons p rs ih =>
    obtain ⟨r, i⟩ := p
    rw [selectLoop, screen_eq]
    by_cases hr : Eligible crypto peer now r = true
    · have hfilter : ((r, i) :: rs).filter (fun p => Eligible crypto peer now p.1) =
          (r, i) :: rs.filter fun p => Eligible crypto peer now p.1 := filter_cons_of_pos hr
      rw [hfilter] at hcap ⊢
      rw [length_cons] at hcap
      rw [if_pos hr, if_neg (by omega)]
      by_cases hreach : satAdd acc (receiptAContribution r.toReceiptBody now params) ≥ b
      · -- the bound is reached here, and nothing after it lowers the sum
        refine ⟨[(r, i)], true, ?_, singleton_sublist.mpr mem_cons_self, iff_of_true rfl ?_, fun _ => ?_⟩
        · dsimp only
          rw [if_pos hreach, map_singleton]
          rfl
        · rw [map_cons, foldl_cons, UInt64.le_iff_toNat_le, toNat_foldl_satAdd]
          have hge := UInt64.le_iff_toNat_le.mp hreach
          have hlt := b.toNat_lt
          dsimp only
          omega
        · rw [map_singleton, foldl_cons, foldl_nil]
          exact hreach
      · obtain ⟨taken, reached, hloop, hsub, hiff, henough⟩ := @ih _ (out ++ [i]) (UInt64.not_le.mp hreach)
          (by rw [length_append, length_singleton]; omega)
        refine ⟨(r, i) :: taken, reached, ?_, hsub.cons_cons _, hiff, henough⟩
        simp only [if_neg hreach]
        rw [hloop, map_cons, append_assoc]
        rfl
    · have hfilter : ((r, i) :: rs).filter (fun p => Eligible crypto peer now p.1) =
          rs.filter fun p => Eligible crypto peer now p.1 := filter_cons_of_neg hr
      rw [hfilter] at hcap ⊢
      rw [if_neg hr]
      exact ih hacc hcap

end Selection

section Complete

variable {a b tenure : UInt64} {cap : Nat}

theorem mem_zipIdx_reverse {p : Receipt × Nat} : p ∈ receipts.zipIdx.reverse ↔ receipts[p.2]? = some p.1 := by
  obtain ⟨r, i⟩ := p
  rw [mem_reverse, mem_zipIdx_iff_getElem?]

theorem nodup_zipIdx : (receipts.zipIdx.reverse.map Prod.snd).Nodup := by
  rw [map_reverse, nodup_reverse, zipIdx_map_snd]
  exact nodup_range'

theorem satSum_zipIdx (p : Receipt → Bool) (f : Receipt → UInt64) :
    satSum ((receipts.zipIdx.reverse.filter fun q => p q.1).map fun q => f q.1) =
      satSum ((receipts.filter p).map f) := by
  have hmap : ((receipts.zipIdx.filter fun q => p q.1).map fun q => f q.1) = (receipts.filter p).map f := by
    have hfst : receipts = receipts.zipIdx.map Prod.fst := (zipIdx_map_fst 0 receipts).symm
    nth_rewrite 2 [hfst]
    rw [filter_map, map_map]
    rfl
  rw [filter_reverse, map_reverse, hmap]
  exact satSum_perm (reverse_perm _)

theorem openings_proper (hroot : bagRoot crypto receipts peer = .ok root)
    {taken : List (Receipt × Nat)} {also : Receipt → Bool}
    (hsub : taken.Sublist receipts.zipIdx.reverse)
    (hgood : ∀ p ∈ taken, Eligible crypto peer now p.1 = true ∧ also p.1 = true) :
    (∀ op ∈ taken.map fun p => openingAt crypto receipts p.1 p.2,
      Proper crypto receipts.length peer root now also op) ∧
      ((taken.map fun p => openingAt crypto receipts p.1 p.2).map Opening.index).Nodup ∧
      taken.length ≤ receipts.length := by
  refine ⟨?_, ?_, ?_⟩
  · intro op hop
    obtain ⟨p, hp, rfl⟩ := mem_map.mp hop
    exact openingAt_proper hroot (mem_zipIdx_reverse.mp (hsub.subset hp)) (hgood p hp).1 (hgood p hp).2
  · rw [map_map]
    exact (hsub.map Prod.snd).nodup nodup_zipIdx
  · refine hsub.length_le.trans (le_of_eq ?_)
    rw [length_reverse, length_zipIdx]

theorem openings_accepted (hroot : bagRoot crypto receipts peer = .ok root)
    (hcompute : compute crypto peer receipts now params = .ok (a, tenure)) {taken : List (Receipt × Nat)}
    (hsub : taken.Sublist (receipts.zipIdx.reverse.filter fun p => Eligible crypto peer now p.1))
    (hb : b ≤ satSum (taken.map fun p => receiptAContribution p.1.toReceiptBody now params)) :
    bagVerifyBound crypto receipts.length peer root now params
      (taken.map fun p => openingAt crypto receipts p.1 p.2) b = .ok true := by
  obtain ⟨hmax, hwidth, hratio, -⟩ := compute_params hcompute
  obtain ⟨hproper, hnodup, hlen⟩ := @openings_proper crypto peer root now receipts hroot taken (fun _ => true)
    (hsub.trans filter_sublist) fun p hp => ⟨(mem_filter.mp (hsub.subset hp)).2, rfl⟩
  refine bagVerifyBound_iff.mpr ⟨⟨?_, hmax, hwidth, hratio⟩, hproper, hnodup, ?_⟩
  · rw [length_map]
    exact hlen.trans hmax
  · rw [map_map]
    exact hb

/-- The selection reaches a bound exactly when the `A` of the bag does, and what it selects then
convinces the verifier. -/
theorem bound_disclosed (hne : receipts ≠ []) (hroot : bagRoot crypto receipts peer = .ok root)
    (hcompute : compute crypto peer receipts now params = .ok (a, tenure)) (hcap : receipts.length ≤ cap) :
    ∃ indices reached, bagSelectForBound crypto peer now params b cap receipts = .ok (indices, reached) ∧
      (reached = true ↔ b ≤ a) ∧
      (reached = true → ∃ openings : List Opening, openings.map Opening.index = indices ∧
        (∀ op ∈ openings, receipts[op.index]? = some op.receipt ∧ ∃ path, op.path = some path ∧
          ∀ pathCap, repMerklePathLen op.index receipts.length * 32 ≤ pathCap →
            bagProve crypto receipts op.index pathCap = .ok path) ∧
        bagVerifyBound crypto receipts.length peer root now params openings b = .ok true) := by
  obtain ⟨hmax, hordered⟩ := bagRoot_ok hroot hne
  obtain ⟨-, hwidth, hratio, -⟩ := compute_params hcompute
  have hguards : ¬(receipts.length = 0 ∨ receipts.length > maxReceipts) :=
    not_or.mpr ⟨mt length_eq_zero_iff.mp hne, Nat.not_lt.mpr hmax⟩
  have hselect : bagSelectForBound crypto peer now params b cap receipts =
      if b = 0 then .ok ([], true)
        else selectLoop crypto peer now params b cap receipts.zipIdx.reverse 0 [] := by
    rw [bagSelectForBound, if_neg hguards, if_neg (not_or.mpr ⟨hwidth, hratio⟩), hordered]
    rfl
  rw [hselect]
  by_cases hzero : b = 0
  · have hreach : b ≤ a := by
      rw [hzero]
      exact UInt64.le_iff_toNat_le.mpr (Nat.zero_le _)
    rw [if_pos hzero]
    refine ⟨[], true, rfl, iff_of_true rfl hreach, fun _ => ⟨[], rfl, fun op hop => absurd hop not_mem_nil, ?_⟩⟩
    exact openings_accepted hroot hcompute (nil_sublist _)
      (UInt64.le_iff_toNat_le.mpr (by rw [hzero]; exact Nat.zero_le _))
  · have hpos : 0 < b := by
      rw [UInt64.lt_iff_toNat_lt]
      exact Nat.pos_of_ne_zero fun h0 => hzero (UInt64.toNat.inj h0)
    have hroom : ([] : List Nat).length +
        (receipts.zipIdx.reverse.filter fun p => Eligible crypto peer now p.1).length ≤ cap := by
      rw [length_nil, Nat.zero_add]
      refine (length_filter_le _ _).trans ?_
      rwa [length_reverse, length_zipIdx]
    obtain ⟨taken, reached, hloop, hsub, hiff, henough⟩ :=
      @selectLoop_spec crypto peer now params b cap _ _ _ hpos hroom
    rw [if_neg hzero]
    refine ⟨taken.map Prod.snd, reached, hloop, ?_, ?_⟩
    · rw [hiff, compute_a hcompute, ← satSum_zipIdx _ fun r => receiptAContribution r.toReceiptBody now params]
      rfl
    · intro hreached
      refine ⟨taken.map fun p => openingAt crypto receipts p.1 p.2, ?_, ?_,
        openings_accepted hroot hcompute hsub (henough hreached)⟩
      · rw [map_map]
        rfl
      · intro op hop
        obtain ⟨p, hp, rfl⟩ := mem_map.mp hop
        have hget := mem_zipIdx_reverse.mp (mem_filter.mp (hsub.subset hp)).1
        refine ⟨hget, _, rfl, fun pathCap hpathCap => ?_⟩
        exact bagProve_eq hroot (List.getElem?_eq_some_iff.mp hget).1 hpathCap

theorem bound_disclosed_sample : ∃ openings : List Opening, openings.map Opening.index = [2, 1] ∧
    bagSelectForBound bagCrypto samplePeer 7200 sampleParams 1500 3 sampleBag = .ok ([2, 1], true) ∧
    bagVerifyBound bagCrypto 3 samplePeer (digest 5) 7200 sampleParams openings 1500 = .ok true := by
  have hselect : bagSelectForBound bagCrypto samplePeer 7200 sampleParams 1500 3 sampleBag =
      .ok ([2, 1], true) := by
    decide +kernel
  obtain ⟨hroot, hcompute, -⟩ := bag_accounts
  obtain ⟨indices, reached, hresult, -, hopen⟩ :=
    @bound_disclosed _ _ _ _ _ _ _ 1500 _ 3 (cons_ne_nil _ _) hroot hcompute (Nat.le_refl 3)
  obtain ⟨rfl, rfl⟩ := Prod.mk.inj (Except.ok.inj (hselect.symm.trans hresult))
  obtain ⟨openings, hindices, -, haccept⟩ := hopen rfl
  exact ⟨openings, hindices, hselect, haccept⟩

end Complete

end AntsClient.Reputation.Disclosure
