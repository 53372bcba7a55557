import AntsClient.Cbor.Canonical
import AntsClient.Cbor.Sizes
import AntsClient.Reputation.Bag

namespace AntsClient.Reputation.Bound

open Common Cbor Head Tokens EncoderSpec Values Canonical Sizes Value
  Crypto Crypto.Tree Lib MerkleTree MerklePath Saturating Receipts Bag List

section Body

def bodyValue (r : ReceiptBody) : Value :=
  .map [(.uint 1, .bytes r.server.val), (.uint 2, .bytes r.client.val), (.uint 3, .uint r.ncsValue.toNat),
    (.uint 4, .uint r.timestampUnixS.toNat), (.uint 5, .bytes r.nonce.val)]

def bodyBytes (r : ReceiptBody) : Bytes := encode (bodyValue r)

def leafData (r : Receipt) : Bytes := bodyBytes r.toReceiptBody ++ r.serverSig.val ++ r.clientSig.val

theorem body_wellFormed (r : ReceiptBody) : WellFormed (bodyValue r) := by
  have hnonce : r.nonce.val.length < 2 ^ 64 := by rw [r.nonce.length_val]; decide
  have hwithin : Within 1 (bodyValue r) :=
    within_fields [1, 2, 3, 4, 5] rfl (by decide) (by simp [within_bytes hnonce])
  exact hwithin.wellFormed (by decide)

theorem body_length (r : ReceiptBody) : (encode (bodyValue r)).length ≤ receiptBodyEncodedMax := by
  have hnonce := encode_bytes_length (b := r.nonce.val) (by rw [r.nonce.length_val]; norm_num)
  rw [r.nonce.length_val] at hnonce
  exact (encode_fields_length [1, 2, 3, 4, 5] rfl (by decide) [35, 35, 9, 9, 3 + 16]
    (by simp [hnonce])).trans (by decide)

theorem encBody_eq (r : ReceiptBody) : encBody r = encCalls (calls (bodyValue r)) := by
  have hcalls : calls (bodyValue r) =
    [.map 5, .uint 1, .bytes r.server.val, .uint 2, .bytes r.client.val, .uint 3,
      .uint r.ncsValue, .uint 4, .uint r.timestampUnixS, .uint 5, .bytes r.nonce.val] := by
    simp [calls, bodyValue, tokens, tokensPairs, Token.call]
  rw [hcalls]
  simp only [encBody, encCalls, encCall, bind_pure_unit]

theorem receiptBodyEncode_eq (r : ReceiptBody) :
    receiptBodyEncode r (List.replicate receiptBodyEncodedMax 0) = .ok (bodyBytes r) := by
  rw [receiptBodyEncode, encBody_eq]
  refine (encodeInto_iff (body_wellFormed r)).mpr ⟨rfl, ?_⟩
  rw [length_replicate]
  exact body_length r

theorem bodyBytes_inj {r r' : ReceiptBody} (h : bodyBytes r = bodyBytes r') : r = r' := by
  have hv := encode_inj (body_wellFormed r).inRange (body_wellFormed r').inRange h
  obtain ⟨server, client, ncsValue, timestamp, nonce⟩ := r
  obtain ⟨server', client', ncsValue', timestamp', nonce'⟩ := r'
  simpa [bodyValue, UInt64.toNat_inj, ← Bytes32.ext_iff, ← Nonce.ext_iff] using hv

theorem leafData_inj {r r' : Receipt} (h : leafData r = leafData r') : r = r' := by
  obtain ⟨body, ⟨ss, hss⟩, ⟨cs, hcs⟩⟩ := r
  obtain ⟨body', ⟨ss', hss'⟩, ⟨cs', hcs'⟩⟩ := r'
  obtain ⟨h, rfl⟩ := append_inj' h (hcs.trans hcs'.symm)
  obtain ⟨h, rfl⟩ := append_inj' h (hss.trans hss'.symm)
  obtain rfl : body = body' := bodyBytes_inj h
  rfl

end Body

variable {crypto : Primitives}

variable (crypto) in
def Countersigned (r : Receipt) : Bool :=
  crypto.ed25519Verify r.server (bodyBytes r.toReceiptBody) r.serverSig.val &&
    crypto.ed25519Verify r.client (bodyBytes r.toReceiptBody) r.clientSig.val

theorem receiptVerify_eq (r : Receipt) : receiptVerify crypto r = .ok (Countersigned crypto r) := by
  rw [receiptVerify, receiptBodyEncode_eq]
  rfl

theorem receiptLeafHash_eq : receiptLeafHash crypto = fun r => pure (leafHash crypto (leafData r)) := by
  funext r
  rw [receiptLeafHash, receiptBodyEncode_eq]
  rfl

variable {α : Type} {total b : UInt64} {op : Opening} {also : Receipt → Bool} {earlier : List Nat}
  {ops : List Opening}
  {β : Type} {a acc : UInt64} {receipts : List Receipt} {openings : List Opening}

theorem subperm_map {xs ys : List α} (h : xs.Subperm ys) (f : α → β) : (xs.map f).Subperm (ys.map f) := by
  obtain ⟨zs, hperm, hsub⟩ := subperm_iff.mp h
  exact subperm_iff.mpr ⟨zs.map f, hperm.map f, hsub.map f⟩

section Compute

variable (crypto) in
/-- What counts for `A`: both signatures are valid, the peer is credited, and the
receipt is not from the future. -/
def Eligible (peer : Bytes32) (now : UInt64) (r : Receipt) : Bool :=
  Countersigned crypto r && r.server = peer && !(r.timestampUnixS > now)

variable {peer : Bytes32} {now : UInt64} {params : Params}

theorem screen_eq (r : Receipt) (skip count : Except Error α) : (do
      let ok ← receiptVerify crypto r
      if !ok || r.server ≠ peer || r.timestampUnixS > now then skip else count) =
      if Eligible crypto peer now r = true then count else skip := by
  rw [receiptVerify_eq]
  change (if (!Countersigned crypto r || decide (r.server ≠ peer) ||
    decide (r.timestampUnixS > now)) = true then skip else count) = _
  have hnot : (!Countersigned crypto r || decide (r.server ≠ peer) ||
      decide (r.timestampUnixS > now)) = !Eligible crypto peer now r := by
    simp [Eligible, Bool.not_and]
  rw [hnot]
  cases Eligible crypto peer now r <;> rfl

theorem passA_eq {rs : List Receipt} {valid : List Bool}
    (h : passA crypto peer now params rs a = .ok (valid, total)) :
    total = ((rs.filter (Eligible crypto peer now)).map fun r =>
      receiptAContribution r.toReceiptBody now params).foldl satAdd a := by
  induction rs generalizing a valid with
  | nil => exact (Prod.mk.inj (Except.ok.inj h)).2.symm
  | cons r rs ih =>
    rw [passA, receiptVerify_eq] at h
    change (if Eligible crypto peer now r then _ else _) = _ at h
    by_cases hr : Eligible crypto peer now r
    · rw [if_pos hr] at h
      obtain ⟨⟨valid', total'⟩, hrest, h⟩ := except_bind_eq_ok.mp h
      obtain ⟨-, rfl⟩ := Prod.mk.inj (Except.ok.inj h)
      rw [filter_cons_of_pos hr, map_cons, foldl_cons]
      exact ih hrest
    · rw [if_neg hr] at h
      obtain ⟨⟨valid', total'⟩, hrest, h⟩ := except_bind_eq_ok.mp h
      obtain ⟨-, rfl⟩ := Prod.mk.inj (Except.ok.inj h)
      rw [filter_cons_of_neg hr]
      exact ih hrest

theorem compute_a {t : UInt64} (h : compute crypto peer receipts now params = .ok (a, t)) :
    a = satSum ((receipts.filter (Eligible crypto peer now)).map fun r =>
      receiptAContribution r.toReceiptBody now params) := by
  rw [compute] at h
  simp only [except_guard_iff] at h
  obtain ⟨-, -, h⟩ := h
  obtain ⟨⟨valid, total⟩, hpass, h⟩ := except_bind_eq_ok.mp h
  obtain ⟨rfl, -⟩ := Prod.mk.inj (Except.ok.inj h)
  exact passA_eq hpass

theorem compute_params {t : UInt64} (h : compute crypto peer receipts now params = .ok (a, t)) :
    receipts.length ≤ maxReceipts ∧ params.binWidthS ≠ 0 ∧ params.decayRatioAQ32 ≠ 0 ∧
    params.decayRatioTQ32 ≠ 0 := by
  rw [compute] at h
  simp only [except_guard_iff, not_or] at h
  exact ⟨Nat.not_lt.mp h.1, h.2.1⟩

end Compute

section Loop

variable {n : Nat} {peer bagRoot : Bytes32} {now : UInt64} {params : Params}

variable (n) in
def claimedPath (op : Opening) : List (Sibling Bytes32) := siblings (hashAt (op.path.getD [])) n op.index n 0

variable (crypto n) in
def claimedRoot (op : Opening) : Bytes32 :=
  climb (inputHash crypto) (leafHash crypto (leafData op.receipt)) (claimedPath n op)

theorem bagVerifyInclusion_eq {ok : Bool}
    (h : bagVerifyInclusion crypto op.receipt op.index n op.path peer bagRoot = .ok ok) :
    ok = decide (deriveBagRoot crypto peer (claimedRoot crypto n op) = bagRoot) := by
  obtain ⟨receipt, index, path⟩ := op
  simp only [bagVerifyInclusion, except_guard_iff] at h
  obtain ⟨-, h⟩ := h
  cases path with
  | none => cases h
  | some path =>
    simp only [except_guard_iff, receiptLeafHash_eq] at h
    obtain ⟨-, -, h⟩ := h
    rw [← Except.ok.inj h, claimedRoot, claimedPath, ← foldPath_eq_climb]
    rfl

theorem bagVerifyInclusion_ok {op : Opening} {path : Bytes} (hn : n ≤ maxReceipts) (hindex : op.index < n)
    (hpath : op.path = some path) (hlen : path.length = repMerklePathLen op.index n * 32) :
    ∃ ok, bagVerifyInclusion crypto op.receipt op.index n op.path peer bagRoot = .ok ok := by
  rw [hpath, bagVerifyInclusion, receiptLeafHash_eq, if_neg (by omega)]
  dsimp only
  rw [if_neg (Nat.not_lt.mpr hn), if_neg (not_not.mpr hlen)]
  exact ⟨_, rfl⟩

variable (crypto n peer bagRoot now) in
structure Counted (op : Opening) : Prop where
  index : op.index < n
  eligible : Eligible crypto peer now op.receipt = true
  included : deriveBagRoot crypto peer (claimedRoot crypto n op) = bagRoot

variable (crypto n peer bagRoot now) in
structure Proper (also : Receipt → Bool) (op : Opening) : Prop
    extends Counted crypto n peer bagRoot now op where
  path : ∃ path, op.path = some path ∧ path.length = repMerklePathLen op.index n * 32
  also : also op.receipt = true

theorem reject_iff {p : Prop} [Decidable p] {x : Except Error (Option UInt64)} :
    (if p then pure none else x) = .ok (some total) ↔ ¬p ∧ x = .ok (some total) := by
  by_cases h : p
  · simp [h, pure, Except.pure]
  · simp [h]

theorem boundLoop_eq (earlier : List Nat) (ops : List Opening) (acc : UInt64) :
    boundLoop crypto n peer bagRoot now params earlier ops acc =
      openLoop crypto n peer bagRoot now params (fun _ => true) earlier ops acc := by
  induction ops generalizing earlier acc with
  | nil => rfl
  | cons op ops ih =>
    rw [boundLoop, openLoop]
    simp only [ih]
    rfl

theorem openLoop_cons (hn : n ≤ maxReceipts) :
    openLoop crypto n peer bagRoot now params also earlier (op :: ops) acc = .ok (some total) ↔
      Proper crypto n peer bagRoot now also op ∧ op.index ∉ earlier ∧
        openLoop crypto n peer bagRoot now params also (earlier ++ [op.index]) ops
          (satAdd acc (receiptAContribution op.receipt.toReceiptBody now params)) = .ok (some total) := by
  rw [openLoop, receiptVerify_eq]
  simp only [reject_iff]
  constructor
  · rintro ⟨hindex, hfresh, h⟩
    obtain ⟨ok, hok, h⟩ := except_bind_eq_ok.mp h
    obtain rfl := Except.ok.inj hok
    simp only [reject_iff] at h
    obtain ⟨hsig, hserver, htime, halso, hpath, h⟩ := h
    obtain ⟨inc, hinc, h⟩ := except_bind_eq_ok.mp h
    simp only [reject_iff] at h
    obtain ⟨hincluded, h⟩ := h
    rw [bagVerifyInclusion_eq hinc] at hincluded
    refine ⟨⟨⟨Nat.not_le.mp hindex, ?_, by simpa using hincluded⟩,
      ?_, by simpa using halso⟩, by simpa using hfresh, h⟩
    · simp only [Eligible, Bool.and_eq_true]
      exact ⟨⟨by simpa using hsig, by simpa using hserver⟩, by simpa using htime⟩
    · cases hop : op.path with
      | none =>
        rw [hop] at hpath
        exact absurd rfl hpath
      | some path =>
        rw [hop] at hpath
        exact ⟨path, rfl, by simpa using hpath⟩
  · rintro ⟨hproper, hfresh, h⟩
    obtain ⟨path, hpath, hlen⟩ := hproper.path
    obtain ⟨inc, hinc⟩ := @bagVerifyInclusion_ok crypto n peer bagRoot op path hn hproper.index hpath hlen
    have heligible := hproper.eligible
    simp only [Eligible, Bool.and_eq_true] at heligible
    obtain ⟨⟨hsig, hserver⟩, htime⟩ := heligible
    have hincluded : inc = true := by
      rw [bagVerifyInclusion_eq hinc]
      exact decide_eq_true hproper.included
    refine ⟨Nat.not_le.mpr hproper.index, by simpa using hfresh, except_bind_eq_ok.mpr ⟨_, rfl, ?_⟩⟩
    simp only [reject_iff]
    refine ⟨by simpa using hsig, by simpa using hserver, by simpa using htime, by simpa using hproper.also, ?_, ?_⟩
    · rw [hpath]
      simpa using hlen
    · refine except_bind_eq_ok.mpr ⟨inc, hinc, ?_⟩
      rw [hincluded]
      exact h

theorem openLoop_iff (hn : n ≤ maxReceipts) (hearlier : earlier.Nodup) :
    openLoop crypto n peer bagRoot now params also earlier ops acc = .ok (some total) ↔
      (∀ op ∈ ops, Proper crypto n peer bagRoot now also op) ∧ (earlier ++ ops.map Opening.index).Nodup ∧
        total = (ops.map fun op => receiptAContribution op.receipt.toReceiptBody now params).foldl
          satAdd acc := by
  induction ops generalizing earlier acc with
  | nil =>
    rw [openLoop, map_nil, append_nil]
    constructor
    · intro h
      exact ⟨fun op hop => absurd hop not_mem_nil, hearlier, (Option.some.inj (Except.ok.inj h)).symm⟩
    · rintro ⟨-, -, rfl⟩
      rfl
  | cons op ops ih =>
    have hsplit : earlier ++ (op :: ops).map Opening.index = (earlier ++ [op.index]) ++
        ops.map Opening.index := by
      rw [map_cons, append_assoc]
      rfl
    rw [openLoop_cons hn, forall_mem_cons, hsplit]
    constructor
    · rintro ⟨hproper, hfresh, h⟩
      have hnext : (earlier ++ [op.index]).Nodup :=
        nodup_append.mpr ⟨hearlier, nodup_singleton _, fun j hj k hk heq =>
          hfresh (mem_singleton.mp hk ▸ heq ▸ hj)⟩
      obtain ⟨hops, hnodup, htotal⟩ := (ih hnext).mp h
      exact ⟨⟨hproper, hops⟩, hnodup, htotal⟩
    · rintro ⟨⟨hproper, hops⟩, hnodup, htotal⟩
      have hnext := (nodup_append.mp hnodup).1
      have hfresh : op.index ∉ earlier := fun hmem =>
        (nodup_append.mp hnext).2.2 _ hmem _ (mem_singleton_self _) rfl
      exact ⟨hproper, hfresh, (ih hnext).mpr ⟨hops, hnodup, htotal⟩⟩

/-- The verifier accepts the openings that are proper, each at an index of its own, and reach the
bound. -/
theorem bagVerifyBound_iff : bagVerifyBound crypto n peer bagRoot now params openings b = .ok true ↔
      (openings.length ≤ maxReceipts ∧ n ≤ maxReceipts ∧ params.binWidthS ≠ 0 ∧ params.decayRatioAQ32 ≠ 0) ∧
      (∀ op ∈ openings, Proper crypto n peer bagRoot now (fun _ => true) op) ∧
      (openings.map Opening.index).Nodup ∧
      b ≤ satSum (openings.map fun op => receiptAContribution op.receipt.toReceiptBody now params) := by
  simp only [bagVerifyBound, except_guard_iff]
  constructor
  · rintro ⟨hsize, hparams, h⟩
    obtain ⟨verdict, hloop, h⟩ := except_bind_eq_ok.mp h
    obtain ⟨hopenings, hn⟩ := not_or.mp hsize
    cases verdict with
    | none => cases h
    | some total =>
      rw [boundLoop_eq] at hloop
      obtain ⟨hproper, hnodup, rfl⟩ := (openLoop_iff (Nat.not_lt.mp hn) nodup_nil).mp hloop
      exact ⟨⟨Nat.not_lt.mp hopenings, Nat.not_lt.mp hn, (not_or.mp hparams).1,
        (not_or.mp hparams).2⟩, hproper, hnodup,
        of_decide_eq_true (Except.ok.inj h)⟩
  · rintro ⟨⟨hopenings, hn, hwidth, hratio⟩, hproper, hnodup, hb⟩
    refine ⟨not_or.mpr ⟨Nat.not_lt.mpr hopenings, Nat.not_lt.mpr hn⟩, not_or.mpr ⟨hwidth, hratio⟩, ?_⟩
    refine except_bind_eq_ok.mpr ⟨some _, ?_, congrArg Except.ok (decide_eq_true hb)⟩
    rw [boundLoop_eq]
    exact (openLoop_iff hn nodup_nil).mpr ⟨hproper, hnodup, rfl⟩

theorem bagVerifyBound_accepts (h : bagVerifyBound crypto n peer bagRoot now params openings b = .ok true) :
    (∀ op ∈ openings, Counted crypto n peer bagRoot now op) ∧ (openings.map Opening.index).Nodup ∧
      b ≤ satSum (openings.map fun op => receiptAContribution op.receipt.toReceiptBody now params) := by
  obtain ⟨-, hproper, hnodup, hb⟩ := bagVerifyBound_iff.mp h
  exact ⟨fun op hop => (hproper op hop).toCounted, hnodup, hb⟩

end Loop

section Honest

variable {n : Nat} {peer root : Bytes32} {now : UInt64} {params : Params} {receipts : List Receipt}
  {openings : List Opening}

variable (crypto) in
def merkleRoot (receipts : List Receipt) : Bytes32 :=
  (build (nodeHash crypto) ((receipts.map leafData).map (leafHash crypto))).getD (emptyRoot crypto)

variable (crypto) in
/-- No two of the byte strings that are hashed for the bag and for the openings
collide. -/
structure CollisionFree (peer : Bytes32) (receipts : List Receipt) (n : Nat)
    (openings : List Opening) : Prop where
  tree : Set.InjOn crypto.blake3 (treeInputs crypto (receipts.map leafData) ∪
    ⋃ op ∈ openings, pathInputs crypto (leafData op.receipt) (claimedPath n op))
  root : Set.InjOn (crypto.blake3DeriveKey bagRootContext)
    ((fun merkle : Bytes32 => peer.val ++ merkle.val) ''
      insert (merkleRoot crypto receipts) {merkle | ∃ op ∈ openings, merkle = claimedRoot crypto n op})

theorem bagRoot_eq (h : bagRoot crypto receipts peer = .ok root) :
    root = deriveBagRoot crypto peer (merkleRoot crypto receipts) := by
  simp only [bagRoot, except_guard_iff] at h
  obtain ⟨-, h⟩ := h
  split at h
  · rename_i hnil
    obtain rfl := length_eq_zero_iff.mp hnil
    exact (Except.ok.inj h).symm
  · rename_i hne
    obtain ⟨ordered, -, h⟩ := except_bind_eq_ok.mp h
    simp only [except_guard_iff, repSubtreeRootRange, receiptLeafHash_eq, mapM_pure, Nat.sub_zero, drop_zero,
      take_length] at h
    obtain ⟨built, hbuilt⟩ : ∃ built,
        build (nodeHash crypto) (receipts.map fun r => leafHash crypto (leafData r)) = some built :=
      exists_root (by simpa using hne)
    have hroot : deriveBagRoot crypto peer ((some built).getD zero32) = root := by
      rw [← hbuilt]
      exact Except.ok.inj h.2
    rw [merkleRoot, map_map]
    exact hroot.symm.trans
      (congrArg (fun r => deriveBagRoot crypto peer (Option.getD r (emptyRoot crypto))) hbuilt.symm)

/-- An opening that is counted against the root of a bag opens one of its receipts,
whatever number of leaves it claims. -/
theorem opened_position {t : HashTree Bytes} (hleaves : t.leaves = receipts.map leafData)
    (hinputs : treeInputs crypto (receipts.map leafData) = inputBytes '' t.inputs (inputHash crypto))
    (hcf : CollisionFree crypto peer receipts n openings) (hop : op ∈ openings)
    (hclimb : claimedRoot crypto n op = t.hash (inputHash crypto)) :
    ∃ k, t.position (sides n op.index n).reverse = some k ∧ receipts[k]? = some op.receipt := by
  have hinj : Set.InjOn (inputHash crypto) (t.inputs (inputHash crypto) ∪ insert (.leaf (leafData op.receipt))
      (climbInputs (inputHash crypto) (inputHash crypto (.leaf (leafData op.receipt)))
      (claimedPath n op))) := by
    refine inputHash_injOn (hcf.tree.mono ?_)
    rw [Set.image_union, ← hinputs]
    exact Set.union_subset_union_right _ fun x hx => Set.mem_iUnion₂.mpr ⟨op, hop, hx⟩
  obtain ⟨k, hk, hdata⟩ := position_of_climb hinj hclimb
  rw [claimedPath, siblings_sides] at hk
  refine ⟨k, hk, ?_⟩
  rw [hleaves, getElem?_map, Option.map_eq_some_iff] at hdata
  obtain ⟨r, hr, hdata⟩ := hdata
  rw [hr, leafData_inj hdata]

theorem opened_subperm (hcf : CollisionFree crypto peer receipts n openings)
    (hindex : ∀ op ∈ openings, op.index < n)
    (hroots : ∀ op ∈ openings, claimedRoot crypto n op = merkleRoot crypto receipts)
    (hnodup : (openings.map Opening.index).Nodup) : (openings.map Opening.receipt).Subperm receipts := by
  by_cases hnil : receipts = []
  · -- no opening climbs to the root of the empty bag
    subst hnil
    cases openings with
    | nil => exact nil_subperm
    | cons op ops =>
      refine absurd (hroots op mem_cons_self) (climb_ne_emptyRoot (hcf.tree.mono ?_))
      exact Set.insert_subset (.inl rfl) fun x hx => .inr (Set.mem_iUnion₂.mpr ⟨op, mem_cons_self, hx⟩)
  obtain ⟨r₀, -⟩ := exists_mem_of_ne_nil _ hnil
  obtain ⟨built, hbuilt⟩ : ∃ built,
      build (nodeHash crypto) ((receipts.map leafData).map (leafHash crypto)) = some built :=
    exists_root (by simpa using hnil)
  obtain ⟨t, hleaves, hhash, hinputs⟩ := exists_tree hbuilt
  rw [merkleRoot, hbuilt, Option.getD_some, ← hhash] at hroots
  have hpos (op : Opening) (hop : op ∈ openings) := opened_position hleaves hinputs hcf hop (hroots op hop)
  let place (op : Opening) : Nat := (t.position (sides n op.index n).reverse).getD 0
  have hplaces : (openings.map place).Nodup := by
    refine hnodup.of_map.map_on fun op hop op' hop' heq => inj_on_of_nodup_map hnodup hop hop' ?_
    obtain ⟨k, hk, -⟩ := hpos op hop
    obtain ⟨k', hk', -⟩ := hpos op' hop'
    obtain rfl : k = k' := by simpa [place, hk, hk'] using heq
    have hsides := reverse_inj.mp (HashTree.position_inj hk hk')
    exact sides_suffix le_rfl (hindex op hop) (hindex op' hop') (hsides ▸ suffix_rfl)
  have hbound : openings.map place ⊆ List.range receipts.length := by
    intro k hk
    obtain ⟨op, hop, rfl⟩ := mem_map.mp hk
    obtain ⟨k, hk, hr⟩ := hpos op hop
    rw [mem_range]
    simpa [place, hk] using (List.getElem?_eq_some_iff.mp hr).1
  have hopened : openings.map Opening.receipt = (openings.map place).map (receipts.getD · r₀) := by
    rw [map_map]
    refine map_congr_left fun op hop => ?_
    obtain ⟨k, hk, hr⟩ := hpos op hop
    simp [place, hk, hr]
  have hall : (List.range receipts.length).map (receipts.getD · r₀) = receipts := by
    refine ext_getElem (by simp) fun i hi hi' => ?_
    simp [hi']
  have hmapped := subperm_map (hplaces.subperm hbound) (receipts.getD · r₀)
  rw [hopened]
  rwa [hall] at hmapped

/-- Openings counted against the root of an honest bag reach no more than the receipts of the bag
that share their property. -/
theorem opened_sum_le {p : Receipt → Bool} (hroot : bagRoot crypto receipts peer = .ok root)
    (hcounted : ∀ op ∈ openings, Counted crypto n peer root now op)
    (hnodup : (openings.map Opening.index).Nodup)
    (hp : ∀ op ∈ openings, p op.receipt = true) (hcf : CollisionFree crypto peer receipts n openings) :
    satSum (openings.map fun op => receiptAContribution op.receipt.toReceiptBody now params) ≤
      satSum ((receipts.filter p).map fun r => receiptAContribution r.toReceiptBody now params) := by
  obtain rfl := bagRoot_eq hroot
  have hroots : ∀ op ∈ openings, claimedRoot crypto n op = merkleRoot crypto receipts := by
    intro op hop
    have hmaterial :=
      hcf.root ⟨_, .inr ⟨op, hop, rfl⟩, rfl⟩ ⟨_, Set.mem_insert _ _, rfl⟩ (hcounted op hop).included
    exact Bytes32.ext (append_cancel_left hmaterial)
  have hopened := opened_subperm hcf (fun op hop => (hcounted op hop).index) hroots hnodup
  have hall : (openings.map Opening.receipt).filter p = openings.map Opening.receipt := by
    refine filter_eq_self.mpr fun r hr => ?_
    obtain ⟨op, hop, rfl⟩ := mem_map.mp hr
    exact hp op hop
  have hfiltered := hopened.filter p
  rw [hall] at hfiltered
  have hparts := subperm_map hfiltered fun r => receiptAContribution r.toReceiptBody now params
  rw [map_map] at hparts
  exact satSum_subperm hparts

/-- A bound accepted against the root of an honest bag is reached by the `A` of the bag, whatever
the openings claim. -/
theorem bound_le_a {a b tenure : UInt64} (hroot : bagRoot crypto receipts peer = .ok root)
    (haccept : bagVerifyBound crypto n peer root now params openings b = .ok true)
    (hcompute : compute crypto peer receipts now params = .ok (a, tenure))
    (hcf : CollisionFree crypto peer receipts n openings) : b ≤ a := by
  obtain ⟨hcounted, hnodup, hb⟩ := bagVerifyBound_accepts haccept
  rw [compute_a hcompute]
  exact UInt64.le_trans hb (opened_sum_le hroot hcounted hnodup (fun op hop => (hcounted op hop).eligible) hcf)

def samplePeer : Bytes32 := digest 0xd75a980182b10ab7d54bfed3c964073a0ee172f3daa62325af021a68f707511a

def sampleReceipt : Receipt where
  server := samplePeer
  client := digest 0x3d4017c3e843895a92b70aa74d1b7ebc9c982ccf2ec4968cc0cd55f12af4660c
  ncsValue := 1000
  timestampUnixS := 7200
  nonce := ⟨beBytes 16 0x0102030405060708090a0b0c0d0e0f10, rfl⟩
  serverSig :=
    { val :=
        beBytes 32 0xea82419c7864056ac20f7f754457c65c50900d499ceb17d7110e5229aaab91f5 ++
          beBytes 32 0x152916519143bb2fcf53e98516ed0ccadedb9635f65cf7a156dd387c6ab7bb0a
      length_val := rfl }
  clientSig :=
    { val :=
        beBytes 32 0xdd21893e23a644adfa8ce18f31ef2de1ab289fb2851ee4e3e8dae77c911742b0 ++
          beBytes 32 0xc8e06e4d364d056ab2c782baa90e7b838b5d15989656ea1f999cb4305274d00d
      length_val := rfl }

def sampleParams : Params := ⟨0x80000000, 4252017623, 1000000, 3600⟩

def sampleLeaf : Bytes32 := digest 0xcec2c0757bbb97548ba23919a4163bdabbe7287cfed8cb225df69dca879ef8c7

def samplePair : Bytes32 := digest 0x5b100d2db28d74cc00475a47eaf404d242207fde0088ed567778c1e106172e44

def sampleRoot : Bytes32 := digest 0x6ebd9c827382f04a307cbe1682639e4ad70d4345442aed0e4e31b206caa53421

def samplePairRoot : Bytes32 := digest 0x13a7548cd6d5c90c9799085a81a7f5588e3df472dd02fba0cdfba94a84dfea98

def sampleCrypto : Primitives where
  blake3 b :=
    if b = 0x00 :: leafData sampleReceipt then sampleLeaf
    else if b = 0x01 :: (sampleLeaf.val ++ sampleLeaf.val) then samplePair
    else zero32
  blake3DeriveKey context b :=
    if context = bagRootContext ∧ b = samplePeer.val ++ sampleLeaf.val then sampleRoot
    else if context = bagRootContext ∧ b = samplePeer.val ++ samplePair.val then samplePairRoot
    else zero32
  ed25519Verify peer msg sig :=
    msg = bodyBytes sampleReceipt.toReceiptBody &&
      (peer = samplePeer && sig = sampleReceipt.serverSig.val || peer = sampleReceipt.client &&
        sig = sampleReceipt.clientSig.val)

theorem collisionFree_of_inputs {inputs : List Bytes} (h : (inputs.map crypto.blake3).Nodup)
    (htree : ∀ b ∈ treeInputList crypto (receipts.map leafData), b ∈ inputs)
    (hpaths : ∀ op ∈ openings, ∀ b ∈ pathInputList crypto (leafData op.receipt) (claimedPath n op), b ∈ inputs)
    (hroots : ∀ op ∈ openings, claimedRoot crypto n op = merkleRoot crypto receipts) :
    CollisionFree crypto peer receipts n openings := by
  refine ⟨injOn_of_nodup h ?_, Set.Subsingleton.injOn ?_ _⟩
  · rintro b (hb | hb)
    · exact htree b (mem_treeInputList.mpr hb)
    · obtain ⟨op, hop, hb⟩ := Set.mem_iUnion₂.mp hb
      exact hpaths op hop b (mem_pathInputList.mpr hb)
  · have hroot : ∀ merkle ∈ insert (merkleRoot crypto receipts)
        {merkle | ∃ op ∈ openings, merkle = claimedRoot crypto n op}, merkle = merkleRoot crypto receipts := by
      rintro merkle (rfl | ⟨op, hop, rfl⟩)
      · rfl
      · exact hroots op hop
    rintro _ ⟨m, hm, rfl⟩ _ ⟨m', hm', rfl⟩
    rw [hroot m hm, hroot m' hm']

theorem sample_collisionFree :
    CollisionFree sampleCrypto samplePeer [sampleReceipt] 1 [⟨sampleReceipt, 0, some []⟩] := by
  apply @collisionFree_of_inputs _ _ _ _ _ [0x00 :: leafData sampleReceipt]
  · exact nodup_singleton _
  all_goals decide +kernel

def bagReceipt (i : Nat) (timestamp : UInt64) : Receipt :=
  { sampleReceipt with timestampUnixS := timestamp, nonce := ⟨beBytes 16 i, beBytes_length 16 i⟩ }

def sampleBag : List Receipt := [bagReceipt 1 3600, bagReceipt 2 7000, bagReceipt 3 7200]

def bagInputs : List Bytes := (sampleBag.map fun r => 0x00 :: leafData r) ++
  [0x01 :: ((digest 1).val ++ (digest 2).val), 0x01 :: ((digest 4).val ++ (digest 3).val)]

def bagCrypto : Primitives where
  blake3 b := digest (bagInputs.findIdx (· = b) + 1)
  blake3DeriveKey _ b := (toBytes32 (b.drop 32)).getD zero32
  ed25519Verify peer msg sig := sampleBag.any fun r => msg = bodyBytes r.toReceiptBody &&
    (peer = r.server && sig = r.serverSig.val || peer = r.client && sig = r.clientSig.val)

def bagOpenings : List Opening :=
  [⟨bagReceipt 1 3600, 0, some ((digest 2).val ++ (digest 3).val)⟩, ⟨bagReceipt 3 7200, 2, some (digest 4).val⟩]

theorem bag_collisionFree : CollisionFree bagCrypto samplePeer sampleBag 3 bagOpenings := by
  apply @collisionFree_of_inputs _ _ _ _ _ bagInputs <;> decide +kernel

theorem bag_accounts : bagRoot bagCrypto sampleBag samplePeer = .ok (digest 5) ∧
    compute bagCrypto samplePeer sampleBag 7200 sampleParams = .ok (2500, 2979) ∧
    bagVerifyBound bagCrypto 3 samplePeer (digest 5) 7200 sampleParams bagOpenings 1500 = .ok true := by
  decide +kernel

theorem bound_le_a_sample :
    bagVerifyBound bagCrypto 3 samplePeer (digest 5) 7200 sampleParams bagOpenings 1500 = .ok true ∧
      compute bagCrypto samplePeer sampleBag 7200 sampleParams = .ok (2500, 2979) ∧ (1500 : UInt64) ≤ 2500 := by
  obtain ⟨hroot, hcompute, haccepted⟩ := bag_accounts
  exact ⟨haccepted, hcompute, bound_le_a hroot haccepted hcompute bag_collisionFree⟩

end Honest

section Backing

variable {n : Nat} {peer root : Bytes32} {now : UInt64} {params : Params} {openings : List Opening}

variable (crypto) in
/-- Receipts of the pool with pairwise different bodies, all of which count for the
peer, reach the bound. -/
def Backed (peer : Bytes32) (now : UInt64) (params : Params) (b : UInt64) (pool : Set Receipt) : Prop :=
  ∃ rs : List Receipt, (∀ r ∈ rs, r ∈ pool ∧ Eligible crypto peer now r = true) ∧
    (rs.map Receipt.toReceiptBody).Nodup ∧
    b ≤ satSum (rs.map fun r => receiptAContribution r.toReceiptBody now params)

def openedBodies (openings : List Opening) : List ReceiptBody :=
  (openings.map fun op => op.receipt.toReceiptBody).dedup

theorem Backed.mono {pool pool' : Set Receipt} (h : Backed crypto peer now params b pool)
    (hsub : pool ⊆ pool') :
    Backed crypto peer now params b pool' := by
  obtain ⟨rs, hrs, hnodup, hb⟩ := h
  exact ⟨rs, fun r hr => ⟨hsub (hrs r hr).1, (hrs r hr).2⟩, hnodup, hb⟩

theorem exists_map_eq {f : α → β} {pool : Set α} {ys : List β} (h : ∀ y ∈ ys, ∃ x ∈ pool, f x = y) :
    ∃ xs : List α, (∀ x ∈ xs, x ∈ pool) ∧ xs.map f = ys := by
  induction ys with
  | nil => exact ⟨[], by simp, rfl⟩
  | cons y ys ih =>
    obtain ⟨⟨x, hx, rfl⟩, hys⟩ := forall_mem_cons.mp h
    obtain ⟨xs, hxs, rfl⟩ := ih hys
    exact ⟨x :: xs, forall_mem_cons.mpr ⟨hx, hxs⟩, rfl⟩

/-- The opened receipts back an accepted bound exactly when it is reached with every
body counted once. -/
theorem bound_backed_iff {b : UInt64}
    (haccept : bagVerifyBound crypto n peer root now params openings b = .ok true) :
    (Backed crypto peer now params b {r | r ∈ openings.map Opening.receipt} ↔
      b ≤ satSum ((openedBodies openings).map fun body => receiptAContribution body now params)) ∧
    (b ≤ satSum ((openedBodies openings).map fun body => receiptAContribution body now params) →
      Backed crypto peer now params b Set.univ) := by
  obtain ⟨hcounted, -, -⟩ := bagVerifyBound_accepts haccept
  have hiff : Backed crypto peer now params b {r | r ∈ openings.map Opening.receipt} ↔
      b ≤ satSum ((openedBodies openings).map fun body => receiptAContribution body now params) := by
    constructor
    · rintro ⟨rs, hrs, hnodup, hb⟩
      have hbodies : rs.map Receipt.toReceiptBody ⊆ openedBodies openings := by
        intro body hbody
        obtain ⟨r, hr, rfl⟩ := mem_map.mp hbody
        obtain ⟨op, hop, rfl⟩ := mem_map.mp (hrs r hr).1
        exact mem_dedup.mpr (mem_map.mpr ⟨op, hop, rfl⟩)
      have hparts := subperm_map (hnodup.subperm hbodies) fun body => receiptAContribution body now params
      rw [map_map] at hparts
      exact UInt64.le_trans hb (satSum_subperm hparts)
    · intro hb
      have hpick : ∀ body ∈ openedBodies openings, ∃ r ∈ {r | r ∈ openings.map Opening.receipt},
          r.toReceiptBody = body := by
        intro body hbody
        obtain ⟨op, hop, rfl⟩ := mem_map.mp (mem_dedup.mp hbody)
        exact ⟨op.receipt, mem_map_of_mem hop, rfl⟩
      obtain ⟨rs, hrs, hmap⟩ := exists_map_eq hpick
      refine ⟨rs, fun r hr => ⟨hrs r hr, ?_⟩, hmap ▸ nodup_dedup _, ?_⟩
      · obtain ⟨op, hop, rfl⟩ := mem_map.mp (hrs r hr)
        exact (hcounted op hop).eligible
      · rw [← hmap, map_map] at hb
        exact hb
  exact ⟨hiff, fun hb => (hiff.mpr hb).mono (Set.subset_univ _)⟩

theorem bound_backed_iff_sample :
    Backed bagCrypto samplePeer 7200 sampleParams 1500 {r | r ∈ bagOpenings.map Opening.receipt} ∧
      Backed bagCrypto samplePeer 7200 sampleParams 1500 Set.univ := by
  have hsum : (1500 : UInt64) ≤ satSum ((openedBodies bagOpenings).map fun body =>
      receiptAContribution body 7200 sampleParams) := by decide
  obtain ⟨hiff, huniv⟩ := bound_backed_iff bag_accounts.2.2
  exact ⟨hiff.mpr hsum, huniv hsum⟩

/-- One receipt committed at both leaves of a tree of two is counted twice. -/
theorem doubled_bound_accepted :
    bagVerifyBound sampleCrypto 2 samplePeer samplePairRoot 7200 sampleParams
        [⟨sampleReceipt, 0, some sampleLeaf.val⟩, ⟨sampleReceipt, 1, some sampleLeaf.val⟩] 2000 = .ok true ∧
      ¬ Backed sampleCrypto samplePeer 7200 sampleParams 2000 Set.univ := by
  refine ⟨by decide +kernel, ?_⟩
  rintro ⟨rs, hrs, hnodup, hb⟩
  have hbody : ∀ body ∈ rs.map Receipt.toReceiptBody, body = sampleReceipt.toReceiptBody := by
    intro body hbody
    obtain ⟨r, hr, rfl⟩ := mem_map.mp hbody
    have heligible := (hrs r hr).2
    simp only [Eligible, Countersigned, sampleCrypto, Bool.and_eq_true, decide_eq_true_eq] at heligible
    exact bodyBytes_inj heligible.1.1.1.1
  have hsub : rs.map Receipt.toReceiptBody ⊆ [sampleReceipt.toReceiptBody] :=
    fun body h => mem_singleton.mpr (hbody body h)
  have hparts := subperm_map (hnodup.subperm hsub) fun body => receiptAContribution body 7200 sampleParams
  rw [map_map] at hparts
  have hle := UInt64.le_trans hb (satSum_subperm hparts)
  revert hle
  decide +kernel

end Backing

end AntsClient.Reputation.Bound
