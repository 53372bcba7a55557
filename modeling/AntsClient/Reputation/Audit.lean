import AntsClient.Reputation.Disclosure
import AntsClient.Reputation.Summaries

namespace AntsClient.Reputation.Audit

open Common Crypto Lib.Saturating Receipts Bag Reputation.Bound Disclosure Summaries List UInt64

variable {rs : List Receipt} {cur : Option SummaryBucket} {out : List SummaryBucket} {index : UInt64}

section Grouping

variable (key weight : Receipt → UInt64)

def groupSum (rs : List Receipt) (index : UInt64) : UInt64 :=
  satSum ((rs.filter fun r => key r = index).map weight)

/-- The buckets are the sums that are not zero, in ascending order. -/
structure Listed (rs : List Receipt) (out : List SummaryBucket) : Prop where
  mem : ∀ b, b ∈ out ↔ b.totalDecayedUncs = groupSum key weight rs b.bucketIndex ∧ b.totalDecayedUncs ≠ 0
  ascending : out.Pairwise fun b b' => b.bucketIndex < b'.bucketIndex
  sum : satSum (out.map SummaryBucket.totalDecayedUncs) = satSum (rs.map weight)

structure Grouped (rs : List Receipt) (cur : SummaryBucket) (out : List SummaryBucket) : Prop where
  last : ∀ r ∈ rs, key r ≤ cur.bucketIndex
  held : ∃ r ∈ rs, key r = cur.bucketIndex
  total : cur.totalDecayedUncs = groupSum key weight rs cur.bucketIndex
  mem : ∀ b, b ∈ out ↔ b.bucketIndex < cur.bucketIndex ∧
    b.totalDecayedUncs = groupSum key weight rs b.bucketIndex ∧
    b.totalDecayedUncs ≠ 0
  ascending : out.Pairwise fun b b' => b.bucketIndex < b'.bucketIndex
  sum : satAdd (satSum (out.map SummaryBucket.totalDecayedUncs)) cur.totalDecayedUncs = satSum (rs.map weight)

variable {key weight} {r : Receipt} {cur : SummaryBucket} {out' : List SummaryBucket} {cap : Nat}

theorem satAdd_zero (a : UInt64) : satAdd a 0 = a := by
  rw [← UInt64.toNat_inj, toNat_satAdd, UInt64.toNat_zero, Nat.add_zero]
  have := a.toNat_lt
  exact Nat.min_eq_left (by omega)

theorem zero_satAdd (a : UInt64) : satAdd 0 a = a := by
  rw [← UInt64.toNat_inj, toNat_satAdd, UInt64.toNat_zero, Nat.zero_add]
  have := a.toNat_lt
  exact Nat.min_eq_left (by omega)

theorem satAdd_assoc (a b c : UInt64) : satAdd (satAdd a b) c = satAdd a (satAdd b c) := by
  rw [← UInt64.toNat_inj]
  simp only [toNat_satAdd]
  omega

theorem satSum_append (xs : List UInt64) (x : UInt64) : satSum (xs ++ [x]) = satAdd (satSum xs) x := by
  rw [satSum, foldl_append, foldl_cons, foldl_nil, satSum]

theorem groupSum_append (i : UInt64) : groupSum key weight (rs ++ [r]) i =
    if key r = i then satAdd (groupSum key weight rs i) (weight r) else groupSum key weight rs i := by
  rw [groupSum, filter_append]
  by_cases hi : key r = i
  · have hone : [r].filter (fun r => key r = i) = [r] := filter_cons_of_pos (decide_eq_true hi)
    rw [if_pos hi, hone, map_append, map_singleton, satSum_append, groupSum]
  · have hnone : [r].filter (fun r => key r = i) = [] := filter_cons_of_neg (fun h => hi (of_decide_eq_true h))
    rw [if_neg hi, hnone, append_nil, groupSum]

theorem groupSum_eq_zero {i : UInt64} (h : ∀ r ∈ rs, key r ≠ i) : groupSum key weight rs i = 0 := by
  have hnil : rs.filter (fun r => key r = i) = [] :=
    filter_eq_nil_iff.mpr fun r hr hkey => h r hr (of_decide_eq_true hkey)
  rw [groupSum, hnil, map_nil, satSum, foldl_nil]

theorem le_last (h : ∀ x ∈ rs, key x ≤ key r) : ∀ x ∈ rs ++ [r], key x ≤ key r := by
  rw [forall_mem_append, forall_mem_singleton]
  exact ⟨h, UInt64.le_refl _⟩

theorem Grouped.same (h : Grouped key weight rs cur out) (hkey : key r = cur.bucketIndex) :
    Grouped key weight (rs ++ [r]) ⟨key r, satAdd cur.totalDecayedUncs (weight r)⟩ out := by
  refine ⟨le_last (hkey ▸ h.last), ⟨r, mem_append_right _ (mem_singleton_self r), rfl⟩, ?_, fun b =>
    ?_, h.ascending, ?_⟩
  · rw [groupSum_append, if_pos rfl, h.total, hkey]
  · rw [h.mem, groupSum_append, hkey]
    refine and_congr_right fun hlt => ?_
    rw [if_neg (UInt64.ne_of_lt hlt).symm]
  · rw [map_append, map_singleton, satSum_append, ← h.sum, satAdd_assoc]

theorem Listed.next (h : Listed key weight rs out) (hkey : ∀ x ∈ rs, key x < key r) :
    Grouped key weight (rs ++ [r]) ⟨key r, satAdd 0 (weight r)⟩ out := by
  have hnew : groupSum key weight rs (key r) = 0 := groupSum_eq_zero fun x hx => UInt64.ne_of_lt (hkey x hx)
  refine ⟨le_last fun x hx =>
    UInt64.le_of_lt (hkey x hx), ⟨r, mem_append_right _ (mem_singleton_self r), rfl⟩, ?_,
    fun b => ?_, h.ascending, ?_⟩
  · rw [groupSum_append, if_pos rfl, hnew]
  · rw [h.mem, groupSum_append]
    by_cases hb : b.bucketIndex < key r
    · rw [if_neg (UInt64.ne_of_lt hb).symm]
      exact ⟨fun hmem => ⟨hb, hmem⟩, fun hmem => hmem.2⟩
    · -- no receipt so far has that key, so that its sum is zero
      refine iff_of_false (fun hmem =>
        hmem.2 (hmem.1.trans (groupSum_eq_zero fun x hx heq => hb ?_))) fun hmem => hb hmem.1
      exact heq ▸ hkey x hx
  · rw [map_append, map_singleton, satSum_append, h.sum, zero_satAdd]

theorem Grouped.flushed (h : Grouped key weight rs cur out)
    (hflush : flush cap out (some cur) = .ok out') : Listed key weight rs out' := by
  have hbound (b : SummaryBucket) (hb : b.totalDecayedUncs = groupSum key weight rs b.bucketIndex)
      (hne : b.totalDecayedUncs ≠ 0) : b.bucketIndex ≤ cur.bucketIndex := by
    by_contra hgt
    refine hne (hb.trans (groupSum_eq_zero fun r hr heq => hgt ?_))
    exact heq ▸ h.last r hr
  rw [flush] at hflush
  by_cases hpos : cur.totalDecayedUncs > 0
  · rw [if_pos hpos] at hflush
    split at hflush
    · cases hflush
    obtain rfl := Except.ok.inj hflush
    refine ⟨fun b => ?_, ?_, ?_⟩
    · rw [mem_append, h.mem, mem_singleton]
      constructor
      · rintro (⟨-, hb⟩ | rfl)
        · exact hb
        · exact ⟨h.total, (UInt64.ne_of_lt hpos).symm⟩
      · rintro ⟨hb, hne⟩
        by_cases hlt : b.bucketIndex < cur.bucketIndex
        · exact .inl ⟨hlt, hb, hne⟩
        · have heq : b.bucketIndex = cur.bucketIndex :=
            UInt64.le_antisymm (hbound b hb hne) (UInt64.not_lt.mp hlt)
          refine .inr ?_
          obtain ⟨index, total⟩ := b
          obtain ⟨index', total'⟩ := cur
          obtain rfl : index = index' := heq
          rw [SummaryBucket.mk.injEq]
          exact ⟨rfl, hb.trans h.total.symm⟩
    · refine pairwise_append.mpr ⟨h.ascending, pairwise_singleton _ _, fun b hb b' hb' => ?_⟩
      rw [mem_singleton.mp hb']
      exact ((h.mem b).mp hb).1
    · rw [map_append, map_singleton, satSum_append, h.sum]
  · rw [if_neg hpos] at hflush
    obtain rfl := Except.ok.inj hflush
    have hzero : cur.totalDecayedUncs = 0 := by
      by_contra hne
      refine hpos (lt_iff_toNat_lt.mpr (Nat.pos_of_ne_zero fun h0 => hne (UInt64.toNat.inj h0)))
    refine ⟨fun b => ?_, h.ascending, ?_⟩
    · rw [h.mem]
      refine ⟨fun hb => hb.2, fun hb => ⟨?_, hb⟩⟩
      refine UInt64.lt_of_le_of_ne (hbound b hb.1 hb.2) fun heq => hb.2 ?_
      rw [hb.1, heq, ← h.total, hzero]
    · rw [← h.sum, hzero, satAdd_zero]

end Grouping

variable {crypto : Primitives} {peer root : Bytes32} {receipts : List Receipt} {params : Params}
  {out' : List SummaryBucket}

section Build

variable {evalTime width : UInt64} {cap : Nat}

theorem orderedFrom_ascends {prev : Receipt} {leaf : Bytes32} (h : orderedFrom crypto prev leaf rs = .ok true) :
    (prev :: rs).Pairwise fun r r' => r.timestampUnixS ≤ r'.timestampUnixS := by
  induction rs generalizing prev leaf with
  | nil => exact pairwise_singleton _ _
  | cons r rs ih =>
    rw [orderedFrom, receiptLeafHash_eq] at h
    obtain ⟨curLeaf, -, h⟩ := except_bind_eq_ok.mp h
    split at h
    · cases h
    rename_i hle
    split at h
    · cases h
    have hrest := ih h
    refine pairwise_cons.mpr ⟨fun r' hr' => ?_, hrest⟩
    have hprev : prev.timestampUnixS ≤ r.timestampUnixS := UInt64.not_lt.mp hle
    obtain rfl | hr' := mem_cons.mp hr'
    · exact hprev
    · exact UInt64.le_trans hprev ((pairwise_cons.mp hrest).1 r' hr')

theorem canonicalOrdered_ascends (h : receiptsCanonicalOrdered crypto receipts = .ok true) :
    receipts.Pairwise fun r r' => r.timestampUnixS ≤ r'.timestampUnixS := by
  cases receipts with
  | nil => exact .nil
  | cons r rs =>
    rw [receiptsCanonicalOrdered] at h
    obtain ⟨leaf, -, h⟩ := except_bind_eq_ok.mp h
    exact orderedFrom_ascends h

theorem div_le_div {a b : UInt64} (h : a ≤ b) (w : UInt64) : a / w ≤ b / w := by
  rw [UInt64.le_iff_toNat_le, UInt64.toNat_div, UInt64.toNat_div]
  exact Nat.div_le_div_right (le_iff_toNat_le.mp h)

def bucketOf (width : UInt64) (r : Receipt) : UInt64 := r.timestampUnixS / width

def weightAt (evalTime : UInt64) (params : Params) (r : Receipt) : UInt64 :=
  receiptAContribution r.toReceiptBody evalTime params

def Passed (evalTime width : UInt64) (params : Params) (rs : List Receipt) :
    Option SummaryBucket → List SummaryBucket → Prop
  | none, out => rs = [] ∧ out = []
  | some cur, out => Grouped (bucketOf width) (weightAt evalTime params) rs cur out

theorem listed_nil {key weight : Receipt → UInt64} : Listed key weight [] [] := by
  refine ⟨fun b => iff_of_false not_mem_nil fun h => h.2 ?_, .nil, rfl⟩
  rw [h.1]
  exact groupSum_eq_zero fun r hr => absurd hr not_mem_nil

theorem Passed.flushed (h : Passed evalTime width params rs cur out) (hflush : flush cap out cur = .ok out') :
    Listed (bucketOf width) (weightAt evalTime params) rs out' := by
  cases cur with
  | none =>
    obtain ⟨rfl, rfl⟩ := h
    obtain rfl := Except.ok.inj hflush
    exact listed_nil
  | some cur => exact Grouped.flushed h hflush

theorem Passed.left {r : Receipt} (h : Passed evalTime width params rs cur out)
    (hsorted : ∀ x ∈ rs, bucketOf width x ≤ bucketOf width r)
    (hleft : (cur.filter fun b => b.bucketIndex = bucketOf width r) = none) :
    ∀ x ∈ rs, bucketOf width x < bucketOf width r := by
  cases cur with
  | none =>
    obtain ⟨rfl, -⟩ := h
    exact fun x hx => absurd hx not_mem_nil
  | some cur =>
    obtain ⟨y, hy, hcur⟩ := h.held
    have hne : cur.bucketIndex ≠ bucketOf width r := by
      intro heq
      rw [Option.filter_some, if_pos (decide_eq_true heq)] at hleft
      cases hleft
    have hlt : cur.bucketIndex < bucketOf width r := UInt64.lt_of_le_of_ne (hcur ▸ hsorted y hy) hne
    exact fun x hx => UInt64.lt_of_le_of_lt (h.last x hx) hlt

theorem buildLoop_listed {done : List Receipt} (hpassed : Passed evalTime width params done cur out)
    (hsorted : (done ++ rs.filter (Eligible crypto peer evalTime)).Pairwise fun r r' =>
      r.timestampUnixS ≤ r'.timestampUnixS)
    (h : buildLoop crypto cap peer evalTime width params rs cur out = .ok out') :
    Listed (bucketOf width) (weightAt evalTime params)
      (done ++ rs.filter (Eligible crypto peer evalTime)) out' := by
  induction rs generalizing done cur out with
  | nil =>
    rw [filter_nil, append_nil]
    exact hpassed.flushed h
  | cons r rs ih =>
    rw [buildLoop, screen_eq] at h
    by_cases hr : Eligible crypto peer evalTime r = true
    · rw [filter_cons_of_pos hr, append_cons] at hsorted ⊢
      have hbelow : ∀ x ∈ done, bucketOf width x ≤ bucketOf width r := by
        intro x hx
        have hpair := (pairwise_append.mp (pairwise_append.mp hsorted).1).2.2
        exact div_le_div (hpair x hx r (mem_singleton_self r)) width
      rw [if_pos hr] at h
      dsimp only at h
      cases hcur : cur.filter fun b => b.bucketIndex = r.timestampUnixS / width with
      | some b =>
        obtain ⟨rfl, hkey⟩ := Option.filter_eq_some_iff.mp hcur
        rw [hcur] at h
        have hnext : Passed evalTime width params (done ++ [r]) (some _) out :=
          Grouped.same hpassed (of_decide_eq_true hkey).symm
        exact ih hnext hsorted h
      | none =>
        rw [hcur] at h
        obtain ⟨out₁, hflush, h⟩ := except_bind_eq_ok.mp h
        have hnext : Passed evalTime width params (done ++ [r]) (some _) out₁ :=
          (hpassed.flushed hflush).next (hpassed.left hbelow hcur)
        exact ih hnext hsorted h
    · rw [if_neg hr] at h
      rw [filter_cons_of_neg hr] at hsorted ⊢
      exact ih hpassed hsorted h

variable (crypto peer evalTime width params receipts) in
/-- The sum, at `evalTime`, of the contributions of the receipts that count and fall in a bucket. -/
def bucketSum (index : UInt64) : UInt64 :=
  satSum (((receipts.filter (Eligible crypto peer evalTime)).filter fun r =>
      r.timestampUnixS / width = index).map fun r =>
    receiptAContribution r.toReceiptBody evalTime params)

theorem summaryBuild_listed {buckets : List SummaryBucket}
    (h : summaryBuild crypto cap peer evalTime width params receipts = .ok buckets) :
    Listed (bucketOf width) (weightAt evalTime params)
      (receipts.filter (Eligible crypto peer evalTime)) buckets := by
  simp only [summaryBuild, except_guard_iff] at h
  obtain ⟨-, -, h⟩ := h
  by_cases hnil : receipts.length = 0
  · rw [if_pos hnil] at h
    obtain rfl := Except.ok.inj h
    rw [length_eq_zero_iff.mp hnil]
    exact listed_nil
  · rw [if_neg hnil] at h
    obtain ⟨ordered, hordered, h⟩ := except_bind_eq_ok.mp h
    simp only [except_guard_iff] at h
    obtain ⟨htrue, h⟩ := h
    have hsorted := canonicalOrdered_ascends (hordered.trans (congrArg Except.ok (by simpa using htrue)))
    have hstart : Passed evalTime width params [] none [] := ⟨rfl, rfl⟩
    exact buildLoop_listed hstart (hsorted.filter _) h

end Build

variable {openings : List Opening} {n : Nat} {stated : SummaryBucket}

section Exact

variable {s : Summary}

theorem summaryAuditBucket_iff : summaryAuditBucket crypto s index openings n params = .ok true ↔
      (openings.length ≤ maxReceipts ∧ n ≤ maxReceipts ∧ s.buckets.length ≤ summaryMaxBuckets ∧
        s.bucketWidthS ≠ 0) ∧
      (params.binWidthS ≠ 0 ∧ params.decayRatioAQ32 ≠ 0) ∧
      ∃ stated, (s.buckets.find? fun b => b.bucketIndex = index) = some stated ∧
        (∀ op ∈ openings, Proper crypto n s.peerId s.bagRoot s.evalTimeUnixS
          (fun r => r.timestampUnixS / s.bucketWidthS = index) op) ∧
        (openings.map Opening.index).Nodup ∧
        stated.totalDecayedUncs ≤ satSum (openings.map fun op =>
          receiptAContribution op.receipt.toReceiptBody s.evalTimeUnixS params) := by
  simp only [summaryAuditBucket, except_guard_iff, not_or, Nat.not_lt, gt_iff_lt]
  refine and_congr_right fun hsize => and_congr_right fun _ => ?_
  cases hfind : s.buckets.find? fun b => b.bucketIndex = index with
  | none => exact iff_of_false nofun fun ⟨_, h, _⟩ => nomatch h
  | some stated =>
    constructor
    · intro h
      obtain ⟨verdict, hloop, h⟩ := except_bind_eq_ok.mp h
      cases verdict with
      | none => cases h
      | some total =>
        obtain ⟨hproper, hnodup, rfl⟩ := (openLoop_iff hsize.2.1 nodup_nil).mp hloop
        exact ⟨stated, rfl, hproper, hnodup, of_decide_eq_true (Except.ok.inj h)⟩
    · rintro ⟨_, hstated, hproper, hnodup, hle⟩
      obtain rfl := Option.some.inj hstated
      refine except_bind_eq_ok.mpr ⟨some _, ?_, congrArg Except.ok (decide_eq_true hle)⟩
      exact (openLoop_iff hsize.2.1 nodup_nil).mpr ⟨hproper, hnodup, rfl⟩

/-- Every total that the receipts of the bag reach can be substantiated, by openings of all the
receipts in the bucket. -/
theorem audit_complete (hroot : bagRoot crypto receipts s.peerId = .ok s.bagRoot)
    (hparams : params.binWidthS ≠ 0 ∧ params.decayRatioAQ32 ≠ 0) (hwidth : s.bucketWidthS ≠ 0)
    (hcount : s.buckets.length ≤ summaryMaxBuckets)
    (hfind : (s.buckets.find? fun b => b.bucketIndex = index) = some stated)
    (hle : stated.totalDecayedUncs ≤
      bucketSum crypto s.peerId receipts params s.evalTimeUnixS s.bucketWidthS index) :
    ∃ openings n, summaryAuditBucket crypto s index openings n params = .ok true := by
  let inBucket (r : Receipt) : Bool := r.timestampUnixS / s.bucketWidthS = index
  let taken := receipts.zipIdx.reverse.filter fun p =>
    inBucket p.1 && Eligible crypto s.peerId s.evalTimeUnixS p.1
  have hgood : ∀ p ∈ taken, Eligible crypto s.peerId s.evalTimeUnixS p.1 = true ∧ inBucket p.1 = true := by
    intro p hp
    have hboth := (mem_filter.mp hp).2
    rw [Bool.and_eq_true] at hboth
    exact hboth.symm
  have hmax : receipts.length ≤ maxReceipts := by
    simp only [bagRoot, except_guard_iff] at hroot
    exact Nat.not_lt.mp hroot.1
  obtain ⟨hproper, hnodup, hlen⟩ := openings_proper hroot filter_sublist hgood
  refine ⟨_, receipts.length, summaryAuditBucket_iff.mpr
    ⟨⟨?_, hmax, hcount, hwidth⟩, hparams, stated, hfind, hproper, hnodup, ?_⟩⟩
  · rw [length_map]
    exact hlen.trans hmax
  · have hsum := @satSum_zipIdx receipts
      (fun r => inBucket r && Eligible crypto s.peerId s.evalTimeUnixS r) (weightAt s.evalTimeUnixS params)
    rw [bucketSum, filter_filter] at hle
    rw [map_map]
    exact UInt64.le_trans hle (UInt64.le_of_eq hsum.symm)

theorem audit_sound (hroot : bagRoot crypto receipts s.peerId = .ok s.bagRoot)
    (hfind : (s.buckets.find? fun b => b.bucketIndex = index) = some stated)
    (hcf : CollisionFree crypto s.peerId receipts n openings)
    (haccept : summaryAuditBucket crypto s index openings n params = .ok true) :
    stated.totalDecayedUncs ≤
      bucketSum crypto s.peerId receipts params s.evalTimeUnixS s.bucketWidthS index := by
  obtain ⟨-, -, stated', hfind', hproper, hnodup, hle⟩ := summaryAuditBucket_iff.mp haccept
  obtain rfl := Option.some.inj (hfind.symm.trans hfind')
  have hboth : ∀ op ∈ openings, (decide (op.receipt.timestampUnixS / s.bucketWidthS = index) &&
      Eligible crypto s.peerId s.evalTimeUnixS op.receipt) = true :=
    fun op hop => Bool.and_eq_true_iff.mpr ⟨(hproper op hop).also, (hproper op hop).eligible⟩
  rw [bucketSum, filter_filter]
  exact UInt64.le_trans hle (opened_sum_le hroot (fun op hop => (hproper op hop).toCounted) hnodup hboth hcf)

/-- What the audit of a summary over an honest bag can show, and what an honest summary states. -/
theorem summary_exact (hroot : bagRoot crypto receipts s.peerId = .ok s.bagRoot)
    (hparams : params.binWidthS ≠ 0 ∧ params.decayRatioAQ32 ≠ 0) (hwidth : s.bucketWidthS ≠ 0)
    (hcount : s.buckets.length ≤ summaryMaxBuckets) :
    (∀ stated, (s.buckets.find? fun b => b.bucketIndex = stated.bucketIndex) = some stated →
      (stated.totalDecayedUncs ≤ bucketSum crypto s.peerId receipts params s.evalTimeUnixS
        s.bucketWidthS stated.bucketIndex →
        ∃ openings n, summaryAuditBucket crypto s stated.bucketIndex openings n params = .ok true) ∧
      (∀ openings n, CollisionFree crypto s.peerId receipts n openings →
        summaryAuditBucket crypto s stated.bucketIndex openings n params = .ok true →
        stated.totalDecayedUncs ≤
          bucketSum crypto s.peerId receipts params s.evalTimeUnixS s.bucketWidthS stated.bucketIndex)) ∧
    (∀ cap buckets, summaryBuild crypto cap s.peerId s.evalTimeUnixS s.bucketWidthS params
      receipts = .ok buckets →
      (∀ b, b ∈ buckets ↔ b.totalDecayedUncs =
        bucketSum crypto s.peerId receipts params s.evalTimeUnixS s.bucketWidthS b.bucketIndex ∧
        b.totalDecayedUncs ≠ 0) ∧
      (buckets.Pairwise fun b b' => b.bucketIndex < b'.bucketIndex) ∧
      ∀ a tenure, compute crypto s.peerId receipts s.evalTimeUnixS params = .ok (a, tenure) →
        satSum (buckets.map SummaryBucket.totalDecayedUncs) = a) := by
  refine ⟨fun stated hfind =>
    ⟨audit_complete hroot hparams hwidth hcount hfind, ?_⟩, fun cap buckets hbuild => ?_⟩
  · intro openings n hcf haccept
    exact audit_sound hroot hfind hcf haccept
  · have hlisted := summaryBuild_listed hbuild
    refine ⟨hlisted.mem, hlisted.ascending, fun a tenure hcompute => ?_⟩
    rw [hlisted.sum, compute_a hcompute]
    rfl

def sampleSummary (buckets : List SummaryBucket) : Summary :=
  ⟨samplePeer, sampleRoot, 7200, 3600, buckets, signature 0 0⟩

theorem summary_exact_sample :
    (∃ openings n, summaryAuditBucket bagCrypto
      ⟨samplePeer, digest 5, 7200, 3600, [⟨1, 1500⟩, ⟨2, 1000⟩], signature 0 0⟩ 1 openings n
        sampleParams = .ok true) ∧
      summaryBuild bagCrypto 2 samplePeer 7200 3600 sampleParams sampleBag = .ok [⟨1, 1500⟩, ⟨2, 1000⟩] ∧
      satSum ([⟨1, 1500⟩, ⟨2, 1000⟩].map SummaryBucket.totalDecayedUncs) = 2500 := by
  have hbuild : summaryBuild bagCrypto 2 samplePeer 7200 3600 sampleParams sampleBag =
      .ok [⟨1, 1500⟩, ⟨2, 1000⟩] := by decide +kernel
  obtain ⟨haudit, hexact⟩ := @summary_exact bagCrypto sampleBag sampleParams
    ⟨samplePeer, digest 5, 7200, 3600, [⟨1, 1500⟩, ⟨2, 1000⟩], signature 0 0⟩
    bag_accounts.1 (by decide) (by decide) (by decide)
  exact ⟨(haudit ⟨1, 1500⟩ (by decide)).1 (by decide +kernel), hbuild,
    (hexact 2 _ hbuild).2.2 _ _ bag_accounts.2.1⟩

/-- An index stated twice is audited against its first total, and with more buckets than fit in a
summary nothing is accepted. -/
theorem stated_total_unaudited :
    (bagRoot sampleCrypto [sampleReceipt] samplePeer = .ok sampleRoot ∧
      CollisionFree sampleCrypto samplePeer [sampleReceipt] 1 [⟨sampleReceipt, 0, some []⟩] ∧
      (⟨2, 2000⟩ : SummaryBucket) ∈ (sampleSummary [⟨2, 1000⟩, ⟨2, 2000⟩]).buckets ∧
      summaryAuditBucket sampleCrypto (sampleSummary [⟨2, 1000⟩, ⟨2, 2000⟩]) 2
        [⟨sampleReceipt, 0, some []⟩] 1 sampleParams =
        .ok true ∧
      ¬ (2000 : UInt64) ≤ bucketSum sampleCrypto samplePeer [sampleReceipt] sampleParams 7200 3600 2) ∧
    ∃ many : List SummaryBucket, (⟨2, 1000⟩ : SummaryBucket) ∈ many ∧
      (1000 : UInt64) ≤ bucketSum sampleCrypto samplePeer [sampleReceipt] sampleParams 7200 3600 2 ∧
      ∀ openings n, summaryAuditBucket sampleCrypto (sampleSummary many) 2 openings n sampleParams ≠
        .ok true := by
  refine ⟨⟨by decide +kernel, sample_collisionFree, by decide, by decide +kernel, by decide +kernel⟩, ?_⟩
  refine ⟨⟨2, 1000⟩ :: (range 256).map fun i => ⟨UInt64.ofNat i + 3, 1⟩, mem_cons_self, by decide +kernel, ?_⟩
  intro openings n haccept
  obtain ⟨⟨-, -, hcount, -⟩, -⟩ := summaryAuditBucket_iff.mp haccept
  rw [sampleSummary, length_cons, length_map, length_range] at hcount
  exact absurd hcount (by decide)

end Exact

end AntsClient.Reputation.Audit
