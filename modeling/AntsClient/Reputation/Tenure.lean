import AntsClient.Reputation.Bound
import AntsClient.Reputation.Decay

namespace AntsClient.Reputation.Tenure

open Finset Crypto Lib.Saturating Receipts Reputation.Bound Decay List UInt64

variable {crypto : Primitives} {server : Bytes32} {now : UInt64} {params : Params} {receipts : List Receipt}
  {rs : List Receipt} {bin : UInt64}

section Bins

variable (now params)

def binOf (r : Receipt) : UInt64 := r.timestampUnixS / params.binWidthS

def bins (rs : List Receipt) : Finset UInt64 := (rs.map (binOf params)).toFinset

def binPart (rs : List Receipt) (bin : UInt64) : UInt64 :=
  let binTotal := satSum ((rs.filter fun r => binOf params r = bin).map fun r => r.ncsValue)
  applyDecay (if binTotal < params.kappaUncsPerBin then binTotal else params.kappaUncsPerBin)
    (decayFactor params.decayRatioTQ32 (now / params.binWidthS - bin))

def binSum (rs : List Receipt) : Nat := ∑ bin ∈ bins params rs, (binPart now params rs bin).toNat

variable {now params}

theorem bins_append (rs rs' : List Receipt) : bins params (rs ++ rs') = bins params rs ∪ bins params rs' := by
  rw [bins, map_append, toFinset_append]
  rfl

theorem mem_bins : bin ∈ bins params rs ↔ ∃ r ∈ rs, binOf params r = bin := by
  rw [bins, mem_toFinset, List.mem_map]

theorem binPart_eq {all : List Receipt}
    (h : (all.filter fun r => binOf params r = bin) = rs.filter fun r => binOf params r = bin) :
    binPart now params all bin =
      (let binTotal := (rs.filter fun r => binOf params r = bin).foldl
        (fun total r' => satAdd total r'.ncsValue) 0
      let clipped := if binTotal < params.kappaUncsPerBin then binTotal else params.kappaUncsPerBin
      applyDecay clipped (decayFactor params.decayRatioTQ32 (now / params.binWidthS - bin))) := by
  rw [binPart, h, satSum, foldl_map]

theorem passT_toNat (earlier rs : List Receipt) (t : UInt64) : (passT now params earlier rs t).toNat =
    min (t.toNat + ∑ bin ∈ bins params rs \ bins params earlier,
      (binPart now params (earlier ++ rs) bin).toNat) (2 ^ 64 - 1) := by
  induction rs generalizing earlier t with
  | nil =>
    have hlt := t.toNat_lt
    have hnone : bins params [] \ bins params earlier = ∅ := Finset.empty_sdiff _
    rw [passT, hnone, sum_empty]
    omega
  | cons r rs ih =>
    have hcons : earlier ++ r :: rs = (earlier ++ [r]) ++ rs := append_cons _ _ _
    have hrest : bins params rs \ bins params (earlier ++ [r]) =
        (bins params (r :: rs) \ bins params earlier).erase (binOf params r) := by
      ext bin
      simp only [mem_sdiff, mem_erase, mem_bins, mem_append, List.mem_cons]
      grind
    by_cases hmet : (earlier.any fun r' =>
      r'.timestampUnixS / params.binWidthS = r.timestampUnixS / params.binWidthS) = true
    · have hin : binOf params r ∈ bins params earlier := by
        obtain ⟨r', hr', heq⟩ := any_eq_true.mp hmet
        exact mem_bins.mpr ⟨r', hr', of_decide_eq_true heq⟩
      have hsame : (bins params (r :: rs) \ bins params earlier).erase (binOf params r) =
          bins params (r :: rs) \ bins params earlier :=
        erase_eq_of_notMem fun h => (mem_sdiff.mp h).2 hin
      rw [passT, if_pos hmet, ih, hrest, hsame, ← hcons]
    · have hout : binOf params r ∉ bins params earlier := by
        intro hin
        obtain ⟨r', hr', heq⟩ := mem_bins.mp hin
        exact hmet (any_eq_true.mpr ⟨r', hr', decide_eq_true heq⟩)
      have hmem : binOf params r ∈ bins params (r :: rs) \ bins params earlier :=
        mem_sdiff.mpr ⟨mem_bins.mpr ⟨r, mem_cons_self, rfl⟩, hout⟩
      have hfilter : (earlier ++ r :: rs).filter (fun r' => binOf params r' = binOf params r) =
          (r :: rs).filter fun r' => binOf params r' = binOf params r := by
        have hnil : earlier.filter (fun r' => binOf params r' = binOf params r) = [] :=
          filter_eq_nil_iff.mpr fun r' hr' heq => hout (mem_bins.mpr ⟨r', hr', of_decide_eq_true heq⟩)
        rw [filter_append, hnil, nil_append]
      have hstep : passT now params earlier (r :: rs) t =
          passT now params (earlier ++ [r]) rs
            (satAdd t (binPart now params (earlier ++ r :: rs) (binOf params r))) := by
        rw [passT, if_neg hmet, binPart_eq hfilter]
        rfl
      rw [hstep, ih, hrest, ← hcons, ← add_sum_erase _ _ hmem, toNat_satAdd]
      omega

end Bins

section Parts

variable {rs' : List Receipt}

theorem clip_toNat (a b : UInt64) : (if a < b then a else b).toNat = min a.toNat b.toNat := by
  split
  · rename_i h
    have := lt_iff_toNat_lt.mp h
    omega
  · rename_i h
    have := le_iff_toNat_le.mp (UInt64.not_lt.mp h)
    omega

theorem binPart_le_kappa (rs : List Receipt) (bin : UInt64) :
    (binPart now params rs bin).toNat ≤ params.kappaUncsPerBin.toNat := by
  refine (applyDecay_le (decayFactor_le _ _)).trans ?_
  rw [clip_toNat]
  exact Nat.min_le_right _ _

theorem binPart_subperm (h : rs.Subperm rs') :
    (binPart now params rs bin).toNat ≤ (binPart now params rs' bin).toNat := by
  refine applyDecay_mono (decayFactor_le _ _) ?_ (Nat.le_refl _)
  rw [clip_toNat, clip_toNat]
  have hle := le_iff_toNat_le.mp
    (satSum_subperm (subperm_map (h.filter fun r => binOf params r = bin) fun r => r.ncsValue))
  exact min_le_min_right _ hle

theorem binSum_subperm (h : rs.Subperm rs') : binSum now params rs ≤ binSum now params rs' := by
  have hbins : bins params rs ⊆ bins params rs' := by
    intro bin hbin
    obtain ⟨r, hr, heq⟩ := mem_bins.mp hbin
    exact mem_bins.mpr ⟨r, h.subset hr, heq⟩
  refine (List.sum_le_sum fun bin _ => binPart_subperm h).trans ?_
  exact sum_le_sum_of_subset hbins

theorem binSum_le_kappa (rs : List Receipt) :
    binSum now params rs ≤ params.kappaUncsPerBin.toNat * (bins params rs).card := by
  rw [Nat.mul_comm, ← smul_eq_mul]
  exact sum_le_card_nsmul _ _ _ fun bin _ => binPart_le_kappa rs bin

theorem binSum_one_bin (rs : List Receipt) {extra : List Receipt} (h : ∀ r ∈ extra, binOf params r = bin) :
    binSum now params (rs ++ extra) ≤ binSum now params rs + params.kappaUncsPerBin.toNat := by
  have hother (b : UInt64) (hb : b ≠ bin) : binPart now params (rs ++ extra) b = binPart now params rs b := by
    have hnil : extra.filter (fun r => binOf params r = b) = [] :=
      filter_eq_nil_iff.mpr fun r hr heq => hb ((of_decide_eq_true heq).symm.trans (h r hr))
    rw [binPart, filter_append, hnil, append_nil]
    rfl
  have hsub : bins params (rs ++ extra) ⊆ insert bin ((bins params rs).erase bin) := by
    intro b hb
    rw [bins_append, mem_union] at hb
    by_cases heq : b = bin
    · exact mem_insert.mpr (.inl heq)
    · refine List.mem_insert_of_mem (mem_erase.mpr ⟨heq, hb.resolve_right fun hextra => heq ?_⟩)
      obtain ⟨r, hr, hbin⟩ := mem_bins.mp hextra
      exact hbin.symm.trans (h r hr)
  calc binSum now params (rs ++ extra)
      ≤ ∑ b ∈ insert bin ((bins params rs).erase bin), (binPart now params (rs ++ extra) b).toNat :=
        sum_le_sum_of_subset hsub
    _ = (binPart now params (rs ++ extra) bin).toNat +
          ∑ b ∈ (bins params rs).erase bin, (binPart now params (rs ++ extra) b).toNat :=
            sum_insert (notMem_erase _ _)
    _ = (binPart now params (rs ++ extra) bin).toNat +
        ∑ b ∈ (bins params rs).erase bin, (binPart now params rs b).toNat := by
        congr 1
        exact sum_congr rfl fun b hb => congrArg UInt64.toNat (hother b (mem_erase.mp hb).1)
    _ ≤ params.kappaUncsPerBin.toNat + binSum now params rs :=
        Nat.add_le_add (binPart_le_kappa _ _) (sum_le_sum_of_subset (erase_subset _ _))
    _ = binSum now params rs + params.kappaUncsPerBin.toNat := Nat.add_comm _ _

end Parts

section Compute

theorem passA_ok (rs : List Receipt) (a : UInt64) :
    passA crypto server now params rs a = .ok (rs.map (Eligible crypto server now),
      ((rs.filter (Eligible crypto server now)).map fun r =>
        receiptAContribution r.toReceiptBody now params).foldl satAdd a) := by
  induction rs generalizing a with
  | nil => rfl
  | cons r rs ih =>
    rw [passA, receiptVerify_eq]
    change (if Eligible crypto server now r then _ else _) = _
    by_cases hr : Eligible crypto server now r = true
    · rw [if_pos hr, ih, List.map_cons, hr, filter_cons_of_pos hr]
      rfl
    · rw [if_neg hr, ih, List.map_cons, (Bool.not_eq_true _).mp hr, filter_cons_of_neg hr]
      rfl

theorem counted_eq (rs : List Receipt) (p : Receipt → Bool) :
    ((rs.zip (rs.map p)).filter Prod.snd).map Prod.fst = rs.filter p := by
  induction rs with
  | nil => rfl
  | cons r rs ih =>
    rw [List.map_cons, zip_cons_cons]
    by_cases hr : p r = true
    · have hpair : ((r, p r) :: rs.zip (rs.map p)).filter Prod.snd = (r, p r) ::
          (rs.zip (rs.map p)).filter Prod.snd :=
        filter_cons_of_pos hr
      rw [hpair, filter_cons_of_pos hr, List.map_cons, ih]
    · have hpair : ((r, p r) :: rs.zip (rs.map p)).filter Prod.snd = (rs.zip (rs.map p)).filter Prod.snd :=
        filter_cons_of_neg hr
      rw [hpair, filter_cons_of_neg hr, ih]

variable (params) in
def Accepted : Prop := params.binWidthS ≠ 0 ∧ params.decayRatioAQ32 ≠ 0 ∧ params.decayRatioTQ32 ≠ 0

variable (crypto server now params receipts) in
def ageSum : UInt64 :=
  satSum ((receipts.filter (Eligible crypto server now)).map fun r =>
    receiptAContribution r.toReceiptBody now params)

variable (crypto server now params receipts) in
def tenure : UInt64 := passT now params [] (receipts.filter (Eligible crypto server now)) 0

theorem compute_eq (hparams : Accepted params) (hlen : receipts.length ≤ maxReceipts) :
    compute crypto server receipts now params =
      .ok (ageSum crypto server now params receipts, tenure crypto server now params receipts) := by
  rw [compute, if_neg (Nat.not_lt.mpr hlen)]
  dsimp only
  rw [if_neg (not_or.mpr ⟨hparams.1, not_or.mpr hparams.2⟩), passA_ok]
  simp only [bind, Except.bind, counted_eq]
  rfl

theorem compute_ok {a t : UInt64} (h : compute crypto server receipts now params = .ok (a, t)) :
    Accepted params ∧ receipts.length ≤ maxReceipts ∧ a = ageSum crypto server now params receipts ∧
      t = tenure crypto server now params receipts := by
  obtain ⟨hlen, hparams⟩ := compute_params h
  rw [compute_eq hparams hlen] at h
  obtain ⟨ha, ht⟩ := Prod.mk.inj (Except.ok.inj h)
  exact ⟨hparams, hlen, ha.symm, ht.symm⟩

theorem tenure_toNat : (tenure crypto server now params receipts).toNat =
    min (binSum now params (receipts.filter (Eligible crypto server now))) (2 ^ 64 - 1) := by
  have hnone : bins params ([] : List Receipt) = ∅ := rfl
  rw [tenure, passT_toNat, UInt64.toNat_zero, Nat.zero_add, hnone, sdiff_empty, nil_append, binSum]

theorem ageSum_subperm {receipts' : List Receipt} (h : receipts.Subperm receipts') :
    ageSum crypto server now params receipts ≤ ageSum crypto server now params receipts' :=
  satSum_subperm (subperm_map (h.filter _) _)

theorem tenure_subperm {receipts' : List Receipt} (h : receipts.Subperm receipts') :
    tenure crypto server now params receipts ≤ tenure crypto server now params receipts' := by
  rw [le_iff_toNat_le, tenure_toNat, tenure_toNat]
  exact min_le_min_right _ (binSum_subperm (h.filter _))

/-- `A` and `T` depend on the multiset of the receipts only and grow with it, `T` by at most `kappa`
for a bin. -/
theorem compute_monotone
    (hparams : params.binWidthS ≠ 0 ∧ params.decayRatioAQ32 ≠ 0 ∧ params.decayRatioTQ32 ≠ 0)
    (hlen : receipts.length ≤ 4095) :
    ∃ a t, compute crypto server receipts now params = .ok (a, t) ∧
      (∀ receipts' : List Receipt, receipts.Perm receipts' →
        compute crypto server receipts' now params = .ok (a, t)) ∧
      (∀ r : Receipt, ∃ a' t', compute crypto server (receipts ++ [r]) now params = .ok (a', t') ∧
        a ≤ a' ∧ t ≤ t') ∧
      t.toNat ≤ params.kappaUncsPerBin.toNat * (((receipts.filter (Eligible crypto server now)).map fun r =>
        r.timestampUnixS / params.binWidthS).toFinset).card ∧
      ∀ (bin : UInt64) (extra : List Receipt), (receipts ++ extra).length ≤ maxReceipts →
        (∀ r ∈ extra, r.timestampUnixS / params.binWidthS = bin) →
        ∃ a' t', compute crypto server (receipts ++ extra) now params = .ok (a', t') ∧
          t'.toNat ≤ t.toNat + params.kappaUncsPerBin.toNat := by
  have hmax : receipts.length ≤ maxReceipts := hlen.trans (by decide)
  refine ⟨_, _, compute_eq hparams hmax, fun receipts' hperm => ?_, fun r =>
    ?_, ?_, fun bin extra hmax' hbin => ?_⟩
  · rw [compute_eq hparams (hperm.length_eq ▸ hmax)]
    have ha := UInt64.le_antisymm (@ageSum_subperm crypto server now params _ _ hperm.subperm)
      (ageSum_subperm hperm.symm.subperm)
    have ht := UInt64.le_antisymm (@tenure_subperm crypto server now params _ _ hperm.subperm)
      (tenure_subperm hperm.symm.subperm)
    rw [ha, ht]
  · have hmax' : (receipts ++ [r]).length ≤ maxReceipts := by
      rw [length_append, length_singleton]
      exact Nat.succ_le_succ hlen
    have hsub : receipts.Subperm (receipts ++ [r]) := (sublist_append_left _ _).subperm
    exact ⟨_, _, compute_eq hparams hmax', ageSum_subperm hsub, tenure_subperm hsub⟩
  · rw [tenure_toNat]
    exact (Nat.min_le_left _ _).trans (binSum_le_kappa _)
  · refine ⟨_, _, compute_eq hparams hmax', ?_⟩
    have hone := @binSum_one_bin now params bin (receipts.filter (Eligible crypto server now))
      (extra.filter (Eligible crypto server now)) fun r hr => hbin r (mem_of_mem_filter hr)
    rw [tenure_toNat, tenure_toNat, filter_append]
    omega

theorem compute_monotone_sample :
    ∃ a t, compute bagCrypto samplePeer sampleBag 7200 sampleParams = .ok (a, t) ∧ t.toNat ≤ 1000000 * 2 := by
  obtain ⟨a, t, hcompute, -, -, hkappa, -⟩ := @compute_monotone bagCrypto samplePeer 7200 sampleParams sampleBag
    (by decide) (by decide)
  refine ⟨a, t, hcompute, hkappa.trans (Nat.mul_le_mul_left _ (le_of_eq ?_))⟩
  decide +kernel

end Compute

section Aging

variable {now' : UInt64}

theorem satSum_le_map {α : Type} {xs : List α} {f g : α → UInt64} (h : ∀ x ∈ xs, f x ≤ g x) :
    satSum (xs.map f) ≤ satSum (xs.map g) := by
  have hle : ((xs.map f).map UInt64.toNat).sum ≤ ((xs.map g).map UInt64.toNat).sum := by
    rw [List.map_map, List.map_map]
    exact List.sum_le_sum fun x hx => le_iff_toNat_le.mp (h x hx)
  rw [le_iff_toNat_le, toNat_satSum, toNat_satSum]
  omega

theorem receiptAContribution_antitone {r : ReceiptBody} (hr : r.timestampUnixS ≤ now) (hnow : now ≤ now') :
    receiptAContribution r now' params ≤ receiptAContribution r now params := by
  have hage : (now - r.timestampUnixS) / params.binWidthS ≤ (now' - r.timestampUnixS) / params.binWidthS := by
    rw [UInt64.le_iff_toNat_le, UInt64.toNat_div, UInt64.toNat_div, UInt64.toNat_sub_of_le _ _ hr,
      UInt64.toNat_sub_of_le _ _ (UInt64.le_trans hr hnow)]
    exact Nat.div_le_div_right (Nat.sub_le_sub_right (le_iff_toNat_le.mp hnow) _)
  exact le_iff_toNat_le.mpr (applyDecay_mono (decayFactor_le _ _) (Nat.le_refl _) (decayFactor_antitone hage))

theorem binPart_antitone (hbin : bin ≤ now / params.binWidthS) (hnow : now ≤ now') :
    (binPart now' params rs bin).toNat ≤ (binPart now params rs bin).toNat := by
  have hdiv : now / params.binWidthS ≤ now' / params.binWidthS := by
    rw [UInt64.le_iff_toNat_le, UInt64.toNat_div, UInt64.toNat_div]
    exact Nat.div_le_div_right (le_iff_toNat_le.mp hnow)
  have hage : now / params.binWidthS - bin ≤ now' / params.binWidthS - bin := by
    rw [UInt64.le_iff_toNat_le, UInt64.toNat_sub_of_le _ _ hbin,
      UInt64.toNat_sub_of_le _ _ (UInt64.le_trans hbin hdiv)]
    exact Nat.sub_le_sub_right (le_iff_toNat_le.mp hdiv) _
  exact applyDecay_mono (decayFactor_le _ _) (Nat.le_refl _) (decayFactor_antitone hage)

/-- Where no receipt is dated after the first time, both `A` and `T` only decay. -/
theorem compute_decays {a t : UInt64}
    (hcompute : compute crypto server receipts now params = .ok (a, t)) (hnow : now ≤ now')
    (hdated : ∀ r ∈ receipts, r.timestampUnixS ≤ now) :
    ∃ a' t', compute crypto server receipts now' params = .ok (a', t') ∧ a' ≤ a ∧ t' ≤ t := by
  obtain ⟨hparams, hlen, rfl, rfl⟩ := compute_ok hcompute
  have hsame : receipts.filter (Eligible crypto server now') =
      receipts.filter (Eligible crypto server now) := by
    refine filter_congr fun r hr => ?_
    have hpast : decide (r.timestampUnixS > now) = false := decide_eq_false (UInt64.not_lt.mpr (hdated r hr))
    have hpast' : decide (r.timestampUnixS > now') = false :=
      decide_eq_false (UInt64.not_lt.mpr (UInt64.le_trans (hdated r hr) hnow))
    rw [Eligible, Eligible, hpast, hpast']
  refine ⟨_, _, compute_eq hparams hlen, ?_, ?_⟩
  · rw [ageSum, ageSum, hsame]
    exact satSum_le_map fun r hr => receiptAContribution_antitone (hdated r (mem_of_mem_filter hr)) hnow
  · rw [le_iff_toNat_le, tenure_toNat, tenure_toNat, hsame]
    refine min_le_min_right _ (List.sum_le_sum fun bin hbin => binPart_antitone ?_ hnow)
    obtain ⟨r, hr, rfl⟩ := mem_bins.mp hbin
    rw [binOf, UInt64.le_iff_toNat_le, UInt64.toNat_div, UInt64.toNat_div]
    exact Nat.div_le_div_right (le_iff_toNat_le.mp (hdated r (mem_of_mem_filter hr)))

theorem compute_decays_sample :
    ∃ a' t', compute bagCrypto samplePeer sampleBag 10800 sampleParams = .ok (a', t') ∧ a' ≤ 2500 ∧ t' ≤ 2979 :=
  compute_decays bag_accounts.2.1 (by decide) (by decide)

end Aging

end AntsClient.Reputation.Tenure
