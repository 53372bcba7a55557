import AntsClient.Cbor.Sizes
import AntsClient.Chain.FieldReaders
import AntsClient.Reputation.Summaries

namespace AntsClient.Reputation.SummaryCodec

open Common Cbor Head Tokens EncoderSpec Values Canonical Schema Sizes Value Crypto
  Chain.FieldReaders Summaries List
open Chain.Blocks (encKvUint encKvBytes normDecode expectKey decodeBuf)

variable {s : Summary} {buf : Bytes} {cap : Nat}

def bucketValue (b : SummaryBucket) : Value :=
  .array [.uint b.bucketIndex.toNat, .uint b.totalDecayedUncs.toNat]

def bodyFields (s : Summary) : List (Value × Value) :=
  [(.uint 1, .bytes s.peerId.val), (.uint 2, .bytes s.bagRoot.val), (.uint 3, .uint s.evalTimeUnixS.toNat),
    (.uint 4, .uint s.bucketWidthS.toNat), (.uint 5, .array (s.buckets.map bucketValue))]

def bodyValue (s : Summary) : Value := .map (bodyFields s)

def fullValue (s : Summary) : Value := .map (bodyFields s ++ [(.uint 6, .bytes s.sig.val)])

variable {prev : Option UInt64} {bs : List SummaryBucket} {bytes : Bytes} {sig : Signature}

section Canonical

structure Canonical (s : Summary) : Prop where
  width : s.bucketWidthS ≠ 0
  count : s.buckets.length ≤ summaryMaxBuckets
  ascending : s.buckets.Pairwise fun b b' => b.bucketIndex < b'.bucketIndex
  nonzero : ∀ b ∈ s.buckets, b.totalDecayedUncs ≠ 0

theorem bucketsCanonical_iff : bucketsCanonical prev bs = true ↔
    (∀ b ∈ bs, b.totalDecayedUncs ≠ 0 ∧ ∀ i ∈ prev, i < b.bucketIndex) ∧ bs.Pairwise fun b b' =>
    b.bucketIndex < b'.bucketIndex := by
  induction bs generalizing prev with
  | nil => exact iff_of_true rfl ⟨fun b hb => absurd hb not_mem_nil, .nil⟩
  | cons b bs ih =>
    have hhead : bucketCanonical prev b = true ↔ b.totalDecayedUncs ≠ 0 ∧ ∀ i ∈ prev, i < b.bucketIndex := by
      cases prev <;> simp [bucketCanonical]
    rw [bucketsCanonical, Bool.and_eq_true, hhead, ih, forall_mem_cons, pairwise_cons]
    constructor
    · rintro ⟨hb, hbs, hpair⟩
      refine ⟨⟨hb, fun c hc => ⟨(hbs c hc).1, fun i hi => ?_⟩⟩, fun c hc => (hbs c hc).2 _ rfl, hpair⟩
      exact UInt64.lt_trans (hb.2 i hi) ((hbs c hc).2 _ rfl)
    · rintro ⟨⟨hb, hbs⟩, hlt, hpair⟩
      refine ⟨hb, fun c hc => ⟨(hbs c hc).1, fun i hi => ?_⟩, hpair⟩
      obtain rfl := Option.some.inj hi
      exact hlt c hc

theorem summaryStructCanonical_iff : summaryStructCanonical s = true ↔ Canonical s := by
  have hbuckets : bucketsCanonical none s.buckets = true ↔
      (∀ b ∈ s.buckets, b.totalDecayedUncs ≠ 0) ∧ s.buckets.Pairwise fun b b' =>
        b.bucketIndex < b'.bucketIndex := by
    rw [bucketsCanonical_iff]
    refine and_congr_left fun _ => forall₂_congr fun b _ => ?_
    exact and_iff_left fun i hi => nomatch hi
  rw [summaryStructCanonical, Bool.and_eq_true, hbuckets, Bool.not_eq_true', Bool.or_eq_false_iff,
    decide_eq_false_iff_not,
    decide_eq_false_iff_not, Nat.not_lt]
  exact ⟨fun ⟨⟨hwidth, hcount⟩, hnonzero, hascending⟩ => ⟨hwidth, hcount, hascending, hnonzero⟩,
    fun h => ⟨⟨h.width, h.count⟩, h.nonzero, h.ascending⟩⟩

end Canonical

section Values

def bucketTokens (b : SummaryBucket) : List Token :=
  [.array 2, .uint b.bucketIndex.toNat, .uint b.totalDecayedUncs.toNat]

theorem tokens_bucket (b : SummaryBucket) : tokens (bucketValue b) = bucketTokens b := by
  simp [bucketValue, bucketTokens, tokens, tokensList]

def bodyTokens (s : Summary) : List Token :=
  [.uint 1, .bytes s.peerId.val, .uint 2, .bytes s.bagRoot.val, .uint 3, .uint s.evalTimeUnixS.toNat, .uint 4,
    .uint s.bucketWidthS.toNat, .uint 5, .array s.buckets.length] ++ s.buckets.flatMap bucketTokens

theorem tokens_body (s : Summary) : tokens (bodyValue s) = .map 5 :: bodyTokens s := by
  simp [bodyValue, bodyFields, bodyTokens, tokens, tokensPairs, tokensList_eq, flatMap_map, tokens_bucket]

theorem tokens_full (s : Summary) :
    tokens (fullValue s) = .map 6 :: (bodyTokens s ++ [.uint 6, .bytes s.sig.val]) := by
  simp [fullValue, bodyFields, bodyTokens, tokens, tokensPairs, tokensList_eq, flatMap_map, tokens_bucket]

theorem encBuckets_eq (bs : List SummaryBucket) :
    encBuckets bs = encCalls ((bs.flatMap bucketTokens).map Token.call) := by
  induction bs with
  | nil => rfl
  | cons b bs ih =>
    rw [encBuckets, ih]
    simp [bucketTokens, Token.call, encCalls, encCall]

theorem summaryEncodeBodyPairs_eq (s : Summary) :
    summaryEncodeBodyPairs s = encCalls ((bodyTokens s).map Token.call) := by
  simp [summaryEncodeBodyPairs, bodyTokens, encKvBytes, encKvUint, encBuckets_eq, Token.call, encCalls, encCall]

theorem encSummaryBody_eq (s : Summary) : encSummaryBody s = encCalls (calls (bodyValue s)) := by
  rw [encSummaryBody, summaryEncodeBodyPairs_eq, calls, tokens_body]
  rfl

theorem encSummaryFull_eq (s : Summary) : encSummaryFull s = encCalls (calls (fullValue s)) := by
  rw [encSummaryFull, summaryEncodeBodyPairs_eq, calls, tokens_full, map_cons, map_append]
  simp [Token.call, encCalls, encCall, encCalls_append, encKvBytes, summaryFullPairs]

theorem buckets_within (h : s.buckets.length < 2 ^ 64) : Within 2 (.array (s.buckets.map bucketValue)) :=
  within_array_map h fun b _ => within_array (by simp) (by simp)

theorem body_wellFormed (h : s.buckets.length < 2 ^ 64) : WellFormed (bodyValue s) := by
  have hwithin : Within 3 (bodyValue s) :=
    within_fields [1, 2, 3, 4, 5] rfl (by decide) (by simp [bodyFields, buckets_within h])
  exact hwithin.wellFormed (by decide)

theorem full_wellFormed (h : s.buckets.length < 2 ^ 64) : WellFormed (fullValue s) := by
  have hwithin : Within 3 (fullValue s) :=
    within_fields [1, 2, 3, 4, 5, 6] rfl (by decide) (by simp [bodyFields, buckets_within h])
  exact hwithin.wellFormed (by decide)

theorem buckets_length (h : s.buckets.length ≤ summaryMaxBuckets) :
    (encode (.array (s.buckets.map bucketValue))).length ≤ 3 + 256 * 19 := by
  have hbuckets := encode_list_length fun b (_ : b ∈ s.buckets) =>
    encode_pair_length b.bucketIndex b.totalDecayedUncs
  have hhead : (head 4 (s.buckets.map bucketValue).length).length ≤ 3 := by
    refine head_length_short 4 ?_
    rw [length_map]
    exact lt_of_le_of_lt h (by norm_num [summaryMaxBuckets])
  rw [encode_array, length_append]
  exact Nat.add_le_add hhead (hbuckets.trans (Nat.mul_le_mul_right 19 h))

theorem body_fits (h : s.buckets.length ≤ summaryMaxBuckets) :
    (encode (bodyValue s)).length ≤ summaryBodyEncodedMax := by
  refine (encode_fields_length [1, 2, 3, 4, 5] rfl (by decide) [35, 35, 9, 9, 3 + 256 * 19]
    ?_).trans (by decide)
  simp [bodyFields, buckets_length h]

theorem full_fits (h : s.buckets.length ≤ summaryMaxBuckets) :
    (encode (fullValue s)).length ≤ summaryEncodedMax := by
  have hsig : (encode (.bytes s.sig.val)).length ≤ 67 :=
    (encode_bytes_length (by rw [s.sig.length_val]; norm_num)).trans (by rw [s.sig.length_val])
  refine (encode_fields_length [1, 2, 3, 4, 5, 6] rfl (by decide) [35, 35, 9, 9, 3 + 256 * 19, 67]
    ?_).trans (by decide)
  simp [bodyFields, buckets_length h, hsig]

end Values

theorem count_lt (h : Canonical s) : s.buckets.length < 2 ^ 64 :=
  lt_of_le_of_lt h.count (by norm_num [summaryMaxBuckets])

theorem summaryBodyEncode_iff (h : Canonical s) :
    summaryBodyEncode s buf = .ok bytes ↔ encode (bodyValue s) = bytes ∧ bytes.length ≤ buf.length := by
  rw [summaryBodyEncode, summaryStructCanonical_iff.mpr h, if_neg (Bool.not_eq_true _ ▸ rfl), encSummaryBody_eq]
  exact encodeInto_iff (body_wellFormed (count_lt h))

theorem summaryEncode_iff (h : Canonical s) :
    summaryEncode s buf = .ok bytes ↔ encode (fullValue s) = bytes ∧ bytes.length ≤ buf.length := by
  rw [summaryEncode, summaryStructCanonical_iff.mpr h, if_neg (Bool.not_eq_true _ ▸ rfl), encSummaryFull_eq]
  exact encodeInto_iff (full_wellFormed (count_lt h))

section Sound

theorem yields_decodeBuckets (prev : Option UInt64) (n : Nat) : Yields (decodeBuckets prev n) fun bs ts =>
    bs.length = n ∧ bucketsCanonical prev bs = true ∧ ts = bs.flatMap bucketTokens := by
  induction n generalizing prev with
  | zero => exact yields_pure ⟨rfl, rfl, rfl⟩
  | succ n ih =>
    refine Yields.step (yields_normDecode yields_array) fun pairN => yields_guard fun hpair => ?_
    refine Yields.step (yields_normDecode yields_uint) fun index =>
      Yields.step (yields_normDecode yields_uint) fun total => ?_
    refine yields_guard fun hcanonical => (ih _).bind fun bs ts hbs => yields_pure ?_
    obtain ⟨hlen, hrest, rfl⟩ := hbs
    obtain rfl := not_not.mp hpair
    refine ⟨congrArg (· + 1) hlen, ?_, by rw [append_nil]; rfl⟩
    rw [bucketsCanonical, Bool.and_eq_true]
    exact ⟨by simpa using hcanonical, hrest⟩

theorem eq_of_toSignature {p : Bytes} (h : toSignature p = some sig) : p = sig.val := by
  rw [toSignature] at h
  split at h
  · exact congrArg Signature.val (Option.some.inj h)
  · cases h

theorem yields_decodeSig (key : UInt64) : Yields (decodeSig key) fun sig ts =>
    ts = [.uint key.toNat, .bytes sig.val] := by
  refine yields_field key yields_bytes fun p => ?_
  cases h : toSignature p with
  | none => exact yields_throw
  | some sig =>
    obtain rfl := eq_of_toSignature h
    exact yields_pure rfl

theorem yields_decodeSummary (cap : Nat) :
    Yields (decodeSummary cap) (fun s ts => Canonical s ∧ ts = tokens (fullValue s)) True := by
  refine (yields_decodePairs _).seq fun _ => (yields_decodeBytesField 1).seq fun peerId =>
    (yields_decodeBytesField 2).seq fun bagRoot => (yields_decodeUintField 3).seq fun evalTime =>
      (yields_decodeUintField 4).seq fun width => yields_guard fun hwidth => ?_
  refine yields_field 5 yields_array fun n => yields_guard fun hmax => yields_guard fun hcap => ?_
  refine (yields_decodeBuckets none _).bind fun bs ts hbs => (yields_decodeSig 6).seq fun sig =>
    yields_decodeFinish ?_
  obtain ⟨hlen, hcanonical, rfl⟩ := hbs
  constructor
  · rw [← summaryStructCanonical_iff, summaryStructCanonical, hcanonical, hlen]
    simpa [hwidth] using hmax
  · rw [tokens_full, bodyTokens, hlen, append_nil]
    simp [summaryFullPairs]

theorem summaryDecode_sound (h : summaryDecode buf cap = .ok s) : Canonical s ∧ encode (fullValue s) = buf :=
  decodeBuf_sound (yields_decodeSummary cap) h

end Sound

section Complete

variable {us : List Token}

theorem takes_decodeBuckets (h : bucketsCanonical prev bs = true) :
    Takes (decodeBuckets prev bs.length) (bs.flatMap bucketTokens ++ us) us bs := by
  induction bs generalizing prev with
  | nil => exact takes_pure
  | cons b bs ih =>
    rw [bucketsCanonical, Bool.and_eq_true] at h
    refine Takes.bind (takes_normDecode (@takes_array _ 2)) ?_
    rw [if_neg (not_not.mpr rfl)]
    refine Takes.bind (takes_normDecode takes_uint) (Takes.bind (takes_normDecode takes_uint) ?_)
    rw [if_neg (by simp [h.1])]
    exact (ih h.2).bind takes_pure

theorem takes_decodeSig {key : UInt64} :
    Takes (decodeSig key) (.uint key.toNat :: .bytes sig.val :: us) us sig := by
  refine takes_field takes_bytes ?_
  rw [toSignature_val]
  exact takes_pure

theorem takes_decodeSummary (h : Canonical s) (hcap : s.buckets.length ≤ cap) :
    Takes (decodeSummary cap) (tokens (fullValue s)) [] s := by
  have hn : (UInt64.ofNat s.buckets.length).toNat = s.buckets.length := ofNat_toNat (count_lt h)
  have hbuckets : bucketsCanonical none s.buckets = true := by
    have hstruct := summaryStructCanonical_iff.mpr h
    rw [summaryStructCanonical, Bool.and_eq_true] at hstruct
    exact hstruct.2
  rw [tokens_full, bodyTokens, ← hn]
  refine Takes.bind (@takes_decodePairs _ 6) (takes_decodeBytesField.bind (takes_decodeBytesField.bind
    (takes_decodeUintField.bind (takes_decodeUintField.bind ?_))))
  rw [if_neg h.width]
  refine takes_field takes_array ?_
  rw [hn, if_neg (Nat.not_lt.mpr h.count), if_neg (Nat.not_lt.mpr hcap)]
  exact (takes_decodeBuckets hbuckets).bind (takes_decodeSig.bind (takes_decodeFinish.bind takes_pure))

theorem summaryDecode_encode (h : Canonical s) (hcap : s.buckets.length ≤ cap) :
    summaryDecode (encode (fullValue s)) cap = .ok s :=
  decodeBuf_of_takes (full_wellFormed (count_lt h)) (takes_decodeSummary h hcap)

end Complete

/-- The codec is a bijection between the canonical summaries and the byte strings that the decoder
accepts, and the stated sizes suffice. -/
theorem summary_codec_bijection :
    (∀ s : Summary, s.bucketWidthS ≠ 0 → s.buckets.length ≤ summaryMaxBuckets →
      (s.buckets.Pairwise fun b b' => b.bucketIndex < b'.bucketIndex) →
      (∀ b ∈ s.buckets, b.totalDecayedUncs ≠ 0) →
      (∀ buf : Bytes, summaryBodyEncodedMax ≤ buf.length →
        ∃ body, summaryBodyEncode s buf = .ok body ∧ body.length ≤ summaryBodyEncodedMax) ∧
      (∀ buf : Bytes, summaryEncodedMax ≤ buf.length →
        ∃ bytes, summaryEncode s buf = .ok bytes ∧ bytes.length ≤ summaryEncodedMax ∧
          ∀ cap, s.buckets.length ≤ cap → summaryDecode bytes cap = .ok s)) ∧
    ∀ bytes cap s, summaryDecode bytes cap = .ok s →
      ∀ buf : Bytes, bytes.length ≤ buf.length → summaryEncode s buf = .ok bytes := by
  refine ⟨fun s hwidth hcount hascending hnonzero => ?_, fun bytes cap s h buf hbuf => ?_⟩
  · have h : Canonical s := ⟨hwidth, hcount, hascending, hnonzero⟩
    refine ⟨fun buf hbuf => ⟨_, ?_, body_fits hcount⟩, fun buf hbuf => ⟨_, ?_, full_fits hcount, ?_⟩⟩
    · exact (summaryBodyEncode_iff h).mpr ⟨rfl, (body_fits hcount).trans hbuf⟩
    · exact (summaryEncode_iff h).mpr ⟨rfl, (full_fits hcount).trans hbuf⟩
    · exact fun cap hcap => summaryDecode_encode h hcap
  · obtain ⟨hcanonical, hbytes⟩ := summaryDecode_sound h
    exact (summaryEncode_iff hcanonical).mpr ⟨hbytes, hbuf⟩

def wideSummary : Summary :=
  ⟨zero32, zero32, 7200, 3600, [⟨2, 1000⟩, ⟨0xffffffffffffffff, 0xffffffffffffffff⟩], signature 1 2⟩

theorem summary_codec_bijection_sample :
    ∃ bytes, summaryEncode wideSummary (replicate summaryEncodedMax 0) = .ok bytes ∧
      summaryDecode bytes 2 = .ok wideSummary ∧ summaryEncode wideSummary bytes = .ok bytes := by
  obtain ⟨hencode, hdecode⟩ := summary_codec_bijection
  obtain ⟨-, hfull⟩ := hencode wideSummary (by decide) (by decide) (by decide) (by decide)
  obtain ⟨bytes, henc, -, hdec⟩ := hfull _ (length_replicate.symm.le)
  exact ⟨bytes, henc, hdec 2 (by decide), hdecode bytes 2 _ (hdec 2 (by decide)) bytes (Nat.le_refl _)⟩

end AntsClient.Reputation.SummaryCodec
