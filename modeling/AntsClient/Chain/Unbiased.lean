import AntsClient.Chain.Committee
import AntsClient.Lib.Sampling

namespace AntsClient.Chain.Unbiased

open Cbor.Head Crypto Committee Lib.Sampling List UInt64

def Accepted (bound w : UInt64) : Prop := 2 ^ 64 % bound.toNat ≤ w.toNat

/-- A draw from a counter on: the first word that is accepted, modulo the bound, and the
counter after it. -/
def FirstAccepted (crypto : Primitives) (prev beacon : Bytes32) (bound : UInt64) (rounds : Nat)
    (ctr r ctr' : UInt64) : Prop :=
  ∃ i < rounds, Accepted bound (committeeDrawWord crypto prev beacon (ctr + UInt64.ofNat i)) ∧
    (∀ j < i, ¬Accepted bound (committeeDrawWord crypto prev beacon (ctr + UInt64.ofNat j))) ∧
    r = committeeDrawWord crypto prev beacon (ctr + UInt64.ofNat i) % bound ∧
    ctr' = ctr + UInt64.ofNat i + 1

/-- The tuple that `committee_uniform` draws, round after round, from the counter `0` on. -/
def Drawn (crypto : Primitives) (prev beacon : Bytes32) (base : Nat) {k : Nat} (t : Fin k → Nat) : Prop :=
  ∃ ctr : Nat → UInt64, ctr 0 = 0 ∧ ∀ s : Fin k,
    committeeUniform crypto prev beacon (UInt64.ofNat (base + s) + 1) (ctr s) =
      some (UInt64.ofNat (t s), ctr (s + 1))

def committeeOf (base : Nat) {k : Nat} (t : Fin k → Nat) : List Nat := sortIndices (floyd base (ofFn t) [])

section Words

variable {bound r w : UInt64}

theorem band_toNat (hb : 0 < bound) : ((0 - bound) % bound).toNat = 2 ^ 64 % bound.toNat := by
  have hpos : 0 < bound.toNat := lt_iff_toNat_lt.mp hb
  have hlt := bound.toNat_lt
  have hsub : (0 - bound).toNat = 2 ^ 64 - bound.toNat := by
    rw [UInt64.toNat_sub, UInt64.toNat_zero, Nat.add_zero]
    exact Nat.mod_eq_of_lt (by omega)
  rw [UInt64.toNat_mod, hsub, ← Nat.mod_eq_sub_mod hlt.le]

theorem accepted_iff (hb : 0 < bound) : w ≥ (0 - bound) % bound ↔ Accepted bound w := by
  rw [Accepted, ge_iff_le, le_iff_toNat_le, band_toNat hb]

theorem ncard_accepted (hr : r < bound) :
    {w | Accepted bound w ∧ w % bound = r}.ncard = 2 ^ 64 / bound.toNat := by
  have hb : 0 < bound := UInt64.lt_of_le_of_lt (le_iff_toNat_le.mpr (Nat.zero_le _)) hr
  have himage : UInt64.toNat '' {w | Accepted bound w ∧ w % bound = r} =
      ((Finset.range (2 ^ 64)).filter fun n =>
        2 ^ 64 % bound.toNat ≤ n ∧ n % bound.toNat = r.toNat : Finset Nat) := by
    ext n
    simp only [Set.mem_image, Set.mem_ofPred_eq, Finset.coe_filter, Finset.mem_range]
    constructor
    · rintro ⟨w, ⟨hw, hres⟩, rfl⟩
      refine ⟨w.toNat_lt, hw, ?_⟩
      rw [← hres, UInt64.toNat_mod]
    · rintro ⟨hn, hband, hres⟩
      have htoNat : (UInt64.ofNat n).toNat = n := toNat_ofNat_of_lt' hn
      refine ⟨UInt64.ofNat n, ⟨hband.trans_eq htoNat.symm, ?_⟩, htoNat⟩
      apply UInt64.toNat.inj
      rw [UInt64.toNat_mod, htoNat, hres]
  rw [← Set.ncard_image_of_injective _ fun a b => UInt64.toNat.inj, himage, Set.ncard_coe_finset]
  exact card_accepted (lt_iff_toNat_lt.mp hb) (lt_iff_toNat_lt.mp hr)

theorem accepted_of_high (hb : 0 < bound) (hw : 2 ^ 63 ≤ w.toNat) : Accepted bound w := by
  have hpos : 0 < bound.toNat := lt_iff_toNat_lt.mp hb
  refine le_trans ?_ hw
  rcases Nat.lt_or_ge (2 ^ 63) bound.toNat with hlarge | hsmall
  · have hlt := bound.toNat_lt
    rw [Nat.mod_eq_sub_mod hlt.le]
    exact (Nat.mod_le _ _).trans (by omega)
  · exact (Nat.mod_lt _ hpos).le.trans hsmall

end Words

section Loops

variable {crypto : Primitives} {prev beacon : Bytes32} {bound t ctr ctr' : UInt64}
  {base rounds : Nat} {out c : List Nat}

theorem add_zero_toNat (ctr : UInt64) : ctr + UInt64.ofNat 0 = ctr := UInt64.add_zero ctr

theorem ctr_succ (ctr : UInt64) (i : Nat) : ctr + 1 + UInt64.ofNat i = ctr + UInt64.ofNat (i + 1) := by
  rw [UInt64.ofNat_add, UInt64.add_assoc, UInt64.add_comm 1]
  rfl

theorem committeeUniformLoop_iff (hb : 0 < bound) :
    committeeUniformLoop crypto prev beacon bound rounds ctr = some (t, ctr') ↔
      FirstAccepted crypto prev beacon bound rounds ctr t ctr' := by
  induction rounds generalizing ctr with
  | zero =>
    refine iff_of_false (fun h => by cases h) ?_
    rintro ⟨i, hi, -⟩
    exact Nat.not_lt_zero i hi
  | succ rounds ih =>
    rw [committeeUniformLoop]
    by_cases hw : Accepted bound (committeeDrawWord crypto prev beacon ctr)
    · rw [if_pos ((accepted_iff hb).mpr hw)]
      constructor
      · intro h
        obtain ⟨rfl, rfl⟩ := Prod.mk.inj (Option.some.inj h)
        refine ⟨0, Nat.succ_pos _, ?_, fun j hj => absurd hj (Nat.not_lt_zero j), ?_, ?_⟩
        · rwa [add_zero_toNat]
        · rw [add_zero_toNat]
        · rw [add_zero_toNat]
      · rintro ⟨i, -, -, hfirst, ht, hctr⟩
        obtain rfl : i = 0 := by
          by_contra hne
          exact hfirst 0 (Nat.pos_of_ne_zero hne) (by rwa [add_zero_toNat])
        rw [add_zero_toNat] at ht hctr
        rw [ht, hctr]
    · rw [if_neg fun h => hw ((accepted_iff hb).mp h), ih]
      constructor
      · rintro ⟨i, hi, haccepted, hfirst, ht, hctr⟩
        rw [ctr_succ] at haccepted ht hctr
        refine ⟨i + 1, Nat.succ_lt_succ hi, haccepted, fun j hj => ?_, ht, hctr⟩
        cases j with
        | zero => rwa [add_zero_toNat]
        | succ j =>
          rw [← ctr_succ]
          exact hfirst j (Nat.lt_of_succ_lt_succ hj)
      · rintro ⟨i, hi, haccepted, hfirst, ht, hctr⟩
        cases i with
        | zero =>
          rw [add_zero_toNat] at haccepted
          exact absurd haccepted hw
        | succ i =>
          rw [← ctr_succ] at haccepted ht hctr
          refine ⟨i, Nat.lt_of_succ_lt_succ hi, haccepted, fun j hj => ?_, ht, hctr⟩
          rw [ctr_succ]
          exact hfirst (j + 1) (Nat.succ_lt_succ hj)

theorem committeeUniform_returns (hb : 0 < bound) :
    (∃ r, committeeUniform crypto prev beacon bound ctr = some r) ↔
      ∃ i, Accepted bound (committeeDrawWord crypto prev beacon i) := by
  constructor
  · rintro ⟨⟨r, ctr'⟩, h⟩
    obtain ⟨i, -, haccepted, -⟩ := (committeeUniformLoop_iff hb).mp h
    exact ⟨_, haccepted⟩
  · rintro ⟨i, hw⟩
    have hreach : ctr + UInt64.ofNat (i - ctr).toNat = i := by
      rw [UInt64.ofNat_toNat, UInt64.add_comm, UInt64.sub_add_cancel]
    -- the draw stops at the first word that is accepted, and the one at `i` bounds the search
    have hsome : ∃ n, Accepted bound (committeeDrawWord crypto prev beacon (ctr + UInt64.ofNat n)) :=
      ⟨_, hreach.symm ▸ hw⟩
    classical
    have hfirst : Nat.find hsome < 2 ^ 64 :=
      (Nat.find_min' hsome (hreach.symm ▸ hw)).trans_lt (i - ctr).toNat_lt
    exact ⟨_, (committeeUniformLoop_iff hb).mpr
      ⟨_, hfirst, Nat.find_spec hsome, fun j hj => Nat.find_min hsome hj, rfl, rfl⟩⟩

theorem padded_length (w : UInt64) : (writeBe64 w ++ replicate 24 0).length = 32 := by
  rw [length_append, writeBe64, beBytes_length, length_replicate]

def wordCrypto (w : UInt64) : Primitives where
  blake3 _ := ⟨writeBe64 w ++ replicate 24 0, padded_length w⟩
  blake3DeriveKey _ _ := zero32
  ed25519Verify _ _ _ := false

theorem wordCrypto_word (w i : UInt64) : committeeDrawWord (wordCrypto w) prev beacon i = w := by
  have htake : (writeBe64 w ++ replicate 24 0).take 8 = beBytes 8 w.toNat :=
    take_left' (beBytes_length 8 w.toNat)
  have hlt : w.toNat < 256 ^ 8 := w.toNat_lt
  rw [committeeDrawWord, wordCrypto, readBe64, htake, beNat_beBytes hlt, UInt64.ofNat_toNat]

/-- A keystream that begins with an accepted word, and only such a one, ends the draw with
its first word. -/
theorem first_word_iff (hb : 0 < bound) {w r : UInt64} :
    (∃ crypto, committeeDrawWord crypto prev beacon ctr = w ∧
        committeeUniform crypto prev beacon bound ctr = some (r, ctr + 1)) ↔
      Accepted bound w ∧ w % bound = r := by
  constructor
  · rintro ⟨crypto, rfl, h⟩
    obtain ⟨i, hi, haccepted, -, hr, hctr⟩ := (committeeUniformLoop_iff hb).mp h
    have heq : ctr + UInt64.ofNat i = ctr := (UInt64.add_left_inj 1).mp hctr.symm
    rw [heq] at haccepted hr
    exact ⟨haccepted, hr.symm⟩
  · rintro ⟨haccepted, rfl⟩
    refine ⟨wordCrypto w, wordCrypto_word w ctr, (committeeUniformLoop_iff hb).mpr ⟨0, by norm_num, ?_⟩⟩
    rw [wordCrypto_word, add_zero_toNat]
    exact ⟨haccepted, fun j hj => absurd hj (Nat.not_lt_zero j), rfl, rfl⟩

theorem bound_toNat {j : Nat} (hj : j + 1 < 2 ^ 64) : (UInt64.ofNat j + 1).toNat = j + 1 := by
  rw [UInt64.toNat_add, UInt64.toNat_ofNat_of_lt' (by rw [UInt64.size]; omega)]
  exact Nat.mod_eq_of_lt hj

theorem succ_pos_of_lt {j : Nat} (hj : j + 1 < 2 ^ 64) : 0 < UInt64.ofNat j + 1 := by
  rw [lt_iff_toNat_lt, bound_toNat hj]
  exact Nat.succ_pos _

theorem sampleLoop_floyd (hsize : base + out.length + rounds < 2 ^ 64)
    (h : sampleLoop crypto prev beacon base rounds ctr out = some c) :
    ∃ (t : Fin rounds → Nat) (ctrs : Nat → UInt64), (∀ s, t s ≤ base + out.length + s) ∧
      c = floyd base (ofFn t) out ∧ ctrs 0 = ctr ∧ ∀ s : Fin rounds,
        committeeUniform crypto prev beacon (UInt64.ofNat (base + out.length + s) + 1) (ctrs s) =
          some (UInt64.ofNat (t s), ctrs (s + 1)) := by
  induction rounds generalizing ctr out with
  | zero => exact ⟨Fin.elim0, fun _ => ctr, fun s => s.elim0, (Option.some.inj h).symm, rfl, fun s => s.elim0⟩
  | succ rounds ih =>
    rw [sampleLoop] at h
    split at h
    · cases h
    rename_i draw ctr' hu
    have hlen : (out ++ [if draw.toNat ∈ out then base + out.length else draw.toNat]).length =
        out.length + 1 := by
      rw [length_append, length_singleton]
    obtain ⟨t, ctrs, ht, hc, hfirst, hdrawn⟩ := ih (by omega) h
    have hdraw := lt_iff_toNat_lt.mp
      (committeeUniformLoop_lt (succ_pos_of_lt (by omega)) hu)
    rw [bound_toNat (by omega)] at hdraw
    refine ⟨Fin.cons draw.toNat t, Nat.rec (motive := fun _ => UInt64) ctr fun s _ => ctrs s,
      fun s => ?_, ?_, rfl, fun s => ?_⟩
    · refine Fin.cases ?_ (fun s => ?_) s
      · rw [Fin.cons_zero]
        omega
      · have hs := ht s
        rw [Fin.cons_succ, Fin.val_succ]
        omega
    · rw [hc, ofFn_cons]
      rfl
    · refine Fin.cases ?_ (fun s => ?_) s
      · rw [Fin.cons_zero, UInt64.ofNat_toNat]
        exact hu.trans (congrArg (fun ctr => some (draw, ctr)) hfirst.symm)
      · have hs := hdrawn s
        have hshift : base + (out.length + 1) + s = base + out.length + (s + 1) := by omega
        rw [hlen, hshift] at hs
        rw [Fin.cons_succ, Fin.val_succ]
        exact hs

theorem sampleLoop_returns (hsize : base + out.length + rounds < 2 ^ 64) :
    (∃ c, sampleLoop crypto prev beacon base rounds ctr out = some c) ↔
      ∀ s < rounds, ∃ i, Accepted (UInt64.ofNat (base + out.length + s) + 1)
        (committeeDrawWord crypto prev beacon i) := by
  induction rounds generalizing ctr out with
  | zero => exact iff_of_true ⟨out, rfl⟩ fun s hs => absurd hs (Nat.not_lt_zero s)
  | succ rounds ih =>
    have hreturns := @committeeUniform_returns crypto prev beacon _ ctr
      (@succ_pos_of_lt (base + out.length) (by omega))
    rw [sampleLoop]
    cases hu : committeeUniform crypto prev beacon (UInt64.ofNat (base + out.length) + 1) ctr with
    | none =>
      apply iff_of_false
      · rintro ⟨c, hc⟩
        cases hc
      · intro hall
        obtain ⟨r, hr⟩ := hreturns.mpr (hall 0 (Nat.succ_pos _))
        rw [hu] at hr
        cases hr
    | some r =>
      obtain ⟨draw, ctr'⟩ := r
      have hlen : (out ++ [if draw.toNat ∈ out then base + out.length else draw.toNat]).length =
          out.length + 1 := by
        rw [length_append, length_singleton]
      have hshift : ∀ s, base + (out.length + 1) + s = base + out.length + (s + 1) := fun s => by omega
      rw [ih (by omega), hlen]
      constructor
      · intro hall s hs
        cases s with
        | zero => exact hreturns.mp ⟨_, hu⟩
        | succ s =>
          rw [← hshift]
          exact hall s (Nat.lt_of_succ_lt_succ hs)
      · intro hall s hs
        rw [hshift]
        exact hall (s + 1) (Nat.succ_lt_succ hs)

end Loops

section Committees

variable {base k : Nat} {t : Fin k → Nat} {S : Finset Nat}

theorem committeeOf_eq_iff (h : t ∈ drawTuples base k) :
    committeeOf base t = S.sort (· ≤ ·) ↔ picked base t = S := by
  have hperm := sortIndices_perm (floyd base (ofFn t) [])
  have hpicked : (committeeOf base t).toFinset = picked base t := toFinset_eq_of_perm _ _ hperm
  have hsorted : (picked base t).sort (· ≤ ·) = committeeOf base t := by
    rw [← hpicked]
    exact (toFinset_sort (· ≤ ·) (hperm.nodup_iff.mpr (floyd_nodup h))).mpr (sortIndices_sorted _)
  constructor
  · intro heq
    rw [← hpicked, heq, Finset.sort_toFinset]
  · intro heq
    rw [← heq, hsorted]

theorem card_committeeOf (hS : S ⊆ Finset.range (base + k)) (hcard : S.card = k) :
    ((drawTuples base k).filter fun t => committeeOf base t = S.sort (· ≤ ·)).card = k.factorial := by
  rw [← card_picked hS hcard]
  exact congrArg Finset.card (Finset.filter_congr fun t ht => committeeOf_eq_iff ht)

end Committees

variable {crypto : Primitives} {prev beacon : Bytes32} {populationSize k cap : Nat}

theorem committeeSelect_eq (hk : 0 < k) (hle : k ≤ populationSize) (hcap : k ≤ cap) :
    committeeSelect crypto prev beacon populationSize k cap =
      (sampleLoop crypto prev beacon (populationSize - k) k 0 []).map fun out => .ok (sortIndices out) := by
  rw [committeeSelect, if_neg (by omega), if_neg (by omega)]

theorem committeeSelect_returns (hsize : populationSize < 2 ^ 64) (hk : 0 < k)
    (hle : k ≤ populationSize) (hcap : k ≤ cap) :
    (∃ c, committeeSelect crypto prev beacon populationSize k cap = some (.ok c)) ↔ ∀ j,
    populationSize - k ≤ j → j < populationSize →
        ∃ i, Accepted (UInt64.ofNat j + 1) (committeeDrawWord crypto prev beacon i) := by
  have hloop := @sampleLoop_returns crypto prev beacon 0 (populationSize - k) k [] (by rw [length_nil]; omega)
  rw [length_nil, Nat.add_zero] at hloop
  rw [committeeSelect_eq hk hle hcap]
  constructor
  · rintro ⟨c, hc⟩ j hlow hhigh
    obtain ⟨out, hout, -⟩ := Option.map_eq_some_iff.mp hc
    obtain ⟨i, hi⟩ := hloop.mp ⟨out, hout⟩ (j - (populationSize - k)) (by omega)
    rw [Nat.add_sub_cancel' hlow] at hi
    exact ⟨i, hi⟩
  · intro hall
    obtain ⟨out, hout⟩ := hloop.mpr fun s hs => hall _ (Nat.le_add_right _ s) (by omega)
    exact ⟨sortIndices out, by rw [hout, Option.map_some]⟩

/-- A draw is the first accepted word modulo the bound, and the words that can end one are shared
evenly among the residues. The selection returns exactly when every draw comes to an accepted word,
with the committee of the tuple drawn, and the tuples are shared evenly among the committees. -/
theorem committee_unbiased (hsize : populationSize < 2 ^ 64) (hk : 0 < k) (hle : k ≤ populationSize)
    (hcap : k ≤ cap) :
    (∀ bound ctr r ctr', 0 < bound → (committeeUniform crypto prev beacon bound ctr = some (r, ctr') ↔
      FirstAccepted crypto prev beacon bound (2 ^ 64) ctr r ctr')) ∧
    (∀ bound r ctr, r < bound → {w | ∃ crypto, committeeDrawWord crypto prev beacon ctr = w ∧
      committeeUniform crypto prev beacon bound ctr = some (r, ctr + 1)}.ncard = 2 ^ 64 / bound.toNat) ∧
    ((∃ c, committeeSelect crypto prev beacon populationSize k cap = some (.ok c)) ↔
      ∀ j, populationSize - k ≤ j → j < populationSize →
        ∃ i, Accepted (UInt64.ofNat j + 1) (committeeDrawWord crypto prev beacon i)) ∧
    (∀ c, committeeSelect crypto prev beacon populationSize k cap = some (.ok c) →
      c.length = k ∧ c.Pairwise (· < ·) ∧ (∀ i ∈ c, i < populationSize) ∧
        ∃ t ∈ drawTuples (populationSize - k) k, Drawn crypto prev beacon (populationSize - k) t ∧
          c = committeeOf (populationSize - k) t) ∧
    ∀ S ⊆ Finset.range populationSize, S.card = k →
      ((drawTuples (populationSize - k) k).filter fun t =>
        committeeOf (populationSize - k) t = S.sort (· ≤ ·)).card = k.factorial := by
  refine ⟨fun bound ctr r ctr' hb => committeeUniformLoop_iff hb, fun bound r ctr hr => ?_,
    committeeSelect_returns hsize hk hle hcap, fun c hc => ?_, fun S hS hcard => ?_⟩
  · have hb : 0 < bound := UInt64.lt_of_le_of_lt UInt64.zero_le hr
    rw [← ncard_accepted hr]
    exact congrArg Set.ncard (Set.ext fun w => first_word_iff hb)
  · obtain ⟨-, hlen, -, -, hnodup, hsorted, hlt⟩ := committeeSelect_ok hsize hc
    rw [committeeSelect_eq hk hle hcap] at hc
    obtain ⟨out, hout, hsort⟩ := Option.map_eq_some_iff.mp hc
    obtain ⟨t, ctrs, ht, hfloyd, hfirst, hdrawn⟩ := sampleLoop_floyd (by rw [length_nil]; omega) hout
    refine ⟨hlen, ?_, hlt, t, mem_drawTuples.mpr ht, ⟨ctrs, hfirst, hdrawn⟩, ?_⟩
    · exact hsorted.imp₂ (fun a b hle hne => lt_of_le_of_ne hle hne) hnodup
    · rw [← Except.ok.inj hsort, hfloyd]
      rfl
  · rw [← Nat.sub_add_cancel hle] at hS
    exact card_committeeOf hS hcard

theorem committee_unbiased_sample :
    (∃ c, committeeSelect (wordCrypto 0xffffffffffffffff) zero32 zero32 5 3 3 = some (.ok c) ∧ c.length = 3 ∧
      c.Pairwise (· < ·) ∧ (∀ i ∈ c, i < 5) ∧
        ∃ t ∈ drawTuples 2 3, Drawn (wordCrypto 0xffffffffffffffff) zero32 zero32 2 t ∧ c = committeeOf 2 t) ∧
    ((drawTuples 2 3).filter fun t => committeeOf 2 t = ({0, 2, 4} : Finset Nat).sort (· ≤ ·)).card = 6 := by
  obtain ⟨-, -, hreturns, hright, hcount⟩ :=
    @committee_unbiased (wordCrypto 0xffffffffffffffff) zero32 zero32 5 3 3
    (by decide) (by decide) (by decide) (by decide)
  obtain ⟨c, hc⟩ := hreturns.mpr fun j hlow hhigh => by
    refine ⟨0, accepted_of_high (succ_pos_of_lt (by omega)) ?_⟩
    rw [wordCrypto_word]
    decide
  exact ⟨⟨c, hc, hright c hc⟩, hcount _ (by decide) (by decide)⟩

/-- No word of a stream of zeros is accepted for a bound of three, so the loop runs on for
ever. -/
theorem committee_stuck : (∀ i, committeeDrawWord (wordCrypto 0) zero32 zero32 i = 0) ∧
    committeeSelect (wordCrypto 0) zero32 zero32 3 1 1 = none := by
  have hzero (i : UInt64) : committeeDrawWord (wordCrypto 0) zero32 zero32 i = 0 := wordCrypto_word 0 i
  have hband : ¬Accepted (UInt64.ofNat (2 + 0 + 0) + 1) 0 := by
    rw [Accepted]
    decide
  refine ⟨hzero, ?_⟩
  rw [committeeSelect_eq (by decide) (by decide) (by decide), Option.map_eq_none_iff]
  by_contra hsome
  obtain ⟨i, hi⟩ := (sampleLoop_returns (by decide)).mp (Option.ne_none_iff_exists'.mp hsome) 0 (by decide)
  rw [hzero] at hi
  exact hband hi

end AntsClient.Chain.Unbiased
