import AntsClient.Crypto
import AntsClient.Lib.Sorting

namespace AntsClient.Chain.Committee

open Common Cbor.Head Crypto Lib.Sorting List

def committeeKMax : Nat := 64

def finalityNum : Nat := 2

def finalityDen : Nat := 3

def signatureSize : Nat := 64

def writeLe64 (v : UInt64) : Bytes := (beBytes 8 v.toNat).reverse

def writeBe64 (v : UInt64) : Bytes := beBytes 8 v.toNat

def readBe64 (b : Bytes) : UInt64 := UInt64.ofNat (beNat (b.take 8))

def committeeTag : Bytes := [0x63, 0x6d, 0x74, 0x65]

section

variable (crypto : Primitives) (prev beacon : Bytes32)

def committeeDrawWord (ctr : UInt64) : UInt64 :=
  readBe64 (crypto.blake3 (prev.val ++ beacon.val ++ committeeTag ++ writeLe64 ctr)).val

/-- The rejection loop, with the counter it leaves. After `2 ^ 64` words the counter is back, so a
loop still running never returns; `none` stands for that, in every caller. -/
def committeeUniformLoop (bound : UInt64) : Nat → UInt64 → Option (UInt64 × UInt64)
  | 0, _ => none
  | rounds + 1, ctr =>
    let w := committeeDrawWord crypto prev beacon ctr
    if w ≥ (0 - bound) % bound then some (w % bound, ctr + 1) else committeeUniformLoop bound rounds (ctr + 1)

def committeeUniform (bound ctr : UInt64) : Option (UInt64 × UInt64) :=
  committeeUniformLoop crypto prev beacon bound (2 ^ 64) ctr

/-- The rounds of Floyd's sampling that are left, with `base` the population beyond
the committee. -/
def sampleLoop (base : Nat) : Nat → UInt64 → List Nat → Option (List Nat)
  | 0, _, out => some out
  | rounds + 1, ctr, out =>
    let j := base + out.length
    match committeeUniform crypto prev beacon (UInt64.ofNat j + 1) ctr with
    | none => none
    | some (t, ctr') => sampleLoop base rounds ctr' (out ++ [if t.toNat ∈ out then j else t.toNat])

def sortIndices (indices : List Nat) : List Nat :=
  (indices.foldl (fun sorted key => sorted.orderedInsert (· ≥ ·) key) []).reverse

def committeeSelect (populationSize k cap : Nat) : Option (Except Error (List Nat)) :=
  if k = 0 ∨ k > populationSize then some (.error .invalidArg)
  else if cap < k then some (.error .bufferTooSmall)
  else (sampleLoop crypto prev beacon (populationSize - k) k 0 []).map fun out => .ok (sortIndices out)

end

variable (crypto : Primitives)

def vrfSeedDegraded (prev : Bytes32) (height : UInt64) : Bytes32 :=
  crypto.blake3DeriveKey "ants-v1-vrf-seed-degraded" (prev.val ++ writeBe64 height)

def proposer (height : UInt64) (k : Nat) : Except Error Nat :=
  if k = 0 ∨ k > committeeKMax then .error .invalidArg else .ok (height % UInt64.ofNat k).toNat

def finalityThreshold (k : Nat) : Nat := (finalityNum * k + (finalityDen - 1)) / finalityDen

/-- The loop over the members; the signatures of those that are marked stand packed in
the order of the members. -/
def countValid (blockHash : Bytes32) : List (Bytes32 × Bool) → Bytes → Nat
  | [], _ => 0
  | (_, false) :: members, attestations => countValid blockHash members attestations
  | (pubkey, true) :: members, attestations =>
    (if crypto.ed25519Verify pubkey blockHash.val (attestations.take signatureSize) then 1 else 0) +
      countValid blockHash members (attestations.drop signatureSize)

def finalityVerify (blockHash : Bytes32) (members : List (Bytes32 × Bool)) (attestations : Bytes) :
    Except Error Bool :=
  if members.length = 0 ∨ members.length > committeeKMax then .error .invalidArg
  else if attestations.length ≠ members.countP Prod.snd * signatureSize then .error .invalidArg
  else .ok (countValid crypto blockHash members attestations ≥ finalityThreshold members.length)

variable {ctr : UInt64} {rounds populationSize : Nat} {c : List Nat}

section

variable {crypto : Primitives} {prev beacon : Bytes32}

theorem committeeUniformLoop_lt {bound t ctr' : UInt64} (hb : 0 < bound)
    (h : committeeUniformLoop crypto prev beacon bound rounds ctr = some (t, ctr')) : t < bound := by
  induction rounds generalizing ctr with
  | zero => cases h
  | succ rounds ih =>
    rw [committeeUniformLoop] at h
    split at h
    · cases h
      exact UInt64.mod_lt _ hb
    · exact ih h

theorem sampleLoop_spec {base : Nat} {out : List Nat} (hsize : base + out.length + rounds < 2 ^ 64)
    (hnodup : out.Nodup) (hlt : ∀ i ∈ out, i < base + out.length)
    (h : sampleLoop crypto prev beacon base rounds ctr out = some c) :
    c.Nodup ∧ c.length = out.length + rounds ∧ ∀ i ∈ c, i < base + c.length := by
  induction rounds generalizing ctr out with
  | zero =>
    obtain rfl := Option.some.inj h
    exact ⟨hnodup, rfl, hlt⟩
  | succ rounds ih =>
    rw [sampleLoop] at h
    split at h
    · cases h
    rename_i t ctr' hu
    have hj : (UInt64.ofNat (base + out.length) + 1).toNat = base + out.length + 1 := by
      rw [UInt64.toNat_add, UInt64.toNat_ofNat_of_lt' (by rw [UInt64.size]; omega)]
      exact Nat.mod_eq_of_lt (by change base + out.length + 1 < 2 ^ 64; omega)
    have ht : t.toNat ≤ base + out.length := by
      have hb : 0 < UInt64.ofNat (base + out.length) + 1 := by
        rw [UInt64.lt_iff_toNat_lt, hj]
        exact Nat.succ_pos _
      have := UInt64.lt_iff_toNat_lt.mp (committeeUniformLoop_lt hb hu)
      omega
    -- the index of the round is beyond every earlier one, so it is free when the draw is not
    have hfresh : (if t.toNat ∈ out then base + out.length else t.toNat) ∉ out := by
      split
      · intro hmem
        exact absurd (hlt _ hmem) (Nat.lt_irrefl _)
      · assumption
    obtain ⟨hn, hl, hi⟩ := ih (by rw [length_append, length_singleton]; omega)
      (nodup_append.mpr ⟨hnodup, nodup_singleton _, by
        intro a ha b hb hab
        rw [mem_singleton] at hb
        exact hfresh (hb ▸ hab ▸ ha)⟩) (by
        intro i hi
        rw [length_append, length_singleton]
        rcases mem_append.mp hi with hi | hi
        · have := hlt i hi
          omega
        · rw [mem_singleton.mp hi]
          split <;> omega) h
    refine ⟨hn, ?_, hi⟩
    rw [hl, length_append, length_singleton]
    omega

theorem sortIndices_eq (indices : List Nat) :
    sortIndices indices = (indices.reverse.insertionSort (· ≥ ·)).reverse := by
  rw [sortIndices, foldl_orderedInsert]

theorem sortIndices_perm (indices : List Nat) : (sortIndices indices).Perm indices := by
  rw [sortIndices_eq]
  exact (reverse_perm _).trans ((perm_insertionSort _ _).trans (reverse_perm _))

theorem sortIndices_sorted (indices : List Nat) : (sortIndices indices).Pairwise (· ≤ ·) := by
  rw [sortIndices_eq, pairwise_reverse]
  exact pairwise_insertionSort _ _

theorem committeeSelect_ok {k cap : Nat} (hsize : populationSize < 2 ^ 64)
    (h : committeeSelect crypto prev beacon populationSize k cap = some (.ok c)) :
    k ≤ populationSize ∧ c.length = k ∧ 0 < k ∧ k ≤ cap ∧ c.Nodup ∧ c.Pairwise (· ≤ ·) ∧ ∀ i ∈ c,
    i < populationSize := by
  rw [committeeSelect] at h
  split at h
  · cases h
  split at h
  · cases h
  obtain ⟨out, hout, hc⟩ := Option.map_eq_some_iff.mp h
  obtain rfl : sortIndices out = c := Except.ok.inj hc
  obtain ⟨hn, hl, hi⟩ := sampleLoop_spec (by rw [length_nil]; omega) nodup_nil (by simp) hout
  rw [length_nil, Nat.zero_add] at hl
  have hp := sortIndices_perm out
  refine ⟨by omega, hp.length_eq.trans hl, by omega, by omega, hp.nodup_iff.mpr hn, sortIndices_sorted out, ?_⟩
  intro i hm
  have := hi i (hp.mem_iff.mp hm)
  omega

theorem committeeSelect_all {cap : Nat} (hsize : populationSize < 2 ^ 64)
    (h : committeeSelect crypto prev beacon populationSize populationSize cap = some (.ok c)) :
    c = range populationSize := by
  obtain ⟨-, hl, -, -, hn, hs, hi⟩ := committeeSelect_ok hsize h
  refine List.Perm.eq_of_pairwise (fun a b _ _ => Nat.le_antisymm) hs
    (pairwise_lt_range.imp Nat.le_of_lt) ?_
  refine (subperm_of_subset hn fun i hm => mem_range.mpr (hi i hm)).perm_of_length_le ?_
  rw [length_range, hl]

end

end AntsClient.Chain.Committee
