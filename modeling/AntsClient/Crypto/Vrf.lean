import AntsClient.Crypto
import AntsClient.Lib.Pocklington

namespace AntsClient.Crypto.Vrf

open Common Cbor.Head Lib.Pocklington List

@[irreducible]
def groupOrder : Nat := 2 ^ 252 + 27742317777372353535851937790883648493

/-- The curve group: a cyclic group of order `L` next to the torsion of order 8. -/
abbrev Point (L : Nat) := ZMod L × ZMod 8

abbrev Block (n : Nat) := { b : Bytes // b.length = n }

/-- The vendored curve arithmetic, and SHA-512 at each of the four places that call it. -/
structure Curve (L : Nat) where
  tobytes : Point L → Bytes32
  frombytes : Bytes32 → Option (Point L)
  isCanonical : Bytes32 → Bool
  frombytes_tobytes : ∀ P, frombytes (tobytes P) = some P
  isCanonical_tobytes : ∀ P, isCanonical (tobytes P) = true
  base : Point L
  base_order : addOrderOf base = L
  hashToCurve : Bytes32 → Bytes → ZMod L
  keyHash : Bytes → Block 64
  nonceHash : Bytes → Block 64
  challengeHash : Bytes → Block 64
  outputHash : Bytes → Block 64

structure Proof where
  gamma : Bytes32
  c : Block 16
  s : Bytes32

def suite : UInt8 := 0x04

def clamp (b : Bytes) : Bytes := (b.modify 0 (· &&& 0xf8)).modify 31 fun v => v &&& 0x7f ||| 0x40

section Code

variable {L : Nat} (E : Curve L)

def hasSmallOrder (b : Bytes32) : Bool := (E.frombytes b).any fun P => 8 • P = 0

def hashedKey (priv : Bytes32) : Bytes := (E.keyHash priv.val).val

def clampedScalar (priv : Bytes32) : Nat := leNat (clamp ((hashedKey E priv).take 32))

def publicKey (priv : Bytes32) : Bytes32 := E.tobytes (clampedScalar E priv • E.base)

def hashPoint (y : Bytes32) (alpha : Bytes) : Point L := (E.hashToCurve y alpha, 0)

def vrfHashToCurve (y : Bytes32) (alpha : Bytes) : Bytes32 := E.tobytes (hashPoint E y alpha)

def vrfNonceGeneration (upper : Bytes) (h : Bytes32) : Nat := leNat (E.nonceHash (upper ++ h.val)).val % L

def vrfChallengeGeneration (y h gamma u v : Bytes32) : Block 16 :=
  ⟨(E.challengeHash (suite :: 0x02 ::
      (y.val ++ h.val ++ gamma.val ++ u.val ++ v.val ++ [0x00]))).val.take 16, by
    rw [length_take, (E.challengeHash _).property]
    rfl⟩

def vrfProofToHash (gamma : Point L) : Block 64 :=
  E.outputHash (suite :: 0x03 :: ((E.tobytes (8 • gamma)).val ++ [0x00]))

def scalarBytes (n : Nat) : Bytes32 := ⟨leBytes 32 n, leBytes_length 32 n⟩

def vrfProve (priv : Bytes32) (alpha : Bytes) : Except Error Proof :=
  let x := clampedScalar E priv
  let y := E.tobytes (x • E.base)
  let hBytes := vrfHashToCurve E y alpha
  match E.frombytes hBytes with
  | none => .error .malformed
  | some H =>
    let gamma := E.tobytes (x • H)
    let k := vrfNonceGeneration E ((hashedKey E priv).drop 32) hBytes
    let c := vrfChallengeGeneration E y hBytes gamma (E.tobytes (k • E.base)) (E.tobytes (k • H))
    .ok ⟨gamma, c, scalarBytes ((leNat c.val * x + k) % L)⟩

def vrfVerify (pub : Bytes32) (alpha : Bytes) (proof : Proof) : Except Error (Block 64) :=
  if !E.isCanonical pub || hasSmallOrder E pub then .error .malformed
  else match E.frombytes pub with
    | none => .error .malformed
    | some Y =>
      if !E.isCanonical proof.gamma || hasSmallOrder E proof.gamma then .error .malformed
      else match E.frombytes proof.gamma with
        | none => .error .malformed
        | some Gamma =>
          if L ≤ leNat proof.s.val then .error .malformed
          else
            let hBytes := vrfHashToCurve E pub alpha
            match E.frombytes hBytes with
            | none => .error .malformed
            | some H =>
              let c := leNat proof.c.val
              let s := leNat proof.s.val
              let u := E.tobytes (c • -Y + s • E.base)
              let v := E.tobytes (s • H - c • Gamma)
              if vrfChallengeGeneration E pub hBytes proof.gamma u v = proof.c then .ok (vrfProofToHash E Gamma)
              else .error .malformed

end Code

variable {b alpha : Bytes}

section Verify

variable {L : Nat} (E : Curve L)

def Checked (pub : Bytes32) (proof : Proof) (Y Gamma : Point L) : Prop :=
  E.isCanonical pub = true ∧ E.frombytes pub = some Y ∧ 8 • Y ≠ 0 ∧
    E.isCanonical proof.gamma = true ∧ E.frombytes proof.gamma = some Gamma ∧ 8 • Gamma ≠ 0 ∧
    leNat proof.s.val < L

def challengeAgain (pub : Bytes32) (alpha : Bytes) (proof : Proof) (Y Gamma : Point L) : Block 16 :=
  vrfChallengeGeneration E pub (vrfHashToCurve E pub alpha) proof.gamma
    (E.tobytes (leNat proof.c.val • -Y + leNat proof.s.val • E.base))
    (E.tobytes (leNat proof.s.val • hashPoint E pub alpha - leNat proof.c.val • Gamma))

variable {E}

theorem not_refused_iff {b : Bytes32} {P : Point L} (h : E.frombytes b = some P) :
    ¬(!E.isCanonical b || hasSmallOrder E b) = true ↔ E.isCanonical b = true ∧ 8 • P ≠ 0 := by
  rw [hasSmallOrder, h, Option.any_some]
  simp

theorem vrfVerify_iff {pub : Bytes32} {proof : Proof} {beta : Block 64} :
    vrfVerify E pub alpha proof = .ok beta ↔ ∃ Y Gamma, Checked E pub proof Y Gamma ∧
      challengeAgain E pub alpha proof Y Gamma = proof.c ∧ beta = vrfProofToHash E Gamma := by
  have hpoint : E.frombytes (vrfHashToCurve E pub alpha) = some (hashPoint E pub alpha) :=
    E.frombytes_tobytes _
  constructor
  · intro h
    rw [vrfVerify] at h
    split at h
    · cases h
    rename_i hpub
    split at h
    · cases h
    rename_i Y hY
    split at h
    · cases h
    rename_i hgamma
    split at h
    · cases h
    rename_i Gamma hGamma
    split at h
    · cases h
    rename_i hs
    simp only [hpoint] at h
    split at h
    · rename_i hc
      obtain ⟨hkey, hsmall⟩ := (not_refused_iff hY).mp hpub
      obtain ⟨hcanonical, hsmall'⟩ := (not_refused_iff hGamma).mp hgamma
      exact ⟨Y, Gamma, ⟨hkey, hY, hsmall, hcanonical, hGamma, hsmall', Nat.not_le.mp hs⟩, hc,
        (Except.ok.inj h).symm⟩
    · cases h
  · rintro ⟨Y, Gamma, ⟨hkey, hY, hsmall, hcanonical, hGamma, hsmall', hs⟩, hc, rfl⟩
    rw [challengeAgain] at hc
    simp only [vrfVerify, if_neg ((not_refused_iff hY).mpr ⟨hkey, hsmall⟩), hY,
      if_neg ((not_refused_iff hGamma).mpr ⟨hcanonical, hsmall'⟩), hGamma, if_neg hs.not_ge, hpoint,
      if_pos hc]

end Verify

section Response

variable {G : Type} [AddCommGroup G] {L : Nat}

theorem nsmul_mod {P : G} (hP : L • P = 0) (n : Nat) : (n % L) • P = n • P := by
  have hdvd : addOrderOf P ∣ L := addOrderOf_dvd_of_nsmul_eq_zero hP
  rw [← mod_addOrderOf_nsmul P (n % L), Nat.mod_mod_of_dvd n hdvd, mod_addOrderOf_nsmul]

/-- The response cancels the challenge against `x • P`, and leaves what stood beside it. -/
theorem response_cancels {P : G} (hP : L • P = 0) (T : G) (c x k : Nat) :
    ((c * x + k) % L) • P - c • (x • P + T) = k • P - c • T := by
  rw [nsmul_mod hP, add_nsmul, mul_nsmul', smul_add]
  abel

end Response

section Scalar

theorem leNat_modify_last {i : Nat} {f : UInt8 → UInt8} (hf : ∀ v, 64 ≤ (f v).toNat ∧ (f v).toNat < 128)
    (hi : b.length = i + 1) : 64 * 256 ^ i ≤ leNat (b.modify i f) ∧ leNat (b.modify i f) < 128 * 256 ^ i := by
  induction i generalizing b with
  | zero =>
    obtain ⟨v, rfl⟩ := length_eq_one_iff.mp hi
    have := hf v
    simp only [modify_zero_cons, leNat]
    omega
  | succ i ih =>
    cases b with
    | nil => cases hi
    | cons v b =>
      have hrest := ih (Nat.succ.inj hi)
      have hv := v.toNat_lt
      rw [modify_succ_cons, leNat, pow_succ]
      omega

theorem clamp_bounds (h : b.length = 32) : 2 ^ 254 ≤ leNat (clamp b) ∧ leNat (clamp b) < 2 ^ 255 := by
  have hbyte : ∀ v : UInt8, 64 ≤ (v &&& 0x7f ||| 0x40).toNat ∧ (v &&& 0x7f ||| 0x40).toNat < 128 := by
    have hall : ∀ n : Fin 256, 64 ≤ (n.val &&& 127 ||| 64) ∧ (n.val &&& 127 ||| 64) < 128 := by decide +kernel
    intro v
    rw [UInt8.toNat_or, UInt8.toNat_and]
    exact hall ⟨v.toNat, v.toNat_lt⟩
  have := leNat_modify_last hbyte (show (b.modify 0 (· &&& 0xf8)).length = 31 + 1 by rw [length_modify, h])
  exact this

theorem eight_dvd_clamp (b : Bytes) : 8 ∣ leNat (clamp b) := by
  cases b with
  | nil => exact ⟨0, rfl⟩
  | cons v b =>
    have hall : ∀ n : Fin 256, 8 ∣ (n.val &&& 248) := by decide +kernel
    have hbyte : 8 ∣ (v &&& 0xf8).toNat := by
      rw [UInt8.toNat_and]
      exact hall ⟨v.toNat, v.toNat_lt⟩
    rw [clamp, modify_zero_cons, modify_succ_cons, leNat]
    omega

end Scalar

section GroupOrder

theorem groupOrder_prime : groupOrder.Prime := by
  have h1224481 : Nat.Prime 1224481 := by norm_num
  have h531581 : Nat.Prime 531581 := by norm_num
  have h51 : Nat.Prime 1257559732178653 := by
    apply @prime_of_dvd_pred (531581 * 1224481) _ (by decide) (by decide)
    intro p hp hdvd
    apply Nat.Coprime.mul_dvd_of_dvd_of_dvd (by decide +kernel)
    · exact @dvd_pred 64 2 _ _ 2365697292 h531581 (by decide +kernel) p hp hdvd
    · exact @dvd_pred 64 2 _ _ 1027014492 h1224481 (by decide +kernel) p hp hdvd
  have h62 : Nat.Prime 4434155615661930479 :=
    @prime_of_certifies 64 2 _ _ 3526 h51 (by decide) (by decide) (by decide +kernel)
  have h88 : Nat.Prime 172054593956031949258510691 :=
    @prime_of_certifies 128 2 _ _ 38802110 h62 (by decide) (by decide) (by decide +kernel)
  have h134 : Nat.Prime 19757330305831588566944191468367130476339 :=
    @prime_of_certifies 256 2 _ _ 114831751082918 h88 (by decide) (by decide) (by decide +kernel)
  have h138 : Nat.Prime 276602624281642239937218680557139826668747 :=
    @prime_of_certifies 256 2 _ _ 14 h134 (by decide) (by decide) (by decide +kernel)
  exact @prime_of_certifies 256 2 _ _ 26163907866482859529727157400808004 h138 (by decide +kernel)
    (by decide +kernel)
    (by decide +kernel)

instance : Fact groupOrder.Prime := ⟨groupOrder_prime⟩

instance : NeZero groupOrder := ⟨groupOrder_prime.ne_zero⟩

theorem groupOrder_lt : groupOrder < 256 ^ 32 := by decide +kernel

theorem groupOrder_not_dvd {x : Nat} (h8 : 8 ∣ x) (hpos : 0 < x) (hx : x < 2 ^ 255) : ¬groupOrder ∣ 8 * x := by
  intro hdvd
  obtain ⟨m, rfl⟩ := h8
  have hm : groupOrder ∣ m := by
    apply Nat.Coprime.dvd_of_dvd_mul_left (show Nat.Coprime groupOrder (8 * 8) by decide +kernel)
    rwa [mul_assoc]
  have hle := Nat.le_of_dvd (by omega) hm
  rw [groupOrder] at hle
  omega

end GroupOrder

section Plain

def plainFrombytes (b : Bytes32) : Option (Point groupOrder) :=
  if beNat b.val < 8 * groupOrder then some ((beNat b.val / 8 : Nat), (beNat b.val % 8 : Nat)) else none

theorem plainNumber_lt (P : Point groupOrder) : 8 * P.1.val + P.2.val < 8 * groupOrder := by
  have h1 := P.1.val_lt
  have h2 := P.2.val_lt
  omega

theorem plainNumber_digest (P : Point groupOrder) :
    beNat (digest (8 * P.1.val + P.2.val)).val = 8 * P.1.val + P.2.val := by
  apply beNat_beBytes
  exact (plainNumber_lt P).trans (by decide +kernel)

theorem plainFrombytes_digest (P : Point groupOrder) :
    plainFrombytes (digest (8 * P.1.val + P.2.val)) = some P := by
  have hlt := plainNumber_lt P
  have h2 := P.2.val_lt
  rw [plainFrombytes, plainNumber_digest, if_pos hlt, Option.some.injEq]
  ext1
  · rw [show (8 * P.1.val + P.2.val) / 8 = P.1.val by omega, ZMod.natCast_zmod_val]
  · rw [show (8 * P.1.val + P.2.val) % 8 = P.2.val by omega, ZMod.natCast_zmod_val]

theorem addOrderOf_one_zero : addOrderOf ((1, 0) : Point groupOrder) = groupOrder := by
  rw [Prod.addOrderOf_mk, ZMod.addOrderOf_one, addOrderOf_zero, Nat.lcm_one_right]

def plainWith (challenge : Bytes → Block 64) : Curve groupOrder where
  tobytes P := digest (8 * P.1.val + P.2.val)
  frombytes := plainFrombytes
  isCanonical b := beNat b.val < 8 * groupOrder
  frombytes_tobytes := plainFrombytes_digest
  isCanonical_tobytes P := decide_eq_true ((plainNumber_digest P).trans_lt (plainNumber_lt P))
  base := (1, 0)
  base_order := addOrderOf_one_zero
  hashToCurve _ _ := 1
  keyHash _ := ⟨replicate 64 0, rfl⟩
  nonceHash _ := ⟨replicate 64 0, rfl⟩
  challengeHash := challenge
  outputHash b := ⟨b.take 64 ++ replicate (64 - b.length) 0, by
    rw [length_append, length_take, length_replicate]
    omega⟩

def plain : Curve groupOrder := plainWith fun _ => ⟨8 :: replicate 63 0, rfl⟩

theorem plain_challenge (y h gamma u v : Bytes32) :
    vrfChallengeGeneration plain y h gamma u v = ⟨8 :: replicate 15 0, rfl⟩ := rfl

def counting : Curve groupOrder :=
  plainWith fun b => ⟨(b[161]?.getD 0 + 1) :: replicate 63 0, by
    rw [length_cons, length_replicate]⟩

theorem counting_challenge (y h gamma u v : Bytes32) :
    vrfChallengeGeneration counting y h gamma u v =
      ⟨(v.val[31]?.getD 0 + 1) :: replicate 15 0, by
        rw [length_cons, length_replicate]⟩ := by
  have hlast : (y.val ++ h.val ++ gamma.val ++ u.val ++ v.val ++ [0x00])[159]? = v.val[31]? := by
    have hlen : (y.val ++ h.val ++ gamma.val ++ u.val).length = 128 := by
      simp only [length_append, y.length_val, h.length_val, gamma.length_val, u.length_val]
    rw [append_assoc _ v.val, getElem?_append_right (by omega), hlen,
      getElem?_append_left (by rw [v.length_val]; decide)]
  rw [← hlast]
  rfl

end Plain

section Shifted

variable (E : Curve groupOrder) (priv : Bytes32) (alpha : Bytes)

def inputPoint : Point groupOrder := hashPoint E (publicKey E priv) alpha

def gammaPoint : Point groupOrder := clampedScalar E priv • inputPoint E priv alpha

/-- The proof that the prover makes with a challenge and a nonce, where torsion is added to `Gamma`. -/
def proofOf (T : Point groupOrder) (c : Block 16) (k : Nat) : Proof :=
  ⟨E.tobytes (gammaPoint E priv alpha + T), c,
    scalarBytes ((leNat c.val * clampedScalar E priv + k) % groupOrder)⟩

def challengeOver (T V : Point groupOrder) (k : Nat) : Block 16 :=
  vrfChallengeGeneration E (publicKey E priv) (vrfHashToCurve E (publicKey E priv) alpha)
    (E.tobytes (gammaPoint E priv alpha + T)) (E.tobytes (k • E.base)) (E.tobytes V)

def challengeOf (T : Point groupOrder) (k : Nat) : Block 16 :=
  challengeOver E priv alpha T (k • inputPoint E priv alpha) k

def AcceptsTorsion : Prop :=
  ∃ pub alpha proof shifted Gamma T, E.frombytes proof.gamma = some Gamma ∧ Gamma.2 = 0 ∧
    (∃ beta, vrfVerify E pub alpha proof = .ok beta) ∧ 8 • T = 0 ∧
      E.frombytes shifted.gamma = some (Gamma + T) ∧
    (Gamma + T).2 ≠ 0 ∧ ∃ beta, vrfVerify E pub alpha shifted = .ok beta

theorem clampedScalar_not_dvd : ¬groupOrder ∣ 8 * clampedScalar E priv := by
  have hlen : ((hashedKey E priv).take 32).length = 32 := by
    rw [length_take, hashedKey, (E.keyHash priv.val).property]
    rfl
  obtain ⟨hlo, hhi⟩ := clamp_bounds hlen
  apply groupOrder_not_dvd (eight_dvd_clamp _) _ hhi
  exact (Nat.two_pow_pos 254).trans_le hlo

theorem publicPoint_not_small : 8 • clampedScalar E priv • E.base ≠ 0 := by
  rw [← mul_nsmul', ne_eq, ← addOrderOf_dvd_iff_nsmul_eq_zero, E.base_order]
  exact clampedScalar_not_dvd E priv

variable {E priv alpha}

theorem gammaPoint_not_small (h : E.hashToCurve (publicKey E priv) alpha ≠ 0) :
    8 • gammaPoint E priv alpha ≠ 0 := by
  rw [gammaPoint, ← mul_nsmul']
  intro hzero
  have hfst := congrArg Prod.fst hzero
  rw [Prod.smul_fst, nsmul_eq_mul, Prod.fst_zero, mul_eq_zero, ZMod.natCast_eq_zero_iff] at hfst
  exact hfst.elim (clampedScalar_not_dvd E priv) h

theorem nsmul_inputPoint_snd (n : Nat) : (n • inputPoint E priv alpha).2 = 0 := by
  rw [Prod.smul_snd]
  exact smul_zero n

theorem order_nsmul_inputPoint : groupOrder • inputPoint E priv alpha = 0 := by
  ext
  · rw [Prod.smul_fst, nsmul_eq_mul, ZMod.natCast_self, zero_mul]
    rfl
  · exact nsmul_inputPoint_snd groupOrder

/-- With torsion added to `Gamma`, the challenge is computed over what it leaves of the commitment.
-/
theorem vrfVerify_proofOf {T : Point groupOrder} {c : Block 16} {k : Nat}
    (hsmall : 8 • (gammaPoint E priv alpha + T) ≠ 0) {beta : Block 64} :
    vrfVerify E (publicKey E priv) alpha (proofOf E priv alpha T c k) = .ok beta ↔
      challengeOver E priv alpha T (k • inputPoint E priv alpha - leNat c.val • T) k = c ∧
        beta = vrfProofToHash E (gammaPoint E priv alpha + T) := by
  have hs : (leNat c.val * clampedScalar E priv + k) % groupOrder < groupOrder :=
    Nat.mod_lt _ groupOrder_prime.pos
  have hscalar : leNat (proofOf E priv alpha T c k).s.val =
      (leNat c.val * clampedScalar E priv + k) % groupOrder :=
    leNat_leBytes (hs.trans groupOrder_lt)
  have hchecked : Checked E (publicKey E priv) (proofOf E priv alpha T c k)
      (clampedScalar E priv • E.base) (gammaPoint E priv alpha + T) :=
    ⟨E.isCanonical_tobytes _, E.frombytes_tobytes _, publicPoint_not_small E priv,
      E.isCanonical_tobytes _, E.frombytes_tobytes _, hsmall, hscalar.trans_lt hs⟩
  have hagain : challengeAgain E (publicKey E priv) alpha (proofOf E priv alpha T c k)
      (clampedScalar E priv • E.base) (gammaPoint E priv alpha + T) =
      challengeOver E priv alpha T (k • inputPoint E priv alpha - leNat c.val • T) k := by
    have hbase : groupOrder • E.base = 0 := addOrderOf_dvd_iff_nsmul_eq_zero.mp (dvd_of_eq E.base_order)
    have hu := response_cancels hbase 0 (leNat c.val) (clampedScalar E priv) k
    have hv := response_cancels (@order_nsmul_inputPoint E priv alpha) T (leNat c.val) (clampedScalar E priv) k
    rw [add_zero, smul_zero, sub_zero, sub_eq_neg_add, ← smul_neg] at hu
    rw [challengeAgain, hscalar, proofOf, hu, ← inputPoint, gammaPoint, hv, challengeOver, gammaPoint]
  rw [vrfVerify_iff]
  constructor
  · rintro ⟨Y, Gamma, hother, hc, rfl⟩
    obtain rfl := Option.some.inj (hother.2.1.symm.trans hchecked.2.1)
    obtain rfl := Option.some.inj (hother.2.2.2.2.1.symm.trans hchecked.2.2.2.2.1)
    exact ⟨hagain.symm.trans hc, rfl⟩
  · rintro ⟨hc, rfl⟩
    exact ⟨_, _, hchecked, hagain.trans hc, rfl⟩

theorem vrfVerify_killed {T : Point groupOrder} {c : Block 16} {k : Nat} (hT : leNat c.val • T = 0)
    (hsmall : 8 • (gammaPoint E priv alpha + T) ≠ 0) (hc : challengeOf E priv alpha T k = c) :
    vrfVerify E (publicKey E priv) alpha (proofOf E priv alpha T c k) =
      .ok (vrfProofToHash E (gammaPoint E priv alpha + T)) := by
  rw [vrfVerify_proofOf hsmall, hT, sub_zero]
  exact ⟨hc, rfl⟩

end Shifted

section Torsion

/-- A challenge of eight kills all torsion, so that the prover may add any of it to `Gamma`. -/
theorem acceptsTorsion_of_challenge {E : Curve groupOrder} {priv : Bytes32} {alpha : Bytes} {c : Block 16}
    (hc : ∀ y h gamma u v, vrfChallengeGeneration E y h gamma u v = c) (height : leNat c.val = 8)
    (h : E.hashToCurve (publicKey E priv) alpha ≠ 0) : AcceptsTorsion E := by
  have hsmall := gammaPoint_not_small h
  have hsnd : (gammaPoint E priv alpha).2 = 0 := nsmul_inputPoint_snd _
  have haccept (T : Point groupOrder) (hT : 8 • T = 0) :=
    @vrfVerify_killed E priv alpha T c 0 (by rwa [height]) (by rwa [smul_add, hT, add_zero]) (hc _ _ _ _ _)
  have htorsion : 8 • ((0, 1) : Point groupOrder) = 0 := by
    rw [Prod.smul_mk, smul_zero]
    rfl
  refine ⟨publicKey E priv, alpha, _, _, gammaPoint E priv alpha, (0, 1), ?_, hsnd,
    ⟨_, haccept 0 (smul_zero 8)⟩, htorsion,
    E.frombytes_tobytes _, ?_, ⟨_, haccept (0, 1) htorsion⟩⟩
  · rw [proofOf, add_zero]
    exact E.frombytes_tobytes _
  · rw [Prod.snd_add, hsnd, zero_add]
    decide

theorem plain_acceptsTorsion : AcceptsTorsion plain :=
  @acceptsTorsion_of_challenge plain zero32 [] _ plain_challenge rfl one_ne_zero

/-- Torsion in an accepted `Gamma` does not reach the output. -/
theorem vrf_output_cofactor {L : Nat} {E : Curve L} {pub : Bytes32} {alpha : Bytes} {proof : Proof}
    {beta : Block 64}
    (h : vrfVerify E pub alpha proof = .ok beta) :
    ∃ Gamma, E.frombytes proof.gamma = some Gamma ∧ 8 • Gamma ≠ 0 ∧ (8 • Gamma).2 = 0 ∧
    beta = vrfProofToHash E Gamma ∧
      ∀ T, 8 • T = 0 → ∀ shifted output, E.frombytes shifted.gamma = some (Gamma + T) →
        vrfVerify E pub alpha shifted = .ok output → output = beta := by
  obtain ⟨-, Gamma, ⟨-, -, -, -, hdecode, hsmall, -⟩, -, hbeta⟩ := vrfVerify_iff.mp h
  refine ⟨Gamma, hdecode, hsmall, ?_, hbeta, ?_⟩
  · rw [Prod.smul_snd, nsmul_eq_mul]
    exact zero_mul Gamma.2
  · intro T hT shifted output hshifted haccept
    obtain ⟨-, Gamma', ⟨-, -, -, -, hdecode', -⟩, -, houtput⟩ := vrfVerify_iff.mp haccept
    rw [hshifted, Option.some.injEq] at hdecode'
    rw [houtput, hbeta, ← hdecode', vrfProofToHash, vrfProofToHash, smul_add, hT, add_zero]

/-- Nothing in the verifier keeps torsion out of `Gamma`. -/
theorem torsion_accepted : ∃ E : Curve groupOrder, AcceptsTorsion E := ⟨plain, plain_acceptsTorsion⟩

variable {L : Nat}

/-- If the proof is accepted, its `Gamma` lies in the prime-order part. -/
def TorsionFree (E : Curve L) (pub : Bytes32) (alpha : Bytes) (proof : Proof) : Prop :=
  ∀ beta Gamma, vrfVerify E pub alpha proof = .ok beta → E.frombytes proof.gamma = some Gamma → Gamma.2 = 0

def Curve.withChallenge (E : Curve L) (hash : Bytes → Block 64) : Curve L := { E with challengeHash := hash }

theorem torsionFree_any_iff {E : Curve L} {pub : Bytes32} {alpha : Bytes} {proof : Proof} :
    (∀ hash, TorsionFree (E.withChallenge hash) pub alpha proof) ↔
      ∀ Y Gamma, Checked E pub proof Y Gamma → Gamma.2 = 0 := by
  constructor
  · intro h Y Gamma hchecked
    have hlen : (proof.c.val ++ replicate 48 0).length = 64 := by
      rw [length_append, proof.c.property, length_replicate]
    have haccept : vrfVerify (E.withChallenge fun _ => ⟨_, hlen⟩) pub alpha proof = .ok _ :=
      vrfVerify_iff.mpr ⟨Y, Gamma, hchecked, Subtype.ext (take_left' proof.c.property), rfl⟩
    exact h _ _ Gamma haccept hchecked.2.2.2.2.1
  · intro h hash beta Gamma haccept hGamma
    obtain ⟨Y, Gamma', hchecked, -, -⟩ := vrfVerify_iff.mp haccept
    obtain rfl := Option.some.inj (hGamma.symm.trans hchecked.2.2.2.2.1)
    exact h Y Gamma hchecked

section Shift

variable (E : Curve groupOrder) (priv : Bytes32) (alpha : Bytes) (T W : Point groupOrder) (k : Nat)

def shiftedChallenge : Block 16 := challengeOver E priv alpha T (k • inputPoint E priv alpha + W) k

def shiftedProof : Proof := proofOf E priv alpha T (shiftedChallenge E priv alpha T W k) k

/-- What is added to the commitment does not make up for the torsion in `Gamma`. -/
def Unbalanced : Prop := W + leNat (shiftedChallenge E priv alpha T W k).val • T ≠ 0

/-- The challenge hash tells the commitment from the one that the verifier computes. -/
def Separates : Prop := Unbalanced E priv alpha T W k →
  challengeOver E priv alpha T
    (k • inputPoint E priv alpha - leNat (shiftedChallenge E priv alpha T W k).val • T) k ≠
      shiftedChallenge E priv alpha T W k

variable {E priv alpha T W k}

theorem torsionFree_shifted_iff (h : E.hashToCurve (publicKey E priv) alpha ≠ 0) (hT : 8 • T = 0)
    (hhash : Separates E priv alpha T W k) :
    TorsionFree E (publicKey E priv) alpha (shiftedProof E priv alpha T W k) ↔
      T = 0 ∨ Unbalanced E priv alpha T W k := by
  have hsnd : (gammaPoint E priv alpha + T).2 = T.2 := by
    rw [Prod.snd_add, gammaPoint, nsmul_inputPoint_snd, zero_add]
  have hfst : T.1 = 0 := by
    have hzero := congrArg Prod.fst hT
    rw [Prod.smul_fst, nsmul_eq_mul, Prod.fst_zero, mul_eq_zero, ZMod.natCast_eq_zero_iff] at hzero
    exact hzero.resolve_left (by decide +kernel)
  have hsmall : 8 • (gammaPoint E priv alpha + T) ≠ 0 := by
    rw [smul_add, hT, add_zero]
    exact gammaPoint_not_small h
  constructor
  · intro hfree
    by_cases hbalanced : W + leNat (shiftedChallenge E priv alpha T W k).val • T = 0
    · have hchallenge : challengeOver E priv alpha T
          (k • inputPoint E priv alpha - leNat (shiftedChallenge E priv alpha T W k).val • T) k =
          shiftedChallenge E priv alpha T W k := by
        rw [sub_eq_add_neg, ← eq_neg_of_add_eq_zero_left hbalanced, ← shiftedChallenge]
      have haccept := (vrfVerify_proofOf hsmall).mpr ⟨hchallenge, rfl⟩
      have htorsion := hfree _ _ haccept (E.frombytes_tobytes _)
      exact .inl (Prod.ext hfst (hsnd.symm.trans htorsion))
    · exact .inr hbalanced
  · rintro (rfl | hunbalanced) beta Gamma haccept hGamma
    · obtain rfl := Option.some.inj (hGamma.symm.trans (E.frombytes_tobytes _))
      exact hsnd
    · exact absurd ((vrfVerify_proofOf hsmall).mp haccept).1 (hhash hunbalanced)

end Shift

/-- Whatever the challenge hash, an accepted `Gamma` is free of torsion exactly where the checks
before leave only such. For a given hash, torsion gets through exactly when the commitment makes up
for the challenge's multiple of it. -/
theorem vrf_torsion_free_iff (E : Curve groupOrder) (alpha : Bytes) :
    (∀ pub proof, (∀ hash, TorsionFree (E.withChallenge hash) pub alpha proof) ↔
      ∀ Y Gamma, Checked E pub proof Y Gamma → Gamma.2 = 0) ∧
    ∀ priv T W k, E.hashToCurve (publicKey E priv) alpha ≠ 0 → 8 • T = 0 →
      Separates E priv alpha T W k →
      (TorsionFree E (publicKey E priv) alpha (shiftedProof E priv alpha T W k) ↔
        T = 0 ∨ Unbalanced E priv alpha T W k) :=
  ⟨fun _ _ => torsionFree_any_iff, fun _ _ _ _ h hT hhash => torsionFree_shifted_iff h hT hhash⟩

/-- A challenge of one keeps torsion of order eight out, a challenge of eight lets it in. -/
theorem vrf_torsion_free_iff_eight :
    TorsionFree counting (publicKey counting zero32) [] (shiftedProof counting zero32 [] (0, 1) 0 0) ∧
      ¬TorsionFree plain (publicKey plain zero32) [] (shiftedProof plain zero32 [] (0, 1) 0 0) := by
  have htorsion : 8 • ((0, 1) : Point groupOrder) = 0 := by
    rw [Prod.smul_mk, smul_zero]
    rfl
  have hbalanced : ¬Unbalanced plain zero32 [] (0, 1) 0 0 :=
    fun h => h ((zero_add _).trans htorsion)
  have hone : leNat (shiftedChallenge counting zero32 [] (0, 1) 0 0).val = 1 := by
    rw [shiftedChallenge, challengeOver, counting_challenge, zero_smul, add_zero]
    decide +kernel
  constructor
  · apply ((vrf_torsion_free_iff counting []).2 zero32 (0, 1) 0 0 one_ne_zero htorsion _).mpr (.inr _)
    · intro _
      rw [hone, one_smul, zero_smul, zero_sub, shiftedChallenge, challengeOver, challengeOver,
        counting_challenge, counting_challenge, zero_smul, add_zero]
      decide +kernel
    · rw [Unbalanced, hone, one_smul, zero_add]
      decide +kernel
  · rw [(vrf_torsion_free_iff plain []).2 zero32 (0, 1) 0 0 one_ne_zero htorsion
      fun h => absurd h hbalanced]
    rintro (h | h)
    · exact absurd (congrArg Prod.snd h) (by decide)
    · exact hbalanced h

end Torsion

section Completeness

variable (E : Curve groupOrder) (priv : Bytes32) (alpha : Bytes)

theorem vrfProve_eq : ∃ k c, challengeOf E priv alpha 0 k = c ∧
    vrfProve E priv alpha = .ok (proofOf E priv alpha 0 c k) := by
  refine ⟨vrfNonceGeneration E ((hashedKey E priv).drop 32)
    (vrfHashToCurve E (publicKey E priv) alpha), _, rfl, ?_⟩
  have hdecode : E.frombytes (vrfHashToCurve E (publicKey E priv) alpha) = some (inputPoint E priv alpha) :=
    E.frombytes_tobytes _
  simp only [vrfProve]
  rw [← publicKey, hdecode, proofOf, challengeOf, challengeOver, add_zero]
  rfl

/-- The prover's proof is accepted, with the output of its own point. -/
theorem vrf_complete (h : E.hashToCurve (publicKey E priv) alpha ≠ 0) :
    ∃ proof, vrfProve E priv alpha = .ok proof ∧
      vrfVerify E (publicKey E priv) alpha proof =
        .ok (E.outputHash (suite :: 0x03 ::
          ((E.tobytes ((8 * clampedScalar E priv) • hashPoint E (publicKey E priv) alpha)).val ++
            [0x00]))) := by
  obtain ⟨k, c, hc, hprove⟩ := vrfProve_eq E priv alpha
  refine ⟨_, hprove, ?_⟩
  rw [vrfVerify_killed (smul_zero _) (by rw [add_zero]; exact gammaPoint_not_small h) hc, add_zero, mul_nsmul']
  rfl

theorem vrf_complete_plain :
    ∃ proof, vrfProve plain zero32 [1, 2] = .ok proof ∧
      vrfVerify plain (publicKey plain zero32) [1, 2] proof =
        .ok (plain.outputHash (suite :: 0x03 ::
          ((plain.tobytes ((8 * clampedScalar plain zero32) •
            hashPoint plain (publicKey plain zero32) [1, 2])).val ++ [0x00]))) := by
  apply vrf_complete
  exact one_ne_zero

end Completeness

end AntsClient.Crypto.Vrf
