import AntsClient.Cbor.Head

namespace AntsClient.Crypto

open Common Cbor.Head

@[ext]
structure Bytes32 where
  val : Bytes
  length_val : val.length = 32
  deriving DecidableEq

structure Signature where
  val : Bytes
  length_val : val.length = 64
  deriving DecidableEq

/-- The vendored primitives, as the modules above call them. -/
structure Primitives where
  blake3 : Bytes → Bytes32
  blake3DeriveKey : String → Bytes → Bytes32
  ed25519Verify : Bytes32 → Bytes → Bytes → Bool

def zero32 : Bytes32 := ⟨List.replicate 32 0, rfl⟩

def toBytes32 (b : Bytes) : Option Bytes32 := if h : b.length = 32 then some ⟨b, h⟩ else none

def toSignature (b : Bytes) : Option Signature := if h : b.length = 64 then some ⟨b, h⟩ else none

def digest (n : Nat) : Bytes32 := ⟨beBytes 32 n, beBytes_length 32 n⟩

def signature (r s : Nat) : Signature :=
  ⟨beBytes 32 r ++ beBytes 32 s, by rw [List.length_append, beBytes_length, beBytes_length]⟩

def leNat : Bytes → Nat
  | [] => 0
  | b :: bs => b.toNat + 256 * leNat bs

def leBytes : Nat → Nat → Bytes
  | 0, _ => []
  | width + 1, n => UInt8.ofNat n :: leBytes width (n / 256)

theorem leBytes_length (width n : Nat) : (leBytes width n).length = width := by
  induction width generalizing n with
  | zero => rfl
  | succ width ih => rw [leBytes, List.length_cons, ih]

theorem leNat_leBytes {width n : Nat} (h : n < 256 ^ width) : leNat (leBytes width n) = n := by
  induction width generalizing n with
  | zero =>
    rw [pow_zero, Nat.lt_one_iff] at h
    rw [h]
    rfl
  | succ width ih =>
    have hdiv : n / 256 < 256 ^ width := Nat.div_lt_of_lt_mul (by rwa [pow_succ'] at h)
    rw [leBytes, leNat, ih hdiv, UInt8.toNat_ofNat']
    omega

theorem leBytes_leNat (b : Bytes) : leBytes b.length (leNat b) = b := by
  induction b with
  | nil => rfl
  | cons x b ih =>
    have hx := x.toNat_lt
    have hdiv : (x.toNat + 256 * leNat b) / 256 = leNat b := by omega
    have hmod : UInt8.ofNat (x.toNat + 256 * leNat b) = x := by
      apply UInt8.toNat_inj.mp
      rw [UInt8.toNat_ofNat']
      omega
    rw [List.length_cons, leBytes, leNat, hdiv, ih, hmod]

theorem leNat_lt (b : Bytes) : leNat b < 256 ^ b.length := by
  induction b with
  | nil => exact Nat.one_pos
  | cons x b ih =>
    have hx := x.toNat_lt
    rw [leNat, List.length_cons, pow_succ']
    omega

theorem toBytes32_eq_some {b : Bytes} {x : Bytes32} : toBytes32 b = some x ↔ b = x.val := by
  rw [toBytes32]
  split
  · rw [Option.some.injEq, Bytes32.ext_iff]
  · rename_i h
    simp only [reduceCtorEq, false_iff]
    rintro rfl
    exact h x.length_val

theorem toSignature_val (sig : Signature) : toSignature sig.val = some sig := dif_pos sig.length_val

end AntsClient.Crypto
