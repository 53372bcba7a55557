import AntsClient.Cbor.Values
import AntsClient.Crypto

namespace AntsClient.Cbor.Sizes

open Common Head Tokens Values Value Crypto
open List hiding head

variable {b : Bytes} {α : Type} {v : Nat}

section Within

variable {n : Nat} {v : Value} {vs : List Value} {kvs : List (Value × Value)}

structure Within (n : Nat) (v : Value) : Prop where
  inRange : All InRange v
  keysAscend : All KeysAscend v
  depth : depth v ≤ n

theorem Within.wellFormed (h : Within n v) (hn : n ≤ Codec.maxDepth) : WellFormed v :=
  ⟨h.inRange, h.keysAscend, h.depth.trans hn⟩

theorem within_uint {x : Nat} (h : x < 2 ^ 64) : Within n (.uint x) := ⟨h, trivial, Nat.zero_le n⟩

theorem within_bytes (h : b.length < 2 ^ 64) : Within n (.bytes b) := ⟨h, trivial, Nat.zero_le n⟩

theorem within_text (h : b.length < 2 ^ 64) : Within n (.text b) := ⟨h, trivial, Nat.zero_le n⟩

@[simp]
theorem within_uint64 (x : UInt64) : Within n (.uint x.toNat) := within_uint x.toNat_lt

@[simp]
theorem within_uint32 (x : UInt32) : Within n (.uint x.toNat) := within_uint (x.toNat_lt.trans (by decide))

@[simp]
theorem within_uint16 (x : UInt16) : Within n (.uint x.toNat) := within_uint (x.toNat_lt.trans (by decide))

@[simp]
theorem within_uint8 (x : UInt8) : Within n (.uint x.toNat) := within_uint (x.toNat_lt.trans (by decide))

@[simp]
theorem within_bytes32 (x : Bytes32) : Within n (.bytes x.val) := within_bytes (by rw [x.length_val]; decide)

@[simp]
theorem within_signature (x : Signature) : Within n (.bytes x.val) :=
  within_bytes (by rw [x.length_val]; decide)

@[simp]
theorem within_bool (b : Bool) : Within n (.bool b) := ⟨trivial, trivial, Nat.zero_le n⟩

theorem within_array (hlen : vs.length < 2 ^ 64) (h : ∀ v ∈ vs, Within n v) : Within (n + 1) (.array vs) := by
  refine ⟨all_array.mpr ⟨hlen, fun v hv => (h v hv).inRange⟩,
    all_array.mpr ⟨trivial, fun v hv => (h v hv).keysAscend⟩, ?_⟩
  have hdepth := depthList_le.mpr fun v hv => (h v hv).depth
  rw [depth]
  split <;> omega

theorem within_array_map {f : α → Value} {xs : List α} (hlen : xs.length < 2 ^ 64)
    (h : ∀ x ∈ xs, Within n (f x)) :
    Within (n + 1) (.array (xs.map f)) :=
  within_array (by rwa [length_map]) (forall_mem_map.mpr h)

theorem keys_of_fields {ks : List Nat} (hfst : kvs.map Prod.fst = ks.map .uint) {kv : Value × Value}
    (hkv : kv ∈ kvs) :
    ∃ k ∈ ks, kv.1 = .uint k := by
  obtain ⟨k, hk, he⟩ := mem_map.mp (hfst ▸ mem_map_of_mem hkv)
  exact ⟨k, hk, he.symm⟩

theorem within_map (hlen : kvs.length < 2 ^ 64) (hkeys : (Value.keys kvs).IsChain (· < ·))
    (h : ∀ kv ∈ kvs, Within n kv.1 ∧ Within n kv.2) : Within (n + 1) (.map kvs) := by
  refine ⟨all_map.mpr ⟨hlen, fun kv hkv => ⟨(h kv hkv).1.inRange, (h kv hkv).2.inRange⟩⟩,
    all_map.mpr ⟨hkeys, fun kv hkv => ⟨(h kv hkv).1.keysAscend, (h kv hkv).2.keysAscend⟩⟩, ?_⟩
  have hdepth := depthPairs_le.mpr fun kv hkv => ⟨(h kv hkv).1.depth, (h kv hkv).2.depth⟩
  rw [depth]
  split <;> omega

/-- A map under the keys `ks`. -/
theorem within_fields (ks : List Nat) (hfst : kvs.map Prod.fst = ks.map .uint)
    (hks : ks.length < 24 ∧ (∀ k ∈ ks, k < 24) ∧ (ks.map fun k => encode (.uint k)).IsChain (· < ·))
    (h : ∀ kv ∈ kvs, Within n kv.2) : Within (n + 1) (.map kvs) := by
  have hlen : kvs.length = ks.length := by simpa using congrArg List.length hfst
  refine within_map (hlen.trans_lt (hks.1.trans (by decide))) ?_ fun kv hkv => ⟨?_, h kv hkv⟩
  · have hkeys : Value.keys kvs = ks.map fun k => encode (.uint k) := by
      rw [Value.keys, ← Function.comp_def encode, ← map_map, hfst, map_map]
      rfl
    rw [hkeys]
    exact hks.2.2
  · obtain ⟨k, hk, he⟩ := keys_of_fields hfst hkv
    rw [he]
    exact within_uint ((hks.2.1 k hk).trans (by decide))

end Within

theorem head_length_le (major : UInt8) (v : Nat) : (head major v).length ≤ 9 := by
  rw [head]
  repeat' split
  all_goals simp [beBytes]

theorem head_length_tiny (major : UInt8) (h : v < 24) : (head major v).length = 1 := by
  rw [head, if_pos h]
  rfl

theorem head_length_short (major : UInt8) (h : v < 65536) : (head major v).length ≤ 3 := by
  rw [head]
  repeat' split
  all_goals simp [beBytes]

theorem head_length_mono (major : UInt8) {w : Nat} (h : v ≤ w) :
    (head major v).length ≤ (head major w).length := by
  simp only [head]
  split_ifs <;> simp only [length_cons, length_nil, beBytes_length] <;> omega

theorem encode_key_length {n : Nat} (h : n < 24) : (encode (.uint n)).length = 1 := by
  rw [encode, tokens, flatMap_singleton]
  exact head_length_tiny 0 h

@[simp]
theorem encode_uint_length (n : Nat) : (encode (.uint n)).length ≤ 9 := by
  rw [encode, tokens, flatMap_singleton]
  exact head_length_le 0 n

theorem encode_bytes_length {b : Bytes} (h : b.length < 65536) : (encode (.bytes b)).length ≤ 3 + b.length := by
  have := head_length_short 2 h
  simp only [encode, tokens, flatMap_singleton, Token.enc, length_append]
  omega

theorem encode_list_length {f : α → Value} {xs : List α} {size : Nat}
    (h : ∀ x ∈ xs, (encode (f x)).length ≤ size) :
    ((xs.map f).flatMap encode).length ≤ xs.length * size := by
  rw [flatMap_map, length_flatMap, ← smul_eq_mul, ← length_map fun x => (encode (f x)).length]
  exact sum_le_card_nsmul _ _ (forall_mem_map.mpr h)

theorem encode_bytes_list_length {bs : List Bytes} {len : Nat} (hbs : ∀ b ∈ bs, b.length ≤ len)
    (hlen : len < 65536) :
    ((bs.map Value.bytes).flatMap encode).length ≤ bs.length * (3 + len) := by
  refine encode_list_length fun b hb => ?_
  have hle := hbs b hb
  exact (encode_bytes_length (by omega)).trans (by omega)

/-- A map under the keys `ks`, whose values have at most the lengths `sizes`. -/
theorem encode_fields_length {kvs : List (Value × Value)} (ks : List Nat)
    (hfst : kvs.map Prod.fst = ks.map .uint)
    (hks : ks.length < 24 ∧ ∀ k ∈ ks, k < 24) (sizes : List Nat)
    (h : List.Forall₂ (fun kv size => (encode kv.2).length ≤ size) kvs sizes) :
    (encode (.map kvs)).length ≤ 1 + ks.length + sizes.sum := by
  have hlen : kvs.length = ks.length := by simpa using congrArg List.length hfst
  have hkeys : ∀ kv ∈ kvs, (encode kv.1).length = 1 := by
    intro kv hkv
    obtain ⟨k, hk, he⟩ := keys_of_fields hfst hkv
    rw [he]
    exact encode_key_length (hks.2 k hk)
  have hpairs : (kvs.flatMap fun kv => encode kv.1 ++ encode kv.2).length ≤ kvs.length + sizes.sum := by
    clear hlen hfst
    induction h with
    | nil => exact Nat.zero_le _
    | cons hkv _ ih =>
      obtain ⟨hkey, hrest⟩ := forall_mem_cons.mp hkeys
      have := ih hrest
      rw [flatMap_cons, length_append, length_append, hkey, length_cons, sum_cons]
      omega
  rw [encode_map, length_append, head_length_tiny 5 (hlen ▸ hks.1)]
  omega

theorem encode_pair_length (x y : UInt64) : (encode (.array [.uint x.toNat, .uint y.toNat])).length ≤ 19 := by
  have hx := encode_uint_length x.toNat
  have hy := encode_uint_length y.toNat
  simp (disch := decide) only [encode_array, flatMap_cons, flatMap_nil, length_append, length_cons,
    length_nil, head_length_tiny]
  omega

theorem encode_bool_length (v : Bool) : (encode (.bool v)).length = 1 := by cases v <;> rfl

def payload : Token → Bytes
  | .bytes b | .text b => b
  | _ => []

theorem enc_length_le (t : Token) : t.enc.length ≤ 9 + (payload t).length := by
  cases t with
  | bytes b | text b =>
    rw [Token.enc, length_append]
    exact Nat.add_le_add_right (head_length_le _ _) _
  | uint n | nint n | array n | map n | tag n => exact head_length_le _ _
  | bool v | null => exact Nat.succ_le_of_lt (by simp)

theorem encode_length_le (v : Value) :
    (encode v).length ≤ 9 * v.tokens.length + (v.tokens.flatMap payload).length := by
  rw [encode]
  induction v.tokens with
  | nil => exact Nat.zero_le _
  | cons t ts ih =>
    have ht := enc_length_le t
    rw [flatMap_cons, flatMap_cons, length_append, length_append, length_cons]
    omega

theorem encode_bytes32_length_eq (x : Bytes32) : (encode (.bytes x.val)).length = 34 := by
  simp only [encode, tokens, flatMap_singleton, Token.enc, length_append, x.length_val]
  rfl

@[simp]
theorem encode_bytes32_length (x : Bytes32) : (encode (.bytes x.val)).length ≤ 35 :=
  (encode_bytes32_length_eq x).le.trans (by norm_num)

end AntsClient.Cbor.Sizes
