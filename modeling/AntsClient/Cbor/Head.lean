import AntsClient.Common

namespace AntsClient.Cbor.Head

open Common List

def beBytes (width value : Nat) : Bytes :=
  (range width).reverse.map fun i => UInt8.ofNat (value >>> (8 * i))

def beNat (bs : Bytes) : Nat := bs.foldl (fun v b => (v <<< 8) ||| b.toNat) 0

/-- The header of an item in shortest form: the major type, then the value or its width and bytes.
-/
def head (major : UInt8) (value : Nat) : Bytes :=
  if value < 24 then [(major <<< 5) ||| UInt8.ofNat value]
  else if value < 256 then ((major <<< 5) ||| 24) :: beBytes 1 value
  else if value < 65536 then ((major <<< 5) ||| 25) :: beBytes 2 value
  else if value < 0x100000000 then ((major <<< 5) ||| 26) :: beBytes 4 value
  else ((major <<< 5) ||| 27) :: beBytes 8 value

theorem beBytes_length (width value : Nat) : (beBytes width value).length = width := by
  simp [beBytes]

theorem beBytes_succ (width value : Nat) :
    beBytes (width + 1) value = beBytes width (value >>> 8) ++ [UInt8.ofNat value] := by
  simp only [beBytes, range_succ_eq_map, reverse_cons, map_append, map_cons,
    map_nil, ← map_reverse, map_map, Nat.mul_zero, Nat.shiftRight_zero]
  congr 1
  apply map_congr_left
  intro i _
  rw [Function.comp_apply, Nat.succ_eq_add_one, Nat.mul_succ, Nat.add_comm, Nat.shiftRight_add]

theorem beNat_concat (bs : Bytes) (b : UInt8) : beNat (bs ++ [b]) = beNat bs * 256 + b.toNat := by
  have hb : b.toNat < 2 ^ 8 := b.toNat_lt
  simp only [beNat, foldl_append, foldl_cons, foldl_nil]
  rw [← Nat.shiftLeft_add_eq_or_of_lt hb, Nat.shiftLeft_eq]

theorem beNat_lt (bs : Bytes) : beNat bs < 256 ^ bs.length := by
  induction bs using reverseRecOn with
  | nil => simp [beNat]
  | append_singleton bs b ih =>
    have hb : b.toNat < 256 := b.toNat_lt
    rw [beNat_concat, length_append, length_singleton, Nat.pow_succ]
    omega

theorem beNat_beBytes {width value : Nat} (h : value < 256 ^ width) : beNat (beBytes width value) = value := by
  induction width generalizing value with
  | zero => simp [beBytes, beNat]; omega
  | succ width ih =>
    have hs : value >>> 8 < 256 ^ width := by
      rw [Nat.shiftRight_eq_div_pow]
      exact Nat.div_lt_of_lt_mul (by rw [Nat.pow_succ, Nat.mul_comm] at h; exact h)
    rw [beBytes_succ, beNat_concat, ih hs, Nat.shiftRight_eq_div_pow, UInt8.toNat_ofNat']
    omega

theorem beBytes_beNat (bs : Bytes) : beBytes bs.length (beNat bs) = bs := by
  induction bs using reverseRecOn with
  | nil => rfl
  | append_singleton bs b ih =>
    have hb : b.toNat < 256 := b.toNat_lt
    have hs : (beNat bs * 256 + b.toNat) >>> 8 = beNat bs := by
      rw [Nat.shiftRight_eq_div_pow]; omega
    have hm : UInt8.ofNat (beNat bs * 256 + b.toNat) = b := by
      apply UInt8.toNat_inj.mp
      rw [UInt8.toNat_ofNat']; omega
    rw [length_append, length_singleton, beBytes_succ, beNat_concat, hs, hm, ih]

theorem initial_split (b : UInt8) : ((b >>> 5) <<< 5) ||| (b &&& 0x1f) = b := by
  have h : ∀ n : Fin 256, ((UInt8.ofFin n >>> 5) <<< 5) ||| (UInt8.ofFin n &&& 0x1f) = UInt8.ofFin n := by
    decide +kernel
  exact h b.toFin

theorem initial_join {major info : UInt8} (hm : major < 8) (hi : info < 32) :
    ((major <<< 5) ||| info) >>> 5 = major ∧ ((major <<< 5) ||| info) &&& 0x1f = info := by
  have h : ∀ (m : Fin 8) (i : Fin 32), ((UInt8.ofNat m <<< 5) ||| UInt8.ofNat i) >>> 5 = UInt8.ofNat m ∧
        ((UInt8.ofNat m <<< 5) ||| UInt8.ofNat i) &&& 0x1f = UInt8.ofNat i := by
    decide +kernel
  simpa using h ⟨major.toNat, hm⟩ ⟨info.toNat, hi⟩

end AntsClient.Cbor.Head
