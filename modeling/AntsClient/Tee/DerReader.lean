import AntsClient.Cbor.Head

namespace AntsClient.Tee.DerReader

open Common Cbor.Head List

structure Der where
  buf : Bytes
  pos : Nat

structure Tlv where
  tag : UInt8
  low : tag &&& 0x1f ≠ 0x1f
  val : Bytes
  fits : val.length < 2 ^ 64

abbrev DerM := EStateM Error Der

def init (buf : Bytes) : Der := ⟨buf, 0⟩

def accumulate (bs : Bytes) : UInt64 := bs.foldl (fun length b => (length <<< 8) ||| b.toUInt64) 0

def readLength (l0 : UInt8) (rest : Bytes) : Option (UInt64 × Bytes) :=
  if l0 < 0x80 then some (l0.toUInt64, rest)
  else if l0 = 0x80 then none
  else
    let nbytes := (l0 &&& 0x7f).toNat
    if nbytes > 8 then none
    else if rest.length < nbytes then none
    else if rest.head? = some 0 then none
    else
      let length := accumulate (rest.take nbytes)
      if length < 0x80 then none else some (length, rest.drop nbytes)

def readTlv (expectTag : UInt8) : Bytes → Option (Tlv × Bytes)
  | tag :: l0 :: rest =>
    if low : tag &&& 0x1f = 0x1f then none
    else if expectTag ≠ 0 ∧ tag ≠ expectTag then none
    else
      (readLength l0 rest).bind fun (length, body) =>
        if body.length < length.toNat then none
        else some (⟨tag, low, body.take length.toNat,
          (length_take_le _ _).trans_lt length.toNat_lt⟩, body.drop length.toNat)
  | _ => none

def read (expectTag : UInt8) : DerM Tlv := fun r =>
  match readTlv expectTag (r.buf.drop r.pos) with
  | none => .error .malformed r
  | some (tlv, rest) => .ok tlv { r with pos := r.buf.length - rest.length }

def eof (r : Der) : Bool := r.pos = r.buf.length

def readAll : Nat → DerM (List Tlv)
  | 0 => throw .malformed
  | fuel + 1 => do
    if eof (← get) then return []
    let t ← read 0
    let ts ← readAll fuel
    return t :: ts

def octets (n : Nat) : Bytes := (beBytes 8 n).dropWhile (· = 0)

def lengthOctets (n : Nat) : Bytes :=
  if n < 0x80 then [UInt8.ofNat n] else UInt8.ofNat (0x80 + (octets n).length) :: octets n

def encode (t : Tlv) : Bytes := t.tag :: (lengthOctets t.val.length ++ t.val)

section Length

variable {l0 : UInt8} {rest body bs : Bytes} {n : UInt64}

theorem accumulate_toNat (h : bs.length ≤ 8) : (accumulate bs).toNat = beNat bs := by
  induction bs using reverseRecOn with
  | nil => rfl
  | append_singleton bs b ih =>
    rw [length_append, length_singleton] at h
    have hlt : beNat bs < 256 ^ 7 := (beNat_lt bs).trans_le (Nat.pow_le_pow_right (by norm_num) (by omega))
    have hacc : accumulate (bs ++ [b]) = (accumulate bs <<< 8) ||| b.toUInt64 := by
      rw [accumulate, foldl_append]
      rfl
    have hbits : (8 : UInt64).toNat % 64 = 8 := rfl
    rw [hacc, UInt64.toNat_or, UInt64.toNat_shiftLeft, ih (by omega), hbits, Nat.shiftLeft_eq,
      Nat.mod_eq_of_lt (by omega),
      UInt8.toNat_toUInt64, beNat_concat, Nat.mul_comm]
    exact (Nat.two_pow_add_eq_or_of_lt b.toNat_lt (beNat bs)).symm

theorem beNat_dropWhile (bs : Bytes) : beNat (bs.dropWhile (· = 0)) = beNat bs := by
  induction bs with
  | nil => rfl
  | cons b bs ih =>
    by_cases hb : b = 0
    · rw [dropWhile_cons_of_pos (by simpa using hb), ih, hb]
      rfl
    · rw [dropWhile_cons_of_neg (by simpa using hb)]

theorem octets_beNat (h : bs.length ≤ 8) (hhead : bs.head? ≠ some 0) : octets (beNat bs) = bs := by
  have hdrop : (replicate (8 - bs.length) 0 ++ bs).dropWhile (· = 0) = bs := by
    rw [dropWhile_append_of_pos (by simp)]
    cases bs with
    | nil => rfl
    | cons b bs => exact dropWhile_cons_of_neg (by simpa using hhead)
  have hlen : (replicate (8 - bs.length) 0 ++ bs).length = 8 := by
    rw [length_append, length_replicate]
    omega
  have hbytes := beBytes_beNat (replicate (8 - bs.length) 0 ++ bs)
  rw [hlen, ← beNat_dropWhile, hdrop] at hbytes
  rw [octets, hbytes, hdrop]

theorem octets_length (n : Nat) : (octets n).length ≤ 8 :=
  (dropWhile_sublist _).length_le.trans_eq (beBytes_length 8 n)

theorem accumulate_octets (n : UInt64) : accumulate (octets n.toNat) = n := by
  apply UInt64.toNat.inj
  rw [accumulate_toNat (octets_length _), octets, beNat_dropWhile,
    beNat_beBytes (n.toNat_lt.trans_le (by norm_num))]

theorem low_bits (h : ¬ l0 < 0x80) : l0.toNat = 0x80 + (l0 &&& 0x7f).toNat := by
  have hge : 0x80 ≤ l0.toNat := UInt8.le_iff_toNat_le.mp (UInt8.not_lt.mp h)
  have hlt := l0.toNat_lt
  rw [UInt8.toNat_and, show (0x7f : UInt8).toNat = 2 ^ 7 - 1 from rfl, Nat.and_two_pow_sub_one_eq_mod]
  omega

theorem readLength_sound (h : readLength l0 rest = some (n, body)) :
    l0 :: rest = lengthOctets n.toNat ++ body := by
  rw [readLength] at h
  split at h
  · rename_i hshort
    obtain ⟨rfl, rfl⟩ := Prod.mk.inj (Option.some.inj h)
    have hlt : l0.toNat < 0x80 := UInt8.lt_iff_toNat_lt.mp hshort
    rw [lengthOctets, UInt8.toNat_toUInt64, if_pos hlt, UInt8.ofNat_toNat]
    rfl
  · rename_i hlong
    simp only [Option.ite_none_left_eq_some] at h
    obtain ⟨-, hwidth, hroom, hhead, hmin, h⟩ := h
    obtain ⟨rfl, rfl⟩ := Prod.mk.inj (Option.some.inj h)
    have hlow := low_bits hlong
    generalize (l0 &&& 0x7f).toNat = k at *
    have hlen : (rest.take k).length = k := length_take_of_le (by omega)
    have hoctets : octets (accumulate (rest.take k)).toNat = rest.take k := by
      rw [accumulate_toNat (by omega)]
      apply octets_beNat (by omega)
      intro hzero
      rw [head?_take] at hzero
      split at hzero
      · cases hzero
      · exact hhead hzero
    have hlong' : ¬ (accumulate (rest.take k)).toNat < 0x80 := fun hlt => hmin (UInt64.lt_iff_toNat_lt.mpr hlt)
    rw [lengthOctets, if_neg hlong', hoctets, hlen, ← hlow, UInt8.ofNat_toNat, cons_append, take_append_drop]

theorem readLength_octets (n : UInt64) (body : Bytes) :
    ∃ l0 os, lengthOctets n.toNat = l0 :: os ∧ readLength l0 (os ++ body) = some (n, body) := by
  have hsize : UInt8.size = 256 := rfl
  rw [lengthOctets]
  split
  · rename_i hshort
    have hl : (UInt8.ofNat n.toNat).toNat = n.toNat := UInt8.toNat_ofNat_of_lt' (by omega)
    have hlt : (UInt8.ofNat n.toNat).toNat < 0x80 := hl.trans_lt hshort
    refine ⟨_, [], rfl, ?_⟩
    rw [readLength, if_pos (UInt8.lt_iff_toNat_lt.mpr hlt), nil_append]
    congr
    apply UInt64.toNat.inj
    rw [UInt8.toNat_toUInt64, hl]
  · rename_i hlong
    have hacc := accumulate_octets n
    have hk := octets_length n.toNat
    have hhead : ((octets n.toNat) ++ body).head? ≠ some 0 ∧ (octets n.toNat).length ≠ 0 := by
      cases hbs : octets n.toNat with
      | nil =>
        rw [hbs] at hacc
        rw [← hacc] at hlong
        exact absurd (by decide) hlong
      | cons b bs =>
        have hb := head?_dropWhile_not (fun b : UInt8 => decide (b = 0)) (beBytes 8 n.toNat)
        rw [← octets, hbs] at hb
        simpa using hb
    obtain ⟨hhead, hpos⟩ := hhead
    generalize octets n.toNat = os at *
    have hl : (UInt8.ofNat (0x80 + os.length)).toNat = 0x80 + os.length := UInt8.toNat_ofNat_of_lt' (by omega)
    have hge : ¬ UInt8.ofNat (0x80 + os.length) < 0x80 := by
      rw [UInt8.lt_iff_toNat_lt, hl]
      exact Nat.not_lt.mpr (Nat.le_add_right _ _)
    have hdef : UInt8.ofNat (0x80 + os.length) ≠ 0x80 := by
      intro he
      have htoNat : (UInt8.ofNat (0x80 + os.length)).toNat = 0x80 := congrArg UInt8.toNat he
      omega
    have hlow : (UInt8.ofNat (0x80 + os.length) &&& 0x7f).toNat = os.length :=
      Nat.add_left_cancel ((low_bits hge).symm.trans hl)
    have hmin : ¬ n < 0x80 := mt UInt64.lt_iff_toNat_lt.mp hlong
    refine ⟨_, os, rfl, ?_⟩
    simp only [readLength, if_neg hge, if_neg hdef, hlow, if_neg (Nat.not_lt.mpr hk), length_append,
      if_neg (Nat.not_lt.mpr (Nat.le_add_right _ _)), if_neg hhead, take_left, hacc, if_neg hmin, drop_left]

end Length

section Elements

variable {expect : UInt8} {r r' : Der} {t t' : Tlv} {rest rest' bytes : Bytes} {fuel : Nat} {ts : List Tlv}

theorem readTlv_encode (htag : expect = 0 ∨ t.tag = expect) (rest : Bytes) :
    readTlv expect (encode t ++ rest) = some (t, rest) := by
  have hval : (UInt64.ofNat t.val.length).toNat = t.val.length := UInt64.toNat_ofNat_of_lt' t.fits
  obtain ⟨l0, os, hos, hread⟩ := readLength_octets (UInt64.ofNat t.val.length) (t.val ++ rest)
  rw [hval] at hos
  rw [encode, hos, cons_append, cons_append, cons_append, append_assoc, readTlv, dif_neg t.low,
    if_neg (by tauto), hread, Option.bind_some]
  simp [hval]

theorem readTlv_sound (h : readTlv expect bytes = some (t, rest)) :
    (expect = 0 ∨ t.tag = expect) ∧ bytes = encode t ++ rest := by
  rw [readTlv.eq_def] at h
  split at h
  · simp only [Option.dite_none_left_eq_some, Option.ite_none_left_eq_some, Option.bind_eq_some_iff] at h
    obtain ⟨hlow, htag, ⟨n, body⟩, hread, hroom, h⟩ := h
    obtain ⟨rfl, rfl⟩ := Prod.mk.inj (Option.some.inj h)
    have hlen : (body.take n.toNat).length = n.toNat := length_take_of_le (Nat.not_lt.mp hroom)
    refine ⟨by tauto, ?_⟩
    rw [encode, hlen, readLength_sound hread, cons_append, append_assoc, take_append_drop]
  · cases h

theorem encode_append_inj (h : encode t ++ rest = encode t' ++ rest') : t = t' ∧ rest = rest' := by
  have hread := readTlv_encode (t := t) (.inl rfl) rest
  rw [h, readTlv_encode (.inl rfl)] at hread
  obtain ⟨rfl, rfl⟩ := Prod.mk.inj (Option.some.inj hread)
  exact ⟨rfl, rfl⟩

theorem read_iff : read expect r = .ok t r' ↔ (expect = 0 ∨ t.tag = expect) ∧ encode t <+: r.buf.drop r.pos ∧
    r' = { r with pos := r.pos + (encode t).length } := by
  have hadvance {rest : Bytes} (h : r.buf.drop r.pos = encode t ++ rest) :
      r.buf.length - rest.length = r.pos + (encode t).length := by
    have hsize := congrArg List.length h
    have hpos : (encode t).length ≠ 0 := Nat.succ_ne_zero _
    rw [length_drop, length_append] at hsize
    omega
  constructor
  · intro h
    rw [read] at h
    split at h
    · cases h
    · rename_i rest hread
      obtain ⟨htag, hbytes⟩ := readTlv_sound hread
      cases h
      exact ⟨htag, ⟨rest, hbytes.symm⟩, by rw [hadvance hbytes]⟩
  · rintro ⟨htag, ⟨rest, hbytes⟩, rfl⟩
    rw [read, ← hbytes, readTlv_encode htag]
    dsimp only
    rw [hadvance hbytes.symm]

theorem readAll_sound (h : readAll fuel r = .ok ts r') : r.buf.drop r.pos = ts.flatMap encode := by
  induction fuel generalizing r ts with
  | zero => cases h
  | succ fuel ih =>
    rw [readAll, get_bind_apply] at h
    split at h
    · rename_i heof
      have hend : r.pos = r.buf.length := by simpa [eof] using heof
      cases h
      exact drop_eq_nil_of_le hend.ge
    · obtain ⟨t, r₁, hread, h⟩ := bind_eq_ok.mp h
      obtain ⟨ts', r₂, hrest, h⟩ := bind_eq_ok.mp h
      cases h
      obtain ⟨-, ⟨rest, hbytes⟩, rfl⟩ := read_iff.mp hread
      have hbytes' := ih hrest
      rw [← drop_drop, ← hbytes, drop_left] at hbytes'
      rw [← hbytes, hbytes', flatMap_cons]

theorem readAll_complete (hpos : r.pos ≤ r.buf.length) (h : r.buf.drop r.pos = ts.flatMap encode)
    (hfuel : r.buf.length - r.pos < fuel) : ∃ r', readAll fuel r = .ok ts r' := by
  induction ts generalizing r fuel with
  | nil =>
    obtain ⟨fuel, rfl⟩ := Nat.exists_eq_add_one.mpr (Nat.zero_lt_of_lt hfuel)
    have hend : r.pos = r.buf.length := hpos.antisymm (drop_eq_nil_iff.mp h)
    rw [readAll, get_bind_apply, if_pos (by simpa [eof] using hend)]
    exact ⟨r, rfl⟩
  | cons t ts ih =>
    obtain ⟨fuel, rfl⟩ := Nat.exists_eq_add_one.mpr (Nat.zero_lt_of_lt hfuel)
    rw [flatMap_cons] at h
    have hsize := congrArg List.length h
    have hlen : (encode t).length ≠ 0 := Nat.succ_ne_zero _
    rw [length_drop, length_append] at hsize
    have hread := read_iff.mpr ⟨.inl rfl, ⟨_, h.symm⟩, rfl⟩
    obtain ⟨r', hrest⟩ := @ih { r with pos := r.pos + (encode t).length } fuel (by dsimp only; omega)
      (by rw [← drop_drop, h, drop_left]) (by dsimp only; omega)
    have hmore : ¬ eof r := by
      simp only [eof, decide_eq_true_eq]
      omega
    rw [readAll, get_bind_apply, if_neg hmore, bind_ok hread, bind_ok hrest]
    exact ⟨r', rfl⟩

end Elements

/-- The reader takes exactly the strict encodings and stays where it is otherwise; a buffer is a
sequence of elements in at most one way. -/
theorem read_exact (expect : UInt8) (r : Der) (buf : Bytes) (ts : List Tlv) :
    (∀ t r', read expect r = .ok t r' ↔ (expect = 0 ∨ t.tag = expect) ∧ encode t <+: r.buf.drop r.pos ∧
      r' = { r with pos := r.pos + (encode t).length }) ∧
    (∀ t t', encode t <+: r.buf.drop r.pos → encode t' <+: r.buf.drop r.pos → t = t') ∧
    (∀ e r', read expect r = .error e r' → e = .malformed ∧ r' = r) ∧
    ((∃ r', readAll (buf.length + 1) (init buf) = .ok ts r') ↔ ts.flatMap encode = buf) ∧
    ∀ ts', ts.flatMap encode = buf → ts'.flatMap encode = buf → ts = ts' := by
  refine ⟨fun t r' => read_iff, ?_, fun e r' h => ?_, ⟨?_, ?_⟩, ?_⟩
  · rintro t t' ⟨rest, h⟩ ⟨rest', h'⟩
    exact (encode_append_inj (h.trans h'.symm)).1
  · rw [read] at h
    split at h
    · cases h
      exact ⟨rfl, rfl⟩
    · cases h
  · rintro ⟨r', h⟩
    exact (readAll_sound h).symm
  · intro h
    exact readAll_complete (Nat.zero_le _) h.symm (Nat.lt_succ_self _)
  · intro ts' h h'
    obtain ⟨r', hread⟩ := readAll_complete (r := init buf) (Nat.zero_le _) h.symm (Nat.lt_succ_self _)
    obtain ⟨r'', hread'⟩ := readAll_complete (r := init buf) (Nat.zero_le _) h'.symm (Nat.lt_succ_self _)
    cases hread.symm.trans hread'
    rfl

end AntsClient.Tee.DerReader
