import AntsClient.Cbor.Tokens

namespace AntsClient.Cbor.DecoderSpec

open Common Head Codec Frames Tokens

variable {d d' : Dec} {buf bs : Bytes} {pos width min value : Nat} {α : Type}

/-- The bytes `bs` stand in the buffer from position `pos` on. -/
def At (buf : Bytes) (pos : Nat) (bs : Bytes) : Prop :=
  pos + bs.length ≤ buf.length ∧ slice buf pos (pos + bs.length) = bs

def DecOk (d : Dec) : Prop := d.pos ≤ d.buf.length ∧ Positioned d.pos d.stack

def decFrames (d : Dec) : List Frame := frames d.buf d.pos d.stack

theorem decInit_ok (b : Bytes) : DecOk (decInit b) := ⟨Nat.zero_le _, trivial⟩

theorem decFinalise_iff : decFinalise d = .ok () ↔ decFrames d = [] ∧ d.pos = d.buf.length := by
  rw [decFrames, frames_eq_nil, decFinalise]
  by_cases hs : d.stack = [] <;> by_cases hp : d.pos = d.buf.length <;> simp [hs, hp]

theorem at_nil : At buf pos [] ↔ pos ≤ buf.length := by
  simp [At, slice_self]

variable {as : Bytes} {x b major info want : UInt8} {t : Token} {r : Reader} {c : Call}

theorem at_append : At buf pos (as ++ bs) ↔ At buf pos as ∧ At buf (pos + as.length) bs := by
  simp only [At, List.length_append]
  have hs : slice buf pos (pos + (as.length + bs.length)) =
      slice buf pos (pos + as.length) ++ slice buf (pos + as.length) (pos + as.length + bs.length) := by
    rw [slice_append (by omega) (by omega), Nat.add_assoc]
  rw [hs]
  constructor
  · rintro ⟨hl, he⟩
    have hl' : pos + as.length ≤ buf.length := by omega
    obtain ⟨ha, hb⟩ := List.append_inj he (by rw [slice_length hl']; omega)
    exact ⟨⟨hl', ha⟩, by omega, hb⟩
  · rintro ⟨⟨_, ha⟩, hl, hb⟩
    exact ⟨by omega, by rw [ha, hb]⟩

theorem at_singleton : At buf pos [x] ↔ buf[pos]? = some x := by
  simp only [At, slice, List.length_singleton, Nat.add_sub_cancel_left]
  constructor
  · rintro ⟨hl, hs⟩
    have h0 := congrArg (·[0]?) hs
    simpa using h0
  · intro h
    obtain ⟨hl, hx⟩ := List.getElem?_eq_some_iff.mp h
    refine ⟨hl, ?_⟩
    rw [List.drop_eq_getElem_cons hl, hx]
    rfl

theorem at_cons {xs : Bytes} : At buf pos (x :: xs) ↔ buf[pos]? = some x ∧ At buf (pos + 1) xs := by
  rw [← List.singleton_append, at_append, at_singleton]
  rfl

theorem at_unique (ha : At buf pos as) (hb : At buf pos bs) (hl : as.length = bs.length) : as = bs := by
  rw [← ha.2, ← hb.2, hl]

theorem readWide_iff {v : Nat} :
    readWide width min d = .ok v d' ↔ At d.buf d.pos (beBytes width v) ∧ v < 256 ^ width ∧ min ≤ v ∧
      d' = { d with pos := d.pos + width } := by
  rw [readWide]
  by_cases hl : d.pos + width > d.buf.length
  · have hn : ¬ At d.buf d.pos (beBytes width v) := fun h => by
      have := h.1
      rw [beBytes_length] at this
      omega
    simp [hl, hn]
  · have hlen : (slice d.buf d.pos (d.pos + width)).length = width := by
      rw [slice_length (by omega), Nat.add_sub_cancel_left]
    simp only [hl, if_false]
    constructor
    · intro h
      split at h
      · cases h
      · rename_i hmin
        obtain ⟨rfl, rfl⟩ : beNat (slice d.buf d.pos (d.pos + width)) = v ∧
            { d with pos := d.pos + width } = d' := by
          simpa using h
        have hb := beBytes_beNat (slice d.buf d.pos (d.pos + width))
        have hlt := beNat_lt (slice d.buf d.pos (d.pos + width))
        rw [hlen] at hb hlt
        refine ⟨?_, hlt, Nat.not_lt.mp hmin, rfl⟩
        rw [hb]
        exact ⟨by rw [hlen]; omega, by rw [hlen]⟩
    · rintro ⟨⟨_, hs⟩, hv, hmin, rfl⟩
      rw [beBytes_length] at hs
      rw [hs, beNat_beBytes hv, if_neg (Nat.not_lt.mpr hmin)]

theorem shift_lt (b : UInt8) : b >>> 5 < 8 := by
  have h : ∀ n : Fin 256, UInt8.ofFin n >>> 5 < 8 := by decide +kernel
  exact h b.toFin

/-- The width of the argument that follows an initial byte with `info ≥ 24`, and
the least value that needs it. -/
def wide (info : UInt8) : Option (Nat × Nat) :=
  if info = 24 then some (1, 24)
  else if info = 25 then some (2, 256)
  else if info = 26 then some (4, 65536)
  else if info = 27 then some (8, 0x100000000)
  else none

theorem cborReadHead_byte (h : d.buf[d.pos]? = some b) : cborReadHead d =
    if b &&& 0x1f < 24 then .ok (b >>> 5, (b &&& 0x1f).toNat) { d with pos := d.pos + 1 }
    else match wide (b &&& 0x1f) with
      | some (width, min) => ((b >>> 5, ·) <$> readWide width min) { d with pos := d.pos + 1 }
      | none => .error .nonCanonical { d with pos := d.pos + 1 } := by
  simp only [cborReadHead, h, wide]
  by_cases h24 : b &&& 0x1f = 24
  · simp [h24]
  by_cases h25 : b &&& 0x1f = 25
  · simp [h25]
  by_cases h26 : b &&& 0x1f = 26
  · simp [h26]
  by_cases h27 : b &&& 0x1f = 27
  · simp [h27]
  · simp only [h24, h25, h26, h27, if_false]

theorem head_small (h : value < 24) : head major value = [(major <<< 5) ||| UInt8.ofNat value] := by
  rw [head, if_pos h]

theorem head_wide (h : wide info = some (width, min)) (hmin : min ≤ value) (hlt : value < 256 ^ width) :
    head major value = ((major <<< 5) ||| info) :: beBytes width value := by
  rw [wide] at h
  split_ifs at h
  all_goals
    obtain ⟨rfl, rfl⟩ := Prod.mk.inj (Option.some.inj h)
    subst info
    simp (disch := omega) only [head, if_neg, if_pos]

theorem exists_wide (h24 : 24 ≤ value) (hlt : value < 2 ^ 64) :
    ∃ info width min, wide info = some (width, min) ∧ info < 32 ∧ ¬ info < 24 ∧ min ≤ value ∧
    value < 256 ^ width := by
  by_cases h1 : value < 256
  · exact ⟨24, 1, 24, rfl, by decide, by decide, h24, h1⟩
  by_cases h2 : value < 65536
  · exact ⟨25, 2, 256, rfl, by decide, by decide, by omega, h2⟩
  by_cases h4 : value < 0x100000000
  · exact ⟨26, 4, 65536, rfl, by decide, by decide, by omega, h4⟩
  · exact ⟨27, 8, 0x100000000, rfl, by decide, by decide, by omega, hlt⟩

theorem wide_le (h : wide info = some (width, min)) : width ≤ 8 := by
  rw [wide] at h
  repeat' split at h
  all_goals simp at h
  all_goals omega

theorem cborReadHead_iff {d d' : Dec} {major : UInt8} {value : Nat} :
    cborReadHead d = .ok (major, value) d' ↔ major < 8 ∧ value < 2 ^ 64 ∧ At d.buf d.pos (head major value) ∧
      d' = { d with pos := d.pos + (head major value).length } := by
  constructor
  · intro h
    cases hb : d.buf[d.pos]? with
    | none => simp [cborReadHead, hb] at h
    | some b =>
      rw [cborReadHead_byte hb] at h
      by_cases hi : b &&& 0x1f < 24
      · rw [if_pos hi] at h
        obtain ⟨⟨rfl, rfl⟩, rfl⟩ : (b >>> 5 = major ∧ (b &&& 0x1f).toNat = value) ∧
          { d with pos := d.pos + 1 } = d' := by simpa using h
        have hhead : head (b >>> 5) _ = _ := head_small (show (b &&& 0x1f).toNat < 24 from hi)
        rw [UInt8.ofNat_toNat, initial_split] at hhead
        rw [hhead]
        refine ⟨shift_lt b, ?_, at_singleton.mpr hb, rfl⟩
        exact lt_trans (show (b &&& 0x1f).toNat < 24 from hi) (by norm_num)
      · rw [if_neg hi] at h
        split at h
        · rename_i width min hw
          obtain ⟨v, hr, hv⟩ := map_eq_ok.mp h
          obtain ⟨rfl, rfl⟩ : b >>> 5 = major ∧ v = value := by simpa using hv
          obtain ⟨hat, hlt, hmin, rfl⟩ := readWide_iff.mp hr
          have hhead : head (b >>> 5) v = _ := head_wide hw hmin hlt
          rw [initial_split] at hhead
          rw [hhead]
          refine ⟨shift_lt b, ?_, at_cons.mpr ⟨hb, hat⟩, ?_⟩
          · exact hlt.trans_le ((Nat.pow_le_pow_right (by norm_num) (wide_le hw)).trans (by norm_num))
          · simp [beBytes_length, Nat.add_assoc, Nat.add_comm width 1]
        · cases h
  · rintro ⟨hm, hv, hat, rfl⟩
    by_cases h24 : value < 24
    · rw [head_small h24] at hat ⊢
      have ht : (UInt8.ofNat value).toNat = value := by
        rw [UInt8.toNat_ofNat', Nat.mod_eq_of_lt (by omega)]
      have hi : (UInt8.ofNat value).toNat < 24 := by omega
      have hi' : (UInt8.ofNat value).toNat < 32 := by omega
      obtain ⟨h1, h2⟩ := initial_join hm (UInt8.lt_iff_toNat_lt.mpr hi')
      rw [cborReadHead_byte (at_singleton.mp hat), h1, h2, if_pos (UInt8.lt_iff_toNat_lt.mpr hi), ht]
      rfl
    · obtain ⟨info, width, min, hw, hlt, hge, hmin, hval⟩ := exists_wide (Nat.not_lt.mp h24) hv
      rw [head_wide hw hmin hval] at hat ⊢
      obtain ⟨hb, hat'⟩ := at_cons.mp hat
      obtain ⟨h1, h2⟩ := initial_join hm hlt
      simp only [cborReadHead_byte hb, h1, h2, if_neg hge, hw]
      refine map_eq_ok.mpr ⟨value, readWide_iff.mpr ⟨hat', hval, hmin, ?_⟩, rfl⟩
      simp [beBytes_length, Nat.add_assoc, Nat.add_comm width 1]

def finish (t : Token) (itemBegin : Nat) : DecM Unit :=
  match t with
  | .array n => if n = 0 then decTrackItem itemBegin else decOpen .array n itemBegin
  | .map n => if n = 0 then decTrackItem itemBegin else decOpen .mapKey n itemBegin
  | .tag _ => decOpen .tag 1 itemBegin
  | _ => decTrackItem itemBegin

def Dec.skip (d : Dec) (n : Nat) : Dec := { d with pos := d.pos + n }

structure Reads (d : Dec) (t : Token) (d' : Dec) : Prop where
  valid : t.Valid
  at_pos : At d.buf d.pos t.enc
  buf : d'.buf = d.buf
  pos : d'.pos = d.pos + t.enc.length
  ok : DecOk d'
  step : t.step (decFrames d) = .ok (decFrames d')

def Consumes (d : Dec) (bs : Bytes) (next : Except Error (List Frame)) : EStateM.Result Error Dec Unit → Prop
  | .ok _ d' => next = .ok (decFrames d') ∧ DecOk d' ∧ d'.buf = d.buf ∧ d'.pos = d.pos + bs.length
  | .error err _ => next = .error err

theorem decItem_iff {body : Nat → DecM α} {a : α} : decItem body d = .ok a d' ↔ body d.pos d = .ok a d' := by
  rw [decItem]
  split <;> simp_all

theorem guard_iff {p : Prop} [Decidable p] {err : Error} {f : Unit → DecM α} {x : DecM α} {a : α}
    : (if p then throw err >>= f else x) d = .ok a d' ↔ ¬ p ∧ x d = .ok a d' := by
  by_cases h : p
  · simp [h, throw_bind_apply]
  · simp [h]

theorem return_iff {x : DecM Unit} {a b : α} :
    (do x; return a : DecM α) d = .ok b d' ↔ x d = .ok () d' ∧ a = b := by
  rw [bind_eq_ok]
  constructor
  · rintro ⟨⟨⟩, t, hx, hr⟩
    obtain ⟨rfl, rfl⟩ : a = b ∧ t = d' := by simpa [pure, EStateM.pure] using hr
    exact ⟨hx, rfl⟩
  · rintro ⟨hx, rfl⟩
    exact ⟨(), d', hx, rfl⟩

theorem get_bind (f : Dec → DecM α) (d : Dec) : (get >>= f) d = f d d := rfl

theorem set_bind (f : PUnit → DecM α) (d d' : Dec) : (set d' >>= f) d = f ⟨⟩ d' := rfl

theorem readHead_bind_iff {f : UInt8 × Nat → DecM α} {a : α} :
    (cborReadHead >>= f) d = .ok a d' ↔ ∃ major value, major < 8 ∧ value < 2 ^ 64 ∧
      At d.buf d.pos (head major value) ∧
      f (major, value) (Dec.skip d (head major value).length) = .ok a d' := by
  rw [bind_eq_ok]
  constructor
  · rintro ⟨⟨major, value⟩, t, hr, hf⟩
    obtain ⟨hm, hv, hat, rfl⟩ := cborReadHead_iff.mp hr
    exact ⟨major, value, hm, hv, hat, hf⟩
  · rintro ⟨major, value, hm, hv, hat, hf⟩
    exact ⟨(major, value), _, cborReadHead_iff.mpr ⟨hm, hv, hat, rfl⟩, hf⟩

theorem decUint_iff {v : UInt64} : decUint d = .ok v d' ↔
    At d.buf d.pos (head 0 v.toNat) ∧ decTrackItem d.pos (Dec.skip d (head 0 v.toNat).length) = .ok () d' := by
  simp only [decUint, decItem_iff, readHead_bind_iff, guard_iff, return_iff, ne_eq, not_not]
  constructor
  · rintro ⟨major, value, -, hv, hat, rfl, ht, rfl⟩
    rw [ofNat_toNat hv]
    exact ⟨hat, ht⟩
  · rintro ⟨hat, ht⟩
    exact ⟨0, v.toNat, by decide, v.toNat_lt, hat, rfl, ht, UInt64.ofNat_toNat⟩

theorem decInt_iff {v : Int64} : decInt d = .ok v d' ↔ At d.buf d.pos (Call.int v).token.enc ∧
      decTrackItem d.pos (Dec.skip d (Call.int v).token.enc.length) = .ok () d' := by
  simp only [decInt, decItem_iff, readHead_bind_iff, guard_iff, return_iff, ne_eq, not_and, not_not, int64Max]
  have hlo := Int64.le_toInt v
  have hhi := Int64.toInt_lt v
  constructor
  · rintro ⟨major, value, -, -, hat, hm, hv, ht, rfl⟩
    by_cases h0 : major = 0
    · subst h0
      have hi : (Int64.ofNat value).toInt = value := Int64.toInt_ofNat_of_lt (by omega)
      rw [if_pos rfl, int_token_nonneg (by omega), hi, Int.toNat_natCast]
      exact ⟨hat, ht⟩
    · obtain rfl := hm h0
      have hi := neg_ofNat_toInt (show value < 2 ^ 63 by omega)
      have hback : (-1 - (-1 - (value : Int))).toNat = value := by omega
      rw [if_neg (by decide), int_token_neg (by omega), hi, hback]
      exact ⟨hat, ht⟩
  · rintro ⟨hat, ht⟩
    by_cases h0 : 0 ≤ v.toInt
    · rw [int_token_nonneg h0] at hat ht
      refine ⟨0, v.toInt.toNat, by decide, by omega, hat, by simp, by omega, ht, ?_⟩
      rw [if_pos rfl]
      apply Int64.toInt_inj.mp
      rw [Int64.toInt_ofNat_of_lt (by omega)]
      omega
    · rw [int_token_neg (by omega)] at hat ht
      refine ⟨1, (-1 - v.toInt).toNat, by decide, by omega, hat, by simp, by omega, ht, ?_⟩
      rw [if_neg (by decide)]
      apply Int64.toInt_inj.mp
      rw [neg_ofNat_toInt (by omega)]
      omega

theorem decString_iff {b : Bytes} (hw : want < 8) : decString want d = .ok b d' ↔
    b.length < 2 ^ 64 ∧ At d.buf d.pos (head want b.length ++ b) ∧
      decTrackItem d.pos (Dec.skip d (head want b.length ++ b).length) = .ok () d' := by
  simp only [decString, decItem_iff, readHead_bind_iff, guard_iff, get_bind, set_bind, return_iff,
    ne_eq, not_not,
    gt_iff_lt, not_lt, at_append]
  constructor
  · rintro ⟨major, value, -, hv, hat, rfl, hl, ht, rfl⟩
    simp only [Dec.skip] at hl ht ⊢
    have hle : d.pos + (head major value).length + value ≤ d.buf.length := by
      have := hat.1
      omega
    have hlen : (slice d.buf (d.pos + (head major value).length)
        (d.pos + (head major value).length + value)).length = value := by
      rw [slice_length hle, Nat.add_sub_cancel_left]
    rw [List.length_append, hlen, ← Nat.add_assoc]
    exact ⟨hv, ⟨hat, by rw [hlen]; exact hle, by rw [hlen]⟩, ht⟩
  · rintro ⟨hl, ⟨hat, hb⟩, ht⟩
    simp only [Dec.skip, List.length_append, ← Nat.add_assoc] at ht ⊢
    exact ⟨want, b.length, hw, hl, hat, rfl, by have := hb.1; omega, ht, hb.2⟩

theorem decContainer_iff {kind : CtxKind} {n : UInt64} (hw : want < 8) :
    decContainer want kind d = .ok n d' ↔ At d.buf d.pos (head want n.toNat) ∧
      (if n.toNat = 0 then decTrackItem d.pos else decOpen kind n.toNat d.pos)
        (Dec.skip d (head want n.toNat).length) = .ok () d' := by
  have hfin (value : Nat) (t : Dec) : (if value = 0 then (do decTrackItem d.pos; return UInt64.ofNat value)
      else (do decOpen kind value d.pos; return UInt64.ofNat value) : DecM UInt64) t = .ok n d' ↔
      (if value = 0 then decTrackItem d.pos else decOpen kind value d.pos) t = .ok () d' ∧
        UInt64.ofNat value = n := by
    split <;> exact return_iff
  simp only [decContainer, decItem_iff, readHead_bind_iff, guard_iff, hfin, ne_eq, not_not]
  constructor
  · rintro ⟨major, value, -, hv, hat, rfl, ht, rfl⟩
    rw [ofNat_toNat hv]
    exact ⟨hat, ht⟩
  · rintro ⟨hat, ht⟩
    exact ⟨want, n.toNat, hw, n.toNat_lt, hat, rfl, ht, UInt64.ofNat_toNat⟩

theorem decTag_iff {t : UInt64} : decTag d = .ok t d' ↔
    (t.toNat = 0 ∨ t.toNat = 32 ∨ t.toNat = 42) ∧ At d.buf d.pos (head 6 t.toNat) ∧
      decOpen .tag 1 d.pos (Dec.skip d (head 6 t.toNat).length) = .ok () d' := by
  simp only [decTag, decItem_iff, readHead_bind_iff, guard_iff, return_iff, ne_eq, not_not, Bool.not_eq_true',
    Bool.not_eq_false, reservedTag_iff]
  constructor
  · rintro ⟨major, value, -, hv, hat, rfl, hr, ht, rfl⟩
    rw [ofNat_toNat hv] at hr ⊢
    exact ⟨hr, hat, ht⟩
  · rintro ⟨hr, hat, ht⟩
    refine ⟨6, t.toNat, by decide, t.toNat_lt, hat, rfl, ?_, ht, UInt64.ofNat_toNat⟩
    rwa [UInt64.ofNat_toNat]

theorem decByte_iff {accept : UInt8 → Bool} : decByte accept d = .ok b d' ↔
    accept b = true ∧ At d.buf d.pos [b] ∧ decTrackItem d.pos (Dec.skip d 1) = .ok () d' := by
  rw [decByte, decItem_iff, at_singleton]
  simp only [get_bind]
  cases hb : d.buf[d.pos]? with
  | none => simp [throw_apply]
  | some x =>
    simp only [guard_iff, set_bind, return_iff, Bool.not_eq_true', Bool.not_eq_false, Option.some.injEq]
    constructor
    · rintro ⟨ha, ht, rfl⟩
      exact ⟨ha, rfl, ht⟩
    · rintro ⟨ha, rfl, ht⟩
      exact ⟨ha, ht, rfl⟩

theorem decBool_iff {v : Bool} : decBool d = .ok v d' ↔
    At d.buf d.pos (Token.bool v).enc ∧ decTrackItem d.pos (Dec.skip d 1) = .ok () d' := by
  rw [decBool, bind_eq_ok]
  constructor
  · rintro ⟨b, t, hb, hr⟩
    obtain ⟨rfl, rfl⟩ : decide (b = 0xf5) = v ∧ t = d' := by simpa [pure, EStateM.pure] using hr
    obtain ⟨ha, hat, ht⟩ := decByte_iff.mp hb
    rcases (by simpa using ha : b = 0xf4 ∨ b = 0xf5) with rfl | rfl <;> exact ⟨hat, ht⟩
  · rintro ⟨hat, ht⟩
    refine ⟨_, d', decByte_iff.mpr ⟨?_, hat, ht⟩, ?_⟩
    · cases v <;> rfl
    · cases v <;> rfl

theorem decNull_iff {u : Unit} : decNull d = .ok u d' ↔ At d.buf d.pos Token.null.enc ∧
    decTrackItem d.pos (Dec.skip d 1) = .ok () d' := by
  rw [decNull, bind_eq_ok]
  constructor
  · rintro ⟨b, t, hb, hr⟩
    obtain rfl : t = d' := by simpa [pure, EStateM.pure] using hr
    obtain ⟨ha, hat, ht⟩ := decByte_iff.mp hb
    obtain rfl : b = 0xf6 := by simpa using ha
    exact ⟨hat, ht⟩
  · rintro ⟨hat, ht⟩
    exact ⟨_, d', decByte_iff.mpr ⟨rfl, hat, ht⟩, rfl⟩

/-- A decode call returns `c` exactly when the token of `c` comes next in the buffer and its
container takes it. -/
theorem decCall_iff : decCall r d = .ok c d' ↔ c.reader = r ∧ c.token.Valid ∧ At d.buf d.pos c.token.enc ∧
      finish c.token d.pos (Dec.skip d c.token.enc.length) = .ok () d' := by
  have hfin (v : Int64) (p : Nat) : finish (Call.int v).token p = decTrackItem p := by
    simp only [Call.token]
    split <;> rfl
  cases r <;> simp only [decCall, map_eq_ok, decUint_iff, decInt_iff, decBytes, decText,
    decString_iff (show (2 : UInt8) < 8 by decide), decString_iff (show (3 : UInt8) < 8 by decide),
    decArray, decMap,
    decContainer_iff (show (4 : UInt8) < 8 by decide), decContainer_iff (show (5 : UInt8) < 8 by decide),
    decTag_iff, decBool_iff, decNull_iff]
  case uint | array | map =>
    constructor
    · rintro ⟨v, ⟨hat, ht⟩, rfl⟩
      exact ⟨rfl, v.toNat_lt, hat, ht⟩
    · cases c <;> rintro ⟨⟨⟩, -, hat, ht⟩
      exact ⟨_, ⟨hat, ht⟩, rfl⟩
  case int =>
    constructor
    · rintro ⟨v, ⟨hat, ht⟩, rfl⟩
      exact ⟨rfl, Call.int_valid v, hat, by rw [hfin]; exact ht⟩
    · cases c <;> rintro ⟨⟨⟩, -, hat, ht⟩
      exact ⟨_, ⟨hat, by rw [hfin] at ht; exact ht⟩, rfl⟩
  case bytes | text | tag =>
    constructor
    · rintro ⟨v, ⟨hvalid, hat, ht⟩, rfl⟩
      exact ⟨rfl, hvalid, hat, ht⟩
    · cases c <;> rintro ⟨⟨⟩, hvalid, hat, ht⟩
      exact ⟨_, ⟨hvalid, hat, ht⟩, rfl⟩
  case bool =>
    constructor
    · rintro ⟨v, ⟨hat, ht⟩, rfl⟩
      exact ⟨rfl, trivial, hat, ht⟩
    · cases c <;> rintro ⟨⟨⟩, -, hat, ht⟩
      exact ⟨_, ⟨hat, ht⟩, rfl⟩
  case null =>
    constructor
    · rintro ⟨-, ⟨hat, ht⟩, rfl⟩
      exact ⟨rfl, trivial, hat, ht⟩
    · cases c <;> rintro ⟨⟨⟩, -, hat, ht⟩
      exact ⟨(), ⟨hat, ht⟩, rfl⟩

theorem decTrackItem_consumes (hd : DecOk d) (hbs : bs ≠ []) (hat : At d.buf d.pos bs) :
    Consumes d bs (absorb bs (decFrames d)) (decTrackItem d.pos (Dec.skip d bs.length)) := by
  have hlt : d.pos < d.pos + bs.length := Nat.lt_add_of_pos_right (List.length_pos_iff.mpr hbs)
  have hf : _ = absorb (slice d.buf d.pos _) _ := trackItem_frames hd.2 hlt
  rw [hat.2] at hf
  simp only [decTrackItem, Dec.skip, decFrames]
  cases ht : trackItem d.buf (d.pos + bs.length) d.stack d.pos with
  | error err =>
    rw [ht] at hf
    exact hf.symm
  | ok stack =>
    rw [ht] at hf
    exact ⟨hf.symm, ⟨hat.1, trackItem_positioned hd.2 hlt ht⟩, rfl, rfl⟩

theorem decOpen_consumes (kind : CtxKind) (n : Nat) (hd : DecOk d) (hat : At d.buf d.pos bs) :
    Consumes d bs (push kind n bs (decFrames d)) (decOpen kind n d.pos (Dec.skip d bs.length)) := by
  have hl : (decFrames d).length = d.stack.length := frames_length ..
  simp only [decOpen, push, hl, Dec.skip]
  by_cases hdep : d.stack.length ≥ maxDepth
  · simp only [hdep, if_true]
    rfl
  · simp only [hdep, if_false]
    refine ⟨?_, ⟨hat.1, Nat.le_add_right .., Nat.zero_le _, hd.2⟩, rfl, rfl⟩
    simp only [decFrames, frames, frame, hat.2]
    rfl

theorem finish_consumes (hd : DecOk d) (hv : t.Valid) (hat : At d.buf d.pos t.enc) :
    Consumes d t.enc (t.step (decFrames d)) (finish t d.pos (Dec.skip d t.enc.length)) := by
  have hne := t.enc_ne_nil
  cases t with
  | array n | map n =>
    by_cases hn : n = 0
    · subst hn
      exact decTrackItem_consumes hd hne hat
    · simp only [Token.step, finish, hn, if_false]
      exact decOpen_consumes _ n hd hat
  | tag t =>
    simp only [Token.step, if_pos (show t = 0 ∨ t = 32 ∨ t = 42 from hv)]
    exact decOpen_consumes .tag 1 hd hat
  | uint | nint | bytes | text | bool | null => exact decTrackItem_consumes hd hne hat

theorem decCall_reads (hd : DecOk d) (h : decCall r d = .ok c d') : Reads d c.token d' := by
  obtain ⟨-, hv, hat, hf⟩ := decCall_iff.mp h
  have hc := finish_consumes hd hv hat
  rw [hf] at hc
  obtain ⟨hstep, hok, hbuf, hpos⟩ := hc
  exact ⟨hv, hat, hbuf, hpos, hok, hstep⟩

theorem decCall_complete {fs : List Frame} (hd : DecOk d) (hv : t.Valid)
    (hat : At d.buf d.pos t.enc) (hs : t.step (decFrames d) = .ok fs) :
    ∃ d', decCall t.call.reader d = .ok t.call d' ∧ Reads d t d' ∧ decFrames d' = fs := by
  have hc := finish_consumes hd hv hat
  cases hf : finish t d.pos (Dec.skip d t.enc.length) with
  | error err d' =>
    rw [hf] at hc
    exact absurd (hs.symm.trans hc) (by simp)
  | ok u d' =>
    have hr : decCall t.call.reader d = .ok t.call d' := by
      refine decCall_iff.mpr ⟨rfl, ?_⟩
      rw [Token.token_call hv]
      exact ⟨hv, hat, hf⟩
    have hrd := decCall_reads hd hr
    rw [Token.token_call hv] at hrd
    exact ⟨d', hr, hrd, by simpa using hrd.step.symm.trans hs⟩

end AntsClient.Cbor.DecoderSpec
