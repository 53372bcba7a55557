import AntsClient.Cbor.Unambiguous

namespace AntsClient.Cbor.Walk

open Common Head Codec Frames Tokens DecoderSpec Values Value Unambiguous List

variable {d d' : Dec} {t : Token} {ts : List Token} {α : Type} {body x : DecM Unit} {fuel : Nat}

structure ReadsAll (d : Dec) (ts : List Token) (d' : Dec) : Prop where
  at_pos : At d.buf d.pos (ts.flatMap Token.enc)
  buf : d'.buf = d.buf
  pos : d'.pos = d.pos + (ts.flatMap Token.enc).length
  ok : DecOk d'
  step : steps ts (decFrames d) = .ok (decFrames d')

theorem readsAll_nil (hd : DecOk d) : ReadsAll d [] d := ⟨at_nil.mpr hd.1, rfl, rfl, hd, rfl⟩

theorem readsAll_single (h : Reads d t d') : ReadsAll d [t] d' := by
  refine ⟨?_, h.buf, ?_, h.ok, ?_⟩
  · rw [flatMap_singleton]
    exact h.at_pos
  · rw [flatMap_singleton]
    exact h.pos
  · rw [steps_cons, h.step]
    rfl

variable {us : List Token} {n k' : Nat} {v : Value} {bs b : Bytes} {fs : List Frame}

theorem ReadsAll.append {d₁ d₂ : Dec} (h : ReadsAll d ts d₁) (h' : ReadsAll d₁ us d₂) :
    ReadsAll d (ts ++ us) d₂ := by
  have hat := h'.at_pos
  rw [h.buf, h.pos] at hat
  refine ⟨?_, h'.buf.trans h.buf, ?_, h'.ok, ?_⟩
  · rw [flatMap_append]
    exact at_append.mpr ⟨h.at_pos, hat⟩
  · rw [h'.pos, h.pos, flatMap_append, length_append, Nat.add_assoc]
  · rw [steps_append, h.step]
    exact h'.step

variable {f : α → Call} {g : α → List Token} {xs : List α} {k : Nat}

theorem readsAll_call {x : DecM α} {r : Reader} {a : α} (hd : DecOk d)
    (hx : decCall r = f <$> x) (h : x d = .ok a d') : (f a).token.Valid ∧ ReadsAll d [(f a).token] d' := by
  have hr : decCall r d = .ok (f a) d' := by
    rw [hx]
    exact map_eq_ok.mpr ⟨a, h, rfl⟩
  have hread := decCall_reads hd hr
  exact ⟨hread.valid, readsAll_single hread⟩

def Walked (d d' : Dec) : Prop := ∃ v, All InRange v ∧ ReadsAll d (tokens v) d'

theorem repeatWalk_sound {P : α → Prop}
    (hbody : ∀ {d d'}, DecOk d → body d = .ok () d' → ∃ x, P x ∧ ReadsAll d (g x) d')
    (hd : DecOk d) (h : repeatWalk body n d = .ok () d') :
    ∃ xs : List α, xs.length = n ∧ (∀ x ∈ xs, P x) ∧ ReadsAll d (xs.flatMap g) d' := by
  induction n generalizing d with
  | zero =>
    obtain rfl : d = d' := by simpa [repeatWalk, pure, EStateM.pure] using h
    exact ⟨[], rfl, by simp, readsAll_nil hd⟩
  | succ n ih =>
    obtain ⟨⟨⟩, d₁, h₁, h₂⟩ := bind_eq_ok.mp h
    obtain ⟨x, hx, hr⟩ := hbody hd h₁
    obtain ⟨xs, rfl, hxs, hrs⟩ := ih hr.ok h₂
    exact ⟨x :: xs, rfl, forall_mem_cons.mpr ⟨hx, hxs⟩, hr.append hrs⟩

theorem pair_sound (hbody : ∀ {d d'}, DecOk d → body d = .ok () d' → Walked d d')
    (hd : DecOk d) (h : (do body; body : DecM Unit) d = .ok () d') :
    ∃ kv : Value × Value, (All InRange kv.1 ∧ All InRange kv.2) ∧
    ReadsAll d (tokens kv.1 ++ tokens kv.2) d' := by
  obtain ⟨⟨⟩, d₁, h₁, h₂⟩ := bind_eq_ok.mp h
  obtain ⟨k, hk, hrk⟩ := hbody hd h₁
  obtain ⟨v, hv, hrv⟩ := hbody hrk.ok h₂
  exact ⟨(k, v), ⟨hk, hv⟩, hrk.append hrv⟩

theorem discard_eq_ok {x : DecM α} : discard x d = .ok () d' ↔ ∃ a, x d = .ok a d' := by
  have hx : discard x = (fun _ => ()) <$> x := rfl
  rw [hx, map_eq_ok]
  simp

theorem walkOneItem_walked (hd : DecOk d) (h : walkOneItem fuel d = .ok () d') : Walked d d' := by
  induction fuel generalizing d d' with
  | zero => cases h
  | succ fuel ih =>
    rw [walkOneItem, get_bind, guard_iff] at h
    obtain ⟨-, h⟩ := h
    split at h
    · cases h
    · obtain ⟨n, h⟩ := discard_eq_ok.mp h
      obtain ⟨hv, hr⟩ := readsAll_call hd (r := .uint) rfl h
      exact ⟨.uint n.toNat, hv, hr⟩
    · obtain ⟨n, h⟩ := discard_eq_ok.mp h
      obtain ⟨hv, hr⟩ := readsAll_call hd (r := .int) rfl h
      by_cases h0 : 0 ≤ n.toInt
      · rw [int_token_nonneg h0] at hv hr
        exact ⟨.uint _, hv, hr⟩
      · rw [int_token_neg (Int.not_le.mp h0)] at hv hr
        exact ⟨.nint _, hv, hr⟩
    · obtain ⟨b, h⟩ := discard_eq_ok.mp h
      obtain ⟨hv, hr⟩ := readsAll_call hd (r := .bytes) rfl h
      exact ⟨.bytes b, hv, hr⟩
    · obtain ⟨b, h⟩ := discard_eq_ok.mp h
      obtain ⟨hv, hr⟩ := readsAll_call hd (r := .text) rfl h
      exact ⟨.text b, hv, hr⟩
    · obtain ⟨n, d₁, h₁, h⟩ := bind_eq_ok.mp h
      obtain ⟨hv, hr⟩ := readsAll_call hd (r := .array) rfl h₁
      obtain ⟨vs, hl, hvs, hrs⟩ := repeatWalk_sound (fun hd h => ih hd h) hr.ok h
      refine ⟨.array vs, all_array.mpr ⟨?_, hvs⟩, ?_⟩
      · rw [InRange, hl]
        exact hv
      · rw [tokens_array, hl]
        exact hr.append hrs
    · obtain ⟨n, d₁, h₁, h⟩ := bind_eq_ok.mp h
      obtain ⟨hv, hr⟩ := readsAll_call hd (r := .map) rfl h₁
      obtain ⟨kvs, hl, hkvs, hrs⟩ := repeatWalk_sound (pair_sound fun hd h => ih hd h) hr.ok h
      refine ⟨.map kvs, all_map.mpr ⟨?_, hkvs⟩, ?_⟩
      · rw [InRange, hl]
        exact hv
      · rw [tokens_map, hl]
        exact hr.append hrs
    · obtain ⟨t, d₁, h₁, h⟩ := bind_eq_ok.mp h
      obtain ⟨hv, hr⟩ := readsAll_call hd (r := .tag) rfl h₁
      obtain ⟨v, hav, hrv⟩ := ih hr.ok h
      exact ⟨.tag t.toNat v, ⟨hv, hav⟩, hr.append hrv⟩
    · obtain ⟨b, h⟩ := discard_eq_ok.mp h
      obtain ⟨hv, hr⟩ := readsAll_call hd (r := .bool) rfl h
      exact ⟨.bool b, hv, hr⟩
    · obtain ⟨hv, hr⟩ := readsAll_call hd (r := .null) rfl h
      exact ⟨.null, hv, hr⟩

def itemType : Token → ItemType
  | .uint _ => .uint
  | .nint _ => .negint
  | .bytes _ => .bytes
  | .text _ => .text
  | .array _ => .array
  | .map _ => .map
  | .tag _ => .tag
  | .bool _ => .bool
  | .null => .null

theorem head_first {m : UInt8} {v : Nat} (hm : m < 8) (hv : v < 2 ^ 64) :
    ∃ b bs, head m v = b :: bs ∧ b >>> 5 = m := by
  by_cases h24 : v < 24
  · have hi : (UInt8.ofNat v).toNat < 32 := by
      rw [UInt8.toNat_ofNat']
      omega
    exact ⟨_, [], head_small h24, (initial_join hm (UInt8.lt_iff_toNat_lt.mpr hi)).1⟩
  · obtain ⟨info, width, min, hw, hlt, -, hmin, hval⟩ := exists_wide (Nat.not_lt.mp h24) hv
    exact ⟨_, _, head_wide hw hmin hval, (initial_join hm hlt).1⟩

theorem decPeekType_token (hv : t.Valid) (hat : At d.buf d.pos t.enc) : decPeekType d = .ok (itemType t) := by
  have hfirst : ∃ b, d.buf[d.pos]? = some b ∧ b >>> 5 = major t := by
    obtain ⟨b, bs, hb, hm⟩ := head_first (major_lt t) (argument_lt hv)
    rw [enc_eq, hb, cons_append, at_cons] at hat
    exact ⟨b, hat.1, hm⟩
  obtain ⟨b, hb, hm⟩ := hfirst
  cases t with
  | bool v =>
    simp only [decPeekType, at_singleton.mp hat]
    cases v <;> rfl
  | null =>
    simp only [decPeekType, at_singleton.mp hat]
    rfl
  | uint | nint | bytes | text | array | map | tag => simp [decPeekType, hb, hm, major, itemType]

theorem decEof_false (hne : bs ≠ []) (hat : At d.buf d.pos bs) : decEof d = false := by
  have := hat.1
  have := length_pos_iff.mpr hne
  simp only [decEof, decide_eq_false_iff_not]
  omega

theorem call_complete {x : DecM α} (hd : DecOk d) (hv : t.Valid) (hat : At d.buf d.pos t.enc)
    (hs : t.step (decFrames d) = .ok fs)
    (hx : decCall t.call.reader = f <$> x) :
    ∃ a d', x d = .ok a d' ∧ f a = t.call ∧ Reads d t d' ∧ decFrames d' = fs := by
  obtain ⟨d', hr, hread, hfs⟩ := decCall_complete hd hv hat hs
  rw [hx] at hr
  obtain ⟨a, hxa, hfa⟩ := map_eq_ok.mp hr
  exact ⟨a, d', hxa, hfa, hread, hfs⟩

/-- The action reads `ts` wherever they come next and the open containers take
them. -/
def Completes (body : DecM Unit) (ts : List Token) : Prop :=
  ∀ (d : Dec) (fs : List Frame), DecOk d → At d.buf d.pos (ts.flatMap Token.enc) →
    steps ts (decFrames d) = .ok fs →
    ∃ d', body d = .ok () d' ∧ ReadsAll d ts d'

theorem Completes.seq {y : DecM Unit} (hx : Completes x ts) (hy : Completes y us) :
    Completes (do x; y) (ts ++ us) := by
  intro d fs hd hat hs
  rw [flatMap_append, at_append] at hat
  obtain ⟨gs, hg, hs⟩ := except_bind_eq_ok.mp ((steps_append ..).symm.trans hs)
  obtain ⟨d₁, h₁, hr⟩ := hx d gs hd hat.1 hg
  have hd₁ : decFrames d₁ = gs := by simpa using hr.step.symm.trans hg
  have hat' := hat.2
  rw [← hr.buf, ← hr.pos] at hat'
  rw [← hd₁] at hs
  obtain ⟨d₂, h₂, hrs⟩ := hy d₁ fs hr.ok hat' hs
  exact ⟨d₂, (bind_ok h₁).trans h₂, hr.append hrs⟩

theorem repeatWalk_complete (hbody : ∀ x ∈ xs, Completes body (g x)) :
    Completes (repeatWalk body xs.length) (xs.flatMap g) := by
  induction xs with
  | nil =>
    intro d fs hd _ _
    exact ⟨d, rfl, readsAll_nil hd⟩
  | cons x xs ih =>
    obtain ⟨hx, hxs⟩ := forall_mem_cons.mp hbody
    exact hx.seq (ih hxs)

def branch (fuel : Nat) : ItemType → DecM Unit
  | .uint => discard decUint
  | .negint => discard decInt
  | .bytes => discard decBytes
  | .text => discard decText
  | .array => decArray >>= fun n => repeatWalk (walkOneItem fuel) n.toNat
  | .map => decMap >>= fun n => repeatWalk (do walkOneItem fuel; walkOneItem fuel) n.toNat
  | .tag => decTag >>= fun _ => walkOneItem fuel
  | .bool => discard decBool
  | .null => decNull

theorem walkOneItem_branch (hv : t.Valid) (hat : At d.buf d.pos t.enc) :
    walkOneItem (fuel + 1) d = branch fuel (itemType t) d := by
  rw [walkOneItem, get_bind]
  simp only [decEof_false t.enc_ne_nil hat, decPeekType_token hv hat]
  cases t <;> rfl

theorem completes_item {x : DecM α} {k : α → DecM Unit} {rest : DecM Unit} (hv : t.Valid)
    (hx : decCall t.call.reader = f <$> x)
    (hb : branch fuel (itemType t) = x >>= k) (hk : ∀ a, f a = t.call → k a = rest)
    (hrest : Completes rest ts) :
    Completes (walkOneItem (fuel + 1)) (t :: ts) := by
  intro d fs hd hat hs
  rw [flatMap_cons, at_append] at hat
  obtain ⟨gs, hg, hs⟩ := except_bind_eq_ok.mp ((steps_cons ..).symm.trans hs)
  obtain ⟨a, d₁, h₁, hfa, hread, rfl⟩ := call_complete hd hv hat.1 hg hx
  have hat' := hat.2
  rw [← hread.buf, ← hread.pos] at hat'
  obtain ⟨d₂, h₂, hrs⟩ := hrest d₁ fs hread.ok hat' hs
  refine ⟨d₂, ?_, (readsAll_single hread).append hrs⟩
  rw [walkOneItem_branch hv hat.1, hb, bind_ok h₁, hk a hfa]
  exact h₂

theorem completes_pure : Completes (pure ()) [] := fun d _ hd _ _ => ⟨d, rfl, readsAll_nil hd⟩

theorem completes_leaf {x : DecM α} (hv : t.Valid) (hx : decCall t.call.reader = f <$> x)
    (hb : branch fuel (itemType t) = discard x) :
    Completes (walkOneItem (fuel + 1)) [t] := by
  refine completes_item hv hx (k := fun _ => pure ()) (hb.trans ?_) (fun _ _ => rfl) completes_pure
  funext d
  simp only [discard, Functor.mapConst, Function.comp, EStateM.map, bind, EStateM.bind]
  cases x d <;> rfl

theorem length_le_flatMap {g : α → Bytes} {x : α} (h : x ∈ xs) : (g x).length ≤ (xs.flatMap g).length := by
  rw [length_flatMap]
  exact single_le_sum (fun _ _ => Nat.zero_le _) _ (mem_map_of_mem h)

theorem encode_length_pos (v : Value) : 0 < (encode v).length := by
  have h : (first v).enc.length ≤ (encode v).length := by
    cases v <;> simp [encode, tokens, first]
  exact (length_pos_iff.mpr (first v).enc_ne_nil).trans_le h

theorem walkOneItem_completes (hv : All InRange v) (hf : (encode v).length ≤ fuel) :
    Completes (walkOneItem fuel) (tokens v) := by
  induction v generalizing fuel
  all_goals
    obtain ⟨fuel, rfl⟩ := Nat.exists_eq_add_one.mpr ((encode_length_pos _).trans_le hf)
  case uint n => exact completes_leaf (t := .uint n) hv rfl rfl
  case nint n => exact completes_leaf (t := .nint n) hv rfl rfl
  case bytes b => exact completes_leaf (t := .bytes b) hv rfl rfl
  case text b => exact completes_leaf (t := .text b) hv rfl rfl
  case bool v => exact completes_leaf (t := .bool v) hv rfl rfl
  case null => exact completes_item (t := .null) trivial rfl (bind_pure _).symm (fun _ _ => rfl) completes_pure
  case array vs ih =>
    obtain ⟨hl, hvs⟩ := all_array.mp hv
    have hh := head_length_pos 4 vs.length
    rw [encode_array, length_append] at hf
    have hmem : ∀ v ∈ vs, Completes (walkOneItem fuel) (tokens v) := fun v hm =>
      ih v hm (hvs v hm) (by have := length_le_flatMap (g := encode) hm; omega)
    rw [tokens_array]
    refine completes_item (t := .array vs.length) hl rfl rfl (fun n hn => ?_) (repeatWalk_complete hmem)
    obtain rfl : n = UInt64.ofNat vs.length := by simpa [Token.call] using hn
    rw [ofNat_toNat hl]
  case map kvs ih =>
    obtain ⟨hl, hkvs⟩ := all_map.mp hv
    have hh := head_length_pos 5 kvs.length
    rw [encode_map, length_append] at hf
    have hmem : ∀ kv ∈ kvs, Completes (do walkOneItem fuel; walkOneItem fuel) (tokens kv.1 ++ tokens kv.2) := by
      intro kv hm
      have hle := length_le_flatMap (g := fun kv : Value × Value => encode kv.1 ++ encode kv.2) hm
      rw [length_append] at hle
      exact ((ih kv hm).1 (hkvs kv hm).1 (by omega)).seq ((ih kv hm).2 (hkvs kv hm).2 (by omega))
    rw [tokens_map]
    refine completes_item (t := .map kvs.length) hl rfl rfl (fun n hn => ?_) (repeatWalk_complete hmem)
    obtain rfl : n = UInt64.ofNat kvs.length := by simpa [Token.call] using hn
    rw [ofNat_toNat hl]
  case tag t v ih =>
    have hh := head_length_pos 6 t
    rw [encode_tag, length_append] at hf
    exact completes_item (t := .tag t) hv.1 rfl rfl (fun _ _ => rfl) (ih hv.2 (by omega))

theorem at_zero (h : At b 0 bs) (hl : b.length ≤ bs.length) : bs = b := by
  have hs := h.2
  rwa [Nat.zero_add, slice_zero, take_of_length_le hl, eq_comm] at hs

theorem at_self (b : Bytes) : At b 0 b := ⟨by omega, by rw [Nat.zero_add, slice_zero, take_length]⟩

theorem wellFormed_iff (hv : All InRange v) : WellFormed v ↔ steps (tokens v) [] = .ok [] := by
  rw [settles v hv [] [] (Nat.zero_le _)]
  exact ⟨fun h => ⟨h.keysAscend, h.depth, rfl⟩, fun h => ⟨hv, h.1, h.2.1⟩⟩

theorem isCanonical_encode : isCanonical b = .ok () ↔ ∃ v, WellFormed v ∧ encode v = b := by
  have hinit := decInit_ok b
  constructor
  · intro h
    rw [isCanonical] at h
    split at h
    · cases h
    split at h
    · cases h
    rename_i d hw
    obtain ⟨v, hv, hr⟩ := walkOneItem_walked hinit hw
    split at h
    · cases h
    rename_i heof
    split at h
    · cases h
    rename_i hstack
    have hpos : d.pos = (encode v).length := hr.pos.trans (Nat.zero_add _)
    have hend : b.length ≤ d.pos := by simpa [decEof, hr.buf, decInit] using heof
    have hst : decFrames d = [] := frames_eq_nil.mpr (not_not.mp hstack)
    have hstep := hr.step
    rw [hst] at hstep
    exact ⟨v, (wellFormed_iff hv).mpr hstep, at_zero hr.at_pos (hpos ▸ hend)⟩
  · rintro ⟨v, hv, rfl⟩
    have hstep := (wellFormed_iff hv.inRange).mp hv
    obtain ⟨d, hw, hr⟩ :=
      walkOneItem_completes hv.inRange (Nat.le_succ _) (decInit (encode v)) [] hinit (at_self _) hstep
    have hpos : d.pos = (encode v).length := hr.pos.trans (Nat.zero_add _)
    have hst : d.stack = [] := frames_eq_nil.mp (Except.ok.inj (hr.step.symm.trans hstep))
    have hne := (encode_length_pos v).ne'
    have hb : d.buf = encode v := hr.buf
    simp [isCanonical, hne, hw, decEof, hpos, hst, hb]

structure Cost where
  calls : Nat
  frames : Nat

def opened (d : Dec) : Option (Nat × Dec) :=
  match decPeekType d with
  | .ok .array => match decArray d with
    | .ok n d' => some (n.toNat, d')
    | .error .. => none
  | .ok .map => match decMap d with
    | .ok n d' => some (2 * n.toNat, d')
    | .error .. => none
  | .ok .tag => match decTag d with
    | .ok _ d' => some (1, d')
    | .error .. => none
  | _ => none

def repeatCost (walk : DecM Unit) (cost : Dec → Cost) : Nat → Dec → Cost
  | 0, _ => ⟨0, 0⟩
  | n + 1, d =>
    match walk d with
    | .ok _ d' => ⟨(cost d).calls + (repeatCost walk cost n d').calls,
      max (cost d).frames (repeatCost walk cost n d').frames⟩
    | .error .. => cost d

/-- The cost of `walkOneItem`, which opens one frame more than `fuel` if it runs out of it. -/
def walkCost : Nat → Dec → Cost
  | 0, _ => ⟨1, 1⟩
  | fuel + 1, d =>
    match opened d with
    | none => ⟨1, 1⟩
    | some (n, d') =>
      let inside := repeatCost (walkOneItem fuel) (walkCost fuel) n d'
      ⟨inside.calls + 1, inside.frames + 1⟩

def room (f : Frame) : Nat :=
  match f.kind with
  | .mapKey => 2 * f.remaining
  | .mapValue => 2 * f.remaining - 1
  | _ => f.remaining

theorem absorb_room {item : Bytes} {f : Frame} {gs : List Frame}
    (h : absorb item (f :: fs) = .ok gs) (hroom : 1 < room f) :
    ∃ f', gs = f' :: fs ∧ room f' + 1 = room f := by
  obtain ⟨kind, remaining, bytes, lastKey⟩ := f
  rw [absorb] at h
  split at h
  · cases h
  · rename_i hbad
    rw [not_or] at hbad
    cases kind with
    | none => simp at hbad
    | mapKey =>
      simp only [room] at hroom h ⊢
      split at h
      · cases h
        exact ⟨_, rfl, by simp only; omega⟩
      · cases h
    | mapValue =>
      simp only [room] at hroom h ⊢
      rw [if_neg (by omega)] at h
      cases h
      exact ⟨_, rfl, by simp only; omega⟩
    | array | tag =>
      simp only [room] at hroom h ⊢
      rw [if_neg (by omega)] at h
      cases h
      exact ⟨_, rfl, by simp only; omega⟩

theorem repeatWalk_pairs (body : DecM Unit) (n : Nat) :
    repeatWalk (do body; body) n = repeatWalk body (2 * n) := by
  induction n with
  | zero => rfl
  | succ n ih =>
    rw [repeatWalk, ih, bind_assoc]
    rfl

structure Opens (d : Dec) (n : Nat) (d' : Dec) : Prop where
  ok : DecOk d'
  buf : d'.buf = d.buf
  pos : d.pos < d'.pos
  frames : n = 0 ∨ (decFrames d).length < maxDepth ∧ ∃ f, decFrames d' = f :: decFrames d ∧ room f = n
  walk : ∀ fuel, walkOneItem (fuel + 1) d = repeatWalk (walkOneItem fuel) n d'

theorem opens_of_reads (hr : Reads d t d')
    (hstep : n = 0 ∨ ∃ kind m bs, t.step (decFrames d) = push kind m bs (decFrames d) ∧
      room ⟨kind, m, bs, none⟩ = n)
    (hwalk : ∀ fuel, walkOneItem (fuel + 1) d = repeatWalk (walkOneItem fuel) n d') : Opens d n d' := by
  have hlen := length_pos_iff.mpr t.enc_ne_nil
  refine ⟨hr.ok, hr.buf, by rw [hr.pos]; omega, hstep.imp_right ?_, hwalk⟩
  rintro ⟨kind, m, bs, hpush, hroom⟩
  have hs := hr.step
  rw [hpush, push] at hs
  split at hs
  · cases hs
  · rename_i hfull
    exact ⟨Nat.not_le.mp hfull, _, (Except.ok.inj hs).symm, hroom⟩

theorem opened_opens (hd : DecOk d) (h : opened d = some (n, d')) : Opens d n d' := by
  have heof {ty : ItemType} (hty : decPeekType d = .ok ty) : decEof d = false := by
    rw [decPeekType] at hty
    split at hty
    · cases hty
    · rename_i b hb
      simpa [decEof] using (List.getElem?_eq_some_iff.mp hb).1
  have hread {α : Type} {x : DecM α} {f : α → Call} {r : Reader} {a : α} (hx : decCall r = f <$> x)
    (h : x d = .ok a d') :
      Reads d (f a).token d' := decCall_reads hd (hx ▸ map_eq_ok.mpr ⟨a, h, rfl⟩)
  rw [opened] at h
  split at h
  · rename_i hty
    split at h
    · rename_i k d₁ hopen
      obtain ⟨rfl, rfl⟩ := Prod.mk.inj (Option.some.inj h)
      refine opens_of_reads (hread (r := .array) rfl hopen) ?_ fun fuel => ?_
      · by_cases hk : k.toNat = 0
        · exact .inl hk
        · exact .inr ⟨_, _, _, if_neg hk, rfl⟩
      · rw [walkOneItem, get_bind, heof hty, hty]
        exact bind_ok hopen
    · cases h
  · rename_i hty
    split at h
    · rename_i k d₁ hopen
      obtain ⟨rfl, rfl⟩ := Prod.mk.inj (Option.some.inj h)
      refine opens_of_reads (hread (r := .map) rfl hopen) ?_ fun fuel => ?_
      · by_cases hk : k.toNat = 0
        · exact .inl (by rw [hk])
        · exact .inr ⟨_, _, _, if_neg hk, rfl⟩
      · rw [walkOneItem, get_bind, heof hty, hty, ← repeatWalk_pairs]
        exact bind_ok hopen
    · cases h
  · rename_i hty
    split at h
    · rename_i t d₁ hopen
      obtain ⟨rfl, rfl⟩ := Prod.mk.inj (Option.some.inj h)
      have hr := hread (r := .tag) rfl hopen
      refine opens_of_reads hr (.inr ⟨_, _, _, if_pos hr.valid, rfl⟩) fun fuel => ?_
      rw [walkOneItem, get_bind, heof hty, hty]
      refine (bind_ok hopen).trans ?_
      rw [repeatWalk, repeatWalk, bind_pure_unit]
    · cases h
  · cases h

theorem repeatWalk_congr (hd : DecOk d)
    (h : ∀ e, DecOk e → e.buf.length - e.pos ≤ d.buf.length - d.pos → walkOneItem k e = walkOneItem k' e) :
    repeatWalk (walkOneItem k) n d = repeatWalk (walkOneItem k') n d := by
  induction n generalizing d with
  | zero => rfl
  | succ n ih =>
    have hfirst := h d hd le_rfl
    rw [repeatWalk, repeatWalk]
    cases hwalk : walkOneItem k d with
    | error e d' => rw [bind_error hwalk, bind_error (hfirst ▸ hwalk)]
    | ok u d' =>
      obtain ⟨v, -, hr⟩ := walkOneItem_walked hd hwalk
      rw [bind_ok hwalk, bind_ok (hfirst ▸ hwalk)]
      refine ih hr.ok fun e he hroom => h e he (hroom.trans ?_)
      rw [hr.buf, hr.pos]
      omega

theorem walkOneItem_leaf (h : opened d = none) : walkOneItem (k + 1) d = walkOneItem (k' + 1) d := by
  have hfail {α : Type} {x : DecM α} {f g : α → DecM Unit} (hx : ∀ a d', x d ≠ .ok a d') :
      (x >>= f) d = (x >>= g) d := by
    cases hd : x d with
    | error e d' => rw [bind_error hd, bind_error hd]
    | ok a d' => exact absurd hd (hx a d')
  rw [walkOneItem, walkOneItem, get_bind, get_bind]
  split
  · rfl
  cases hty : decPeekType d with
  | error err => rfl
  | ok ty =>
    rw [opened, hty] at h
    cases ty with
    | array | map | tag => exact hfail fun a d' hx => by simp [hx] at h
    | uint | negint | bytes | text | bool | null => rfl

theorem walkOneItem_fuel (hd : DecOk d) (hk : d.buf.length - d.pos < k)
    (hk' : d.buf.length - d.pos < k') : walkOneItem k d = walkOneItem k' d := by
  induction k generalizing d k' with
  | zero => omega
  | succ k ih =>
    obtain ⟨k', rfl⟩ := Nat.exists_eq_add_one.mpr ((Nat.zero_le _).trans_lt hk')
    cases hopened : opened d with
    | none => exact walkOneItem_leaf hopened
    | some p =>
      obtain ⟨hok, hbuf, hpos, -, hwalk⟩ := opened_opens hd hopened
      have hend := hok.1
      rw [hwalk, hwalk]
      rw [hbuf] at hend
      refine repeatWalk_congr hok fun e he hroom => ?_
      rw [hbuf] at hroom
      exact ih he (by omega) (by omega)

/-- The cost of a walk from `d` with `depth` containers open: no call but one that fails goes
without a byte. -/
structure Bounded (depth : Nat) (d : Dec) (c : Cost) (walk : DecM Unit) : Prop where
  frames : c.frames + depth ≤ maxDepth + 1
  calls : c.calls + d.pos ≤ d.buf.length + 1
  success : ∀ d', walk d = .ok () d' → c.calls + d.pos ≤ d'.pos

theorem repeatCost_bounded {cost : Dec → Cost} {depth : Nat}
    (hcost : ∀ d, DecOk d → (decFrames d).length ≤ maxDepth →
      Bounded (decFrames d).length d (cost d) (walkOneItem fuel))
    (hd : DecOk d) (hdepth : depth ≤ maxDepth + 1)
    (hroom : n = 0 ∨ depth ≤ maxDepth ∧ ∃ f fs, decFrames d = f :: fs ∧ room f = n ∧ fs.length + 1 = depth) :
    Bounded depth d (repeatCost (walkOneItem fuel) cost n d) (repeatWalk (walkOneItem fuel) n) := by
  induction n generalizing d with
  | zero =>
    refine ⟨(Nat.zero_add _).trans_le hdepth, (Nat.zero_add _).trans_le (Nat.le_succ_of_le hd.1),
      fun d' h => ?_⟩
    cases h
    exact (Nat.zero_add _).le
  | succ n ih =>
    obtain ⟨hlow, f, fs, hf, hroom, rfl⟩ := hroom.resolve_left (Nat.succ_ne_zero n)
    have hlen : (decFrames d).length = fs.length + 1 := by rw [hf, length_cons]
    have hfirst := hcost d hd (hlen.trans_le hlow)
    rw [hlen] at hfirst
    rw [repeatCost]
    cases hwalk : walkOneItem fuel d with
    | error e d' =>
      refine ⟨hfirst.frames, hfirst.calls, fun d'' h => ?_⟩
      rw [repeatWalk, bind_error hwalk] at h
      cases h
    | ok u d' =>
      obtain ⟨v, hv, hr⟩ := walkOneItem_walked hd hwalk
      have hnext : n = 0 ∨ fs.length + 1 ≤ maxDepth ∧ ∃ f' fs', decFrames d' = f' :: fs' ∧ room f' = n ∧
          fs'.length + 1 = fs.length + 1 := by
        refine n.eq_zero_or_pos.imp_right fun hn => ⟨hlow, ?_⟩
        have habsorb := ((settles v hv _ _ (hlen.trans_le hlow)).mp hr.step).2.2
        rw [hf] at habsorb
        obtain ⟨f', hf', hroom'⟩ := absorb_room habsorb (by omega)
        exact ⟨f', fs, hf', by omega, rfl⟩
      obtain ⟨hframes, hcalls, hsuccess⟩ := ih hr.ok hnext
      have hbytes := hfirst.success d' hwalk
      rw [hr.buf] at hcalls
      refine ⟨?_, ?_, fun d'' h => ?_⟩
      · have hframes' := hfirst.frames
        dsimp only
        omega
      · dsimp only
        omega
      · rw [repeatWalk, bind_ok hwalk] at h
        have hrest := hsuccess d'' h
        dsimp only
        omega

theorem walkCost_bounded (fuel : Nat) (hd : DecOk d) (hdepth : (decFrames d).length ≤ maxDepth) :
    Bounded (decFrames d).length d (walkCost fuel d) (walkOneItem fuel) := by
  have hleaf : ∀ {d : Dec} {fuel : Nat}, DecOk d → (decFrames d).length ≤ maxDepth →
      Bounded (decFrames d).length d ⟨1, 1⟩ (walkOneItem fuel) := by
    intro d fuel hd hdepth
    refine ⟨(Nat.add_comm _ _).trans_le (Nat.succ_le_succ hdepth),
      (Nat.add_comm _ _).trans_le (Nat.succ_le_succ hd.1), ?_⟩
    intro d' h
    obtain ⟨v, -, hr⟩ := walkOneItem_walked hd h
    have hlen : 0 < ((tokens v).flatMap Token.enc).length := encode_length_pos v
    rw [hr.pos]
    dsimp only
    omega
  induction fuel generalizing d with
  | zero => exact hleaf hd hdepth
  | succ fuel ih =>
    rw [walkCost]
    split
    · exact hleaf hd hdepth
    · rename_i n d₁ hopened
      obtain ⟨hok, hbuf, hpos, hframes, hwalk⟩ := opened_opens hd hopened
      obtain ⟨hframes, hcalls, hsuccess⟩ :=
        repeatCost_bounded (fun d hd h => ih hd h) hok (Nat.succ_le_succ hdepth)
        (hframes.imp_right fun ⟨hlt, f, hf, hroom⟩ => ⟨hlt, f, _, hf, hroom, rfl⟩)
      rw [hbuf] at hcalls
      refine ⟨?_, ?_, fun d' h => ?_⟩
      · dsimp only
        omega
      · dsimp only
        omega
      · rw [hwalk] at h
        have hrest := hsuccess d' h
        dsimp only
        omega

/-- Whatever counts the headers declare, the walk makes at most one call for each byte and one more,
with at most 17 open; so its bound on recursion changes nothing. -/
theorem isCanonical_linear (b : Bytes) (fuel : Nat) :
    (walkCost fuel (decInit b)).calls ≤ b.length + 1 ∧ (walkCost fuel (decInit b)).frames ≤ 17 ∧
    (b.length < fuel → walkOneItem fuel (decInit b) = walkOneItem (b.length + 1) (decInit b)) := by
  have hbounded := walkCost_bounded fuel (decInit_ok b) (Nat.zero_le _)
  exact ⟨hbounded.calls, hbounded.frames, fun h => walkOneItem_fuel (decInit_ok b) h (Nat.lt_succ_self _)⟩

end AntsClient.Cbor.Walk
