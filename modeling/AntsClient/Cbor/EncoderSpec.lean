import AntsClient.Cbor.Tokens

namespace AntsClient.Cbor.EncoderSpec

open Common Head Codec Frames Tokens
open List hiding head

variable {buf bs b : Bytes} {e e' : Enc} {next : Except Error (List Frame)} {major : UInt8}
  {value : Nat} {cs : List Call}

def EncOk (e : Enc) : Prop := e.pos ≤ e.buf.length ∧ Positioned e.pos e.stack

def written (e : Enc) : Bytes := e.buf.take e.pos

def encFrames (e : Enc) : List Frame := frames e.buf e.pos e.stack

structure Keeps (e e' : Enc) : Prop where
  pos : e'.pos = e.pos
  stack : e'.stack = e.stack
  length : e'.buf.length = e.buf.length
  take : e'.buf.take e.pos = e.buf.take e.pos

/-- An encode call adds the bytes `bs` and moves the frames to `next`, or fails and leaves the
state; the error says if only the room is missing. -/
def Adds (e : Enc) (bs : Bytes) (next : Except Error (List Frame)) : EStateM.Result Error Enc Unit → Prop
  | .ok _ e' => next = .ok (encFrames e') ∧ EncOk e' ∧ e'.buf.length = e.buf.length ∧
    written e' = written e ++ bs
  | .error err e' => Keeps e e' ∧ (e.pos + bs.length ≤ e.buf.length → next = .error err) ∧
      ∀ fs, next = .ok fs → err = .bufferTooSmall

def Finishes (e : Enc) (bs : Bytes) (next : Except Error (List Frame)) (act : EncM Unit) : Prop :=
  (∃ e', act (e.put bs) = .ok () e' ∧ next = .ok (encFrames e') ∧ EncOk e' ∧ e'.buf.length = e.buf.length ∧
    written e' = written e ++ bs) ∨
  (∃ err, act (e.put bs) = .error err (e.put bs) ∧ next = .error err)

theorem encInit_iff : encInit buf = .ok e ↔ buf ≠ [] ∧ e = ⟨buf, 0, []⟩ := by
  rw [encInit]
  by_cases h : buf = [] <;> simp [h, eq_comm]

theorem start_ok (buf : Bytes) : EncOk ⟨buf, 0, []⟩ := ⟨Nat.zero_le _, trivial⟩

theorem encFinalise_iff : encFinalise e = .ok () ↔ encFrames e = [] ∧ e.pos ≠ 0 := by
  rw [encFrames, frames_eq_nil, encFinalise]
  by_cases hs : e.stack = [] <;> by_cases hp : e.pos = 0 <;> simp [hs, hp]

section Room

variable (h : e.pos + bs.length ≤ e.buf.length)

include h

theorem put_take : (e.put bs).buf.take e.pos = e.buf.take e.pos := by
  have hl : (e.buf.take e.pos).length = e.pos := by simp; omega
  simp only [Enc.put, append_assoc]
  rw [take_append_of_le_length (by omega), take_take, Nat.min_self]

theorem put_written : written (e.put bs) = written e ++ bs := by
  have hl : (e.buf.take e.pos).length = e.pos := by simp; omega
  simp only [written, Enc.put]
  rw [take_append_of_le_length (by simp; omega), take_of_length_le (by simp)]

theorem put_length : (e.put bs).buf.length = e.buf.length := by
  simp only [Enc.put, length_append, length_take, length_drop]
  omega

theorem put_slice : slice (e.put bs).buf e.pos (e.pos + bs.length) = bs := by
  have hl : (e.buf.take e.pos).length = e.pos := by simp; omega
  simp only [slice, Enc.put, append_assoc, Nat.add_sub_cancel_left]
  rw [drop_append_of_le_length (by omega), drop_of_length_le (by omega), nil_append,
    take_append_of_le_length (by omega), take_length]

theorem put_frames (he : EncOk e) : frames (e.put bs).buf e.pos e.stack = encFrames e :=
  frames_congr (put_take h) he.2 le_rfl

theorem keeps_put : Keeps e { e.put bs with pos := e.pos } :=
  ⟨rfl, rfl, put_length h, put_take h⟩

theorem finishes_track (he : EncOk e) (hbs : bs ≠ []) :
    Finishes e bs (absorb bs (encFrames e)) (encTrackItem e.pos) := by
  have hlt : e.pos < e.pos + bs.length := Nat.lt_add_of_pos_right (length_pos_iff.mpr hbs)
  have hf : _ = absorb (slice (e.put bs).buf e.pos _) _ := trackItem_frames he.2 hlt
  rw [put_slice h, put_frames h he] at hf
  simp only [Finishes, encTrackItem]
  cases ht : trackItem (e.put bs).buf (e.pos + bs.length) e.stack e.pos with
  | error err =>
    rw [ht] at hf
    exact .inr ⟨err, by simp only [Enc.put] at ht ⊢; rw [ht], hf.symm⟩
  | ok stack =>
    rw [ht] at hf
    refine .inl ⟨⟨(e.put bs).buf, e.pos + bs.length, stack⟩, ?_, hf.symm, ?_, put_length h, ?_⟩
    · simp only [Enc.put] at ht ⊢
      rw [ht]
    · exact ⟨(put_length h).symm ▸ h, trackItem_positioned he.2 hlt ht⟩
    · exact put_written h

theorem finishes_open (kind : CtxKind) (n : Nat) (he : EncOk e) :
    Finishes e bs (push kind n bs (encFrames e)) (encOpen kind n e.pos) := by
  have hl : (encFrames e).length = e.stack.length := frames_length ..
  by_cases hd : e.stack.length ≥ maxDepth
  · exact .inr ⟨.overflow, by simp [encOpen, Enc.put, hd], by simp [push, hl, hd]⟩
  · refine .inl ⟨{ e.put bs with stack := ⟨kind, n, e.pos, 0, 0⟩ :: e.stack }, ?_, ?_, ?_,
      put_length h, put_written h⟩
    · simp [encOpen, Enc.put, hd]
    · have hs := put_slice h
      have hr := put_frames h he
      simp only [encFrames] at hl
      simp only [push, encFrames, hl, hd, if_false, frames, frame]
      simp only [Enc.put, encFrames] at hs hr ⊢
      rw [hs, hr]
      simp
    · exact ⟨(put_length h).symm ▸ h, Nat.le_add_right .., Nat.zero_le _, he.2⟩

end Room

theorem put_put (e : Enc) (as bs : Bytes) (h : e.pos + as.length + bs.length ≤ e.buf.length) :
    (e.put as).put bs = e.put (as ++ bs) := by
  have hl : (e.buf.take e.pos).length = e.pos := by simp; omega
  have hw : written (e.put as) = _ := put_written (by omega)
  have hd : (e.put as).buf.drop (e.pos + as.length + bs.length) =
      e.buf.drop (e.pos + as.length + bs.length) := by
    simp only [Enc.put]
    rw [drop_append, drop_of_length_le (by simp; omega), nil_append, drop_drop]
    congr 1
    simp only [length_append, hl]
    omega
  simp only [written] at hw
  conv_lhs => rw [Enc.put]
  rw [hw]
  simp only [Enc.put] at hd ⊢
  rw [hd]
  simp [Nat.add_assoc]

variable {body : Nat → EncM Unit} {ts : List Token} {fs : List Frame}

theorem encItem_room {act : EncM Unit} (h : e.pos + bs.length ≤ e.buf.length)
    (hb : body e.pos e = act (e.put bs))
    (hf : Finishes e bs next act) : Adds e bs next (encItem body e) := by
  rw [encItem, hb]
  obtain ⟨e', ha, hrest⟩ | ⟨err, ha, hn⟩ := hf
  · rw [ha]
    exact hrest
  · rw [ha]
    exact ⟨keeps_put h, fun _ => hn, fun fs hfs => absurd (hn.symm.trans hfs) (by simp)⟩

theorem encItem_full (h : e.buf.length < e.pos + bs.length) (hb : body e.pos e = .error .bufferTooSmall e')
    (hk : Keeps e { e' with pos := e.pos }) : Adds e bs next (encItem body e) := by
  rw [encItem, hb]
  exact ⟨hk, fun hroom => absurd hroom (Nat.not_le.mpr h), fun _ _ => rfl⟩

theorem keeps_self (e : Enc) : Keeps e { e with pos := e.pos } := ⟨rfl, rfl, rfl, rfl⟩

theorem cborWriteHead_ok (h : e.pos + (head major value).length ≤ e.buf.length) :
    cborWriteHead major value e = .ok () (e.put (head major value)) := by
  simp [cborWriteHead, Nat.not_lt.mpr h]

theorem cborWriteHead_error (h : e.buf.length < e.pos + (head major value).length) :
    cborWriteHead major value e = .error .bufferTooSmall e := by
  simp [cborWriteHead, h]

theorem encPayload_ok (h : e.pos + b.length ≤ e.buf.length) : encPayload b e = .ok () (e.put b) := by
  simp only [encPayload, if_neg (show ¬ b.length > e.buf.length - e.pos by omega)]

theorem encPayload_error (he : e.pos ≤ e.buf.length) (h : e.buf.length < e.pos + b.length) :
    encPayload b e = .error .bufferTooSmall e := by
  simp only [encPayload, if_pos (show b.length > e.buf.length - e.pos by omega)]

theorem encItem_head {act : Nat → EncM Unit} (hf : e.pos + (head major value).length ≤ e.buf.length →
      Finishes e (head major value) next (act e.pos)) :
    Adds e (head major value) next
      (encItem (fun itemBegin => do cborWriteHead major value; act itemBegin) e) := by
  by_cases h : e.pos + (head major value).length ≤ e.buf.length
  · exact encItem_room h (bind_ok (cborWriteHead_ok h)) (hf h)
  · exact encItem_full (Nat.not_le.mp h) (bind_error (cborWriteHead_error (Nat.not_le.mp h))) (keeps_self e)

theorem encString_adds (he : EncOk e) (major : UInt8) (b : Bytes) :
    Adds e (head major b.length ++ b) (absorb (head major b.length ++ b) (encFrames e))
      (encString major b e) := by
  have hne : head major b.length ++ b ≠ [] := append_ne_nil_of_left_ne_nil
    (length_pos_iff.mp (head_length_pos _ _)) _
  by_cases h : e.pos + (head major b.length).length ≤ e.buf.length
  · have hw := cborWriteHead_ok h
    have hl := put_length h
    by_cases h' : e.pos + (head major b.length).length + b.length ≤ e.buf.length
    · have hr : e.pos + (head major b.length ++ b).length ≤ e.buf.length := by
        rw [length_append]
        omega
      refine encItem_room hr ?_ (finishes_track hr he hne)
      rw [bind_ok hw, bind_ok (encPayload_ok (hl.symm ▸ h')), put_put e _ _ h']
    · have hp : encPayload b (e.put (head major b.length)) =
          .error .bufferTooSmall (e.put (head major b.length)) :=
        encPayload_error (hl.symm ▸ h) (hl.symm ▸ Nat.not_le.mp h')
      exact encItem_full (by rw [length_append]; omega) ((bind_ok hw).trans (bind_error hp)) (keeps_put h)
  · refine encItem_full (by rw [length_append]; omega)
      (bind_error (cborWriteHead_error (Nat.not_le.mp h))) (keeps_self e)

theorem encContainer_adds (he : EncOk e) (major : UInt8) (kind : CtxKind) (n : UInt64) :
    Adds e (head major n.toNat)
      (if n.toNat = 0 then absorb (head major 0) (encFrames e)
        else push kind n.toNat (head major n.toNat) (encFrames e))
      (encContainer major kind n e) := by
  refine encItem_head fun h => ?_
  by_cases hn : n = 0
  · subst hn
    exact finishes_track h he (length_pos_iff.mp (head_length_pos _ _))
  · have hn' : n.toNat ≠ 0 := fun h0 => hn (UInt64.toNat_inj.mp h0)
    simp only [hn, hn', if_false]
    exact finishes_open h kind n.toNat he

theorem encSimple_adds (he : EncOk e) (b : UInt8) : Adds e [b] (absorb [b] (encFrames e)) (encSimple b e) := by
  by_cases h : e.pos + [b].length ≤ e.buf.length
  · exact encItem_room h (bind_ok (encPayload_ok h)) (finishes_track h he (cons_ne_nil _ _))
  · exact encItem_full (Nat.not_le.mp h) (bind_error (encPayload_error he.1 (Nat.not_le.mp h))) (keeps_self e)

theorem encTag_adds (he : EncOk e) (t : UInt64) :
    Adds e (head 6 t.toNat) ((Token.tag t.toNat).step (encFrames e)) (encTag t e) := by
  have hl : (encFrames e).length = e.stack.length := frames_length ..
  by_cases ht : reservedTag t
  · simp only [Token.step, if_pos ((reservedTag_iff t).mp ht)]
    by_cases hd : e.stack.length ≥ maxDepth
    · have hb : encTag t e = .error .overflow e := by
        simp [encTag, encItem, ht, hd, get_bind_apply, throw_bind_apply]
      rw [hb]
      exact ⟨keeps_self e, fun _ => by simp [push, hl, hd], fun fs hfs => by simp [push, hl, hd] at hfs⟩
    · have hb : encTag t e = encItem
          (fun itemBegin => do cborWriteHead 6 t.toNat; encOpen .tag 1 itemBegin) e := by
        simp [encTag, encItem, ht, hd, get_bind_apply]
      rw [hb]
      exact encItem_head fun h => finishes_open h .tag 1 he
  · have hb : encTag t e = .error .unsupportedType e := by
      simp [encTag, encItem, ht, throw_bind_apply]
    have hstep : (Token.tag t.toNat).step (encFrames e) = .error .unsupportedType := by
      simp only [Token.step, if_neg (mt (reservedTag_iff t).mpr ht)]
    rw [hb]
    exact ⟨keeps_self e, fun _ => hstep, fun fs hfs => absurd (hstep.symm.trans hfs) (by simp)⟩

/-- Every encode call adds the bytes of its token and takes the frames through
the token's step, or changes nothing that matters. -/
theorem encCall_adds (he : EncOk e) (c : Call) :
    Adds e c.token.enc (c.token.step (encFrames e)) (encCall c e) := by
  have hne (m : UInt8) (v : Nat) : head m v ≠ [] := length_pos_iff.mp (head_length_pos m v)
  cases c with
  | uint v => exact encItem_head fun h => finishes_track h he (hne _ _)
  | int v =>
    simp only [Call.token, encCall, encInt]
    by_cases hv : v ≥ 0
    · simp only [hv, if_true]
      exact encItem_head fun h => finishes_track h he (hne _ _)
    · simp only [hv, if_false]
      exact encItem_head fun h => finishes_track h he (hne _ _)
  | bytes b => exact encString_adds he 2 b
  | text b => exact encString_adds he 3 b
  | array n => exact encContainer_adds he 4 .array n
  | map n => exact encContainer_adds he 5 .mapKey n
  | tag t => exact encTag_adds he t
  | bool v => exact encSimple_adds he _
  | null => exact encSimple_adds he _

def encCalls : List Call → EncM Unit
  | [] => pure ()
  | c :: cs => do
    encCall c
    encCalls cs

/-- The encoder went from `e` to `e'` over exactly the tokens `ts`. -/
structure AddsAll (e : Enc) (ts : List Token) (e' : Enc) : Prop where
  ok : EncOk e'
  length : e'.buf.length = e.buf.length
  written : written e' = written e ++ ts.flatMap Token.enc
  step : steps ts (encFrames e) = .ok (encFrames e')

theorem addsAll_nil (he : EncOk e) : AddsAll e [] e := ⟨he, rfl, (append_nil _).symm, rfl⟩

theorem Adds.cons {e₁ e₂ : Enc} {t : Token} {u : Unit}
    (h : Adds e t.enc (t.step (encFrames e)) (.ok u e₁)) (h' : AddsAll e₁ ts e₂) : AddsAll e (t :: ts) e₂ := by
  obtain ⟨hstep, -, hlen, hw⟩ := h
  refine ⟨h'.ok, h'.length.trans hlen, ?_, ?_⟩
  · rw [h'.written, hw, flatMap_cons, append_assoc]
  · rw [steps_cons, hstep]
    exact h'.step

theorem Keeps.encOk (h : Keeps e e') (he : EncOk e) : EncOk e' := by
  refine ⟨?_, ?_⟩
  · rw [h.pos, h.length]
    exact he.1
  · rw [h.pos, h.stack]
    exact he.2

theorem Keeps.frames (h : Keeps e e') (he : EncOk e) : encFrames e' = encFrames e := by
  rw [encFrames, h.pos, h.stack]
  exact frames_congr h.take he.2 le_rfl

theorem Keeps.addsAll {e₁ e₂ : Enc} (h : Keeps e e₁) (he : EncOk e) (ha : AddsAll e₁ ts e₂) :
    AddsAll e ts e₂ := by
  have hw : EncoderSpec.written e₁ = EncoderSpec.written e := by
    rw [EncoderSpec.written, h.pos, h.take, EncoderSpec.written]
  exact ⟨ha.ok, ha.length.trans h.length, hw ▸ ha.written, h.frames he ▸ ha.step⟩

theorem encCalls_adds (he : EncOk e) (h : encCalls cs e = .ok () e') : AddsAll e (cs.map Call.token) e' := by
  induction cs generalizing e with
  | nil =>
    obtain rfl : e = e' := by simpa [encCalls, pure, EStateM.pure] using h
    exact addsAll_nil he
  | cons c cs ih =>
    obtain ⟨u, e₁, h₁, h₂⟩ := bind_eq_ok.mp h
    have ha := encCall_adds he c
    rw [h₁] at ha
    exact ha.cons (ih ha.2.1 h₂)

theorem pos_eq (he : EncOk e) : e.pos = (written e).length := by
  rw [written, length_take, Nat.min_eq_left he.1]

theorem encCalls_ok (he : EncOk e)
    (hroom : e.pos + ((cs.map Call.token).flatMap Token.enc).length ≤ e.buf.length)
    (hs : steps (cs.map Call.token) (encFrames e) = .ok fs) : ∃ e', encCalls cs e = .ok () e' := by
  induction cs generalizing e with
  | nil => exact ⟨e, rfl⟩
  | cons c cs ih =>
    have ha := encCall_adds he c
    rw [map_cons, flatMap_cons, length_append] at hroom
    obtain ⟨gs, hg, hs⟩ := except_bind_eq_ok.mp ((steps_cons ..).symm.trans hs)
    cases hc : encCall c e with
    | error err e₁ =>
      rw [hc] at ha
      exact absurd ((ha.2.1 (by omega)).symm.trans hg) (by simp)
    | ok u e₁ =>
      rw [hc] at ha
      obtain ⟨hstep, hok, hlen, hw⟩ := ha
      have hpos : e₁.pos = e.pos + c.token.enc.length := by
        rw [pos_eq hok, hw, length_append, ← pos_eq he]
      have hgs : gs = encFrames e₁ := by simpa using hg.symm.trans hstep
      obtain ⟨e', he'⟩ := ih hok (by omega) (hgs ▸ hs)
      exact ⟨e', (bind_ok hc).trans he'⟩

theorem encCalls_error {err : Error} (he : EncOk e)
    (hs : steps (cs.map Call.token) (encFrames e) = .ok fs) (h : encCalls cs e = .error err e') :
    err = .bufferTooSmall := by
  induction cs generalizing e with
  | nil => cases h
  | cons c cs ih =>
    have ha := encCall_adds he c
    obtain ⟨gs, hg, hs⟩ := except_bind_eq_ok.mp ((steps_cons ..).symm.trans hs)
    cases hc : encCall c e with
    | error err₁ e₁ =>
      rw [hc] at ha
      rw [encCalls, bind_error hc] at h
      cases h
      exact ha.2.2 gs hg
    | ok u e₁ =>
      rw [hc] at ha
      obtain ⟨hstep, hok, -, -⟩ := ha
      rw [encCalls, bind_ok hc] at h
      exact ih hok (Except.ok.inj (hg.symm.trans hstep) ▸ hs) h

/-- Calls that make whole items, and nothing else, come out as the bytes of their tokens in any
buffer large enough. -/
theorem encodeBuf_iff : encodeBuf (encCalls cs) buf = .ok b ↔
      steps (cs.map Call.token) [] = .ok [] ∧ (cs.map Call.token).flatMap Token.enc = b ∧ b ≠ [] ∧
      b.length ≤ buf.length := by
  by_cases hbuf : buf = []
  · subst hbuf
    constructor
    · intro h
      cases h
    · rintro ⟨-, -, hne, hl⟩
      exact absurd (length_eq_zero_iff.mp (Nat.le_zero.mp hl)) hne
  have hinit := encInit_iff.mpr ⟨hbuf, rfl⟩
  -- a run of the calls that succeeds has written the tokens
  have hrun {e : Enc} (h : encCalls cs ⟨buf, 0, []⟩ = .ok () e) : encodeBuf (encCalls cs) buf = .ok b ↔
        steps (cs.map Call.token) [] = .ok [] ∧ (cs.map Call.token).flatMap Token.enc = b ∧ b ≠ [] ∧
          b.length ≤ buf.length := by
    have ha := encCalls_adds (start_ok buf) h
    have hw : written e = (cs.map Call.token).flatMap Token.enc := ha.written
    have hstep : steps (cs.map Call.token) [] = .ok (encFrames e) := ha.step
    have hlen : (written e).length ≤ buf.length := by
      rw [← pos_eq ha.ok, ← ha.length]
      exact ha.ok.1
    have hne : e.pos ≠ 0 ↔ written e ≠ [] := by rw [pos_eq ha.ok, Ne, length_eq_zero_iff]
    simp only [encodeBuf, hinit, h]
    rw [hstep, ← hw, Except.ok.injEq]
    constructor
    · intro hr
      cases hf : encFinalise e with
      | error err => simp [hf, Except.map] at hr
      | ok u =>
        obtain ⟨hframes, hpos⟩ := encFinalise_iff.mp hf
        obtain rfl : written e = b := by simpa [hf, Except.map, written, encSize] using hr
        exact ⟨hframes, rfl, hne.mp hpos, hlen⟩
    · rintro ⟨hframes, rfl, hwne, -⟩
      rw [encFinalise_iff.mpr ⟨hframes, hne.mpr hwne⟩]
      rfl
  constructor
  · intro h
    cases hc : encCalls cs ⟨buf, 0, []⟩ with
    | error err e => simp [encodeBuf, hinit, hc] at h
    | ok u e => exact (hrun hc).mp h
  · intro h
    obtain ⟨e, he⟩ := encCalls_ok (start_ok buf) (by rw [Nat.zero_add, h.2.1]; exact h.2.2.2) h.1
    exact (hrun he).mpr h

theorem encodeBuf_full (hs : steps (cs.map Call.token) [] = .ok []) (hbuf : buf ≠ [])
    (hfull : buf.length < ((cs.map Call.token).flatMap Token.enc).length) :
    encodeBuf (encCalls cs) buf = .error .bufferTooSmall := by
  simp only [encodeBuf, encInit_iff.mpr ⟨hbuf, rfl⟩]
  cases hc : encCalls cs ⟨buf, 0, []⟩ with
  | error err e => rw [encCalls_error (start_ok buf) hs hc]
  | ok u e =>
    have ha := encCalls_adds (start_ok buf) hc
    have hlen : (written e).length ≤ buf.length := by
      rw [← pos_eq ha.ok, ← ha.length]
      exact ha.ok.1
    rw [ha.written] at hlen
    exact absurd hlen (Nat.not_le.mpr hfull)

theorem encCalls_append (cs cs' : List Call) :
    encCalls (cs ++ cs') = (do encCalls cs; encCalls cs' : EncM Unit) := by
  induction cs with
  | nil => rfl
  | cons c cs ih =>
    rw [cons_append, encCalls, ih, encCalls, bind_assoc]

def headSize (n : Nat) : Nat :=
  if n < 24 then 1 else if n < 2 ^ 8 then 2 else if n < 2 ^ 16 then 3 else if n < 2 ^ 32 then 5 else 9

theorem head_length (major : UInt8) (v : Nat) : (head major v).length = headSize v := by
  simp only [head, headSize]
  split_ifs <;> simp only [length_cons, length_nil, beBytes_length] <;> omega

end AntsClient.Cbor.EncoderSpec
