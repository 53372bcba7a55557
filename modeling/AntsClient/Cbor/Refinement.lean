import AntsClient.Cbor.DecoderSpec
import AntsClient.Cbor.Machine
import AntsClient.Lib.Lockstep

namespace AntsClient.Cbor.Refinement

open Common Head Machine Lib.Lockstep Lib.Outcome
open Codec (maxDepth CtxKind Ctx Enc Dec EncM DecM int64Max)
open Tokens (Call Reader)

section Relation

variable {τ α β γ δ : Type} (mk : Bytes → Nat → List Ctx → τ)

def view (c : Cursor) : τ := mk c.buf c.pos (opened c)

/-- Within a call that began at `base`, `x` does what `y` does in the list model, which on failure
has still to set its position back. -/
def Follows (base : Cursor) (Q : α → β → Cursor → Prop) (x : CborM α) (y : EStateM Error τ β)
    (c : Cursor) : Prop :=
  Lockstep (fun c' t => Unchanged base c' ∧ ∃ pos, t = view mk { c' with pos := pos })
    (fun a b c' t => t = view mk c' ∧ Q a b c') x y c (view mk c)

/-- A whole call does what it does in the list model, and changes nothing if it fails. -/
def Refines (Q : α → β → Cursor → Prop) (x : CborM α) (y : EStateM Error τ β) (c : Cursor) : Prop :=
  Lockstep (fun c' t => Unchanged c c' ∧ t = view mk c')
    (fun a b c' t => t = view mk c' ∧ Sound c' ∧ Q a b c') x y c (view mk c)

structure Registered (c c' : Cursor) : Prop where
  sound : Sound c'
  buf : c'.buf = c.buf
  outs : c'.outs = c.outs

def tracked (c : Cursor) (itemBegin : Nat) : EStateM.Result Error τ Unit :=
  match Codec.trackItem c.buf c.pos (opened c) itemBegin with
  | .ok stack => .ok () (mk c.buf c.pos stack)
  | .error err => .error err (view mk c)

def entered (c : Cursor) (kind : CtxKind) (n itemBegin : Nat) : EStateM.Result Error τ Unit :=
  if (opened c).length ≥ maxDepth then .error .overflow (view mk c)
  else .ok () (mk c.buf c.pos (⟨kind, n, itemBegin, 0, 0⟩ :: opened c))

variable {mk} {base c c' : Cursor} {P : α → β → Cursor → Prop} {Q : γ → δ → Cursor → Prop}
  {x : CborM α} {y : EStateM Error τ β} {err : Error}

theorem follows_ok {a : α} {b : β} (hx : x c = .ok a c') (hy : y (view mk c) = .ok b (view mk c'))
    (h : P a b c') : Follows mk base P x y c := by
  unfold Follows Lockstep
  rw [hx, hy]
  exact ⟨rfl, h⟩

theorem follows_error (hm : Moved base c) (hx : x c = .error err { c with pos := base.pos })
    (hy : y (view mk c) = .error err (view mk c)) : Follows mk base P x y c := by
  unfold Follows Lockstep
  rw [hx, hy]
  exact ⟨rfl, hm.restored, c.pos, rfl⟩

theorem follows_get {f : Cursor → CborM α} (h : Follows mk base P (f c) y c) :
    Follows mk base P (get >>= f) y c := h

theorem follows_get_right {g : τ → EStateM Error τ β} (h : Follows mk base P x (g (view mk c)) c) :
    Follows mk base P x (get >>= g) c := h

theorem Follows.bind {f : α → CborM γ} {g : β → EStateM Error τ δ} (hx : Follows mk base P x y c)
    (hf : ∀ a b c', P a b c' → Follows mk base Q (f a) (g b) c') :
    Follows mk base Q (x >>= f) (y >>= g) c := by
  refine Lockstep.bind hx ?_
  rintro a b c' _ ⟨rfl, hP⟩
  exact hf a b c' hP

theorem Follows.mono {P' : α → β → Cursor → Prop} (h : Follows mk base P x y c)
    (hP : ∀ a b c', P a b c' → P' a b c') : Follows mk base P' x y c := by
  unfold Follows Lockstep
  obtain ⟨a, b, c', t, hx, hy, hview, h⟩ | ⟨err, c', t, hx, hy, h⟩ := lockstep_cases h
  · rw [hx, hy]
    exact ⟨hview, hP a b c' h⟩
  · rw [hx, hy]
    exact ⟨rfl, h⟩

/-- The variables of the caller are written last. -/
theorem follows_modify {R : Unit → β → Cursor → Prop} {g : Cursor → Cursor} {b : β}
    (hview : view mk (g c) = view mk c) (h : R () b (g c)) :
    Follows mk base R (modify g : CborM Unit) (pure b) c := follows_ok rfl (by rw [hview]; rfl) h

end Relation

section Track

variable {τ : Type} {mk : Bytes → Nat → List Ctx → τ} {base c : Cursor} {n itemBegin : Nat}
  {y : EStateM Error τ Unit} {kind : CtxKind}

inductive Tracks (buf : Bytes) (pos : Nat) (outs : Outs) :
    EStateM.Result Error Cursor Unit → Except Error (List Ctx) → Prop
  | ok {c' : Cursor} (hs : Sound c') (hbuf : c'.buf = buf) (hpos : c'.pos = pos)
      (houts : c'.outs = outs) : Tracks buf pos outs (.ok () c') (.ok (opened c'))
  | error {err : Error} {c' : Cursor} (hbuf : c'.buf = buf) (hpos : c'.pos = pos)
      (houts : c'.outs = outs) : Tracks buf pos outs (.error err c') (.error err)

theorem tracks_trackLoop (h : Sound c) {rounds : Nat} (hrounds : rounds = (c.depth + 1).toNat)
    (itemBegin : Nat) : Tracks c.buf c.pos c.outs (trackLoop rounds itemBegin c)
      (Codec.trackItem c.buf c.pos (opened c) itemBegin) := by
  induction rounds generalizing c itemBegin with
  | zero =>
    have hclosed : opened c = [] := opened_closed (by omega)
    rw [hclosed, Codec.trackItem, ← hclosed]
    exact .ok h rfl rfl rfl
  | succ rounds ih =>
    have hdepth : 0 ≤ c.depth := by omega
    have hstay {ctx : Ctx} (hctx : 1 ≤ ctx.remaining) : Tracks c.buf c.pos c.outs
        (.ok () (c.setTop ctx)) (.ok (ctx :: opened { c with depth := c.depth - 1 })) := by
      rw [← opened_set h hdepth]
      exact .ok (h.setTop hctx) rfl rfl rfl
    have hup := ih (h.close hdepth { c.top with remaining := 0 })
      (by change rounds = (c.depth - 1 + 1).toNat; omega) c.top.containerBegin
    rw [opened_close] at hup
    rw [trackLoop, if_neg (Int.not_lt.mpr hdepth), opened_top h hdepth, Codec.trackItem]
    by_cases hnone : c.top.kind = .none
    · rw [if_pos hnone, if_pos (.inl hnone)]
      exact .error rfl rfl rfl
    by_cases hzero : c.top.remaining = 0
    · rw [if_neg hnone, if_pos hzero, if_pos (.inr hzero)]
      exact .error rfl rfl rfl
    rw [if_neg hnone, if_neg hzero, if_neg (not_or.mpr ⟨hnone, hzero⟩)]
    cases hkind : c.top.kind with
    | none => exact absurd hkind hnone
    | mapKey =>
      dsimp only
      split
      · exact .error rfl rfl rfl
      · exact hstay (Nat.pos_of_ne_zero hzero)
    | mapValue =>
      dsimp only
      split
      · exact hup
      · rename_i hlast
        exact hstay (Nat.pos_of_ne_zero hlast)
    | array | tag =>
      dsimp only
      split
      · exact hup
      · rename_i hlast
        rw [← hkind]
        exact hstay (Nat.pos_of_ne_zero hlast)

theorem follows_track (h : Sound base) (hm : Moved base c)
    (hy : y (view mk c) = tracked mk c itemBegin) :
    Follows mk base (fun _ _ c' => Registered c c') (orRestore base.pos (trackItem itemBegin)) y c := by
  have htracks := tracks_trackLoop (h.of_moved hm) rfl itemBegin
  unfold Follows Lockstep
  rw [hy, tracked, orRestore, trackItem]
  generalize trackLoop (c.depth + 1).toNat itemBegin c = r at htracks ⊢
  generalize Codec.trackItem c.buf c.pos (opened c) itemBegin = e at htracks ⊢
  cases htracks with
  | ok hs hbuf hpos houts => exact ⟨by rw [view, hbuf, hpos], hs, hbuf, houts⟩
  | error hbuf hpos houts =>
    refine ⟨rfl, ⟨rfl, hm.depth, hm.stack, ?_, ?_, houts.trans hm.outs⟩, c.pos, ?_⟩
    · exact (congrArg List.length hbuf).trans hm.cap
    · exact (congrArg (List.take base.pos) hbuf).trans hm.written
    · rw [view, view, hbuf]
      rfl

theorem follows_push (hc : Sound c) (hfull : ¬ c.full = true) (hn : 1 ≤ n)
    (hy : y (view mk c) = entered mk c kind n itemBegin) :
    Follows mk base (fun _ _ c' => Registered c c') (push kind n itemBegin) y c := by
  apply follows_ok (a := ()) (b := ())
  · rfl
  · rw [hy, entered, if_neg (mt (full_iff_opened hc).mpr hfull), ← opened_push hc hfull]
    rfl
  · exact ⟨hc.push hfull kind hn itemBegin, rfl, rfl⟩

theorem follows_enter (h : Sound base) (hm : Moved base c) (hn : 1 ≤ n)
    (hy : y (view mk c) = entered mk c kind n base.pos) :
    Follows mk base (fun _ _ c' => Registered c c') (enter kind n base.pos) y c := by
  have hc := h.of_moved hm
  apply follows_get
  by_cases hfull : c.full = true
  · rw [if_pos hfull]
    refine follows_error hm rfl ?_
    rw [hy, entered, if_pos ((full_iff_opened hc).mp hfull)]
  · rw [if_neg hfull]
    exact follows_push hc hfull hn hy

end Track

section Encoder

variable {base c : Cursor} {b : Bytes}

abbrev Encodes (x : CborM Unit) (y : EncM Unit) (c : Cursor) : Prop :=
  Refines Enc.mk (fun _ _ _ => True) x y c

theorem encodes_item {x : CborM Unit} {body : Nat → EncM Unit}
    (h : Follows Enc.mk c (fun _ _ c' => Sound c') x (body c.pos) c) :
    Encodes x (Codec.encItem body) c := by
  unfold Encodes Refines Lockstep Codec.encItem
  obtain ⟨a, b, c', e, hx, hy, hview, hs⟩ | ⟨err, c', e, hx, hy, hu, pos, rfl⟩ := lockstep_cases h
  · rw [hx, show body (view Enc.mk c).pos _ = _ from hy]
    exact ⟨hview, hs, trivial⟩
  · rw [hx, show body (view Enc.mk c).pos _ = _ from hy]
    exact ⟨rfl, hu, congrArg (Enc.mk c'.buf · (opened c')) hu.pos.symm⟩

theorem follows_writeHead (hm : Moved base c) (major : UInt8) (n : Nat) :
    Follows Enc.mk base (fun _ _ c' => Moved base c') (orRestore base.pos (cborWriteHead major n))
      (Codec.cborWriteHead major n) c := by
  by_cases hroom : c.pos + (head major n).length > c.buf.length
  · refine follows_error hm ?_ (if_pos hroom)
    rw [orRestore, cborWriteHead, if_pos hroom]
  · have hwrite : orRestore base.pos (cborWriteHead major n) c = .ok () (c.put (head major n)) := by
      rw [orRestore, cborWriteHead, if_neg hroom]
    exact follows_ok hwrite (if_neg hroom) (hm.put (Nat.not_lt.mp hroom))

theorem follows_put (hm : Moved base c) (hroom : c.pos + b.length ≤ c.buf.length) :
    Follows Enc.mk base (fun _ _ c' => Moved base c') (set (c.put b)) (Codec.encPayload b) c :=
  follows_ok rfl (if_neg (by change ¬ b.length > c.buf.length - c.pos; omega)) (hm.put hroom)

theorem follows_encTrack (h : Sound base) (hm : Moved base c) :
    Follows Enc.mk base (fun _ _ c' => Sound c') (orRestore base.pos (encTrackItem base.pos))
      (Codec.encTrackItem base.pos) c := by
  refine Follows.mono (follows_track h hm ?_) fun _ _ _ hr => hr.sound
  rfl

theorem encodes_string (h : Sound c) (major : UInt8) (b : Bytes) :
    Encodes (encString major true b) (Codec.encString major b) c := by
  apply encodes_item
  rw [encString, if_neg (by simp)]
  apply follows_get
  apply (follows_writeHead (Moved.refl h) major b.length).bind
  intro _ _ c₁ hm
  have hlen := hm.room
  apply follows_get
  by_cases hroom : b.length > c₁.buf.length - c₁.pos
  · rw [if_pos hroom]
    exact follows_error hm rfl (bind_error (if_pos hroom))
  · rw [if_neg hroom]
    apply (follows_put hm (by omega)).bind
    exact fun _ _ _ hput => follows_encTrack h hput

theorem encodes_container (h : Sound c) (major : UInt8) (kind : CtxKind) (n : UInt64) :
    Encodes (encContainer major kind n) (Codec.encContainer major kind n) c := by
  apply encodes_item
  apply follows_get
  apply (follows_writeHead (Moved.refl h) major n.toNat).bind
  intro _ _ c₁ hm
  split
  · exact follows_encTrack h hm
  · rename_i hn
    have hpos : 1 ≤ n.toNat := Nat.pos_of_ne_zero fun h0 => hn (UInt64.toNat.inj h0)
    refine Follows.mono (follows_enter h hm hpos ?_) fun _ _ _ hr => hr.sound
    rfl

theorem encodes_simple (h : Sound c) (b : UInt8) : Encodes (encSimple b) (Codec.encSimple b) c := by
  apply encodes_item
  apply follows_get
  have hm := Moved.refl h
  by_cases hroom : c.pos + 1 > c.buf.length
  · rw [if_pos hroom]
    exact follows_error hm rfl (bind_error (if_pos (by change 1 > c.buf.length - c.pos; omega)))
  · rw [if_neg hroom]
    apply (follows_put (b := [b]) hm (Nat.not_lt.mp hroom)).bind
    exact fun _ _ _ hput => follows_encTrack h hput

theorem encodes_tag (h : Sound c) (t : UInt64) : Encodes (encTag t) (Codec.encTag t) c := by
  apply encodes_item
  have hm := Moved.refl h
  rw [encTag]
  split
  · exact follows_error hm rfl rfl
  apply follows_get
  by_cases hfull : c.full = true
  · rw [if_pos hfull]
    apply follows_get_right
    have hlist : (view Enc.mk c).stack.length ≥ maxDepth := (full_iff_opened h).mp hfull
    rw [if_pos hlist]
    exact follows_error hm rfl rfl
  · rw [if_neg hfull]
    apply follows_get_right
    have hlist : ¬ (view Enc.mk c).stack.length ≥ maxDepth := mt (full_iff_opened h).mpr hfull
    rw [if_neg hlist]
    apply (follows_writeHead hm 6 t.toNat).bind
    intro _ _ c₁ hw
    have hroom : ¬ c₁.full = true := by rwa [Cursor.full, hw.depth]
    refine Follows.mono (follows_push (h.of_moved hw) hroom le_rfl ?_) fun _ _ _ hr => hr.sound
    rfl

theorem encodes_uint (h : Sound c) (v : UInt64) : Encodes (encUint v) (Codec.encUint v) c := by
  apply encodes_item
  apply (follows_writeHead (Moved.refl h) 0 v.toNat).bind
  exact fun _ _ _ hw => follows_encTrack h hw

theorem encodes_int (h : Sound c) (v : Int64) : Encodes (encInt v) (Codec.encInt v) c := by
  apply encodes_item
  apply follows_get
  split
  · exact (follows_writeHead (Moved.refl h) 0 _).bind fun _ _ _ hw => follows_encTrack h hw
  · exact (follows_writeHead (Moved.refl h) 1 _).bind fun _ _ _ hw => follows_encTrack h hw

/-- An encode call does to the entries of the stack what the list model does to the list. -/
theorem encCall_refines (h : Sound c) (call : Call) :
    Encodes (encCall true call) (Tokens.encCall call) c := by
  cases call with
  | uint v => exact encodes_uint h v
  | int v => exact encodes_int h v
  | bytes b => exact encodes_string h 2 b
  | text b => exact encodes_string h 3 b
  | array n => exact encodes_container h 4 .array n
  | map n => exact encodes_container h 5 .mapKey n
  | tag t => exact encodes_tag h t
  | bool v => exact encodes_simple h _
  | null => exact encodes_simple h _

end Encoder

section Decoder

variable {base c : Cursor} {α β : Type}

inductive Reads (c : Cursor) : EStateM.Result Error Cursor α → EStateM.Result Error Dec α → Prop
  | ok (a : α) (pos : Nat) (hle : c.pos ≤ pos) (hroom : pos ≤ c.buf.length) :
      Reads c (.ok a { c with pos := pos }) (.ok a (view Dec.mk { c with pos := pos }))
  | error (err : Error) (pos : Nat) :
      Reads c (.error err { c with pos := pos }) (.error err (view Dec.mk { c with pos := pos }))

theorem reads_readWide (width min : Nat) (c : Cursor) :
    Reads c (readWide width min c) (Codec.readWide width min (view Dec.mk c)) := by
  unfold readWide Codec.readWide
  by_cases hroom : c.pos + width > c.buf.length
  · have hlist : (view Dec.mk c).pos + width > (view Dec.mk c).buf.length := hroom
    rw [if_pos hroom, if_pos hlist]
    exact .error _ c.pos
  have hlist : ¬ (view Dec.mk c).pos + width > (view Dec.mk c).buf.length := hroom
  rw [if_neg hroom, if_neg hlist]
  change Reads c _ (if beNat (slice c.buf c.pos (c.pos + width)) < min then _ else _)
  split
  · exact .error _ (c.pos + width)
  · exact .ok _ (c.pos + width) (Nat.le_add_right _ _) (Nat.not_lt.mp hroom)

theorem reads_wide (major : UInt8) (width min : Nat) (c : Cursor) :
    Reads c (((major, ·) <$> readWide width min) { c with pos := c.pos + 1 })
      (((major, ·) <$> Codec.readWide width min) (view Dec.mk { c with pos := c.pos + 1 })) := by
  have hreads := reads_readWide width min { c with pos := c.pos + 1 }
  simp only [Functor.map, EStateM.map]
  generalize readWide width min { c with pos := c.pos + 1 } = r at hreads ⊢
  generalize Codec.readWide width min (view Dec.mk { c with pos := c.pos + 1 }) = r' at hreads ⊢
  cases hreads with
  | ok n pos hle hroom => exact .ok (major, n) pos (Nat.le_of_succ_le hle) hroom
  | error err pos => exact .error err pos

theorem reads_cborReadHead (c : Cursor) :
    Reads c (cborReadHead c) (Codec.cborReadHead (view Dec.mk c)) := by
  cases hb : c.buf[c.pos]? with
  | none =>
    simp only [cborReadHead, Codec.cborReadHead, view, hb]
    exact .error _ c.pos
  | some b =>
    have hroom : c.pos + 1 ≤ c.buf.length := (List.getElem?_eq_some_iff.mp hb).1
    have hwide (width min : Nat) := reads_wide (b >>> 5) width min c
    simp only [cborReadHead, Codec.cborReadHead, view, hb, readInfo] at hwide ⊢
    split_ifs
    · exact .ok _ (c.pos + 1) (Nat.le_succ _) hroom
    · exact hwide 1 24
    · exact hwide 2 256
    · exact hwide 4 65536
    · exact hwide 8 0x100000000
    · exact .error _ (c.pos + 1)

theorem follows_readHead (hm : Moved base c) :
    Follows Dec.mk base (fun r r' c' => r' = r ∧ r.2 < 2 ^ 64 ∧ Moved base c')
      (orRestore base.pos cborReadHead) Codec.cborReadHead c := by
  have hreads := reads_cborReadHead c
  unfold Follows Lockstep
  rw [orRestore]
  generalize cborReadHead c = r at hreads ⊢
  generalize hy : Codec.cborReadHead (view Dec.mk c) = r' at hreads ⊢
  cases hreads with
  | ok r pos hle hroom =>
    exact ⟨rfl, rfl, (DecoderSpec.cborReadHead_iff.mp hy).2.1, hm.advance hle hroom⟩
  | error err pos => exact ⟨rfl, hm.restored, pos, rfl⟩

theorem refines_decItem {Q : α → β → Cursor → Prop} {x : CborM α} {body : Nat → DecM β}
    (h : Follows Dec.mk c (fun a b c' => Sound c' ∧ Q a b c') x (body c.pos) c) :
    Refines Dec.mk Q x (Codec.decItem body) c := by
  unfold Refines Lockstep Codec.decItem
  obtain ⟨a, b, c', d, hx, hy, h⟩ | ⟨err, c', d, hx, hy, hu, pos, rfl⟩ := lockstep_cases h
  · rw [hx, show body (view Dec.mk c).pos _ = _ from hy]
    exact h
  · rw [hx, show body (view Dec.mk c).pos _ = _ from hy]
    exact ⟨rfl, hu, congrArg (Dec.mk c'.buf · (opened c')) hu.pos.symm⟩

theorem follows_decTrack (h : Sound base) (hm : Moved base c) :
    Follows Dec.mk base (fun _ _ c' => Registered c c') (orRestore base.pos (decTrackItem base.pos))
      (Codec.decTrackItem base.pos) c := by
  apply follows_track h hm
  rfl

theorem follows_decEnter (h : Sound base) (hm : Moved base c) (kind : CtxKind) {n : Nat}
    (hn : 1 ≤ n) : Follows Dec.mk base (fun _ _ c' => Registered c c') (enter kind n base.pos)
      (Codec.decOpen kind n base.pos) c := by
  apply follows_enter h hm hn
  rfl

theorem decodes_uint (h : Sound c) :
    Refines Dec.mk (fun _ v c' => c'.outs = { c.outs with uint := v }) (decUint true) Codec.decUint
      c := by
  apply refines_decItem
  rw [decUint, if_neg (by simp)]
  apply follows_get
  apply (follows_readHead (Moved.refl h)).bind
  rintro ⟨major, n⟩ _ c₁ ⟨rfl, -, hm⟩
  dsimp only
  split
  · exact follows_error hm rfl rfl
  apply (follows_decTrack h hm).bind
  intro _ _ c₂ hr
  exact follows_modify rfl ⟨hr.sound.assign _, by rw [hr.outs, hm.outs]⟩

theorem decodes_int (h : Sound c) :
    Refines Dec.mk (fun _ v c' => c'.outs = { c.outs with int := v }) (decInt true) Codec.decInt
      c := by
  apply refines_decItem
  rw [decInt, if_neg (by simp)]
  apply follows_get
  apply (follows_readHead (Moved.refl h)).bind
  rintro ⟨major, n⟩ _ c₁ ⟨rfl, -, hm⟩
  -- what remains once the number is known
  have hrest (v : Int64) : Follows Dec.mk c
      (fun _ v c' => Sound c' ∧ c'.outs = { c.outs with int := v })
      (do
        orRestore c.pos (decTrackItem c.pos)
        modify fun c => { c with outs := { c.outs with int := v } })
      (do
        Codec.decTrackItem c.pos
        return v) c₁ := by
    apply (follows_decTrack h hm).bind
    intro _ _ c₂ hr
    exact follows_modify rfl ⟨hr.sound.assign _, by rw [hr.outs, hm.outs]⟩
  dsimp only
  rw [toInt]
  by_cases hzero : major = 0
  · have hknown : ¬ (major ≠ 0 ∧ major ≠ 1) := fun hne => hne.1 hzero
    rw [if_pos hzero, if_neg hknown]
    split
    · exact follows_error hm rfl rfl
    · exact hrest _
  rw [if_neg hzero]
  by_cases hone : major = 1
  · have hknown : ¬ (major ≠ 0 ∧ major ≠ 1) := fun hne => hne.2 hone
    rw [if_pos hone, if_neg hknown]
    split
    · exact follows_error hm rfl rfl
    · exact hrest _
  · have hunknown : major ≠ 0 ∧ major ≠ 1 := ⟨hzero, hone⟩
    rw [if_neg hone, if_pos hunknown]
    exact follows_error hm rfl rfl

theorem decodes_container (h : Sound c) (want : UInt8) (kind : CtxKind) :
    Refines Dec.mk (fun _ (n : UInt64) c' => c'.outs = { c.outs with count := n.toNat })
      (decContainer want kind true) (Codec.decContainer want kind) c := by
  apply refines_decItem
  rw [decContainer, if_neg (by simp)]
  apply follows_get
  apply (follows_readHead (Moved.refl h)).bind
  rintro ⟨major, n⟩ _ c₁ ⟨rfl, hlt, hm⟩
  have hcount : (UInt64.ofNat n).toNat = n := UInt64.toNat_ofNat_of_lt' hlt
  dsimp only at hlt ⊢
  split
  · exact follows_error hm rfl rfl
  rw [if_neg (show ¬ n > sizeMax by rw [sizeMax]; omega)]
  split
  · apply (follows_decTrack h hm).bind
    intro _ _ c₂ hr
    exact follows_modify rfl ⟨hr.sound.assign _, by rw [hr.outs, hm.outs, hcount]⟩
  · rename_i hn
    apply (follows_decEnter h hm kind (Nat.pos_of_ne_zero hn)).bind
    intro _ _ c₂ hr
    exact follows_modify rfl ⟨hr.sound.assign _, by rw [hr.outs, hm.outs, hcount]⟩

theorem decodes_tag (h : Sound c) :
    Refines Dec.mk (fun _ t c' => c'.outs = { c.outs with tag := t }) (decTag true) Codec.decTag
      c := by
  apply refines_decItem
  rw [decTag, if_neg (by simp)]
  apply follows_get
  apply (follows_readHead (Moved.refl h)).bind
  rintro ⟨major, n⟩ _ c₁ ⟨rfl, -, hm⟩
  dsimp only
  split
  · exact follows_error hm rfl rfl
  split
  · exact follows_error hm rfl rfl
  apply (follows_decEnter h hm .tag le_rfl).bind
  intro _ _ c₂ hr
  exact follows_modify rfl ⟨hr.sound.assign _, by rw [hr.outs, hm.outs]⟩

/-- What a decode call puts into the variables of the caller, for what it returns in the list
model. -/
def Shows (buf : Bytes) (o : Outs) : Call → Outs → Prop
  | .uint v, o' => o' = { o with uint := v }
  | .int v, o' => o' = { o with int := v }
  | .bytes b, o' | .text b, o' => ∃ ptr, o' = { o with ptr := ptr, len := b.length } ∧
      (ptr = none → b = []) ∧ ∀ p, ptr = some p → slice buf p (p + b.length) = b
  | .array n, o' | .map n, o' => o' = { o with count := n.toNat }
  | .tag t, o' => o' = { o with tag := t }
  | .bool v, o' => o' = { o with bool := v }
  | .null, o' => o' = o

theorem decodes_string (h : Sound c) (want : UInt8) :
    Refines Dec.mk (fun _ b c' => Shows c'.buf c.outs (.bytes b) c'.outs) (decString want true)
      (Codec.decString want) c := by
  apply refines_decItem
  rw [decString, if_neg (by simp)]
  apply follows_get
  apply (follows_readHead (Moved.refl h)).bind
  rintro ⟨major, n⟩ _ c₁ ⟨rfl, hlt, hm⟩
  dsimp only at hlt ⊢
  split
  · exact follows_error hm rfl rfl
  rw [if_neg (show ¬ n > sizeMax by rw [sizeMax]; omega)]
  apply follows_get
  apply follows_get_right
  have hlen := hm.room
  by_cases hroom : n > c₁.buf.length - c₁.pos
  · rw [if_pos hroom, if_pos (show n > (view Dec.mk c₁).buf.length - (view Dec.mk c₁).pos from hroom)]
    exact follows_error hm rfl rfl
  rw [if_neg hroom, if_neg (show ¬ n > (view Dec.mk c₁).buf.length - (view Dec.mk c₁).pos from hroom)]
  have hm' := hm.advance (Nat.le_add_right c₁.pos n) (by omega)
  apply Follows.bind (P := fun _ _ c' => c' = { c₁ with pos := c₁.pos + n })
  · exact follows_ok rfl rfl rfl
  rintro _ _ _ rfl
  apply (follows_decTrack h hm').bind
  intro _ _ c₂ hr
  have hslice : (slice c₁.buf c₁.pos (c₁.pos + n)).length = n := by
    rw [slice_length (by omega)]
    omega
  refine follows_modify rfl ⟨hr.sound.assign _, if n > 0 then some c₁.pos else none, ?_, ?_, ?_⟩
  · dsimp only
    rw [show (view Dec.mk c₁).buf = c₁.buf from rfl, show (view Dec.mk c₁).pos = c₁.pos from rfl, hslice,
      hr.outs, hm'.outs]
  · intro hnone
    change slice c₁.buf c₁.pos (c₁.pos + n) = []
    rw [← List.length_eq_zero_iff, hslice]
    by_contra hn
    rw [if_pos (Nat.pos_of_ne_zero hn)] at hnone
    cases hnone
  · intro p hp
    change slice c₂.buf p (p + (slice c₁.buf c₁.pos (c₁.pos + n)).length) = slice c₁.buf c₁.pos (c₁.pos + n)
    rw [hslice, hr.buf]
    split at hp
    · cases hp
      rfl
    · cases hp

theorem refines_decByte (h : Sound c) (accept : UInt8 → Bool) :
    Refines Dec.mk (fun b b' c' => b' = b ∧ c'.outs = c.outs) (decByte accept)
      (Codec.decByte accept) c := by
  apply refines_decItem
  apply follows_get
  apply follows_get_right
  have hm := Moved.refl h
  cases hb : c.buf[c.pos]? with
  | none =>
    rw [show (view Dec.mk c).buf[(view Dec.mk c).pos]? = none from hb]
    exact follows_error hm rfl rfl
  | some b =>
    rw [show (view Dec.mk c).buf[(view Dec.mk c).pos]? = some b from hb]
    dsimp only
    split
    · exact follows_error hm rfl rfl
    have hroom : c.pos + 1 ≤ c.buf.length := (List.getElem?_eq_some_iff.mp hb).1
    apply Follows.bind (P := fun _ _ c' => c' = { c with pos := c.pos + 1 })
    · exact follows_ok rfl rfl rfl
    rintro _ _ _ rfl
    apply (follows_decTrack h (hm.advance (Nat.le_succ _) hroom)).bind
    intro _ _ c₂ hr
    exact follows_ok rfl rfl ⟨hr.sound, rfl, hr.outs⟩

theorem decodes_bool (h : Sound c) :
    Refines Dec.mk (fun _ v c' => c'.outs = { c.outs with bool := v }) (decBool true) Codec.decBool
      c := by
  rw [decBool, if_neg (by simp)]
  apply Lockstep.bind (refines_decByte h _)
  rintro b _ c₁ _ ⟨rfl, hs, rfl, houts⟩
  refine ⟨rfl, hs.assign _, ?_⟩
  dsimp only
  rw [houts]

theorem decodes_null (h : Sound c) :
    Refines Dec.mk (fun _ _ c' => c'.outs = c.outs) decNull Codec.decNull c := by
  apply Lockstep.bind (refines_decByte h _)
  rintro b _ c₁ _ ⟨rfl, hs, rfl, houts⟩
  exact ⟨rfl, hs, houts⟩

/-- A decode call does what the list model does, and writes what that returns. -/
theorem decCall_refines (h : Sound c) (r : Reader) :
    Refines Dec.mk (fun _ v c' => Shows c'.buf c.outs v c'.outs) (decCall true r)
      (Tokens.decCall r) c := by
  cases r with
  | uint => exact (decodes_uint h).map_right fun _ _ _ _ hs => hs
  | int => exact (decodes_int h).map_right fun _ _ _ _ hs => hs
  | bytes => exact (decodes_string h 2).map_right fun _ _ _ _ hs => hs
  | text => exact (decodes_string h 3).map_right fun _ _ _ _ hs => hs
  | array => exact (decodes_container h 4 .array).map_right fun _ _ _ _ hs => hs
  | map => exact (decodes_container h 5 .mapKey).map_right fun _ _ _ _ hs => hs
  | tag => exact (decodes_tag h).map_right fun _ _ _ _ hs => hs
  | bool => exact (decodes_bool h).map_right fun _ _ _ _ hs => hs
  | null => exact (decodes_null h).map_right fun _ _ _ _ hs => hs

end Decoder

section Runs

variable {c : Cursor}

theorem Refines.after_eq {τ α β : Type} {mk : Bytes → Nat → List Ctx → τ} {x : CborM α}
    {y : EStateM Error τ β} {Q : α → β → Cursor → Prop} (h : Refines mk Q x y c) :
    view mk (after (x c)) = after (y (view mk c)) := by
  obtain ⟨a, b, c', t, hx, hy, hview, -⟩ | ⟨err, c', t, hx, hy, -, hview⟩ := lockstep_cases h
  · rw [hx, hy]
    exact hview.symm
  · rw [hx, hy]
    exact hview.symm

def Atomic (x : CborM Unit) (c : Cursor) : Prop :=
  Sound (after (x c)) ∧ ∀ err c', x c = .error err c' → Unchanged c c'

theorem Refines.atomic {τ β : Type} {mk : Bytes → Nat → List Ctx → τ} {x : CborM Unit}
    {y : EStateM Error τ β} {Q : Unit → β → Cursor → Prop} (h : Refines mk Q x y c) (hc : Sound c) :
    Atomic x c := by
  unfold Atomic
  obtain ⟨a, b, c', t, hx, hy, -, hs, -⟩ | ⟨err, c', t, hx, hy, hu, -⟩ := lockstep_cases h
  · rw [hx]
    exact ⟨hs, nofun⟩
  · rw [hx]
    refine ⟨hc.of_unchanged hu, fun err c'' heq => ?_⟩
    cases heq
    exact hu

theorem atomic_invalid {x : CborM Unit} {err : Error} (hc : Sound c) (h : x c = .error err c) :
    Atomic x c := by
  unfold Atomic
  rw [h]
  refine ⟨hc, fun err c' heq => ?_⟩
  cases heq
  exact Unchanged.refl c

theorem encCall_atomic (h : Sound c) (given : Bool) (call : Call) : Atomic (encCall given call) c := by
  have hcall := (encCall_refines h call).atomic h
  cases given with
  | true => exact hcall
  | false =>
    cases call with
    | bytes b | text b =>
      cases b with
      | nil => exact hcall
      | cons => exact atomic_invalid h rfl
    | _ => exact hcall

theorem decCall_atomic (h : Sound c) (given : Bool) (r : Reader) : Atomic (decCall given r) c := by
  have hcall := (decCall_refines h r).atomic h
  cases given with
  | true => exact hcall
  | false =>
    cases r with
    | null => exact hcall
    | _ => exact atomic_invalid h rfl

/-- Whole runs of the encoder stay in step with the list model. -/
theorem encAfter_refines (h : Sound c) (calls : List Call) :
    view Enc.mk (encAfter c (calls.map (true, ·))) =
      calls.foldl (fun e call => after (Tokens.encCall call e)) (view Enc.mk c) := by
  induction calls generalizing c with
  | nil => rfl
  | cons call calls ih =>
    rw [List.map_cons, List.foldl_cons, ← (encCall_refines h call).after_eq]
    exact ih (encCall_atomic h true call).1

/-- Whole runs of the decoder stay in step with the list model. -/
theorem decAfter_refines (h : Sound c) (calls : List (Outs × Reader)) :
    view Dec.mk (decAfter c (calls.map fun call => (call.1, true, call.2))) =
      calls.foldl (fun d call => after (Tokens.decCall call.2 d)) (view Dec.mk c) := by
  induction calls generalizing c with
  | nil => rfl
  | cons call calls ih =>
    have hassign := h.assign call.1
    have hview : view Dec.mk { c with outs := call.1 } = view Dec.mk c := rfl
    rw [List.map_cons, List.foldl_cons, ← hview, ← (decCall_refines hassign call.2).after_eq]
    exact ih (decCall_atomic hassign true call.2).1

theorem encAfter_sound (h : Sound c) (calls : List (Bool × Call)) : Sound (encAfter c calls) :=
  List.foldlRecOn calls _ h fun _ hc call _ => (encCall_atomic hc call.1 call.2).1

theorem decAfter_sound (h : Sound c) (calls : List (Outs × Bool × Reader)) :
    Sound (decAfter c calls) :=
  List.foldlRecOn calls _ h fun _ hc call _ => (decCall_atomic (hc.assign call.1) call.2.1 call.2.2).1

/-- In every state that calls lead to the bounds hold, and a call that fails there leaves
everything as it was. -/
theorem calls_atomic (buf : Bytes) (outs : Outs) :
    (∀ c, encInit buf outs = .ok c → ∀ calls : List (Bool × Call), Sound (encAfter c calls) ∧
      ∀ (given : Bool) (call : Call) (err : Error) (c' : Cursor),
        encCall given call (encAfter c calls) = .error err c' → Unchanged (encAfter c calls) c') ∧
    ∀ calls : List (Outs × Bool × Reader), Sound (decAfter (decInit buf outs) calls) ∧
      ∀ (outs' : Outs) (given : Bool) (r : Reader) (err : Error) (c' : Cursor),
        decCall given r { decAfter (decInit buf outs) calls with outs := outs' } = .error err c' →
          Unchanged { decAfter (decInit buf outs) calls with outs := outs' } c' := by
  have hstart := start_sound buf outs
  refine ⟨fun c hc calls => ?_, fun calls => ?_⟩
  · obtain rfl : start buf outs = c := by
      rw [encInit] at hc
      split at hc
      · cases hc
      · exact Except.ok.inj hc
    have hsound := encAfter_sound hstart calls
    exact ⟨hsound, fun given call => (encCall_atomic hsound given call).2⟩
  · have hsound := decAfter_sound hstart calls
    exact ⟨hsound, fun outs' given r => (decCall_atomic (hsound.assign outs') given r).2⟩

def zeroOuts : Outs := ⟨0, 0, none, 0, 0, 0, false⟩

def keyed : List (Bool × Call) := [(true, .map 2), (true, .array 1), (true, .uint 5), (true, .uint 0)]

/-- The second key does not come after the first one. -/
theorem calls_atomic_unordered : ∃ c c', encInit (List.replicate 8 0) zeroOuts = .ok c ∧
    encCall true (.uint 1) (encAfter c keyed) = .error .nonCanonical c' ∧
      Unchanged (encAfter c keyed) c' ∧ c'.pos = 4 := by
  have hinit : encInit (List.replicate 8 0) zeroOuts = .ok (start (List.replicate 8 0) zeroOuts) := rfl
  obtain ⟨c', herr⟩ : ∃ c', encCall true (.uint 1) (encAfter (start (List.replicate 8 0) zeroOuts) keyed) =
    .error .nonCanonical c' := ⟨_, rfl⟩
  have hunchanged := ((calls_atomic (List.replicate 8 0) zeroOuts).1 _ hinit keyed).2 _ _ _ _ herr
  exact ⟨_, c', hinit, herr, hunchanged, hunchanged.pos⟩

end Runs

end AntsClient.Cbor.Refinement
