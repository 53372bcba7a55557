import AntsClient.Cbor.Tokens
import AntsClient.Lib.Outcome

namespace AntsClient.Cbor.Machine

open Common Head Lib.Outcome Codec Tokens
open List hiding Vector

/-- The caller's variables that decode calls write. A pointer is the offset in the input, absent for
`NULL`. -/
structure Outs where
  uint : UInt64
  int : Int64
  ptr : Option Nat
  len : Nat
  count : Nat
  tag : UInt64
  bool : Bool

/-- `ants_cbor_enc_t` or `ants_cbor_dec_t`, and the caller's variables. The stack entries above the
depth are stale. -/
structure Cursor where
  buf : Bytes
  pos : Nat
  depth : Int
  stack : Vector Ctx maxDepth
  outs : Outs

abbrev CborM := EStateM Error Cursor

def noCtx : Ctx := ⟨.none, 0, 0, 0, 0⟩

def Cursor.top (c : Cursor) : Ctx := (c.stack[c.depth.toNat]?).getD noCtx

def Cursor.setTop (c : Cursor) (ctx : Ctx) : Cursor :=
  { c with stack := c.stack.setIfInBounds c.depth.toNat ctx }

def Cursor.full (c : Cursor) : Bool := c.depth + 1 ≥ maxDepth

def push (kind : CtxKind) (n itemBegin : Nat) : CborM Unit := fun c =>
  .ok () { c with depth := c.depth + 1, stack := c.stack.setIfInBounds (c.depth + 1).toNat ⟨kind, n, itemBegin, 0, 0⟩ }

/-- The loop of `enc_track_item` and `dec_track_item`. A round returns or lowers the depth. -/
def trackLoop : Nat → Nat → CborM Unit
  | 0, _, c => .ok () c
  | rounds + 1, itemBegin, c =>
    if c.depth < 0 then .ok () c
    else if c.top.kind = .none then .error .malformed c
    else if c.top.remaining = 0 then .error .malformed c
    else match c.top.kind with
      | .mapKey =>
        if 0 < c.top.lastKeyEnd ∧
            compareKeys (slice c.buf c.top.lastKeyBegin c.top.lastKeyEnd)
              (slice c.buf itemBegin c.pos) ≠ .lt then
          .error .nonCanonical c
        else .ok () (c.setTop { c.top with kind := .mapValue, lastKeyBegin := itemBegin, lastKeyEnd := c.pos })
      | .mapValue =>
        if c.top.remaining - 1 = 0 then
          trackLoop rounds c.top.containerBegin
            { c.setTop { c.top with remaining := 0 } with depth := c.depth - 1 }
        else .ok () (c.setTop { c.top with kind := .mapKey, remaining := c.top.remaining - 1 })
      | _ =>
        if c.top.remaining - 1 = 0 then
          trackLoop rounds c.top.containerBegin
            { c.setTop { c.top with remaining := 0 } with depth := c.depth - 1 }
        else .ok () (c.setTop { c.top with remaining := c.top.remaining - 1 })

/-- On failure the depth and the whole stack are copied back. -/
def trackItem (itemBegin : Nat) : CborM Unit := fun c =>
  match trackLoop (c.depth + 1).toNat itemBegin c with
  | .ok _ c' => .ok () c'
  | .error err c' => .error err { c' with depth := c.depth, stack := c.stack }

def encTrackItem (itemBegin : Nat) : CborM Unit := trackItem itemBegin

def decTrackItem (itemBegin : Nat) : CborM Unit := trackItem itemBegin

def orRestore {α : Type} (saved : Nat) (x : CborM α) : CborM α := fun c =>
  match x c with
  | .ok a c' => .ok a c'
  | .error err c' => .error err { c' with pos := saved }

def failFrom {α : Type} (saved : Nat) (err : Error) : CborM α := fun c => .error err { c with pos := saved }

def enter (kind : CtxKind) (n saved : Nat) : CborM Unit := do
  let c ← get
  if c.full then failFrom saved .overflow
  push kind n saved

section Encoder

def Cursor.put (c : Cursor) (bs : Bytes) : Cursor :=
  { c with buf := c.buf.take c.pos ++ bs ++ c.buf.drop (c.pos + bs.length), pos := c.pos + bs.length }

def cborWriteHead (major : UInt8) (value : Nat) : CborM Unit := fun c =>
  if c.pos + (head major value).length > c.buf.length then
    .error .bufferTooSmall c else .ok () (c.put (head major value))

def encUint (v : UInt64) : CborM Unit := do
  let itemBegin := (← get).pos
  orRestore itemBegin (cborWriteHead 0 v.toNat)
  orRestore itemBegin (encTrackItem itemBegin)

def encInt (v : Int64) : CborM Unit := do
  let itemBegin := (← get).pos
  orRestore itemBegin (if v ≥ 0 then
    cborWriteHead 0 v.toUInt64.toNat else cborWriteHead 1 (~~~ v.toUInt64).toNat)
  orRestore itemBegin (encTrackItem itemBegin)

/-- `given` says that the pointer to the bytes is not null. -/
def encString (major : UInt8) (given : Bool) (b : Bytes) : CborM Unit := do
  if b.length > 0 ∧ !given then throw .invalidArg
  let itemBegin := (← get).pos
  orRestore itemBegin (cborWriteHead major b.length)
  let c ← get
  if b.length > c.buf.length - c.pos then failFrom itemBegin .bufferTooSmall
  set (c.put b)
  orRestore itemBegin (encTrackItem itemBegin)

def encBytes (given : Bool) (b : Bytes) : CborM Unit := encString 2 given b

def encText (given : Bool) (s : Bytes) : CborM Unit := encString 3 given s

def encContainer (major : UInt8) (kind : CtxKind) (n : UInt64) : CborM Unit := do
  let itemBegin := (← get).pos
  orRestore itemBegin (cborWriteHead major n.toNat)
  if n = 0 then orRestore itemBegin (encTrackItem itemBegin) else enter kind n.toNat itemBegin

def encArray (n : UInt64) : CborM Unit := encContainer 4 .array n

def encMap (n : UInt64) : CborM Unit := encContainer 5 .mapKey n

def encSimple (b : UInt8) : CborM Unit := do
  let c ← get
  if c.pos + 1 > c.buf.length then throw .bufferTooSmall
  set (c.put [b])
  orRestore c.pos (encTrackItem c.pos)

def encBool (v : Bool) : CborM Unit := encSimple (if v then 0xf5 else 0xf4)

def encNull : CborM Unit := encSimple 0xf6

def encTag (t : UInt64) : CborM Unit := do
  if !reservedTag t then throw .unsupportedType
  let c ← get
  if c.full then throw .overflow
  orRestore c.pos (cborWriteHead 6 t.toNat)
  push .tag 1 c.pos

end Encoder

section Decoder

def sizeMax : Nat := 2 ^ 64 - 1

def readWide (width min : Nat) : CborM Nat := fun c =>
  if c.pos + width > c.buf.length then .error .malformed c
  else if beNat (slice c.buf c.pos (c.pos + width)) < min then
    .error .nonCanonical { c with pos := c.pos + width }
  else .ok (beNat (slice c.buf c.pos (c.pos + width))) { c with pos := c.pos + width }

def readInfo (major info : UInt8) : CborM (UInt8 × Nat) :=
  if info < 24 then pure (major, info.toNat)
  else if info = 24 then (major, ·) <$> readWide 1 24
  else if info = 25 then (major, ·) <$> readWide 2 256
  else if info = 26 then (major, ·) <$> readWide 4 65536
  else if info = 27 then (major, ·) <$> readWide 8 0x100000000
  else throw .nonCanonical

def cborReadHead : CborM (UInt8 × Nat) := fun c =>
  match c.buf[c.pos]? with
  | none => .error .malformed c
  | some b => readInfo (b >>> 5) (b &&& 0x1f) { c with pos := c.pos + 1 }

/-- `given` says that none of the pointers to the caller's variables is null. -/
def decUint (given : Bool) : CborM Unit := do
  if !given then throw .invalidArg
  let saved := (← get).pos
  let (major, value) ← orRestore saved cborReadHead
  if major ≠ 0 then failFrom saved .unsupportedType
  orRestore saved (decTrackItem saved)
  modify fun c => { c with outs := { c.outs with uint := UInt64.ofNat value } }

def toInt (saved : Nat) (major : UInt8) (value : Nat) : CborM Int64 :=
  if major = 0 then if value > int64Max then failFrom saved .overflow else pure (Int64.ofNat value)
  else if major = 1 then if value > int64Max then failFrom saved .overflow else pure (-1 - Int64.ofNat value)
  else failFrom saved .unsupportedType

def decInt (given : Bool) : CborM Unit := do
  if !given then throw .invalidArg
  let saved := (← get).pos
  let (major, value) ← orRestore saved cborReadHead
  let result ← toInt saved major value
  orRestore saved (decTrackItem saved)
  modify fun c => { c with outs := { c.outs with int := result } }

def decString (want : UInt8) (given : Bool) : CborM Unit := do
  if !given then throw .invalidArg
  let saved := (← get).pos
  let (major, value) ← orRestore saved cborReadHead
  if major ≠ want then failFrom saved .unsupportedType
  if value > sizeMax then failFrom saved .overflow
  let c ← get
  if value > c.buf.length - c.pos then failFrom saved .malformed
  set { c with pos := c.pos + value }
  orRestore saved (decTrackItem saved)
  modify fun c' =>
    { c' with outs := { c'.outs with ptr := if value > 0 then some c.pos else none, len := value } }

def decBytes (given : Bool) : CborM Unit := decString 2 given

def decText (given : Bool) : CborM Unit := decString 3 given

def decContainer (want : UInt8) (kind : CtxKind) (given : Bool) : CborM Unit := do
  if !given then throw .invalidArg
  let saved := (← get).pos
  let (major, value) ← orRestore saved cborReadHead
  if major ≠ want then failFrom saved .unsupportedType
  if value > sizeMax then failFrom saved .overflow
  if value = 0 then orRestore saved (decTrackItem saved) else enter kind value saved
  modify fun c => { c with outs := { c.outs with count := value } }

def decArray (given : Bool) : CborM Unit := decContainer 4 .array given

def decMap (given : Bool) : CborM Unit := decContainer 5 .mapKey given

def decTag (given : Bool) : CborM Unit := do
  if !given then throw .invalidArg
  let saved := (← get).pos
  let (major, value) ← orRestore saved cborReadHead
  if major ≠ 6 then failFrom saved .unsupportedType
  if !reservedTag (UInt64.ofNat value) then failFrom saved .unsupportedType
  enter .tag 1 saved
  modify fun c => { c with outs := { c.outs with tag := UInt64.ofNat value } }

def decByte (accept : UInt8 → Bool) : CborM UInt8 := do
  let c ← get
  match c.buf[c.pos]? with
  | none => throw .malformed
  | some b =>
    if !accept b then throw .unsupportedType
    set { c with pos := c.pos + 1 }
    orRestore c.pos (decTrackItem c.pos)
    return b

def decBool (given : Bool) : CborM Unit := do
  if !given then throw .invalidArg
  let b ← decByte fun b => b = 0xf4 || b = 0xf5
  modify fun c => { c with outs := { c.outs with bool := b = 0xf5 } }

def decNull : CborM Unit := do
  let _ ← decByte fun b => b = 0xf6

end Decoder

def encCall (given : Bool) : Call → CborM Unit
  | .uint v => encUint v
  | .int v => encInt v
  | .bytes b => encBytes given b
  | .text s => encText given s
  | .array n => encArray n
  | .map n => encMap n
  | .tag t => encTag t
  | .bool v => encBool v
  | .null => encNull

def decCall (given : Bool) : Reader → CborM Unit
  | .uint => decUint given
  | .int => decInt given
  | .bytes => decBytes given
  | .text => decText given
  | .array => decArray given
  | .map => decMap given
  | .tag => decTag given
  | .bool => decBool given
  | .null => decNull

def start (buf : Bytes) (outs : Outs) : Cursor := ⟨buf, 0, -1, Vector.replicate maxDepth noCtx, outs⟩

/-- An encoder has no variables of the caller to write to; they only have some value. -/
def encInit (buf : Bytes) (outs : Outs) : Except Error Cursor :=
  if buf.length = 0 then .error .invalidArg else .ok (start buf outs)

def decInit (buf : Bytes) (outs : Outs) : Cursor := start buf outs

def encAfter (c : Cursor) (calls : List (Bool × Call)) : Cursor :=
  calls.foldl (fun c call => after (encCall call.1 call.2 c)) c

def decAfter (c : Cursor) (calls : List (Outs × Bool × Reader)) : Cursor :=
  calls.foldl (fun c call => after (decCall call.2.1 call.2.2 { c with outs := call.1 })) c

/-- What holds in every state: there is room for what has been written or read, and every
open container waits for an item. -/
structure Sound (c : Cursor) : Prop where
  pos : c.pos ≤ c.buf.length
  closed : -1 ≤ c.depth
  depth : c.depth ≤ 15
  remaining : ∀ (i : Nat) (ctx : Ctx), (i : Int) ≤ c.depth → c.stack[i]? = some ctx → 1 ≤ ctx.remaining

structure Unchanged (c c' : Cursor) : Prop where
  pos : c'.pos = c.pos
  depth : c'.depth = c.depth
  stack : c'.stack = c.stack
  cap : c'.buf.length = c.buf.length
  written : c'.buf.take c.pos = c.buf.take c.pos
  outs : c'.outs = c.outs

/-- While a call writes or reads its item, the item is behind its position and nothing else has
changed. -/
structure Moved (c c' : Cursor) : Prop where
  depth : c'.depth = c.depth
  stack : c'.stack = c.stack
  cap : c'.buf.length = c.buf.length
  written : c'.buf.take c.pos = c.buf.take c.pos
  outs : c'.outs = c.outs
  le : c.pos ≤ c'.pos
  room : c'.pos ≤ c'.buf.length

section Moves

variable {base c : Cursor}

theorem Moved.restored (h : Moved base c) : Unchanged base { c with pos := base.pos } :=
  ⟨rfl, h.depth, h.stack, h.cap, h.written, h.outs⟩

theorem Moved.refl (h : Sound base) : Moved base base := ⟨rfl, rfl, rfl, rfl, rfl, le_rfl, h.pos⟩

theorem Unchanged.refl (c : Cursor) : Unchanged c c := ⟨rfl, rfl, rfl, rfl, rfl, rfl⟩

theorem Sound.of_moved (h : Sound base) (hm : Moved base c) : Sound c := by
  refine ⟨hm.room, ?_, ?_, ?_⟩
  · rw [hm.depth]
    exact h.closed
  · rw [hm.depth]
    exact h.depth
  · rw [hm.depth, hm.stack]
    exact h.remaining

theorem Sound.of_unchanged (h : Sound base) (hu : Unchanged base c) : Sound c := by
  refine ⟨?_, ?_, ?_, ?_⟩
  · rw [hu.pos, hu.cap]
    exact h.pos
  · rw [hu.depth]
    exact h.closed
  · rw [hu.depth]
    exact h.depth
  · rw [hu.depth, hu.stack]
    exact h.remaining

theorem Moved.put (h : Moved base c) {bs : Bytes} (hroom : c.pos + bs.length ≤ c.buf.length) :
    Moved base (c.put bs) := by
  have hle := h.le
  have hlen : (c.put bs).buf.length = c.buf.length := by
    simp only [Cursor.put, length_append, length_take, length_drop]
    omega
  refine ⟨h.depth, h.stack, hlen.trans h.cap, ?_, h.outs, hle.trans (Nat.le_add_right _ _), ?_⟩
  · rw [← h.written, Cursor.put, append_assoc, take_append_of_le_length, take_take,
      Nat.min_eq_left hle]
    rw [length_take]
    omega
  · rw [hlen]
    exact hroom

theorem Moved.advance {pos : Nat} (h : Moved base c) (hle : c.pos ≤ pos)
    (hroom : pos ≤ c.buf.length) : Moved base { c with pos := pos } :=
  ⟨h.depth, h.stack, h.cap, h.written, h.outs, h.le.trans hle, hroom⟩

end Moves

section Stack

variable {c : Cursor} {n : Nat}

theorem Sound.setTop (h : Sound c) {ctx : Ctx} (hctx : 1 ≤ ctx.remaining) :
    Sound (c.setTop ctx) := by
  refine ⟨h.pos, h.closed, h.depth, fun i old hi hold => ?_⟩
  rw [Cursor.setTop, Vector.getElem?_setIfInBounds] at hold
  split at hold
  · split at hold
    · cases hold
      exact hctx
    · cases hold
  · exact h.remaining i old hi hold

theorem Sound.close (h : Sound c) (hdepth : 0 ≤ c.depth) (ctx : Ctx) :
    Sound { c.setTop ctx with depth := c.depth - 1 } := by
  have hclosed := h.closed
  have hle := h.depth
  refine ⟨h.pos, ?_, ?_, fun i old hi hold => ?_⟩
  · change -1 ≤ c.depth - 1
    omega
  · change c.depth - 1 ≤ 15
    omega
  · change (i : Int) ≤ c.depth - 1 at hi
    change (c.stack.setIfInBounds c.depth.toNat ctx)[i]? = some old at hold
    rw [Vector.getElem?_setIfInBounds_ne (by omega)] at hold
    exact h.remaining i old (by omega) hold

theorem Cursor.full_iff : c.full = true ↔ 15 ≤ c.depth := by
  rw [Cursor.full, decide_eq_true_iff, maxDepth]
  omega

theorem Sound.push (h : Sound c) (hfull : ¬ c.full = true) (kind : CtxKind) (hn : 1 ≤ n)
    (itemBegin : Nat) : Sound (after (push kind n itemBegin c)) := by
  have hclosed := h.closed
  rw [Cursor.full_iff] at hfull
  refine ⟨h.pos, ?_, ?_, fun i ctx hi hctx => ?_⟩
  · change -1 ≤ c.depth + 1
    omega
  · change c.depth + 1 ≤ 15
    omega
  · change (c.stack.setIfInBounds (c.depth + 1).toNat ⟨kind, n, itemBegin, 0, 0⟩)[i]? = some ctx
      at hctx
    change (i : Int) ≤ c.depth + 1 at hi
    rw [Vector.getElem?_setIfInBounds] at hctx
    split at hctx
    · split at hctx
      · cases hctx
        exact hn
      · cases hctx
    · exact h.remaining i ctx (by omega) hctx

theorem Sound.assign (h : Sound c) (outs : Outs) : Sound { c with outs := outs } :=
  ⟨h.pos, h.closed, h.depth, h.remaining⟩

theorem start_sound (buf : Bytes) (outs : Outs) : Sound (start buf outs) := by
  refine ⟨Nat.zero_le _, le_rfl, show (-1 : Int) ≤ 15 by decide, fun i ctx hi => ?_⟩
  change (i : Int) ≤ -1 at hi
  omega

end Stack

section Opened

variable {c : Cursor}

def opened (c : Cursor) : List Ctx := (c.stack.toList.take (c.depth + 1).toNat).reverse

theorem opened_closed (h : c.depth < 0) : opened c = [] := by
  have hzero : (c.depth + 1).toNat = 0 := by omega
  rw [opened, hzero, take_zero, reverse_nil]

theorem opened_length (h : Sound c) : (opened c).length = (c.depth + 1).toNat := by
  have hdepth := h.depth
  rw [opened, length_reverse, length_take, Vector.length_toList, maxDepth]
  omega

/-- One entry more of the stack is one context more. -/
theorem reverse_take_succ {stack : List Ctx} {k : Nat} {ctx : Ctx} (h : stack[k]? = some ctx) :
    (stack.take (k + 1)).reverse = ctx :: (stack.take k).reverse := by
  rw [take_add_one, h, Option.toList_some, reverse_append]
  rfl

theorem opened_set (h : Sound c) (hdepth : 0 ≤ c.depth) (ctx : Ctx) :
    opened (c.setTop ctx) = ctx :: opened { c with depth := c.depth - 1 } := by
  have hle := h.depth
  have hsucc : (c.depth + 1).toNat = c.depth.toNat + 1 := by omega
  have hpred : (c.depth - 1 + 1).toNat = c.depth.toNat := by omega
  change ((c.stack.setIfInBounds c.depth.toNat ctx).toList.take (c.depth + 1).toNat).reverse =
    ctx :: (c.stack.toList.take (c.depth - 1 + 1).toNat).reverse
  rw [Vector.toList_setIfInBounds, hsucc, hpred, reverse_take_succ, take_set_of_le le_rfl]
  rw [getElem?_set_self]
  rw [Vector.length_toList, maxDepth]
  omega

theorem opened_top (h : Sound c) (hdepth : 0 ≤ c.depth) :
    opened c = c.top :: opened { c with depth := c.depth - 1 } := by
  have hle := h.depth
  have hlt : c.depth.toNat < maxDepth := by
    rw [maxDepth]
    omega
  have hsucc : (c.depth + 1).toNat = c.depth.toNat + 1 := by omega
  have hpred : (c.depth - 1 + 1).toNat = c.depth.toNat := by omega
  change (c.stack.toList.take (c.depth + 1).toNat).reverse =
    c.top :: (c.stack.toList.take (c.depth - 1 + 1).toNat).reverse
  rw [hsucc, hpred, reverse_take_succ]
  rw [Vector.getElem?_toList, Cursor.top, Vector.getElem?_eq_getElem hlt]
  rfl

theorem opened_close (ctx : Ctx) : opened { c.setTop ctx with depth := c.depth - 1 } =
    opened { c with depth := c.depth - 1 } := by
  have hle : (c.depth - 1 + 1).toNat ≤ c.depth.toNat := by omega
  change ((c.stack.setIfInBounds c.depth.toNat ctx).toList.take (c.depth - 1 + 1).toNat).reverse = _
  rw [Vector.toList_setIfInBounds, take_set_of_le hle]
  rfl

theorem opened_push (h : Sound c) (hfull : ¬ c.full = true) (kind : CtxKind) (n itemBegin : Nat) :
    opened (after (push kind n itemBegin c)) = ⟨kind, n, itemBegin, 0, 0⟩ :: opened c := by
  have hclosed := h.closed
  rw [Cursor.full_iff] at hfull
  have hsucc : (c.depth + 1 + 1).toNat = (c.depth + 1).toNat + 1 := by omega
  change ((c.stack.setIfInBounds (c.depth + 1).toNat _).toList.take (c.depth + 1 + 1).toNat).reverse
    = _ :: (c.stack.toList.take (c.depth + 1).toNat).reverse
  rw [Vector.toList_setIfInBounds, hsucc, reverse_take_succ, take_set_of_le le_rfl]
  rw [getElem?_set_self]
  rw [Vector.length_toList, maxDepth]
  omega

theorem full_iff_opened (h : Sound c) : c.full = true ↔ (opened c).length ≥ maxDepth := by
  have hclosed := h.closed
  rw [opened_length h, Cursor.full_iff, maxDepth]
  omega

end Opened

end AntsClient.Cbor.Machine
