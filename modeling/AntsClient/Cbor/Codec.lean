import AntsClient.Cbor.Head

namespace AntsClient.Cbor.Codec

open Common Head

def maxDepth : Nat := 16

inductive CtxKind
  | none
  | array
  | mapKey
  | mapValue
  | tag
  deriving DecidableEq, Repr

structure Ctx where
  kind : CtxKind
  remaining : Nat
  containerBegin : Nat
  lastKeyBegin : Nat
  lastKeyEnd : Nat
  deriving DecidableEq, Repr

def compareKeys (a b : Bytes) : Ordering :=
  let minLen := if a.length < b.length then a.length else b.length
  let c := memcmp (a.take minLen) (b.take minLen)
  if c ≠ .eq then c
  else if a.length < b.length then .lt
  else if a.length > b.length then .gt
  else .eq

/-- The loop that `enc_track_item` and `dec_track_item` share, over the open contexts, innermost
first. One that fills is closed and registered as an item in its parent. -/
def trackItem (buf : Bytes) (pos : Nat) : List Ctx → Nat → Except Error (List Ctx)
  | [], _ => .ok []
  | c :: rest, itemBegin =>
    if c.kind = .none ∨ c.remaining = 0 then .error .malformed
    else match c.kind with
      | .mapKey =>
        if 0 < c.lastKeyEnd ∧
            compareKeys (slice buf c.lastKeyBegin c.lastKeyEnd) (slice buf itemBegin pos) ≠ .lt then
          .error .nonCanonical
        else
          .ok ({ c with kind := .mapValue, lastKeyBegin := itemBegin, lastKeyEnd := pos } :: rest)
      | .mapValue =>
        if c.remaining - 1 = 0 then trackItem buf pos rest c.containerBegin
        else .ok ({ c with kind := .mapKey, remaining := c.remaining - 1 } :: rest)
      | _ =>
        if c.remaining - 1 = 0 then trackItem buf pos rest c.containerBegin
        else .ok ({ c with remaining := c.remaining - 1 } :: rest)

structure Enc where
  buf : Bytes
  pos : Nat
  stack : List Ctx
  deriving DecidableEq, Repr

abbrev EncM := EStateM Error Enc

def encInit (buf : Bytes) : Except Error Enc :=
  if buf.length = 0 then .error .invalidArg else .ok ⟨buf, 0, []⟩

def Enc.put (e : Enc) (bs : Bytes) : Enc :=
  { e with buf := e.buf.take e.pos ++ bs ++ e.buf.drop (e.pos + bs.length), pos := e.pos + bs.length }

def cborWriteHead (major : UInt8) (value : Nat) : EncM Unit := fun e =>
  if e.pos + (head major value).length > e.buf.length then .error .bufferTooSmall e
  else .ok () (e.put (head major value))

def encPayload (b : Bytes) : EncM Unit := fun e =>
  if b.length > e.buf.length - e.pos then .error .bufferTooSmall e else .ok () (e.put b)

def encTrackItem (itemBegin : Nat) : EncM Unit := fun e =>
  match trackItem e.buf e.pos e.stack itemBegin with
  | .ok stack => .ok () { e with stack := stack }
  | .error err => .error err e

def encOpen (kind : CtxKind) (n itemBegin : Nat) : EncM Unit := fun e =>
  if e.stack.length ≥ maxDepth then .error .overflow e
  else .ok () { e with stack := ⟨kind, n, itemBegin, 0, 0⟩ :: e.stack }

/-- Every failing path of an encode call ends with `enc->pos = item_begin`. -/
def encItem (body : Nat → EncM Unit) : EncM Unit := fun e =>
  match body e.pos e with
  | .ok _ e' => .ok () e'
  | .error err e' => .error err { e' with pos := e.pos }

def encUint (v : UInt64) : EncM Unit := encItem fun itemBegin => do
  cborWriteHead 0 v.toNat
  encTrackItem itemBegin

def encInt (v : Int64) : EncM Unit := encItem fun itemBegin => do
  if v ≥ 0 then cborWriteHead 0 v.toUInt64.toNat else cborWriteHead 1 (~~~ v.toUInt64).toNat
  encTrackItem itemBegin

def encString (major : UInt8) (b : Bytes) : EncM Unit := encItem fun itemBegin => do
  cborWriteHead major b.length
  encPayload b
  encTrackItem itemBegin

def encBytes (b : Bytes) : EncM Unit := encString 2 b

def encText (b : Bytes) : EncM Unit := encString 3 b

def encContainer (major : UInt8) (kind : CtxKind) (n : UInt64) : EncM Unit := encItem fun itemBegin => do
  cborWriteHead major n.toNat
  if n = 0 then encTrackItem itemBegin else encOpen kind n.toNat itemBegin

def encArray (n : UInt64) : EncM Unit := encContainer 4 .array n

def encMap (n : UInt64) : EncM Unit := encContainer 5 .mapKey n

def encSimple (b : UInt8) : EncM Unit := encItem fun itemBegin => do
  encPayload [b]
  encTrackItem itemBegin

def encBool (v : Bool) : EncM Unit := encSimple (if v then 0xf5 else 0xf4)

def encNull : EncM Unit := encSimple 0xf6

def reservedTag (t : UInt64) : Bool := t = 0 || t = 32 || t = 42

def encTag (t : UInt64) : EncM Unit := encItem fun itemBegin => do
  if !reservedTag t then throw .unsupportedType
  if (← get).stack.length ≥ maxDepth then throw .overflow
  cborWriteHead 6 t.toNat
  encOpen .tag 1 itemBegin

def encSize (e : Enc) : Nat := e.pos

def encFinalise (e : Enc) : Except Error Unit :=
  if e.stack ≠ [] then .error .malformed
  else if e.pos = 0 then .error .malformed
  else .ok ()

def encodeBuf (x : EncM Unit) (buf : Bytes) : Except Error Bytes :=
  match encInit buf with
  | .error err => .error err
  | .ok e =>
    match x e with
    | .error err _ => .error err
    | .ok _ e' => (encFinalise e').map fun _ => e'.buf.take (encSize e')

structure Dec where
  buf : Bytes
  pos : Nat
  stack : List Ctx
  deriving DecidableEq, Repr

abbrev DecM := EStateM Error Dec

def decInit (buf : Bytes) : Dec := ⟨buf, 0, []⟩

inductive ItemType
  | uint
  | negint
  | bytes
  | text
  | array
  | map
  | tag
  | bool
  | null
  deriving DecidableEq, Repr

def readWide (width min : Nat) : DecM Nat := fun d =>
  if d.pos + width > d.buf.length then .error .malformed d
  else
    let v := beNat (slice d.buf d.pos (d.pos + width))
    let d' := { d with pos := d.pos + width }
    if v < min then .error .nonCanonical d' else .ok v d'

def cborReadHead : DecM (UInt8 × Nat) := fun d =>
  match d.buf[d.pos]? with
  | none => .error .malformed d
  | some b =>
    let d' := { d with pos := d.pos + 1 }
    let major := b >>> 5
    let info := b &&& 0x1f
    if info < 24 then .ok (major, info.toNat) d'
    else if info = 24 then ((major, ·) <$> readWide 1 24) d'
    else if info = 25 then ((major, ·) <$> readWide 2 256) d'
    else if info = 26 then ((major, ·) <$> readWide 4 65536) d'
    else if info = 27 then ((major, ·) <$> readWide 8 0x100000000) d'
    else .error .nonCanonical d'

def decPeekType (d : Dec) : Except Error ItemType :=
  match d.buf[d.pos]? with
  | none => .error .malformed
  | some b =>
    let info := b &&& 0x1f
    match (b >>> 5).toNat with
    | 0 => .ok .uint
    | 1 => .ok .negint
    | 2 => .ok .bytes
    | 3 => .ok .text
    | 4 => .ok .array
    | 5 => .ok .map
    | 6 => .ok .tag
    | 7 =>
      if info = 20 ∨ info = 21 then .ok .bool
      else if info = 22 then .ok .null
      else .error .unsupportedType
    | _ => .error .malformed

def decTrackItem (itemBegin : Nat) : DecM Unit := fun d =>
  match trackItem d.buf d.pos d.stack itemBegin with
  | .ok stack => .ok () { d with stack := stack }
  | .error err => .error err d

def decOpen (kind : CtxKind) (n itemBegin : Nat) : DecM Unit := fun d =>
  if d.stack.length ≥ maxDepth then .error .overflow d
  else .ok () { d with stack := ⟨kind, n, itemBegin, 0, 0⟩ :: d.stack }

/-- Every failing path of a decode call ends with `dec->pos = saved`. -/
def decItem {α : Type} (body : Nat → DecM α) : DecM α := fun d =>
  match body d.pos d with
  | .ok a d' => .ok a d'
  | .error err d' => .error err { d' with pos := d.pos }

def decUint : DecM UInt64 := decItem fun saved => do
  let (major, value) ← cborReadHead
  if major ≠ 0 then throw .unsupportedType
  decTrackItem saved
  return UInt64.ofNat value

def int64Max : Nat := 2 ^ 63 - 1

def decInt : DecM Int64 := decItem fun saved => do
  let (major, value) ← cborReadHead
  if major ≠ 0 ∧ major ≠ 1 then throw .unsupportedType
  if value > int64Max then throw .overflow
  decTrackItem saved
  return if major = 0 then Int64.ofNat value else -1 - Int64.ofNat value

def decString (want : UInt8) : DecM Bytes := decItem fun saved => do
  let (major, value) ← cborReadHead
  if major ≠ want then throw .unsupportedType
  let d ← get
  if value > d.buf.length - d.pos then throw .malformed
  set { d with pos := d.pos + value }
  decTrackItem saved
  return slice d.buf d.pos (d.pos + value)

def decBytes : DecM Bytes := decString 2

def decText : DecM Bytes := decString 3

def decContainer (want : UInt8) (kind : CtxKind) : DecM UInt64 := decItem fun saved => do
  let (major, value) ← cborReadHead
  if major ≠ want then throw .unsupportedType
  if value = 0 then decTrackItem saved else decOpen kind value saved
  return UInt64.ofNat value

def decArray : DecM UInt64 := decContainer 4 .array

def decMap : DecM UInt64 := decContainer 5 .mapKey

def decTag : DecM UInt64 := decItem fun saved => do
  let (major, value) ← cborReadHead
  if major ≠ 6 then throw .unsupportedType
  if !reservedTag (UInt64.ofNat value) then throw .unsupportedType
  decOpen .tag 1 saved
  return UInt64.ofNat value

def decByte (accept : UInt8 → Bool) : DecM UInt8 := decItem fun saved => do
  let d ← get
  match d.buf[d.pos]? with
  | none => throw .malformed
  | some b =>
    if !accept b then throw .unsupportedType
    set { d with pos := d.pos + 1 }
    decTrackItem saved
    return b

def decBool : DecM Bool := do
  let b ← decByte fun b => b = 0xf4 || b = 0xf5
  return b = 0xf5

def decNull : DecM Unit := do
  let _ ← decByte fun b => b = 0xf6

def decEof (d : Dec) : Bool := d.pos ≥ d.buf.length

def decFinalise (d : Dec) : Except Error Unit :=
  if d.stack ≠ [] then .error .malformed
  else if d.pos ≠ d.buf.length then .error .malformed
  else .ok ()

def repeatWalk {σ : Type} (body : EStateM Error σ Unit) : Nat → EStateM Error σ Unit
  | 0 => pure ()
  | n + 1 => do
    body
    repeatWalk body n

/-- `walk_one_item`; by `walkOneItem_fuel` the bound on its recursion is never what stops it. -/
def walkOneItem : Nat → DecM Unit
  | 0 => throw .overflow
  | fuel + 1 => do
    let d ← get
    if decEof d then throw .malformed
    match decPeekType d with
    | .error err => throw err
    | .ok .uint => discard decUint
    | .ok .negint => discard decInt
    | .ok .bytes => discard decBytes
    | .ok .text => discard decText
    | .ok .array =>
      let n ← decArray
      repeatWalk (walkOneItem fuel) n.toNat
    | .ok .map =>
      let n ← decMap
      repeatWalk (do walkOneItem fuel; walkOneItem fuel) n.toNat
    | .ok .tag =>
      let _ ← decTag
      walkOneItem fuel
    | .ok .bool => discard decBool
    | .ok .null => decNull

def isCanonical (b : Bytes) : Except Error Unit :=
  if b.length = 0 then .error .malformed
  else match walkOneItem (b.length + 1) (decInit b) with
    | .error err _ => .error err
    | .ok _ d =>
      if !decEof d then .error .malformed
      else if d.stack ≠ [] then .error .malformed
      else .ok ()

end AntsClient.Cbor.Codec
