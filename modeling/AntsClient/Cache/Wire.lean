import AntsClient.Cbor.Sizes
import AntsClient.Chain.FieldReaders

namespace AntsClient.Cache.Wire

open Common Cbor Codec Tokens Crypto Crdt.Proof List

def embedDim : Nat := 1024

def embeddingWireLen : Nat := embedDim * 4

def maxHammingRadius : UInt32 := 3

/-- A pointer with its length; only the bytes behind a pointer that is not `NULL` exist. -/
inductive Buf
  | null (len : Nat)
  | data (b : Bytes)
  deriving DecidableEq

def Buf.len : Buf → Nat
  | .null len => len
  | .data b => b.length

def Buf.bytes : Buf → Bytes
  | .null _ => []
  | .data b => b

def Buf.isNull : Buf → Bool
  | .null _ => true
  | .data _ => false

structure Embedding where
  val : List UInt32
  length_val : val.length = embedDim
  deriving DecidableEq

structure Entry where
  embedding : Option Embedding
  embeddingModel : Buf
  promptHash : Bytes32
  response : Buf
  responseModel : Buf
  producer : Bytes32
  created : UInt64
  validityClass : UInt32
  attestation : Buf
  signature : Signature
  deriving DecidableEq

structure Match where
  entry : Entry
  similarity : UInt32
  deriving DecidableEq

structure LookupRequest where
  embedding : Embedding
  threshold : UInt32
  topK : UInt32
  hammingRadius : UInt32
  deriving DecidableEq

def floatToLeBytes (x : UInt32) : Bytes := leBytes 4 x.toNat

def leBytesToFloat (b : Bytes) : UInt32 := UInt32.ofNat (leNat b)

def floatsToLeBytes (floats : List UInt32) : Bytes := floats.flatMap floatToLeBytes

def leBytesToFloats : Bytes → List UInt32
  | a :: b :: c :: d :: rest => leBytesToFloat [a, b, c, d] :: leBytesToFloats rest
  | _ => []

variable {b : Bytes}

section Floats

theorem floatToLeBytes_length (x : UInt32) : (floatToLeBytes x).length = 4 := leBytes_length 4 x.toNat

theorem leBytesToFloat_floatToLeBytes (x : UInt32) : leBytesToFloat (floatToLeBytes x) = x := by
  rw [leBytesToFloat, floatToLeBytes, leNat_leBytes x.toNat_lt, UInt32.ofNat_toNat]

theorem floatToLeBytes_leBytesToFloat (h : b.length = 4) : floatToLeBytes (leBytesToFloat b) = b := by
  have hlt := leNat_lt b
  rw [h] at hlt
  rw [leBytesToFloat, floatToLeBytes, UInt32.toNat_ofNat_of_lt' hlt, ← h, leBytes_leNat]

theorem floatsToLeBytes_length (floats : List UInt32) :
    (floatsToLeBytes floats).length = floats.length * 4 := by
  induction floats with
  | nil => rfl
  | cons x floats ih =>
    rw [floatsToLeBytes, flatMap_cons, length_append, floatToLeBytes_length, ← floatsToLeBytes, ih, length_cons]
    ring

theorem leBytesToFloats_cons (hb : b.length = 4) (rest : Bytes) :
    leBytesToFloats (b ++ rest) = leBytesToFloat b :: leBytesToFloats rest := by
  match b, hb with
  | [_, _, _, _], _ => rfl

theorem leBytesToFloats_floatsToLeBytes (floats : List UInt32) :
    leBytesToFloats (floatsToLeBytes floats) = floats := by
  induction floats with
  | nil => rfl
  | cons x floats ih =>
    rw [floatsToLeBytes, flatMap_cons, ← floatsToLeBytes, leBytesToFloats_cons (floatToLeBytes_length x),
      leBytesToFloat_floatToLeBytes, ih]

theorem leBytesToFloats_length (n : Nat) (h : b.length = n * 4) : (leBytesToFloats b).length = n := by
  induction n generalizing b with
  | zero =>
    rw [length_eq_zero_iff.mp (h.trans (Nat.zero_mul 4))]
    rfl
  | succ n ih =>
    rw [← take_append_drop 4 b, leBytesToFloats_cons (by rw [length_take]; omega), length_cons,
      ih (by rw [length_drop]; omega)]

theorem floatsToLeBytes_leBytesToFloats (n : Nat) (h : b.length = n * 4) :
    floatsToLeBytes (leBytesToFloats b) = b := by
  induction n generalizing b with
  | zero =>
    rw [length_eq_zero_iff.mp (h.trans (Nat.zero_mul 4))]
    rfl
  | succ n ih =>
    have hfour : (b.take 4).length = 4 := by rw [length_take]; omega
    rw [← take_append_drop 4 b, leBytesToFloats_cons hfour, floatsToLeBytes, flatMap_cons, ← floatsToLeBytes,
      ih (by rw [length_drop]; omega), floatToLeBytes_leBytesToFloat hfour]

end Floats

def toEmbedding (b : Bytes) : Option Embedding :=
  if h : b.length = embeddingWireLen then some ⟨leBytesToFloats b, leBytesToFloats_length embedDim h⟩ else none

def Embedding.bytes (e : Embedding) : Bytes := floatsToLeBytes e.val

theorem Embedding.bytes_length (e : Embedding) : e.bytes.length = embeddingWireLen := by
  rw [Embedding.bytes, floatsToLeBytes_length, e.length_val]
  rfl

theorem toEmbedding_eq_some {e : Embedding} : toEmbedding b = some e ↔ b = e.bytes := by
  rw [toEmbedding]
  constructor
  · intro h
    split at h
    case isTrue hb =>
      obtain rfl := Option.some.inj h
      exact (floatsToLeBytes_leBytesToFloats embedDim hb).symm
    case isFalse => cases h
  · rintro rfl
    rw [dif_pos e.bytes_length, Option.some.injEq]
    obtain ⟨val, hval⟩ := e
    simp only [Embedding.bytes, leBytesToFloats_floatsToLeBytes]

/-- The pointers that must not be `NULL`, the lengths behind those that are, and the range
of the validity class. -/
def entryValidate (e : Entry) : Except Error Unit :=
  if e.embedding = none ∨ e.embeddingModel.isNull ∨ e.responseModel.isNull then .error .invalidArg
  else if e.response.len > 0 ∧ e.response.isNull then .error .invalidArg
  else if e.attestation.len > 0 ∧ e.attestation.isNull then .error .invalidArg
  else if e.validityClass > 4 then .error .invalidArg
  else .ok ()

def Entry.floats (e : Entry) : List UInt32 := (e.embedding.map Embedding.val).getD []

def entryEmit (e : Entry) (includeSignature : Bool) : EncM Unit := do
  encMap (if includeSignature then 10 else 9)
  encUint 1
  encBytes (floatsToLeBytes e.floats)
  encUint 2
  encText e.embeddingModel.bytes
  encUint 3
  encBytes e.promptHash.val
  encUint 4
  encBytes e.response.bytes
  encUint 5
  encText e.responseModel.bytes
  encUint 6
  encBytes e.producer.val
  encUint 7
  encUint e.created
  encUint 8
  encUint e.validityClass.toUInt64
  encUint 9
  encBytes e.attestation.bytes
  if includeSignature then
    encUint 10
    encBytes e.signature.val

def expectKey (want : UInt64) : DecM Unit := do
  let key ← decUint
  if key ≠ want then throw .nonCanonical

def orNonCanonical {α : Type} : Option α → DecM α
  | some a => pure a
  | none => throw .nonCanonical

def decMapOf (pairs : UInt64) : DecM Unit := do
  let n ← decMap
  if n ≠ pairs then throw .malformed

def decEmbedding : DecM Embedding := do
  let b ← decBytes
  orNonCanonical (toEmbedding b)

def decHash : DecM Bytes32 := do
  let b ← decBytes
  orNonCanonical (toBytes32 b)

def decSignature : DecM Signature := do
  let b ← decBytes
  orNonCanonical (toSignature b)

def decFloat : DecM UInt32 := do
  let b ← decBytes
  orNonCanonical (if b.length = 4 then some (leBytesToFloat b) else none)

def decUintUpTo (max : UInt64) : DecM UInt32 := do
  let v ← decUint
  if v > max then throw .nonCanonical
  return v.toUInt32

def entryConsume : DecM Entry := do
  decMapOf 10
  expectKey 1
  let embedding ← decEmbedding
  expectKey 2
  let embeddingModel ← decText
  expectKey 3
  let promptHash ← decHash
  expectKey 4
  let response ← decBytes
  expectKey 5
  let responseModel ← decText
  expectKey 6
  let producer ← decHash
  expectKey 7
  let created ← decUint
  expectKey 8
  let validityClass ← decUintUpTo 4
  expectKey 9
  let attestation ← decBytes
  expectKey 10
  let signature ← decSignature
  return {
    embedding := some embedding
    embeddingModel := .data embeddingModel
    promptHash := promptHash
    response := .data response
    responseModel := .data responseModel
    producer := producer
    created := created
    validityClass := validityClass
    attestation := .data attestation
    signature := signature }

def atEof : DecM Unit := fun d => if decEof d then .ok () d else .error .malformed d

def entryEncode (e : Entry) (buf : Bytes) : Except Error Bytes := do
  entryValidate e
  encodeBuf (entryEmit e true) buf

def entryDecode (buf : Bytes) : Except Error Entry := runDec (do let e ← entryConsume; atEof; return e) buf

def cacheEntryEmitSigningPayload (e : Entry) (buf : Bytes) : Except Error Bytes := do
  entryValidate e
  encodeBuf (entryEmit e false) buf

def lookupRequestEncode (req : LookupRequest) (buf : Bytes) : Except Error Bytes :=
  if req.hammingRadius > maxHammingRadius then .error .invalidArg
  else encodeBuf (do
    encMap 4
    encUint 1
    encBytes req.embedding.bytes
    encUint 2
    encBytes (floatToLeBytes req.threshold)
    encUint 3
    encUint req.topK.toUInt64
    encUint 4
    encUint req.hammingRadius.toUInt64) buf

def lookupRequestDecode (buf : Bytes) : Except Error LookupRequest := runDec (do
    decMapOf 4
    expectKey 1
    let embedding ← decEmbedding
    expectKey 2
    let threshold ← decFloat
    expectKey 3
    let topK ← decUintUpTo 0xffffffff
    expectKey 4
    let hammingRadius ← decUintUpTo maxHammingRadius.toUInt64
    atEof
    return ⟨embedding, threshold, topK, hammingRadius⟩) buf

def matchesEmit : List Match → EncM Unit
  | [] => pure ()
  | m :: rest => do
    encMap 2
    encUint 1
    encBytes (floatToLeBytes m.similarity)
    encUint 2
    entryEmit m.entry true
    matchesEmit rest

def entriesValidate : List Match → Except Error Unit
  | [] => .ok ()
  | m :: rest => do
    entryValidate m.entry
    entriesValidate rest

def lookupResponseEncode (found : List Match) (buf : Bytes) : Except Error Bytes := do
  entriesValidate found
  encodeBuf (do
    encMap 1
    encUint 1
    encArray (UInt64.ofNat found.length)
    matchesEmit found) buf

def matchConsume : DecM Match := do
  decMapOf 2
  expectKey 1
  let similarity ← decFloat
  expectKey 2
  let entry ← entryConsume
  return ⟨entry, similarity⟩

def matchesConsume : Nat → DecM (List Match)
  | 0 => pure []
  | n + 1 => do
    let m ← matchConsume
    let rest ← matchesConsume n
    return m :: rest

def lookupResponseDecode (buf : Bytes) (capMatches : Nat) : Except Error (List Match) := runDec (do
    decMapOf 1
    expectKey 1
    let n ← decArray
    let found ← matchesConsume (min n.toNat capMatches)
    if capMatches < n.toNat then throw .bufferTooSmall
    atEof
    return found) buf

end AntsClient.Cache.Wire
