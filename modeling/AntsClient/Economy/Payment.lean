import AntsClient.Chain.Blocks
import AntsClient.Crdt.Proof
import AntsClient.Lib.CString

namespace AntsClient.Economy.Payment

open Common Cbor.Codec Crdt.Proof Lib.CString Chain.Blocks

def maxSchemes : Nat := 8

def refMax : Nat := 128

def currencyMax : Nat := 8

def notesMax : Nat := 256

/-- `ants_payment_scheme_kind_t`; `unknown` is any value that is none of the enumerators. -/
inductive SchemeKind
  | none
  | ncs
  | fiatStripe
  | fiatLightning
  | subscription
  | custom
  | unknown
  deriving DecidableEq

inductive Scope
  | perQuery
  | session
  | subscription
  | unknown
  deriving DecidableEq

def kindWire : SchemeKind → UInt64
  | .none => 0
  | .ncs => 1
  | .fiatStripe => 2
  | .fiatLightning => 3
  | .subscription => 4
  | .custom => 5
  | .unknown => 6

def kindOf (u : UInt64) : SchemeKind :=
  if u = 0 then .none else if u = 1 then .ncs else if u = 2 then .fiatStripe else if u = 3 then .fiatLightning
  else if u = 4 then .subscription else if u = 5 then .custom else .unknown

def scopeWire : Scope → UInt64
  | .perQuery => 0
  | .session => 1
  | .subscription => 2
  | .unknown => 3

def scopeOf (u : UInt64) : Scope :=
  if u = 0 then .perQuery else if u = 1 then .session else if u = 2 then .subscription else .unknown

structure Scheme where
  kind : SchemeKind
  amount : UInt64
  currency : Text currencyMax
  refA : Text refMax
  refB : Text refMax

structure Terms where
  schemes : List Scheme
  validityUnixS : UInt64
  scope : Scope
  notes : Text notesMax

def fAmount : UInt32 := 1

def fCurrency : UInt32 := 2

def fRefA : UInt32 := 4

def fRefB : UInt32 := 8

def schemeFieldMask : SchemeKind → UInt32
  | .none => 0
  | .ncs => fRefA
  | .fiatStripe => fAmount ||| fCurrency ||| fRefA
  | .fiatLightning => fAmount ||| fRefA
  | .subscription => fRefA ||| fRefB
  | .custom => fRefA
  | .unknown => 0

def has (mask field : UInt32) : Bool := mask &&& field ≠ 0

def schemePairs (mask : UInt32) : UInt64 :=
  let n := 1
  let n := if has mask fAmount then n + 1 else n
  let n := if has mask fCurrency then n + 1 else n
  let n := if has mask fRefA then n + 1 else n
  if has mask fRefB then n + 1 else n

def kindValid (kind : SchemeKind) : Bool := kind ≠ .unknown

def schemeValid (s : Scheme) : Bool :=
  let mask := schemeFieldMask s.kind
  if !kindValid s.kind then false
  else if !s.currency.terminated || !s.refA.terminated || !s.refB.terminated then false
  else if !has mask fAmount && s.amount ≠ 0 then false
  else if !has mask fCurrency && s.currency.first ≠ 0 then false
  else if !has mask fRefA && s.refA.first ≠ 0 then false
  else if !has mask fRefB && s.refB.first ≠ 0 then false
  else if s.kind = .fiatStripe && s.currency.first = 0 then false
  else true

def termsInit : Terms := ⟨[], 0, .perQuery, .copy _ []⟩

def termsAddScheme (terms : Terms) (s : Scheme) : Except Error Terms :=
  if !schemeValid s then .error .invalidArg
  else if terms.schemes.length ≥ maxSchemes then .error .bufferTooSmall
  else .ok { terms with schemes := terms.schemes ++ [s] }

def termsIntersects (a b : Terms) : Bool := a.schemes.any fun s => b.schemes.any fun s' => s.kind = s'.kind

def encKvText {cap : Nat} (key : UInt64) (t : Text cap) : EncM Unit := do
  encUint key
  encText t.str

def encWhen (present : Bool) (x : EncM Unit) : EncM Unit := if present then x else pure ()

def encScheme (s : Scheme) : EncM Unit := do
  let mask := schemeFieldMask s.kind
  encMap (schemePairs mask)
  encKvUint 1 (kindWire s.kind)
  encWhen (has mask fAmount) (encKvUint 2 s.amount)
  encWhen (has mask fCurrency) (encKvText 3 s.currency)
  encWhen (has mask fRefA) (encKvText 4 s.refA)
  encWhen (has mask fRefB) (encKvText 5 s.refB)

def encSchemes : List Scheme → EncM Unit
  | [] => return ()
  | s :: rest => do
    encScheme s
    encSchemes rest

def encTerms (terms : Terms) : EncM Unit := do
  encMap 4
  encUint 1
  encArray (UInt64.ofNat terms.schemes.length)
  encSchemes terms.schemes
  encKvUint 2 terms.validityUnixS
  encKvUint 3 (scopeWire terms.scope)
  encKvText 4 terms.notes

def termsEncode (terms : Terms) (buf : Bytes) : Except Error Bytes :=
  if terms.schemes.length > maxSchemes then .error .invalidArg
  else if terms.scope = .unknown then .error .invalidArg
  else if !terms.notes.terminated then .error .invalidArg
  else if !terms.schemes.all schemeValid then .error .invalidArg
  else encodeBuf (encTerms terms) buf

def decodeTextInto (cap : Nat) : DecM (Text cap) := do
  let p ← normDecode decText
  if p.length ≥ cap then throw .malformed
  return .copy cap p

def decodeTextField (key : UInt64) (cap : Nat) : DecM (Text cap) := do
  expectKey key
  decodeTextInto cap

def decWhen {α : Type} (present : Bool) (x : DecM α) (absent : α) : DecM α := if present then x else pure absent

/-- The scheme starts as zeros, so a field that its kind does not carry is zero. -/
def decodeScheme : DecM Scheme := do
  let nPairs ← normDecode decMap
  let kindU ← decodeUintField 1
  if kindU > 5 then throw .malformed
  let kind := kindOf kindU
  let mask := schemeFieldMask kind
  if nPairs ≠ schemePairs mask then throw .malformed
  let amount ← decWhen (has mask fAmount) (decodeUintField 2) 0
  let currency ← decWhen (has mask fCurrency) (decodeTextField 3 currencyMax) (.copy _ [])
  let refA ← decWhen (has mask fRefA) (decodeTextField 4 refMax) (.copy _ [])
  let refB ← decWhen (has mask fRefB) (decodeTextField 5 refMax) (.copy _ [])
  if !schemeValid ⟨kind, amount, currency, refA, refB⟩ then throw .malformed
  return ⟨kind, amount, currency, refA, refB⟩

def decodeSchemes : Nat → DecM (List Scheme)
  | 0 => return []
  | n + 1 => do
    let s ← decodeScheme
    let rest ← decodeSchemes n
    return s :: rest

def decodeTerms : DecM Terms := do
  decodePairs 4
  expectKey 1
  let n ← normDecode decArray
  if n.toNat > maxSchemes then throw .malformed
  let schemes ← decodeSchemes n.toNat
  let validity ← decodeUintField 2
  let scopeU ← decodeUintField 3
  if scopeU > 2 then throw .malformed
  let notes ← decodeTextField 4 notesMax
  decodeFinish
  return ⟨schemes, validity, scopeOf scopeU, notes⟩

def termsDecode (buf : Bytes) : Except Error Terms := runDec decodeTerms buf

variable {u : UInt64}

section Valid

theorem kindWire_kindOf (h : ¬ u > 5) : kindWire (kindOf u) = u := by
  have hle : u.toNat ≤ 5 := UInt64.le_iff_toNat_le.mp (UInt64.not_lt.mp h)
  obtain ⟨n, hn, rfl⟩ : ∃ n, n ≤ 5 ∧ UInt64.ofNat n = u := ⟨u.toNat, hle, UInt64.ofNat_toNat⟩
  interval_cases n <;> rfl

theorem kindOf_kindWire (k : SchemeKind) : kindOf (kindWire k) = k := by cases k <;> rfl

theorem kindWire_le {k : SchemeKind} (h : k ≠ .unknown) : ¬ kindWire k > 5 := by
  cases k with
  | unknown => exact absurd rfl h
  | none | ncs | fiatStripe | fiatLightning | subscription | custom => decide

theorem scopeWire_scopeOf (h : ¬ u > 2) : scopeWire (scopeOf u) = u := by
  have hle : u.toNat ≤ 2 := UInt64.le_iff_toNat_le.mp (UInt64.not_lt.mp h)
  obtain ⟨n, hn, rfl⟩ : ∃ n, n ≤ 2 ∧ UInt64.ofNat n = u := ⟨u.toNat, hle, UInt64.ofNat_toNat⟩
  interval_cases n <;> rfl

theorem scopeOf_scopeWire (s : Scope) : scopeOf (scopeWire s) = s := by cases s <;> rfl

theorem scopeWire_le {s : Scope} (h : s ≠ .unknown) : ¬ scopeWire s > 2 := by
  cases s with
  | unknown => exact absurd rfl h
  | perQuery | session | subscription => decide

theorem scopeOf_ne_unknown (h : ¬ u > 2) : scopeOf u ≠ .unknown := by
  intro hs
  have hwire := scopeWire_scopeOf h
  rw [hs] at hwire
  exact h (hwire ▸ by decide)

end Valid

end AntsClient.Economy.Payment
