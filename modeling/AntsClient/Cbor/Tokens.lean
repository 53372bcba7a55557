import AntsClient.Cbor.Frames

namespace AntsClient.Cbor.Tokens

open Common Head Codec Frames

/-- One call of the encode API with its arguments, and equally one call of the
decode API with the value it returned. -/
inductive Call
  | uint (v : UInt64)
  | int (v : Int64)
  | bytes (b : Bytes)
  | text (b : Bytes)
  | array (n : UInt64)
  | map (n : UInt64)
  | tag (t : UInt64)
  | bool (v : Bool)
  | null
  deriving DecidableEq, Repr

def encCall : Call → EncM Unit
  | .uint v => encUint v
  | .int v => encInt v
  | .bytes b => encBytes b
  | .text b => encText b
  | .array n => encArray n
  | .map n => encMap n
  | .tag t => encTag t
  | .bool v => encBool v
  | .null => encNull

inductive Reader
  | uint
  | int
  | bytes
  | text
  | array
  | map
  | tag
  | bool
  | null
  deriving DecidableEq, Repr

def decCall : Reader → DecM Call
  | .uint => .uint <$> decUint
  | .int => .int <$> decInt
  | .bytes => .bytes <$> decBytes
  | .text => .text <$> decText
  | .array => .array <$> decArray
  | .map => .map <$> decMap
  | .tag => .tag <$> decTag
  | .bool => .bool <$> decBool
  | .null => (fun _ => .null) <$> decNull

inductive Token
  | uint (n : Nat)
  | nint (n : Nat)
  | bytes (b : Bytes)
  | text (b : Bytes)
  | array (n : Nat)
  | map (n : Nat)
  | tag (t : Nat)
  | bool (v : Bool)
  | null
  deriving DecidableEq, Repr

def Token.enc : Token → Bytes
  | .uint n => head 0 n
  | .nint n => head 1 n
  | .bytes b => head 2 b.length ++ b
  | .text b => head 3 b.length ++ b
  | .array n => head 4 n
  | .map n => head 5 n
  | .tag t => head 6 t
  | .bool v => [if v then 0xf5 else 0xf4]
  | .null => [0xf6]

def Token.Valid : Token → Prop
  | .uint n | .array n | .map n => n < 2 ^ 64
  | .nint n => n < 2 ^ 63
  | .bytes b | .text b => b.length < 2 ^ 64
  | .tag t => t = 0 ∨ t = 32 ∨ t = 42
  | .bool _ | .null => True

def push (kind : CtxKind) (n : Nat) (bs : Bytes) (fs : List Frame) : Except Error (List Frame) :=
  if fs.length ≥ maxDepth then .error .overflow else .ok (⟨kind, n, bs, none⟩ :: fs)

def Token.step (t : Token) (fs : List Frame) : Except Error (List Frame) :=
  match t with
  | .array n => if n = 0 then absorb (head 4 0) fs else push .array n (head 4 n) fs
  | .map n => if n = 0 then absorb (head 5 0) fs else push .mapKey n (head 5 n) fs
  | .tag t => if t = 0 ∨ t = 32 ∨ t = 42 then push .tag 1 (head 6 t) fs else .error .unsupportedType
  | t => absorb t.enc fs

def steps (ts : List Token) (fs : List Frame) : Except Error (List Frame) :=
  ts.foldlM (fun fs t => t.step fs) fs

def Call.token : Call → Token
  | .uint v => .uint v.toNat
  | .int v => if v ≥ 0 then .uint v.toUInt64.toNat else .nint (~~~ v.toUInt64).toNat
  | .bytes b => .bytes b
  | .text b => .text b
  | .array n => .array n.toNat
  | .map n => .map n.toNat
  | .tag t => .tag t.toNat
  | .bool v => .bool v
  | .null => .null

def Call.reader : Call → Reader
  | .uint _ => .uint
  | .int _ => .int
  | .bytes _ => .bytes
  | .text _ => .text
  | .array _ => .array
  | .map _ => .map
  | .tag _ => .tag
  | .bool _ => .bool
  | .null => .null

def Token.call : Token → Call
  | .uint n => .uint (UInt64.ofNat n)
  | .nint n => .int (-1 - Int64.ofNat n)
  | .bytes b => .bytes b
  | .text b => .text b
  | .array n => .array (UInt64.ofNat n)
  | .map n => .map (UInt64.ofNat n)
  | .tag t => .tag (UInt64.ofNat t)
  | .bool v => .bool v
  | .null => .null

theorem head_length_pos (major : UInt8) (value : Nat) : 0 < (head major value).length := by
  rw [head]
  repeat' split
  all_goals simp

theorem Token.enc_ne_nil (t : Token) : t.enc ≠ [] := by
  have h (m : UInt8) (v : Nat) : head m v ≠ [] := List.length_pos_iff.mp (head_length_pos m v)
  cases t <;> simp [Token.enc, h]

theorem reservedTag_iff (t : UInt64) : reservedTag t = true ↔ t.toNat = 0 ∨ t.toNat = 32 ∨ t.toNat = 42 := by
  simp only [reservedTag, Bool.or_eq_true, decide_eq_true_eq, ← UInt64.toNat_inj, or_assoc]
  rfl

theorem steps_nil (fs : List Frame) : steps [] fs = .ok fs := rfl

theorem steps_cons (t : Token) (ts : List Token) (fs : List Frame) :
    steps (t :: ts) fs = (t.step fs).bind (steps ts) := rfl

theorem steps_append (ts us : List Token) (fs : List Frame) :
    steps (ts ++ us) fs = (steps ts fs).bind (steps us) := by
  simp only [steps, List.foldlM_append]
  rfl

theorem toUInt64_toNat (v : Int64) :
    (v.toUInt64.toNat : Int) = if 0 ≤ v.toInt then v.toInt else v.toInt + 2 ^ 64 := by
  have hlt : v.toUInt64.toNat < 2 ^ 64 := v.toUInt64.toNat_lt
  have h : v.toInt = if 2 * v.toUInt64.toNat < 2 ^ 64 then
      (v.toUInt64.toNat : Int) else v.toUInt64.toNat - 2 ^ 64 := by
    rw [← Int64.toInt_toBitVec, BitVec.toInt_eq_toNat_cond]
    rfl
  split at h <;> split <;> omega

variable {v : Int64} {n : Nat}

theorem int_token_nonneg (h : 0 ≤ v.toInt) : (Call.int v).token = .uint v.toInt.toNat := by
  have hv : v ≥ 0 := Int64.le_iff_toInt_le.mpr (by simpa using h)
  have hn := toUInt64_toNat v
  simp only [Call.token, if_pos hv]
  rw [if_pos h] at hn
  congr 1
  omega

theorem int_token_neg (h : v.toInt < 0) : (Call.int v).token = .nint (-1 - v.toInt).toNat := by
  have hv : ¬ v ≥ 0 := fun hv => by
    have := Int64.le_iff_toInt_le.mp hv
    simp at this
    omega
  have hn := toUInt64_toNat v
  simp only [Call.token, if_neg hv, UInt64.toNat_not]
  rw [if_neg (Int.not_le.mpr h)] at hn
  have hs : UInt64.size = 2 ^ 64 := rfl
  congr 1
  omega

theorem neg_ofNat_toInt (h : n < 2 ^ 63) : (-1 - Int64.ofNat n).toInt = -1 - n := by
  rw [Int64.toInt_sub, Int64.toInt_ofNat_of_lt h]
  have h1 : (-1 : Int64).toInt = -1 := by decide
  rw [h1]
  exact Int.bmod_eq_of_le (by omega) (by omega)

theorem ofNat_toNat (h : n < 2 ^ 64) : (UInt64.ofNat n).toNat = n :=
  UInt64.toNat_ofNat_of_lt h

theorem Token.token_call {t : Token} (h : t.Valid) : t.call.token = t := by
  cases t with
  | uint n | array n | map n => simp only [Token.call, Call.token, ofNat_toNat h]
  | nint n =>
    have hn := neg_ofNat_toInt h
    have hback : (-1 - (-1 - (n : Int))).toNat = n := by omega
    rw [Token.call, int_token_neg (by omega), hn, hback]
  | tag t =>
    have ht : t < 2 ^ 64 := by
      rcases h with rfl | rfl | rfl <;> norm_num
    simp only [Token.call, Call.token, ofNat_toNat ht]
  | bytes b | text b | bool v | null => rfl

theorem Call.int_valid (v : Int64) : (Call.int v).token.Valid := by
  have hlo := Int64.le_toInt v
  have hhi := Int64.toInt_lt v
  by_cases hv : 0 ≤ v.toInt
  · rw [int_token_nonneg hv]
    simp only [Token.Valid]
    omega
  · rw [int_token_neg (by omega)]
    simp only [Token.Valid]
    omega

theorem Call.token_valid {c : Call} {fs fs' : List Frame} (hs : c.token.step fs = .ok fs')
    (hl : c.token.enc.length < 2 ^ 64) : c.token.Valid := by
  cases c with
  | uint v | array v | map v => exact v.toNat_lt
  | int v => exact Call.int_valid v
  | bytes b | text b =>
    simp only [Call.token, Token.enc, List.length_append] at hl
    simp only [Call.token, Token.Valid]
    omega
  | tag t =>
    by_contra hn
    have hn' : ¬ (t.toNat = 0 ∨ t.toNat = 32 ∨ t.toNat = 42) := hn
    simp [Call.token, Token.step, hn'] at hs
  | bool v | null => trivial

end AntsClient.Cbor.Tokens
