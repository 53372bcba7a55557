import AntsClient.Cbor.Tokens

namespace AntsClient.Cbor.Values

open Common Head Codec Frames Tokens
open List hiding all_map

variable {n : Nat}

/-- The data model: `nint n` is the integer `-1 - n`, the strings are raw bytes. -/
inductive Value
  | uint (n : Nat)
  | nint (n : Nat)
  | bytes (b : Bytes)
  | text (b : Bytes)
  | array (vs : List Value)
  | map (kvs : List (Value × Value))
  | tag (t : Nat) (v : Value)
  | bool (v : Bool)
  | null

variable {p : Value → Prop} {vs : List Value} {kvs : List (Value × Value)}

namespace Value

mutual

def tokens : Value → List Token
  | .uint n => [.uint n]
  | .nint n => [.nint n]
  | .bytes b => [.bytes b]
  | .text b => [.text b]
  | .array vs => .array vs.length :: tokensList vs
  | .map kvs => .map kvs.length :: tokensPairs kvs
  | .tag t v => .tag t :: tokens v
  | .bool v => [.bool v]
  | .null => [.null]

def tokensList : List Value → List Token
  | [] => []
  | v :: vs => tokens v ++ tokensList vs

def tokensPairs : List (Value × Value) → List Token
  | [] => []
  | (k, v) :: kvs => (tokens k ++ tokens v) ++ tokensPairs kvs

end

mutual

def depth : Value → Nat
  | .array vs => if vs.isEmpty then 0 else 1 + depthList vs
  | .map kvs => if kvs.isEmpty then 0 else 1 + depthPairs kvs
  | .tag _ v => 1 + depth v
  | _ => 0

def depthList : List Value → Nat
  | [] => 0
  | v :: vs => max (depth v) (depthList vs)

def depthPairs : List (Value × Value) → Nat
  | [] => 0
  | (k, v) :: kvs => max (max (depth k) (depth v)) (depthPairs kvs)

end

mutual

def All (p : Value → Prop) : Value → Prop
  | .array vs => p (.array vs) ∧ AllList p vs
  | .map kvs => p (.map kvs) ∧ AllPairs p kvs
  | .tag t v => p (.tag t v) ∧ All p v
  | v => p v

def AllList (p : Value → Prop) : List Value → Prop
  | [] => True
  | v :: vs => All p v ∧ AllList p vs

def AllPairs (p : Value → Prop) : List (Value × Value) → Prop
  | [] => True
  | (k, v) :: kvs => (All p k ∧ All p v) ∧ AllPairs p kvs

end

def encode (v : Value) : Bytes := v.tokens.flatMap Token.enc

def InRange : Value → Prop
  | .uint n => n < 2 ^ 64
  | .nint n => n < 2 ^ 63
  | .bytes b | .text b => b.length < 2 ^ 64
  | .array vs => vs.length < 2 ^ 64
  | .map kvs => kvs.length < 2 ^ 64
  | .tag t _ => t = 0 ∨ t = 32 ∨ t = 42
  | .bool _ | .null => True

def keys (kvs : List (Value × Value)) : List Bytes := kvs.map fun kv => kv.1.encode

def KeysAscend : Value → Prop
  | .map kvs => (keys kvs).IsChain (· < ·)
  | _ => True

/-- The numbers fit their headers, the encoded keys of every map ascend, and the nesting fits the
stack. -/
structure WellFormed (v : Value) : Prop where
  inRange : All InRange v
  keysAscend : All KeysAscend v
  depth : depth v ≤ maxDepth

@[elab_as_elim, induction_eliminator]
theorem induct {P : Value → Prop} (uint : ∀ n, P (.uint n)) (nint : ∀ n, P (.nint n))
    (bytes : ∀ b, P (.bytes b))
    (text : ∀ b, P (.text b)) (array : ∀ vs, (∀ v ∈ vs, P v) → P (.array vs))
    (map : ∀ kvs : List (Value × Value), (∀ kv ∈ kvs, P kv.1 ∧ P kv.2) → P (.map kvs))
    (tag : ∀ t v, P v → P (.tag t v)) (bool : ∀ v, P (.bool v)) (null : P .null) (v : Value) : P v :=
  @Value.rec P (fun vs => ∀ v ∈ vs, P v) (fun kvs => ∀ kv ∈ kvs, P kv.1 ∧ P kv.2) (fun kv => P kv.1 ∧ P kv.2)
    uint nint bytes text array map tag bool null
    (fun _ h => absurd h not_mem_nil) (fun _ _ hv hvs => forall_mem_cons.mpr ⟨hv, hvs⟩)
    (fun _ h => absurd h not_mem_nil) (fun _ _ hkv hkvs => forall_mem_cons.mpr ⟨hkv, hkvs⟩)
    (fun _ _ hk hv => ⟨hk, hv⟩) v

theorem tokensList_eq (vs : List Value) : tokensList vs = vs.flatMap tokens := by
  induction vs with
  | nil => rfl
  | cons v vs ih => rw [tokensList, ih, flatMap_cons]

theorem tokensPairs_eq (kvs : List (Value × Value)) : tokensPairs kvs = kvs.flatMap fun kv =>
    tokens kv.1 ++ tokens kv.2 := by
  induction kvs with
  | nil => rfl
  | cons kv kvs ih => rw [tokensPairs, ih, flatMap_cons]

theorem tokens_array (vs : List Value) : tokens (.array vs) = .array vs.length :: vs.flatMap tokens := by
  rw [tokens, tokensList_eq]

theorem tokens_map (kvs : List (Value × Value)) :
    tokens (.map kvs) = .map kvs.length :: kvs.flatMap fun kv => tokens kv.1 ++ tokens kv.2 := by
  rw [tokens, tokensPairs_eq]

theorem allList_iff : AllList p vs ↔ ∀ v ∈ vs, All p v := by
  induction vs with
  | nil => simp [AllList]
  | cons v vs ih => rw [AllList, forall_mem_cons, ih]

theorem allPairs_iff : AllPairs p kvs ↔ ∀ kv ∈ kvs, All p kv.1 ∧ All p kv.2 := by
  induction kvs with
  | nil => simp [AllPairs]
  | cons kv kvs ih => rw [AllPairs, forall_mem_cons, ih]

theorem all_array : All p (.array vs) ↔ p (.array vs) ∧ ∀ v ∈ vs, All p v := by
  rw [All, allList_iff]

theorem all_map : All p (.map kvs) ↔ p (.map kvs) ∧ ∀ kv ∈ kvs, All p kv.1 ∧ All p kv.2 := by
  rw [All, allPairs_iff]

theorem depthList_le : depthList vs ≤ n ↔ ∀ v ∈ vs, depth v ≤ n := by
  induction vs with
  | nil => simp [depthList]
  | cons v vs ih => rw [depthList, forall_mem_cons, ← ih, max_le_iff]

theorem depthPairs_le : depthPairs kvs ≤ n ↔ ∀ kv ∈ kvs, depth kv.1 ≤ n ∧ depth kv.2 ≤ n := by
  induction kvs with
  | nil => simp [depthPairs]
  | cons kv kvs ih => rw [depthPairs, forall_mem_cons, ← ih, max_le_iff, max_le_iff]

variable {m : Nat} {v : Value} {ts : List Token} {last : Option Bytes}

theorem forall_depth_le {α : Type} {xs : List α} {f : α → Nat} (h : xs ≠ []) :
    (∀ x ∈ xs, f x + (m + 1) ≤ n) ↔ (∀ x ∈ xs, f x ≤ n - (m + 1)) ∧ m < n := by
  constructor
  · intro h'
    obtain ⟨x, hx⟩ := exists_mem_of_ne_nil xs h
    exact ⟨fun x hx => by have := h' x hx; omega, by have := h' x hx; omega⟩
  · rintro ⟨h', hn⟩ x hx
    have := h' x hx
    omega

theorem depth_array_le (h : vs ≠ []) : depth (.array vs) + m ≤ n ↔ m < n ∧ ∀ v ∈ vs, depth v + (m + 1) ≤ n := by
  rw [depth, if_neg (by simpa using h), forall_depth_le h, ← depthList_le]
  omega

theorem depth_map_le (h : kvs ≠ []) :
    depth (.map kvs) + m ≤ n ↔ m < n ∧ ∀ kv ∈ kvs, depth kv.1 + (m + 1) ≤ n ∧ depth kv.2 + (m + 1) ≤ n := by
  have hmax : (∀ kv ∈ kvs, depth kv.1 + (m + 1) ≤ n ∧ depth kv.2 + (m + 1) ≤ n) ↔ ∀ kv ∈ kvs,
      max (depth kv.1) (depth kv.2) + (m + 1) ≤ n :=
    forall₂_congr fun kv _ => by omega
  simp only [depth, if_neg (show ¬ kvs.isEmpty by simpa using h), hmax, forall_depth_le h,
    max_le_iff, ← depthPairs_le]
  omega

theorem encode_array (vs : List Value) : encode (.array vs) = head 4 vs.length ++ vs.flatMap encode := by
  simp only [encode, tokens_array, flatMap_cons, Token.enc, flatMap_assoc]
  rfl

theorem encode_map (kvs : List (Value × Value)) :
    encode (.map kvs) = head 5 kvs.length ++ kvs.flatMap fun kv => encode kv.1 ++ encode kv.2 := by
  simp only [encode, tokens_map, flatMap_cons, Token.enc, flatMap_assoc, flatMap_append]

theorem encode_tag (t : Nat) (v : Value) : encode (.tag t v) = head 6 t ++ encode v := by
  simp only [encode, tokens, flatMap_cons, Token.enc]

end Value

open Value

/-- Taking the tokens of `v` one by one absorbs its encoding if its keys ascend and the stack has
room, and fails otherwise. -/
def Settles (v : Value) : Prop :=
  ∀ fs fs', fs.length ≤ maxDepth → (steps (tokens v) fs = .ok fs' ↔
    All KeysAscend v ∧ depth v + fs.length ≤ maxDepth ∧ absorb (encode v) fs = .ok fs')

theorem Settles.steps_append (hv : Settles v) (hfs : fs.length ≤ maxDepth) :
    steps (tokens v ++ ts) fs = .ok fs' ↔
      All KeysAscend v ∧ depth v + fs.length ≤ maxDepth ∧ (absorb (encode v) fs).bind (steps ts) = .ok fs' := by
  rw [Tokens.steps_append, except_bind_eq_ok, except_bind_eq_ok]
  constructor
  · rintro ⟨gs, hs, hr⟩
    obtain ⟨ha, hd, hab⟩ := (hv fs gs hfs).mp hs
    exact ⟨ha, hd, gs, hab, hr⟩
  · rintro ⟨ha, hd, gs, hab, hr⟩
    exact ⟨gs, (hv fs gs hfs).mpr ⟨ha, hd, hab⟩, hr⟩

theorem steps_array (hne : vs ≠ []) (ih : ∀ v ∈ vs, Settles v) (hfs : fs.length < maxDepth) :
    steps (vs.flatMap tokens) (⟨.array, vs.length, bs, last⟩ :: fs) = .ok fs' ↔
      (∀ v ∈ vs, All KeysAscend v) ∧ (∀ v ∈ vs, depth v + (fs.length + 1) ≤ maxDepth) ∧
      absorb (bs ++ vs.flatMap encode) fs = .ok fs' := by
  have hroom (f : Frame) : (f :: fs).length ≤ maxDepth := hfs
  induction vs generalizing bs with
  | nil => exact absurd rfl hne
  | cons v vs ihl =>
    obtain ⟨hv, hvs⟩ := forall_mem_cons.mp ih
    cases vs with
    | nil =>
      have h := hv (⟨.array, 1, bs, last⟩ :: fs) fs' hfs
      rw [absorb_array_last] at h
      simpa using h
    | cons w ws =>
      have habs : absorb (encode v) (⟨.array, (v :: w :: ws).length, bs, last⟩ :: fs) =
          .ok (⟨.array, (w :: ws).length, bs ++ encode v, last⟩ :: fs) := absorb_array_next ..
      have hflat : bs ++ (v :: w :: ws).flatMap encode = (bs ++ encode v) ++ (w :: ws).flatMap encode := by
        rw [flatMap_cons, append_assoc]
      rw [hflat, flatMap_cons, hv.steps_append (hroom _), habs, Except.bind]
      have hrest : _ ↔ _ := @ihl (bs ++ encode v) (cons_ne_nil _ _) hvs
      rw [hrest]
      simp only [forall_mem_cons, length_cons]
      tauto

theorem steps_map (hne : kvs ≠ []) (ih : ∀ kv ∈ kvs, Settles kv.1 ∧ Settles kv.2) (hfs : fs.length < maxDepth) :
    steps (kvs.flatMap fun kv => tokens kv.1 ++ tokens kv.2) (⟨.mapKey, kvs.length, bs, last⟩ :: fs) = .ok fs' ↔
      (∀ kv ∈ kvs, All KeysAscend kv.1 ∧ All KeysAscend kv.2) ∧ (last.toList ++ Value.keys kvs).IsChain (· < ·) ∧
        (∀ kv ∈ kvs, depth kv.1 + (fs.length + 1) ≤ maxDepth ∧ depth kv.2 + (fs.length + 1) ≤ maxDepth) ∧
          absorb (bs ++ kvs.flatMap fun kv => encode kv.1 ++ encode kv.2) fs = .ok fs' := by
  have hroom (f : Frame) : (f :: fs).length ≤ maxDepth := hfs
  induction kvs generalizing bs last with
  | nil => exact absurd rfl hne
  | cons kv kvs ihl =>
    obtain ⟨⟨hk, hv⟩, hkvs⟩ := forall_mem_cons.mp ih
    have hchain : (last.toList ++ Value.keys (kv :: kvs)).IsChain (· < ·) ↔
        (∀ k ∈ last, k < encode kv.1) ∧ (([encode kv.1] : List Bytes) ++ Value.keys kvs).IsChain (· < ·) := by
      cases last <;> simp [Value.keys]
    have hkey : absorb (encode kv.1) (⟨.mapKey, (kv :: kvs).length, bs, last⟩ :: fs) = _ := absorb_key ..
    rw [hchain, flatMap_cons, append_assoc, hk.steps_append (hroom _), hkey]
    by_cases hlt : ∀ k ∈ last, k < encode kv.1
    · rw [if_pos hlt]
      have hflat : bs ++ (kv :: kvs).flatMap (fun kv => encode kv.1 ++ encode kv.2) =
          (bs ++ encode kv.1 ++ encode kv.2) ++ kvs.flatMap fun kv => encode kv.1 ++ encode kv.2 := by
        rw [flatMap_cons, append_assoc, append_assoc, append_assoc]
      rw [Except.bind, hv.steps_append (hroom _), hflat]
      cases kvs with
      | nil =>
        rw [length_nil, Nat.zero_add, absorb_value_last]
        have hid : ∀ x : Except Error (List Frame), x.bind (steps []) = x := by
          rintro (_ | _) <;> rfl
        simp only [flatMap_nil, hid, append_nil, Value.keys, map_nil, length_cons]
        simp
        tauto
      | cons kw kws =>
        have hval : absorb (encode kv.2)
            (⟨.mapValue, (kw :: kws).length + 1, bs ++ encode kv.1, some (encode kv.1)⟩ :: fs) =
            .ok (⟨.mapKey, (kw :: kws).length, bs ++ encode kv.1 ++ encode kv.2, some (encode kv.1)⟩ :: fs) :=
          absorb_value_next ..
        have hrest : _ ↔ _ :=
          @ihl (bs ++ encode kv.1 ++ encode kv.2) (some (encode kv.1)) (cons_ne_nil _ _) hkvs
        rw [hval, Except.bind, hrest]
        simp only [forall_mem_cons, length_cons, Option.toList_some]
        tauto
    · rw [if_neg hlt]
      constructor
      · rintro ⟨-, -, h⟩
        cases h
      · rintro ⟨-, ⟨h, -⟩, -⟩
        exact absurd h hlt

theorem settles_leaf {t : Token} (ht : tokens v = [t]) (hstep : ∀ fs, t.step fs = absorb t.enc fs)
    (ha : All KeysAscend v) (hd : depth v = 0) : Settles v := by
  intro fs fs' hfs
  have hs : steps [t] fs = absorb t.enc fs := by
    rw [← hstep, steps_cons]
    cases t.step fs <;> rfl
  rw [encode, ht, hs, flatMap_singleton, hd, Nat.zero_add]
  simp [ha, hfs]

theorem push_bind_eq_ok {kind : CtxKind} : (push kind n bs fs).bind (steps ts) = .ok fs' ↔
      fs.length < maxDepth ∧ steps ts (⟨kind, n, bs, none⟩ :: fs) = .ok fs' := by
  rw [push]
  by_cases h : fs.length ≥ maxDepth
  · simp [h, Except.bind, Nat.not_lt.mpr h]
  · simp [h, Except.bind, Nat.not_le.mp h]

/-- The token machine takes a value as one item exactly when its keys ascend and it fits on the
stack. -/
theorem settles (v : Value) (hv : All InRange v) : Settles v := by
  induction v with
  | uint | nint | bytes | text | bool | null => exact settles_leaf rfl (fun _ => rfl) trivial rfl
  | array vs ih =>
    obtain ⟨-, hvs⟩ := all_array.mp hv
    by_cases hne : vs = []
    · subst hne
      exact settles_leaf rfl (fun _ => rfl) ⟨trivial, trivial⟩ rfl
    · intro fs fs' hfs
      rw [tokens_array, steps_cons, Token.step, if_neg (by simpa using hne), push_bind_eq_ok,
        encode_array, all_array, depth_array_le hne]
      constructor
      · rintro ⟨hlt, hs⟩
        obtain ⟨ha, hd, hab⟩ := (steps_array hne (fun v hm => ih v hm (hvs v hm)) hlt).mp hs
        exact ⟨⟨trivial, ha⟩, ⟨hlt, hd⟩, hab⟩
      · rintro ⟨⟨-, ha⟩, ⟨hlt, hd⟩, hab⟩
        exact ⟨hlt, (steps_array hne (fun v hm => ih v hm (hvs v hm)) hlt).mpr ⟨ha, hd, hab⟩⟩
  | map kvs ih =>
    obtain ⟨-, hkvs⟩ := all_map.mp hv
    have ih' : ∀ kv ∈ kvs, Settles kv.1 ∧ Settles kv.2 := fun kv hm =>
      ⟨(ih kv hm).1 (hkvs kv hm).1, (ih kv hm).2 (hkvs kv hm).2⟩
    by_cases hne : kvs = []
    · subst hne
      exact settles_leaf rfl (fun _ => rfl) ⟨isChain_nil, trivial⟩ rfl
    · intro fs fs' hfs
      rw [tokens_map, steps_cons, Token.step, if_neg (by simpa using hne), push_bind_eq_ok,
        encode_map, all_map, depth_map_le hne]
      constructor
      · rintro ⟨hlt, hs⟩
        obtain ⟨ha, hch, hd, hab⟩ := (steps_map hne ih' hlt).mp hs
        exact ⟨⟨hch, ha⟩, ⟨hlt, hd⟩, hab⟩
      · rintro ⟨⟨hch, ha⟩, ⟨hlt, hd⟩, hab⟩
        exact ⟨hlt, (steps_map hne ih' hlt).mpr ⟨ha, hch, hd, hab⟩⟩
  | tag t v ih =>
    obtain ⟨ht, hv⟩ : (t = 0 ∨ t = 32 ∨ t = 42) ∧ All InRange v := hv
    intro fs fs' hfs
    rw [tokens, steps_cons, Token.step, if_pos ht, push_bind_eq_ok, encode_tag, depth, All]
    have ih' (hlt : fs.length < maxDepth) := ih hv (⟨.tag, 1, head 6 t, none⟩ :: fs) fs' hlt
    rw [absorb_tag] at ih'
    constructor
    · rintro ⟨hlt, hs⟩
      obtain ⟨ha, hd, hab⟩ := (ih' hlt).mp hs
      rw [length_cons] at hd
      exact ⟨⟨trivial, ha⟩, by omega, hab⟩
    · rintro ⟨⟨-, ha⟩, hd, hab⟩
      have hlt : fs.length < maxDepth := by omega
      refine ⟨hlt, (ih' hlt).mpr ⟨ha, ?_, hab⟩⟩
      rw [length_cons]
      omega

end AntsClient.Cbor.Values
