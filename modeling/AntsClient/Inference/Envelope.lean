import AntsClient.Cbor.Sizes
import AntsClient.Chain.FieldReaders

namespace AntsClient.Inference.Envelope

open Common Cbor Codec Tokens EncoderSpec Values Canonical Schema Sizes Value Chain Blocks
  FieldReaders Crdt.Proof List

def refSeqlenMax : Nat := 64

def envPairs : UInt64 := 3

/-- The decoded answer envelope: the request prompt, the bytes of the generated tokens
and the distribution of each position. -/
structure AnswerEnv where
  input : Bytes
  tokens : Bytes
  dists : List Bytes
  deriving DecidableEq

def encDists : List Bytes → EncM Unit
  | [] => pure ()
  | d :: ds => do
    encBytes d
    encDists ds

def encEnvelope (env : AnswerEnv) : EncM Unit := do
  encMap envPairs
  encKvBytes 0 env.input
  encKvBytes 1 env.tokens
  encUint 2
  encArray (UInt64.ofNat env.dists.length)
  encDists env.dists

def decodeDists : Option Nat → Nat → DecM (List Bytes)
  | _, 0 => return []
  | first, n + 1 => do
    let d ← normDecode decBytes
    if d.length = 0 ∨ d.length % 4 ≠ 0 ∨ d.length ≠ first.getD d.length then throw .malformed
    let ds ← decodeDists (some (first.getD d.length)) n
    return d :: ds

def decodeEnvelope : DecM AnswerEnv := do
  decodePairs envPairs
  expectKey 0
  let input ← normDecode decBytes
  expectKey 1
  let tokens ← normDecode decBytes
  if tokens.length > refSeqlenMax then throw .malformed
  expectKey 2
  let darr ← normDecode decArray
  if darr.toNat ≠ tokens.length then throw .malformed
  let dists ← decodeDists none tokens.length
  decodeFinish
  return ⟨input, tokens, dists⟩

def answerEnvelopeDecode (buf : Bytes) : Except Error AnswerEnv := runDec decodeEnvelope buf

def envValue (env : AnswerEnv) : Value :=
  .map [(.uint 0, .bytes env.input), (.uint 1, .bytes env.tokens), (.uint 2, .array (env.dists.map .bytes))]

def Uniform (len : Nat) (dists : List Bytes) : Prop := 0 < len ∧ len % 4 = 0 ∧ ∀ d ∈ dists, d.length = len

structure Shaped (env : AnswerEnv) : Prop where
  bound : env.tokens.length ≤ refSeqlenMax
  count : env.dists.length = env.tokens.length
  uniform : ∃ len, Uniform len env.dists

theorem Uniform.nil : Uniform 4 [] := ⟨by norm_num, rfl, by simp⟩

variable {env : AnswerEnv} {len : Nat}

theorem Shaped.dists_ne_nil (h : Shaped env) : ∀ d ∈ env.dists, d ≠ [] := by
  intro d hd
  obtain ⟨len, hpos, -, hall⟩ := h.uniform
  rw [← length_pos_iff, hall d hd]
  exact hpos

theorem tokens_env (env : AnswerEnv) : tokens (envValue env) =
    [.map 3, .uint 0, .bytes env.input, .uint 1, .bytes env.tokens, .uint 2,
      .array env.dists.length] ++ env.dists.map .bytes := by
  have hdists : (env.dists.map Value.bytes).flatMap tokens = env.dists.map .bytes := by
    rw [flatMap_map]
    exact map_eq_flatMap.symm
  simp [envValue, tokens, tokensPairs, tokensList_eq, hdists]

theorem encDists_eq (ds : List Bytes) : encDists ds = encCalls (ds.map .bytes) := by
  induction ds with
  | nil => rfl
  | cons d ds ih =>
    rw [encDists, ih]
    rfl

theorem encEnvelope_eq (env : AnswerEnv) : encEnvelope env = encCalls (calls (envValue env)) := by
  simp only [calls, tokens_env, cons_append, nil_append, map_cons, map_map, Token.call, encCalls,
    encCall, encEnvelope, envPairs, encKvBytes, encDists_eq, bind_assoc]
  rfl

theorem env_length_le (h : Shaped env) (hinput : env.input.length < 65536)
    (hdists : ∀ d ∈ env.dists, d.length ≤ len) (hlen : len < 65536) :
    (encode (envValue env)).length ≤ env.input.length + env.tokens.length * (4 + len) + 13 := by
  have htokens : env.tokens.length < 65536 := lt_of_le_of_lt h.bound (by decide)
  have h₀ := encode_bytes_length hinput
  have h₁ := encode_bytes_length htokens
  have h₂ := encode_bytes_list_length hdists hlen
  have hhead := head_length_short 4 htokens
  rw [h.count] at h₂
  simp (disch := decide) only [envValue, encode_map, encode_array, flatMap_cons, flatMap_nil, length_append,
    length_cons, length_nil, length_map, h.count, encode_key_length, head_length_tiny]
  have hmul : env.tokens.length * (4 + len) = env.tokens.length + env.tokens.length * (3 + len) := by ring
  omega

section Sound

theorem yields_decodeDists (first : Option Nat) (n : Nat) : Yields (decodeDists first n) fun ds ts =>
    ds.length = n ∧ (∃ len, Uniform len ds ∧ ∀ l ∈ first, ds ≠ [] → l = len) ∧ ts = ds.map .bytes := by
  induction n generalizing first with
  | zero => exact yields_pure ⟨rfl, ⟨4, Uniform.nil, by simp⟩, rfl⟩
  | succ n ih =>
    refine Yields.step (yields_normDecode yields_bytes) fun d => yields_guard fun hd => ?_
    simp only [not_or, not_not] at hd
    obtain ⟨hpos, hmul, hfirst⟩ := hd
    refine (ih _).bind fun ds ts hds => yields_pure ?_
    obtain ⟨hlen, ⟨len, huni, hsame⟩, rfl⟩ := hds
    refine ⟨congrArg (· + 1) hlen, ⟨d.length, ⟨Nat.pos_of_ne_zero hpos, hmul, ?_⟩, ?_⟩, by simp⟩
    · refine forall_mem_cons.mpr ⟨rfl, fun d' hd' => ?_⟩
      rw [huni.2.2 d' hd', ← hsame _ rfl (ne_nil_of_mem hd'), ← hfirst]
    · rintro l hl -
      obtain rfl := Option.mem_def.mp hl
      exact hfirst.symm

theorem yields_decodeEnvelope :
    Yields decodeEnvelope (fun env ts => Shaped env ∧ ts = tokens (envValue env)) True := by
  refine (yields_decodePairs _).seq fun _ => yields_field 0 yields_bytes fun input =>
      yields_field 1 yields_bytes fun toks =>
    yields_guard fun hbound => yields_field 2 yields_array fun darr => yields_guard fun hdarr => ?_
  refine (yields_decodeDists none _).bind fun ds ts hds => yields_decodeFinish ?_
  obtain ⟨hlen, ⟨len, huni, -⟩, rfl⟩ := hds
  refine ⟨⟨Nat.not_lt.mp hbound, hlen, len, huni⟩, ?_⟩
  rw [tokens_env, hlen, ← not_not.mp hdarr, append_nil]
  rfl

theorem answerEnvelopeDecode_sound {buf : Bytes} (h : answerEnvelopeDecode buf = .ok env) :
    Shaped env ∧ encode (envValue env) = buf := by
  obtain ⟨d, hd⟩ := Crdt.Readers.runDec_eq_ok.mp h
  exact yields_decodeEnvelope.encode hd

end Sound

section Complete

theorem takes_decodeDists {ds : List Bytes} {first : Option Nat} {us : List Token} (h : Uniform len ds)
    (hfirst : ∀ l ∈ first, l = len) : Takes (decodeDists first ds.length) (ds.map .bytes ++ us) us ds := by
  induction ds generalizing first with
  | nil => exact takes_pure
  | cons d ds ih =>
    obtain ⟨hpos, hmul, hall⟩ := h
    obtain ⟨hd, hds⟩ := forall_mem_cons.mp hall
    have hgetD : first.getD d.length = len := by
      cases first with
      | none => exact hd
      | some l => exact hfirst l rfl
    refine Takes.bind (takes_normDecode takes_bytes) ?_
    rw [hgetD, hd, if_neg (by simp [Nat.pos_iff_ne_zero.mp hpos, hmul])]
    refine (ih ⟨hpos, hmul, hds⟩ fun l hl => ?_).bind takes_pure
    exact (Option.some.inj hl).symm

theorem takes_decodeEnvelope (h : Shaped env) : Takes decodeEnvelope (tokens (envValue env)) [] env := by
  obtain ⟨hbound, hcount, len, huni⟩ := h
  have hn : (UInt64.ofNat env.dists.length).toNat = env.dists.length :=
    ofNat_toNat (lt_of_le_of_lt (hcount.le.trans hbound) (by norm_num [refSeqlenMax]))
  rw [tokens_env, ← hn, ← append_nil (env.dists.map _)]
  refine takes_decodePairs.bind (takes_field takes_bytes (takes_field takes_bytes ?_))
  rw [if_neg (Nat.not_lt.mpr hbound)]
  refine takes_field takes_array ?_
  rw [hn, if_neg (not_not.mpr hcount), ← hcount]
  exact (takes_decodeDists huni (by simp)).bind (takes_decodeFinish.bind takes_pure)

theorem env_wellFormed (h : Shaped env) (hinput : env.input.length < 2 ^ 64)
    (hdists : ∀ d ∈ env.dists, d.length < 2 ^ 64) : WellFormed (envValue env) := by
  have hbound : env.tokens.length < 2 ^ 64 := lt_of_le_of_lt h.bound (by norm_num [refSeqlenMax])
  have harray : Within 1 (.array (env.dists.map .bytes)) :=
    within_array_map (h.count ▸ hbound) fun d hd => within_bytes (hdists d hd)
  have hwithin : Within 2 (envValue env) := by
    apply within_fields [0, 1, 2] rfl (by decide)
    simp [within_bytes hinput, within_bytes hbound, harray]
  exact hwithin.wellFormed (by decide)

theorem answerEnvelopeDecode_encode (h : Shaped env) (hinput : env.input.length < 2 ^ 64)
    (hdists : ∀ d ∈ env.dists, d.length < 2 ^ 64) : answerEnvelopeDecode (encode (envValue env)) = .ok env :=
  runDec_of_takes (env_wellFormed h hinput hdists) (takes_decodeEnvelope h)

end Complete

end AntsClient.Inference.Envelope
