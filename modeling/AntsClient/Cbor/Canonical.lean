import AntsClient.Cbor.EncoderSpec
import AntsClient.Cbor.Walk

namespace AntsClient.Cbor.Canonical

open Common Codec Tokens EncoderSpec Values Value Unambiguous Walk List

def calls (v : Value) : List Call := v.tokens.map Token.call

def encodeInto (v : Value) (buf : Bytes) : Except Error Bytes := encodeBuf (encCalls (calls v)) buf

variable {v : Value}

theorem tokens_valid (hv : All InRange v) : ∀ t ∈ tokens v, t.Valid := by
  induction v with
  | uint | nint | bytes | text | bool | null => exact forall_mem_singleton.mpr hv
  | array vs ih =>
    obtain ⟨hl, hvs⟩ := all_array.mp hv
    rw [tokens_array]
    refine forall_mem_cons.mpr ⟨hl, fun t ht => ?_⟩
    obtain ⟨v, hm, ht⟩ := mem_flatMap.mp ht
    exact ih v hm (hvs v hm) t ht
  | map kvs ih =>
    obtain ⟨hl, hkvs⟩ := all_map.mp hv
    rw [tokens_map]
    refine forall_mem_cons.mpr ⟨hl, fun t ht => ?_⟩
    obtain ⟨kv, hm, ht⟩ := mem_flatMap.mp ht
    rcases mem_append.mp ht with ht | ht
    · exact (ih kv hm).1 (hkvs kv hm).1 t ht
    · exact (ih kv hm).2 (hkvs kv hm).2 t ht
  | tag t v ih => exact forall_mem_cons.mpr ⟨hv.1, ih hv.2⟩

theorem calls_token (hv : All InRange v) : (calls v).map Call.token = tokens v := by
  rw [calls, map_map]
  conv_rhs => rw [← map_id (tokens v)]
  exact map_congr_left fun t ht => Token.token_call (tokens_valid hv t ht)

theorem encodeInto_iff {buf b : Bytes} (hv : WellFormed v) :
    encodeInto v buf = .ok b ↔ encode v = b ∧ b.length ≤ buf.length := by
  have hstep := (wellFormed_iff hv.inRange).mp hv
  rw [encodeInto, encodeBuf_iff, calls_token hv.inRange]
  constructor
  · rintro ⟨-, rfl, -, hl⟩
    exact ⟨rfl, hl⟩
  · rintro ⟨rfl, hl⟩
    exact ⟨hstep, rfl, length_pos_iff.mp (encode_length_pos v), hl⟩

theorem encode_inj {v' : Value} (hv : All InRange v) (hv' : All InRange v')
    (h : encode v = encode v') : v = v' :=
  encode_unique hv hv' (at_self _) (h ▸ at_self _)

/-- The canonical gate accepts exactly what the encode calls write for a well-formed value, and no
two values are written alike. -/
theorem isCanonical_iff_encodeInto (b : Bytes) :
    (isCanonical b = .ok () ↔ ∃ v, WellFormed v ∧ ∀ buf, b.length ≤ buf.length → encodeInto v buf = .ok b) ∧
      ∀ v v' buf buf', WellFormed v → WellFormed v' → encodeInto v buf = .ok b →
      encodeInto v' buf' = .ok b → v = v' := by
  refine ⟨isCanonical_encode.trans ⟨?_, ?_⟩, ?_⟩
  · rintro ⟨v, hv, rfl⟩
    exact ⟨v, hv, fun buf hl => (encodeInto_iff hv).mpr ⟨rfl, hl⟩⟩
  · rintro ⟨v, hv, h⟩
    exact ⟨v, hv, ((encodeInto_iff hv).mp (h b le_rfl)).1⟩
  · intro v v' buf buf' hv hv' h h'
    obtain ⟨rfl, -⟩ := (encodeInto_iff hv).mp h
    obtain ⟨he, -⟩ := (encodeInto_iff hv').mp h'
    exact encode_inj hv.inRange hv'.inRange he.symm

end AntsClient.Cbor.Canonical
