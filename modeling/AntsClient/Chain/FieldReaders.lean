import AntsClient.Chain.Blocks
import AntsClient.Crdt.Readers

namespace AntsClient.Chain.FieldReaders

open Common Cbor Codec Tokens DecoderSpec Values Walk Schema Value Crypto Blocks Crdt.Proof

variable {α : Type} {buf : Bytes} {ts : List Token} {key : UInt64} {v : Value} {x : DecM α} {a : α}
  {T : α → List Token → Prop} {β : Type}

theorem normDecode_eq_ok {d d' : Dec} : normDecode x d = .ok a d' ↔ x d = .ok a d' := by
  rw [normDecode]
  cases x d <;> simp

theorem decodeBuf_eq_ok : decodeBuf x buf = .ok a ↔ buf ≠ [] ∧ ∃ d, x (decInit buf) = .ok a d := by
  rw [decodeBuf, ne_eq, ← List.length_eq_zero_iff]
  by_cases h : buf.length = 0
  · simp [h]
  · rw [if_neg h]
    cases x (decInit buf) <;> simp [h]

section Sound

theorem yields_normDecode (h : Yields x T) : Yields (normDecode x) T :=
  fun _ _ _ hd hx => h _ _ _ hd (normDecode_eq_ok.mp hx)

theorem yields_expectKey (key : UInt64) : Yields (expectKey key) fun _ ts => ts = [.uint key.toNat] :=
  yields_expected (g := fun n => .uint n.toNat) (yields_normDecode yields_uint)

theorem yields_field {f : α → DecM β} {g : α → Token} {T : β → List Token → Prop} {closed : Prop}
    (key : UInt64) (hx : Yields x fun a ts => ts = [g a])
    (hf : ∀ a, Yields (f a) (fun b us => T b (.uint key.toNat :: g a :: us)) closed) :
    Yields (do expectKey key; let a ← normDecode x; f a) T closed :=
  (yields_expectKey key).step fun _ => (yields_normDecode hx).step hf

theorem yields_decodeUintField (key : UInt64) : Yields (decodeUintField key) fun v ts =>
    ts = [.uint key.toNat, .uint v.toNat] :=
  (yields_expectKey key).step fun _ => (yields_normDecode yields_uint).mono fun _ _ h => congrArg _ h

theorem yields_decodeBytesField (key : UInt64) : Yields (decodeBytesField key) fun x ts =>
    ts = [.uint key.toNat, .bytes x.val] := by
  refine yields_field key yields_bytes fun p => ?_
  cases h : toBytes32 p with
  | none => exact yields_throw
  | some x =>
    obtain rfl := toBytes32_eq_some.mp h
    exact yields_pure rfl

theorem yields_decodePairs (n : UInt64) : Yields (decodePairs n) fun _ ts => ts = [.map n.toNat] :=
  yields_expected (g := fun n => .map n.toNat) (yields_normDecode yields_map)

theorem yields_decodeFinish (h : T a []) : Yields (do decodeFinish; return a) T True := by
  refine yields_finish (fun {d d'} hd => ?_) h
  rw [decodeFinish] at hd
  split at hd
  · rename_i hend
    exact ⟨hend, (EStateM.Result.ok.inj hd).2⟩
  · cases hd

theorem decodeBuf_sound {P : α → Prop} {val : α → Value}
    (hx : Yields x (fun a ts => P a ∧ ts = tokens (val a)) True) (h : decodeBuf x buf = .ok a) :
    P a ∧ encode (val a) = buf := by
  obtain ⟨-, d, hd⟩ := decodeBuf_eq_ok.mp h
  exact hx.encode hd

end Sound

section Complete

variable {us : List Token}

theorem takes_normDecode (h : Takes x ts us a) : Takes (normDecode x) ts us a := by
  intro doc d hd
  obtain ⟨d', hx, hd'⟩ := h doc d hd
  exact ⟨d', normDecode_eq_ok.mpr hx, hd'⟩

theorem takes_expectKey : Takes (expectKey key) (.uint key.toNat :: us) us () :=
  takes_expected (takes_normDecode takes_uint)

theorem takes_field {f : α → DecM β} {vs : List Token} {b : β} (hx : Takes x ts us a)
    (hf : Takes (f a) us vs b) :
    Takes (do expectKey key; let a ← normDecode x; f a) (.uint key.toNat :: ts) vs b :=
  takes_expectKey.bind ((takes_normDecode hx).bind hf)

theorem takes_decodeUintField {v : UInt64} :
    Takes (decodeUintField key) (.uint key.toNat :: .uint v.toNat :: us) us v :=
  takes_expectKey.bind (takes_normDecode takes_uint)

theorem takes_decodeBytesField {x : Bytes32} :
    Takes (decodeBytesField key) (.uint key.toNat :: .bytes x.val :: us) us x := by
  refine takes_field takes_bytes ?_
  rw [toBytes32_eq_some.mpr rfl]
  exact takes_pure

theorem takes_decodePairs {n : UInt64} : Takes (decodePairs n) (.map n.toNat :: us) us () :=
  takes_expected (takes_normDecode takes_map)

theorem takes_decodeFinish : Takes decodeFinish [] [] () := by
  intro doc d hd
  refine ⟨d, ?_, hd⟩
  rw [decodeFinish, hd.finalise]

theorem runDec_of_takes {α : Type} {x : DecM α} {v : Value} {a : α} (hv : WellFormed v)
    (hx : Takes x (tokens v) us a) :
    runDec x (encode v) = .ok a := by
  obtain ⟨d, hd, -⟩ := hx _ _ (left_encode hv)
  rw [runDec, hd]

theorem decodeBuf_of_takes (hv : WellFormed v) (hx : Takes x (tokens v) us a) :
    decodeBuf x (encode v) = .ok a := by
  obtain ⟨d, hd, -⟩ := hx _ _ (left_encode hv)
  exact decodeBuf_eq_ok.mpr ⟨List.length_pos_iff.mp (encode_length_pos _), d, hd⟩

end Complete

end AntsClient.Chain.FieldReaders
