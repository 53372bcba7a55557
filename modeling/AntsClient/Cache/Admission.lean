import AntsClient.Cache.Capacity
import AntsClient.Cache.Servable

namespace AntsClient.Cache.Admission

open Common Crypto Cbor Values Canonical Value Wire Records Store Steps Capacity Servable

def Admits (e : Entry) (c c' : State) : Prop :=
  ∃ left slot, left.Subperm c.entries ∧ c'.entries = left ++ [slot] ∧ readBack slot.entry = e

variable {D : Type} {metric : Metric D} {crypto : Primitives} {c : State} {e e' : Entry} {b b' payload : Bytes}

theorem readBack_fresh (hvalid : Valid e) {embedding : Embedding}
    (hemb : e.embedding = some embedding) (stamp : UInt64) :
    readBack (fresh metric e embedding stamp).entry = readBack e := by
  have hem := (copy_kept fun _ => hvalid.embeddingModel).2
  have hrm := (copy_kept fun _ => hvalid.responseModel).2
  have hr := (copy_kept hvalid.response).2
  have ha := (copy_kept hvalid.attestation).2
  simp only [readBack, Slot.entry, fresh, hem, hrm, hr, ha, hemb]

theorem putRecord_admits (hmem : c.mem = []) (haccepted : Accepted e) :
    ∃ c', putRecord metric e c = .ok () c' ∧ Admits e c c' := by
  obtain ⟨embedding, hemb⟩ := Option.isSome_iff_exists.mp haccepted.embedding
  refine ⟨_, putRecord_valid hmem (entryValidate_iff.mpr haccepted.valid) hemb, ?_⟩
  rw [Admits, insertInto, grown_entries]
  refine ⟨_, _, enforceCapsOnInsert_subperm _ c, rfl, ?_⟩
  rw [readBack_fresh haccepted.valid hemb, haccepted.back]

theorem floats_inj (h : e.embedding.isSome) (h' : e'.embedding.isSome)
    (heq : floatsToLeBytes e.floats = floatsToLeBytes e'.floats) : e.embedding = e'.embedding := by
  obtain ⟨x, hx⟩ := Option.isSome_iff_exists.mp h
  obtain ⟨x', hx'⟩ := Option.isSome_iff_exists.mp h'
  have hval : x.val = x'.val := by
    simpa [Entry.floats, hx, hx', leBytesToFloats_floatsToLeBytes] using congrArg leBytesToFloats heq
  obtain ⟨val, hl⟩ := x
  obtain ⟨val', hl'⟩ := x'
  obtain rfl : val = val' := hval
  rw [hx, hx']

theorem payload_inj (haccepted : Accepted e) (haccepted' : Accepted e') (hsized : Sized e) (hsized' : Sized e')
    (h : encode (payloadValue e) = encode (payloadValue e')) : e' = { e with signature := e'.signature } := by
  have hvalue := encode_inj (payloadValue_wellFormed hsized).inRange (payloadValue_wellFormed hsized').inRange h
  simp only [payloadValue, recordPairs, Value.map.injEq, List.cons.injEq, Prod.mk.injEq,
    Value.bytes.injEq, Value.text.injEq,
    Value.uint.injEq, true_and, and_true] at hvalue
  obtain ⟨hfloats, hem, hprompt, hr, hrm, hproducer, hcreated, hclass, ha⟩ := hvalue
  have hemb := floats_inj haccepted.embedding haccepted'.embedding hfloats
  rw [← haccepted'.back, ← haccepted.back]
  simp only [readBack, Entry.mk.injEq, and_true]
  rw [hem, hr, hrm, ha]
  refine ⟨hemb.symm, rfl, ?_, rfl, rfl, ?_, ?_, ?_, rfl⟩
  · exact (Bytes32.ext hprompt).symm
  · exact (Bytes32.ext hproducer).symm
  · exact (UInt64.toNat_inj.mp hcreated).symm
  · rw [UInt32.toNat_toUInt64, UInt32.toNat_toUInt64] at hclass
    exact (UInt32.toNat_inj.mp hclass).symm

/-- The record read fixes its bytes, and the bytes signed fix the record up to the signature; the
cache stores it exactly if that verifies. -/
theorem admission_exact :
    (∀ b e, entryDecode b = .ok e → (∀ buf, b.length ≤ buf.length → entryEncode e buf = .ok b) ∧
      ∃ payload, cacheEntryEmitSigningPayload e (List.replicate b.length 0) = .ok payload ∧
      payload.length ≤ b.length ∧
        ∀ (D : Type) (metric : Metric D) (crypto : Primitives) c, c.mem = [] →
          if crypto.ed25519Verify e.producer payload e.signature.val then
            ∃ c', handleInboundEntry metric crypto b c = .ok () c' ∧ Admits e c c'
          else ∃ err, handleInboundEntry metric crypto b c = .error err c) ∧
    (∀ b err, entryDecode b = .error err → ∀ (D : Type) (metric : Metric D) (crypto : Primitives) c,
      ∃ err, handleInboundEntry metric crypto b c = .error err c) ∧
    (∀ e buf b, Sized e → entryEncode e buf = .ok b → entryDecode b = .ok (readBack e)) ∧
    ∀ b b' e e' payload, entryDecode b = .ok e → entryDecode b' = .ok e' →
      cacheEntryEmitSigningPayload e (List.replicate b.length 0) = .ok payload →
      cacheEntryEmitSigningPayload e' (List.replicate b'.length 0) = .ok payload →
      e' = { e with signature := e'.signature } := by
  refine ⟨fun b e h => ?_, fun b err h D metric crypto c =>
    handleInboundEntry_refused h, fun e buf b hsized h => ?_,
    fun b b' e e' payload h h' hpay hpay' => ?_⟩
  · have hpayload := payload_of_decode h
    obtain ⟨rfl, haccepted, hsized⟩ := entryDecode_sound h
    refine ⟨fun buf hroom => ?_, _, hpayload, payload_length_le e, fun D metric crypto c hmem => ?_⟩
    · exact (entryEncode_iff hsized).mpr ⟨entryValidate_iff.mpr haccepted.valid, rfl, hroom⟩
    · rw [handleInboundEntry_read hmem h hpayload]
      split
      · exact putRecord_admits hmem haccepted
      · exact ⟨.malformed, rfl⟩
  · obtain ⟨hvalid, rfl, -⟩ := (entryEncode_iff hsized).mp h
    exact entryDecode_encode hsized (entryValidate_iff.mp hvalid)
  · rw [payload_of_decode h] at hpay
    rw [payload_of_decode h', ← hpay] at hpay'
    obtain ⟨-, haccepted, hsized⟩ := entryDecode_sound h
    obtain ⟨-, haccepted', hsized'⟩ := entryDecode_sound h'
    exact payload_inj haccepted haccepted' hsized hsized' (Except.ok.inj hpay').symm

end AntsClient.Cache.Admission
