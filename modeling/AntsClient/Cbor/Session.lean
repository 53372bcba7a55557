import AntsClient.Cbor.Parse

namespace AntsClient.Cbor.Session

open Common Codec Frames Tokens EncoderSpec DecoderSpec Values Value Walk Parse List

def encSession : List Call → Enc × Nat → Enc × Nat
  | [], s => s
  | c :: cs, (e, n) =>
    match encCall c e with
    | .ok _ e' => encSession cs (e', if e'.stack = [] then n + 1 else n)
    | .error _ e' => encSession cs (e', n)

def decCalls : List Reader → DecM (List Call)
  | [] => pure []
  | r :: rs => do
    let c ← decCall r
    let cs ← decCalls rs
    return c :: cs

/-- The calls of a session that succeed are a run of the token machine; those
that fail leave no trace in it. -/
theorem encSession_adds {cs : List Call} {e e' : Enc} {n n' : Nat} (he : EncOk e) (hcap : e.buf.length < 2 ^ 64)
    (h : encSession cs (e, n) = (e', n')) :
    ∃ ts, (∀ t ∈ ts, t.Valid) ∧ AddsAll e ts e' ∧ n' = n + closes ts (encFrames e) := by
  induction cs generalizing e n with
  | nil =>
    obtain ⟨rfl, rfl⟩ : e = e' ∧ n = n' := by simpa [encSession] using h
    exact ⟨[], by simp, addsAll_nil he, rfl⟩
  | cons c cs ih =>
    have ha := encCall_adds he c
    rw [encSession] at h
    cases hc : encCall c e with
    | error err e₁ =>
      rw [hc] at ha h
      have hk := ha.1
      obtain ⟨ts, hv, hall, hn⟩ := ih (hk.encOk he) (hk.length.symm ▸ hcap) h
      exact ⟨ts, hv, hk.addsAll he hall, hk.frames he ▸ hn⟩
    | ok u e₁ =>
      rw [hc] at ha h
      obtain ⟨ts, hv, hall, hn⟩ := ih ha.2.1 (ha.2.2.1.symm ▸ hcap) h
      refine ⟨c.token :: ts, forall_mem_cons.mpr ⟨?_, hv⟩, ha.cons hall, ?_⟩
      · refine Call.token_valid ha.1 ?_
        have hl := congrArg List.length ha.2.2.2
        rw [length_append, ← pos_eq ha.2.1] at hl
        have hroom := ha.2.1.1
        rw [ha.2.2.1] at hroom
        omega
      · rw [hn, closes, ha.1]
        simp only [List.isEmpty_iff, encFrames, frames_eq_nil]
        split <;> omega

/-- Whatever calls were made on an encoder, if it finalises, the bytes written are the canonical
items of the session. -/
theorem encSession_canonical {buf : Bytes} {cs : List Call} {e₀ e : Enc} {n : Nat} (hcap : buf.length < 2 ^ 64)
    (hinit : encInit buf = .ok e₀) (hrun : encSession cs (e₀, 0) = (e, n)) (hfin : encFinalise e = .ok ()) :
    ∃ items : List Bytes, items ≠ [] ∧ items.length = n ∧ (∀ b ∈ items, isCanonical b = .ok ()) ∧
      e.buf.take (encSize e) = items.flatten := by
  obtain ⟨-, rfl⟩ := encInit_iff.mp hinit
  obtain ⟨hempty, hpos⟩ := encFinalise_iff.mp hfin
  obtain ⟨ts, hv, hall, hn⟩ := encSession_adds (start_ok buf) hcap hrun
  have hs := hall.step
  rw [hempty] at hs
  obtain ⟨vs, hvs, rfl, hcl⟩ := parses_all hv hs
  have hw : written e = vs.flatMap encode := by
    have h := hall.written
    rw [flatMap_assoc] at h
    exact h
  refine ⟨vs.map encode, ?_, ?_, ?_, ?_⟩
  · rintro hnil
    obtain rfl := map_eq_nil_iff.mp hnil
    rw [pos_eq hall.ok, hw] at hpos
    exact hpos rfl
  · rw [length_map, hn, Nat.zero_add]
    exact hcl.symm
  · intro b hb
    obtain ⟨v, hm, rfl⟩ := mem_map.mp hb
    exact isCanonical_encode.mpr ⟨v, hvs v hm, rfl⟩
  · rw [← flatMap_def]
    exact hw

/-- Two items; an unreserved tag inside the first and a string that no longer fits
are refused on the way. -/
theorem encSession_canonical_two :
    ∃ items : List Bytes, items ≠ [] ∧ items.length = 2 ∧ (∀ b ∈ items, isCanonical b = .ok ()) ∧
      [0xa1, 0x07, 0x82, 0xf5, 0xf6, 0x19, 0x01, 0x2c] = items.flatten :=
  @encSession_canonical (replicate 9 0)
    [.map 1, .uint 7, .tag 5, .array 2, .bool true, .null, .uint 300, .bytes [1, 2, 3]] ⟨replicate 9 0, 0, []⟩
    ⟨[0xa1, 0x07, 0x82, 0xf5, 0xf6, 0x19, 0x01, 0x2c, 0x43], 8, []⟩ 2 (by decide) rfl (by decide +kernel) rfl

theorem decCalls_reads {rs : List Reader} {cs : List Call} {d d' : Dec} (hd : DecOk d)
    (h : decCalls rs d = .ok cs d') : cs.map Call.reader = rs ∧ ReadsAll d (cs.map Call.token) d' := by
  induction rs generalizing cs d with
  | nil =>
    obtain ⟨rfl, rfl⟩ : [] = cs ∧ d = d' := by simpa [decCalls, pure, EStateM.pure] using h
    exact ⟨rfl, readsAll_nil hd⟩
  | cons r rs ih =>
    obtain ⟨c, d₁, hc, h⟩ := bind_eq_ok.mp h
    obtain ⟨cs', d₂, hcs, h⟩ := bind_eq_ok.mp h
    obtain ⟨rfl, rfl⟩ : c :: cs' = cs ∧ d₂ = d' := by simpa [pure, EStateM.pure] using h
    have hr := decCall_reads hd hc
    obtain ⟨hrs, hall⟩ := ih hr.ok hcs
    refine ⟨?_, (readsAll_single hr).append hall⟩
    rw [map_cons, hrs, (decCall_iff.mp hc).1]

/-- Decode calls that read a whole buffer can be replayed as encode calls with the values returned,
and write it back. -/
theorem decCalls_replay {b buf : Bytes} {rs : List Reader} {cs : List Call} {d : Dec} (hne : rs ≠ [])
    (hrun : decCalls rs (decInit b) = .ok cs d) (hfin : decFinalise d = .ok ()) (hcap : buf.length = b.length) :
    cs.map Call.reader = rs ∧ ∃ e₀ e, encInit buf = .ok e₀ ∧ encCalls cs e₀ = .ok () e ∧
    encFinalise e = .ok () ∧
      e.buf.take (encSize e) = b := by
  obtain ⟨hrs, hall⟩ := decCalls_reads (decInit_ok b) hrun
  obtain ⟨hempty, hpos⟩ := decFinalise_iff.mp hfin
  have hbytes : (cs.map Call.token).flatMap Token.enc = b := by
    refine at_zero hall.at_pos (le_of_eq ?_)
    exact (hall.buf ▸ hpos).symm.trans (hall.pos.trans (Nat.zero_add _))
  have hb : b.length ≠ 0 := by
    obtain ⟨c, cs', rfl⟩ : ∃ c cs', cs = c :: cs' := exists_cons_of_ne_nil (by rintro rfl; exact hne hrs.symm)
    have := length_pos_iff.mpr c.token.enc_ne_nil
    rw [← hbytes, map_cons, flatMap_cons, length_append]
    omega
  have hs := hall.step
  rw [hempty] at hs
  have hroom : 0 + ((cs.map Call.token).flatMap Token.enc).length ≤ buf.length := by
    rw [hbytes, hcap, Nat.zero_add]
  obtain ⟨e, he⟩ := encCalls_ok (start_ok buf) hroom hs
  have ha := encCalls_adds (start_ok buf) he
  have hw : written e = b := ha.written.trans hbytes
  have hf : encFrames e = [] := Except.ok.inj (ha.step.symm.trans hs)
  refine ⟨hrs, _, e, encInit_iff.mpr ⟨?_, rfl⟩, he, encFinalise_iff.mpr ⟨hf, ?_⟩, hw⟩
  · rintro rfl
    exact hb hcap.symm
  · rw [pos_eq ha.ok, hw]
    exact hb

theorem decCalls_replay_map :
    [Call.map 1, .uint 7, .array 2, .int (-1), .tag 32, .null].map Call.reader =
        [.map, .uint, .array, .int, .tag, .null] ∧
      ∃ e₀ e, encInit (replicate 7 0) = .ok e₀ ∧
        encCalls [.map 1, .uint 7, .array 2, .int (-1), .tag 32, .null] e₀ = .ok () e ∧ encFinalise e = .ok () ∧
          e.buf.take (encSize e) = [0xa1, 0x07, 0x82, 0x20, 0xd8, 0x20, 0xf6] :=
  decCalls_replay (d := ⟨[0xa1, 0x07, 0x82, 0x20, 0xd8, 0x20, 0xf6], 7, []⟩) (cons_ne_nil _ _)
    (by decide +kernel)
    rfl rfl

end AntsClient.Cbor.Session
