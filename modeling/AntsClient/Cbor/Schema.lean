import AntsClient.Cbor.Canonical

namespace AntsClient.Cbor.Schema

open Common Codec Tokens DecoderSpec Values Value Walk Canonical List

variable {err : Error}

/-- Whenever `x` succeeds, it has read tokens in the relation `T` to its value; a `closed` document
finalises then. -/
def Yields {α : Type} (x : DecM α) (T : α → List Token → Prop) (closed : Prop := False) : Prop :=
  ∀ d a d', DecOk d → x d = .ok a d' →
    (∃ ts, T a ts ∧ (∀ t ∈ ts, t.Valid) ∧ ReadsAll d ts d') ∧ (closed → decFinalise d' = .ok ())

variable {b : Bytes} {d : Dec}

section Rules

variable {α β : Type} {x : DecM α} {f : α → DecM β} {a : α} {G : α → List Token → Prop}
  {T : β → List Token → Prop} {closed : Prop}

theorem yields_pure (h : G a []) : Yields (pure a) G := by
  intro d b d' hd hx
  obtain ⟨rfl, rfl⟩ := EStateM.Result.ok.inj hx
  exact ⟨⟨[], h, by simp, readsAll_nil hd⟩, False.elim⟩

theorem yields_finish {finish : DecM Unit}
    (hfinish : ∀ {d d'}, finish d = .ok () d' → decFinalise d = .ok () ∧ d = d')
    (h : G a []) : Yields (do finish; return a) G True := by
  intro d b d' hd hx
  obtain ⟨u, d₁, hf, hx⟩ := bind_eq_ok.mp hx
  obtain ⟨hend, rfl⟩ := hfinish hf
  obtain ⟨rfl, rfl⟩ := EStateM.Result.ok.inj hx
  exact ⟨⟨[], h, by simp, readsAll_nil hd⟩, fun _ => hend⟩

theorem yields_throw : Yields (throw err : DecM α) G closed := by
  intro d b d' _ hx
  cases hx

theorem yields_guard {p : Prop} [Decidable p] {y : DecM β} (h : ¬p → Yields y T closed) :
    Yields (if p then throw err >>= f else y) T closed := by
  by_cases hp : p
  · rw [if_pos hp]
    intro d b d' _ hx
    cases hx
  · rw [if_neg hp]
    exact h hp

theorem Yields.bind (hx : Yields x G) (hf : ∀ a ts, G a ts → Yields (f a) (fun b us => T b (ts ++ us)) closed) :
    Yields (x >>= f) T closed := by
  intro d b d' hd h
  obtain ⟨a, d₁, h₁, h₂⟩ := bind_eq_ok.mp h
  obtain ⟨⟨ts, hg, hts, hr⟩, -⟩ := hx _ _ _ hd h₁
  obtain ⟨⟨us, hT, hus, hr'⟩, hend⟩ := hf a ts hg _ _ _ hr.ok h₂
  refine ⟨⟨ts ++ us, hT, ?_, hr.append hr'⟩, hend⟩
  exact fun t ht => (mem_append.mp ht).elim (hts t) (hus t)

theorem Yields.seq {g : α → List Token} (hx : Yields x fun a ts => ts = g a)
    (hf : ∀ a, Yields (f a) (fun b us => T b (g a ++ us)) closed) : Yields (x >>= f) T closed :=
  hx.bind fun a _ hts => hts ▸ hf a

theorem Yields.step {g : α → Token} (hx : Yields x fun a ts => ts = [g a])
    (hf : ∀ a, Yields (f a) (fun b us => T b (g a :: us)) closed) : Yields (x >>= f) T closed :=
  hx.bind fun a _ hts => hts ▸ hf a

theorem Yields.silent (hx : Yields x fun _ ts => ts = []) (hf : ∀ a, Yields (f a) T closed) :
    Yields (x >>= f) T closed :=
  hx.bind fun a _ hts => hts ▸ hf a

theorem Yields.mono {U : α → List Token → Prop} (h : Yields x G closed)
    (hGU : ∀ a ts, G a ts → U a ts) : Yields x U closed := by
  intro d a d' hd hx
  obtain ⟨⟨ts, hG, hts, hr⟩, hend⟩ := h _ _ _ hd hx
  exact ⟨⟨ts, hGU a ts hG, hts, hr⟩, hend⟩

theorem yields_call {c : α → Call} {r : Reader} (hx : decCall r = c <$> x) : Yields x fun a ts =>
    ts = [(c a).token] := by
  intro d a d' hd h
  obtain ⟨hv, hr⟩ := readsAll_call hd hx h
  exact ⟨⟨_, rfl, by simpa using hv, hr⟩, False.elim⟩

theorem Yields.whole (hx : Yields x G True) (h : x (decInit b) = .ok a d) :
    ∃ ts, G a ts ∧ (∀ t ∈ ts, t.Valid) ∧ ts.flatMap Token.enc = b ∧ steps ts [] = .ok [] := by
  obtain ⟨⟨ts, hG, hts, hr⟩, hend⟩ := hx _ _ _ (decInit_ok b) h
  obtain ⟨hempty, hpos⟩ := decFinalise_iff.mp (hend trivial)
  have hstep := hr.step
  rw [hempty] at hstep
  refine ⟨ts, hG, hts, at_zero hr.at_pos (le_of_eq ?_), hstep⟩
  exact (hr.buf ▸ hpos).symm.trans (hr.pos.trans (Nat.zero_add _))

theorem Yields.encode {P : α → Prop} {val : α → Value}
    (hx : Yields x (fun a ts => P a ∧ ts = tokens (val a)) True)
    (h : x (decInit b) = .ok a d) : P a ∧ Value.encode (val a) = b := by
  obtain ⟨ts, ⟨hP, rfl⟩, -, hbytes, -⟩ := hx.whole h
  exact ⟨hP, hbytes⟩

end Rules

theorem yields_uint : Yields decUint fun v ts => ts = [.uint v.toNat] := yields_call (r := .uint) rfl

theorem yields_bytes : Yields decBytes fun b ts => ts = [.bytes b] := yields_call (r := .bytes) rfl

theorem yields_text : Yields decText fun b ts => ts = [.text b] := yields_call (r := .text) rfl

theorem yields_array : Yields decArray fun n ts => ts = [.array n.toNat] := yields_call (r := .array) rfl

theorem yields_map : Yields decMap fun n ts => ts = [.map n.toNat] := yields_call (r := .map) rfl

theorem yields_bool : Yields decBool fun v ts => ts = [.bool v] := yields_call (r := .bool) rfl

variable {p : Bytes} {want n : UInt64}

theorem yields_expected {x : DecM UInt64} {g : UInt64 → Token} (hx : Yields x fun v ts => ts = [g v]) :
    Yields (do let v ← x; if v ≠ want then throw err) fun _ ts => ts = [g want] := by
  refine hx.step fun v => ?_
  split
  · exact yields_throw
  · rename_i h
    rw [not_not] at h
    subst h
    exact yields_pure rfl

/-- A decoder over the document `doc`, where the tokens `ts` fill the rest of it and
close every open container. -/
structure Left (doc : Bytes) (d : Dec) (ts : List Token) : Prop where
  buf : d.buf = doc
  ok : DecOk d
  valid : ∀ t ∈ ts, t.Valid
  at_pos : At d.buf d.pos (ts.flatMap Token.enc)
  pos : d.pos + (ts.flatMap Token.enc).length = d.buf.length
  step : steps ts (decFrames d) = .ok []

theorem left_of_steps {doc : Bytes} {ts : List Token} (hvalid : ∀ t ∈ ts, t.Valid)
    (hdoc : ts.flatMap Token.enc = doc)
    (hsteps : steps ts [] = .ok []) : Left doc (decInit doc) ts := by
  subst hdoc
  exact ⟨rfl, decInit_ok _, hvalid, at_self _, Nat.zero_add _, hsteps⟩

theorem left_encode {v : Value} (hv : WellFormed v) : Left (encode v) (decInit (encode v)) (tokens v) :=
  left_of_steps (tokens_valid hv.inRange) rfl ((wellFormed_iff hv.inRange).mp hv)

section Takes

variable {α β : Type} {x : DecM α} {f : α → DecM β} {ts us vs : List Token} {a : α} {b : β} {doc : Bytes}

theorem Left.finalise (h : Left doc d []) : decFinalise d = .ok () :=
  decFinalise_iff.mpr ⟨Except.ok.inj h.step, h.pos⟩

theorem Left.rest (h : Left doc d ts) : doc.drop d.pos = ts.flatMap Token.enc := by
  have hat := h.at_pos.2
  rwa [slice, h.pos, take_of_length_le (by rw [length_drop]), h.buf] at hat

theorem Left.pos_lt {t : Token} (h : Left doc d (t :: ts)) : d.pos < doc.length := by
  have hpos := h.pos
  have hne := length_pos_iff.mpr t.enc_ne_nil
  rw [flatMap_cons, length_append, h.buf] at hpos
  omega

/-- Where `ts` is left, `x` returns `a` and leaves `us`. -/
def Takes {α : Type} (x : DecM α) (ts us : List Token) (a : α) : Prop :=
  ∀ doc d, Left doc d ts → ∃ d', x d = .ok a d' ∧ Left doc d' us

theorem takes_pure : Takes (pure a) us us a := fun _ d hd => ⟨d, rfl, hd⟩

theorem Takes.bind (hx : Takes x ts us a) (hf : Takes (f a) us vs b) : Takes (x >>= f) ts vs b := by
  intro doc d hd
  obtain ⟨d₁, h₁, hd₁⟩ := hx doc d hd
  obtain ⟨d₂, h₂, hd₂⟩ := hf doc d₁ hd₁
  exact ⟨d₂, (bind_ok h₁).trans h₂, hd₂⟩

theorem takes_call {c : α → Call} (hx : decCall (c a).reader = c <$> x) (hc : Function.Injective c)
    (hcall : (c a).token.call = c a) : Takes x ((c a).token :: us) us a := by
  intro doc d hd
  have hat := hd.at_pos
  rw [flatMap_cons, at_append] at hat
  obtain ⟨fs, hfs, hs⟩ := except_bind_eq_ok.mp ((steps_cons ..).symm.trans hd.step)
  obtain ⟨a', d', h, ha, hr, rfl⟩ :=
    call_complete hd.ok (hd.valid _ mem_cons_self) hat.1 hfs (hcall.symm ▸ hx)
  obtain rfl : a' = a := hc (ha.trans hcall)
  refine ⟨d', h, hr.buf.trans hd.buf, hr.ok, fun t ht => hd.valid t (mem_cons_of_mem _ ht), ?_, ?_, hs⟩
  · rw [hr.buf, hr.pos]
    exact hat.2
  · have hpos := hd.pos
    rw [flatMap_cons, length_append] at hpos
    rw [hr.buf, hr.pos, Nat.add_assoc]
    exact hpos

theorem takes_uint {v : UInt64} : Takes decUint (.uint v.toNat :: us) us v :=
  takes_call (c := .uint) rfl (fun _ _ => Call.uint.inj) (by simp [Call.token, Token.call])

theorem takes_bytes : Takes decBytes (.bytes p :: us) us p :=
  takes_call (c := .bytes) rfl (fun _ _ => Call.bytes.inj) rfl

theorem takes_text : Takes decText (.text p :: us) us p :=
  takes_call (c := .text) rfl (fun _ _ => Call.text.inj) rfl

theorem takes_array {n : UInt64} : Takes decArray (.array n.toNat :: us) us n :=
  takes_call (c := .array) rfl (fun _ _ => Call.array.inj) (by simp [Call.token, Token.call])

theorem takes_map {n : UInt64} : Takes decMap (.map n.toNat :: us) us n :=
  takes_call (c := .map) rfl (fun _ _ => Call.map.inj) (by simp [Call.token, Token.call])

theorem takes_bool {v : Bool} : Takes decBool (.bool v :: us) us v :=
  takes_call (c := .bool) rfl (fun _ _ => Call.bool.inj) rfl

theorem takes_expected {x : DecM UInt64} (hx : Takes x ts us want) :
    Takes (do let v ← x; if v ≠ want then throw err) ts us () := by
  refine hx.bind ?_
  rw [if_neg (not_not.mpr rfl)]
  exact takes_pure

end Takes

section Repeats

variable {α γ : Type} {F : Nat → DecM (List α)} {x : DecM α} {f : γ → α} {g : γ → List Token}

structure Repeats {α : Type} (F : Nat → DecM (List α)) (x : DecM α) : Prop where
  zero : F 0 = pure []
  succ : ∀ n, F (n + 1) = do let a ← x; let as ← F n; return a :: as

theorem Repeats.yields (h : Repeats F x) {P : γ → Prop}
    (hx : Yields x fun a ts => ∃ c, P c ∧ a = f c ∧ ts = g c) (n : Nat) :
    Yields (F n) fun as ts =>
    ∃ cs : List γ, cs.length = n ∧ (∀ c ∈ cs, P c) ∧ as = cs.map f ∧ ts = cs.flatMap g := by
  induction n with
  | zero =>
    rw [h.zero]
    exact yields_pure ⟨[], rfl, by simp, rfl, rfl⟩
  | succ n ih =>
    rw [h.succ]
    refine hx.bind fun a ts hc => ih.bind fun as us hcs => yields_pure ?_
    obtain ⟨c, hP, rfl, rfl⟩ := hc
    obtain ⟨cs, rfl, hPs, rfl, rfl⟩ := hcs
    exact ⟨c :: cs, rfl, forall_mem_cons.mpr ⟨hP, hPs⟩, rfl, by rw [append_nil, flatMap_cons]⟩

theorem Repeats.takes (h : Repeats F x) {cs : List γ} {us : List Token}
    (hx : ∀ c ∈ cs, ∀ us, Takes x (g c ++ us) us (f c)) :
    Takes (F cs.length) (cs.flatMap g ++ us) us (cs.map f) := by
  induction cs with
  | nil =>
    rw [length_nil, h.zero]
    exact takes_pure
  | cons c cs ih =>
    obtain ⟨hc, hcs⟩ := forall_mem_cons.mp hx
    rw [length_cons, h.succ, flatMap_cons, append_assoc]
    exact (hc _).bind ((ih hcs).bind takes_pure)

end Repeats

end AntsClient.Cbor.Schema
