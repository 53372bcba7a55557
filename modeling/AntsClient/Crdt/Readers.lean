import AntsClient.Cbor.Schema
import AntsClient.Crdt.Proof

namespace AntsClient.Crdt.Readers

open Common Cbor Codec Tokens DecoderSpec Walk Schema Crypto Proof

variable {α : Type} {us : List Token}

variable {x : DecM α} {a : α} {ts : List Token} {key : UInt64} {β : Type} {body : DecM Unit}
  {g : α → List Token}
  {T : α → List Token → Prop}

theorem orMalformed_eq_ok {d d' : Dec} : orMalformed x d = .ok a d' ↔ x d = .ok a d' := by
  rw [orMalformed]
  cases x d <;> simp

theorem takes_orMalformed (h : Takes x ts us a) : Takes (orMalformed x) ts us a := by
  intro doc d hd
  obtain ⟨d', hx, hd'⟩ := h doc d hd
  exact ⟨d', orMalformed_eq_ok.mpr hx, hd'⟩

theorem takes_decPeek {t : Token} : Takes (decPeek (itemType t)) (t :: us) (t :: us) () := by
  intro doc d hd
  have hat := hd.at_pos
  rw [List.flatMap_cons, at_append] at hat
  exact ⟨d, if_pos (decPeekType_token (hd.valid t List.mem_cons_self) hat.1), hd⟩

theorem takes_decFinish : Takes decFinish [] [] () := by
  intro doc d hd
  refine ⟨d, ?_, hd⟩
  rw [decFinish, hd.finalise]

theorem takes_decMapOf {pairs : UInt64} : Takes (decMapOf pairs) (.map pairs.toNat :: us) us () :=
  takes_expected (takes_orMalformed takes_map)

theorem takes_decArrayOf {elems : UInt64} : Takes (decArrayOf elems) (.array elems.toNat :: us) us () :=
  takes_expected (takes_orMalformed takes_array)

theorem takes_decExpectKey : Takes (decExpectKey key) (.uint key.toNat :: us) us () :=
  (takes_decPeek (t := .uint key.toNat)).bind (takes_expected (takes_orMalformed takes_uint))

theorem takes_decUintVal {v : UInt64} : Takes decUintVal (.uint v.toNat :: us) us v :=
  (takes_decPeek (t := .uint v.toNat)).bind (takes_orMalformed takes_uint)

theorem takes_decBytesVal {b : Bytes} : Takes decBytesVal (.bytes b :: us) us b :=
  (takes_decPeek (t := .bytes b)).bind (takes_orMalformed takes_bytes)

theorem takes_decBytes32 {x : Bytes32} : Takes decBytes32 (.bytes x.val :: us) us x := by
  refine takes_decBytesVal.bind ?_
  rw [toBytes32_eq_some.mpr rfl]
  exact takes_pure

theorem takes_keyed {f : α → DecM β} {vs : List Token} {b : β}
    (hx : Takes x ts us a) (hf : Takes (f a) us vs b) :
    Takes (do decExpectKey key; let a ← x; f a) (.uint key.toNat :: ts) vs b :=
  takes_decExpectKey.bind (hx.bind hf)

theorem takes_decEnvelope {subject : Bytes32} {subjectOk : Bytes → Bool} {faultType epoch : UInt64}
    (hok : subjectOk subject.val = true) : Takes (decEnvelope subjectOk)
      ([.map 4, .uint 0, .bytes subject.val, .uint 1, .uint faultType.toNat, .uint 2,
        .uint epoch.toNat, .uint 3] ++ us) us
      (subject.val, faultType, epoch) := by
  refine takes_decMapOf.bind (takes_keyed takes_decBytesVal ?_)
  rw [if_neg (by simp [hok])]
  exact takes_keyed takes_decUintVal (takes_keyed takes_decUintVal (takes_decExpectKey.bind takes_pure))

theorem takes_repeatWalk {xs : List α}
    (h : ∀ x us, Takes body (g x ++ us) us ()) :
    Takes (repeatWalk body xs.length) (xs.flatMap g ++ us) us () := by
  induction xs with
  | nil => exact takes_pure
  | cons x xs ih =>
    rw [List.flatMap_cons, List.append_assoc]
    exact (h x _).bind ih

section Sound

theorem runDec_eq_ok {buf : Bytes} : runDec x buf = .ok a ↔ ∃ d, x (decInit buf) = .ok a d := by
  rw [runDec]
  cases x (decInit buf) <;> simp

theorem yields_orMalformed (h : Yields x T) : Yields (orMalformed x) T :=
  fun _ _ _ hd hx => h _ _ _ hd (orMalformed_eq_ok.mp hx)

theorem yields_decPeek (ty : ItemType) : Yields (decPeek ty) fun _ ts => ts = [] := by
  intro d a d' hd hx
  rw [decPeek] at hx
  split at hx
  · obtain rfl : d = d' := (EStateM.Result.ok.inj hx).2
    exact ⟨⟨[], rfl, by simp, readsAll_nil hd⟩, False.elim⟩
  · cases hx

theorem yields_decFinish (h : T a []) : Yields (do decFinish; return a) T True := by
  refine yields_finish (fun {d d'} hd => ?_) h
  rw [decFinish] at hd
  split at hd
  · rename_i hend
    exact ⟨hend, (EStateM.Result.ok.inj hd).2⟩
  · cases hd

theorem yields_decMapOf (pairs : UInt64) : Yields (decMapOf pairs) fun _ ts => ts = [.map pairs.toNat] :=
  yields_expected (g := fun n => .map n.toNat) (yields_orMalformed yields_map)

theorem yields_decArrayOf (elems : UInt64) : Yields (decArrayOf elems) fun _ ts => ts = [.array elems.toNat] :=
  yields_expected (g := fun n => .array n.toNat) (yields_orMalformed yields_array)

theorem yields_decExpectKey (key : UInt64) : Yields (decExpectKey key) fun _ ts => ts = [.uint key.toNat] :=
  (yields_decPeek _).silent fun _ =>
    yields_expected (g := fun n => .uint n.toNat) (yields_orMalformed yields_uint)

theorem yields_decUintVal : Yields decUintVal fun v ts => ts = [.uint v.toNat] :=
  (yields_decPeek _).silent fun _ => yields_orMalformed yields_uint

theorem yields_decBytesVal : Yields decBytesVal fun b ts => ts = [.bytes b] :=
  (yields_decPeek _).silent fun _ => yields_orMalformed yields_bytes

theorem yields_decBytes32 : Yields decBytes32 fun x ts => ts = [.bytes x.val] := by
  refine yields_decBytesVal.step fun b => ?_
  cases h : toBytes32 b with
  | none => exact yields_throw
  | some x =>
    obtain rfl := toBytes32_eq_some.mp h
    exact yields_pure rfl

theorem yields_keyed {f : α → DecM β} {g : α → Token} {T : β → List Token → Prop} {closed : Prop}
    (key : UInt64) (hx : Yields x fun a ts => ts = [g a])
    (hf : ∀ a, Yields (f a) (fun b us => T b (.uint key.toNat :: g a :: us)) closed) :
    Yields (do decExpectKey key; let a ← x; f a) T closed :=
  (yields_decExpectKey key).step fun _ => hx.step hf

theorem yields_repeatWalk (h : Yields body fun _ ts => ∃ x, ts = g x) (n : Nat) :
    Yields (repeatWalk body n) fun _ ts => ∃ xs : List α, xs.length = n ∧ ts = xs.flatMap g := by
  induction n with
  | zero => exact yields_pure ⟨[], rfl, rfl⟩
  | succ n ih =>
    refine h.bind fun _ ts hx => ih.mono ?_
    rintro _ us ⟨xs, rfl, rfl⟩
    obtain ⟨x, rfl⟩ := hx
    exact ⟨x :: xs, rfl, List.flatMap_cons.symm⟩

end Sound

end AntsClient.Crdt.Readers
