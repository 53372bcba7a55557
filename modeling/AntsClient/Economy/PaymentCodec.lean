import AntsClient.Cbor.Sizes
import AntsClient.Chain.FieldReaders
import AntsClient.Economy.Payment

namespace AntsClient.Economy.PaymentCodec

open Common Cbor Codec Tokens EncoderSpec Values Canonical Schema Sizes Value Chain FieldReaders
  Blocks Lib.CString Payment
open List hiding all_map

variable {s : Scheme} {α : Type} {b : Bool} {cap : Nat} {terms : Terms} {key : UInt64}

structure Offer where
  kind : SchemeKind
  amount : UInt64
  currency : Bytes
  refA : Bytes
  refB : Bytes

structure Offers where
  schemes : List Offer
  validityUnixS : UInt64
  scope : Scope
  notes : Bytes

variable {os : Offers}

/-- The fields that mean something: the strings without what follows their terminator. -/
def viewScheme (s : Scheme) : Offer := ⟨s.kind, s.amount, s.currency.str, s.refA.str, s.refB.str⟩

def view (terms : Terms) : Offers :=
  ⟨terms.schemes.map viewScheme, terms.validityUnixS, terms.scope, terms.notes.str⟩

def storeScheme (o : Offer) : Scheme := ⟨o.kind, o.amount, .copy _ o.currency, .copy _ o.refA, .copy _ o.refB⟩

def store (o : Offers) : Terms := ⟨o.schemes.map storeScheme, o.validityUnixS, o.scope, .copy _ o.notes⟩

def carries (o : Offer) (field : UInt32) : Bool := has (schemeFieldMask o.kind) field

def carried {α : Type} (b : Bool) (l : List α) : List α := if b then l else []

def offerFields (o : Offer) : List (Value × Value) :=
  (.uint 1, .uint (kindWire o.kind).toNat) :: (carried (carries o fAmount) [(.uint 2, .uint o.amount.toNat)] ++
    (carried (carries o fCurrency) [(.uint 3, .text o.currency)] ++
      (carried (carries o fRefA) [(.uint 4, .text o.refA)] ++
      carried (carries o fRefB) [(.uint 5, .text o.refB)])))

def offerValue (o : Offer) : Value := .map (offerFields o)

def offersValue (o : Offers) : Value :=
  .map [(.uint 1, .array (o.schemes.map offerValue)), (.uint 2, .uint o.validityUnixS.toNat),
    (.uint 3, .uint (scopeWire o.scope).toNat), (.uint 4, .text o.notes)]

def NulFree (v : Value) : Prop := All (fun w => ∀ t, w = .text t → 0 ∉ t) v

section Valid

structure Valid (s : Scheme) : Prop where
  known : s.kind ≠ .unknown
  currency : s.currency.terminated = true
  refA : s.refA.terminated = true
  refB : s.refB.terminated = true
  noAmount : has (schemeFieldMask s.kind) fAmount = false → s.amount = 0
  noCurrency : has (schemeFieldMask s.kind) fCurrency = false → s.currency.str = []
  noRefA : has (schemeFieldMask s.kind) fRefA = false → s.refA.str = []
  noRefB : has (schemeFieldMask s.kind) fRefB = false → s.refB.str = []
  priced : s.kind = .fiatStripe → s.currency.str ≠ []

theorem schemeValid_iff : schemeValid s = true ↔ Valid s := by
  have hguard : ∀ (c : Prop) [Decidable c] (b : Bool), (if c then false else b) = true ↔ ¬ c ∧ b = true := by
    intro c _ b
    by_cases hc : c <;> simp [hc]
  have hempty : ∀ {cap : Nat} (t : Text cap) (b : Bool), ¬ (!b && decide (t.first ≠ 0)) = true ↔
      (b = false → t.str = []) := by
    intro cap t b
    rw [← Text.first_eq_zero_iff]
    cases b <;> simp
  simp only [schemeValid, hguard, hempty]
  rw [Bool.not_eq_true', kindValid]
  constructor
  · rintro ⟨hkind, hterm, hamount, hcurrency, hrefA, hrefB, hstripe, -⟩
    simp only [Bool.or_eq_true, Bool.not_eq_true', not_or, Bool.not_eq_false] at hterm
    constructor
    · simpa using hkind
    · exact hterm.1.1
    · exact hterm.1.2
    · exact hterm.2
    · intro hno
      simpa [hno] using hamount
    · exact hcurrency
    · exact hrefA
    · exact hrefB
    · intro hkind hstr
      rw [← Text.first_eq_zero_iff] at hstr
      simp [hkind, hstr] at hstripe
  · intro h
    refine ⟨?_, ?_, ?_, h.noCurrency, h.noRefA, h.noRefB, ?_, trivial⟩
    · simpa using h.known
    · simp [h.currency, h.refA, h.refB]
    · cases hb : has (schemeFieldMask s.kind) fAmount with
      | true => simp
      | false => simp [h.noAmount hb]
    · intro hboth
      rw [Bool.and_eq_true, decide_eq_true_eq, decide_eq_true_eq, Text.first_eq_zero_iff] at hboth
      exact h.priced hboth.1 hboth.2

end Valid

section Encode

variable {o : Offer}

def offerTokens (o : Offer) : List Token :=
  .map (schemePairs (schemeFieldMask o.kind)).toNat :: .uint 1 :: .uint (kindWire o.kind).toNat ::
    (carried (carries o fAmount) [.uint 2, .uint o.amount.toNat] ++
      (carried (carries o fCurrency) [.uint 3, .text o.currency] ++
        (carried (carries o fRefA) [.uint 4, .text o.refA] ++
        carried (carries o fRefB) [.uint 5, .text o.refB])))

theorem length_offerFields (o : Offer) :
    (offerFields o).length = (schemePairs (schemeFieldMask o.kind)).toNat := by
  simp only [offerFields, carries, schemePairs]
  generalize has (schemeFieldMask o.kind) fAmount = b₁
  generalize has (schemeFieldMask o.kind) fCurrency = b₂
  generalize has (schemeFieldMask o.kind) fRefA = b₃
  generalize has (schemeFieldMask o.kind) fRefB = b₄
  cases b₁ <;> cases b₂ <;> cases b₃ <;> cases b₄ <;> rfl

theorem flatMap_carried {β : Type} (b : Bool) (l : List α) (f : α → List β) :
    (carried b l).flatMap f = carried b (l.flatMap f) := by
  cases b <;> rfl

theorem tokens_offer (o : Offer) : tokens (offerValue o) = offerTokens o := by
  rw [offerValue, tokens_map, length_offerFields, offerTokens, offerFields, flatMap_cons, flatMap_append,
    flatMap_append, flatMap_append, flatMap_carried, flatMap_carried, flatMap_carried, flatMap_carried]
  simp only [flatMap_singleton, tokens, cons_append, nil_append]

theorem tokens_offers (os : Offers) : tokens (offersValue os) =
    .map 4 :: .uint 1 :: .array os.schemes.length :: (os.schemes.flatMap offerTokens ++
      [.uint 2, .uint os.validityUnixS.toNat, .uint 3, .uint (scopeWire os.scope).toNat, .uint 4,
        .text os.notes]) := by
  simp [offersValue, tokens, tokensPairs, tokensList_eq, flatMap_map, tokens_offer]

theorem enc_carried {x : EncM Unit} {ts : List Token} (hx : x = encCalls (ts.map Token.call)) :
    encWhen b x = encCalls ((carried b ts).map Token.call) := by
  cases b with
  | true => exact hx
  | false => rfl

theorem encKvUint_eq (key v : UInt64) :
    encKvUint key v = encCalls ([Token.uint key.toNat, .uint v.toNat].map Token.call) := by
  simp [encKvUint, Token.call, encCalls, encCall]

theorem encKvText_eq (key : UInt64) (t : Text cap) :
    encKvText key t = encCalls ([Token.uint key.toNat, .text t.str].map Token.call) := by
  simp [encKvText, Token.call, encCalls, encCall]

theorem seq_congr {x x' y y' : EncM Unit} (hx : x = x') (hy : y = y') :
    (do x; y) = (do x'; y') := by rw [hx, hy]

theorem encScheme_eq (s : Scheme) : encScheme s = encCalls ((offerTokens (viewScheme s)).map Token.call) := by
  have hstart : ∀ ts : List Token,
    encCalls ((Token.map (schemePairs (schemeFieldMask s.kind)).toNat :: .uint 1 ::
      .uint (kindWire s.kind).toNat :: ts).map Token.call) = (do
        encMap (schemePairs (schemeFieldMask s.kind))
        encKvUint 1 (kindWire s.kind)
        encCalls (ts.map Token.call) : EncM Unit) := by
    intro ts
    simp [Token.call, encCalls, encCall, encKvUint]
  rw [offerTokens]
  refine Eq.trans ?_ (hstart _).symm
  rw [map_append, encCalls_append, map_append, encCalls_append, map_append, encCalls_append]
  refine seq_congr rfl (seq_congr rfl (seq_congr ?_ (seq_congr ?_ (seq_congr ?_ ?_))))
  · exact enc_carried (encKvUint_eq 2 s.amount)
  · exact enc_carried (encKvText_eq 3 s.currency)
  · exact enc_carried (encKvText_eq 4 s.refA)
  · exact enc_carried (encKvText_eq 5 s.refB)

theorem encSchemes_eq (ss : List Scheme) :
    encSchemes ss = encCalls (((ss.map viewScheme).flatMap offerTokens).map Token.call) := by
  induction ss with
  | nil => rfl
  | cons s ss ih => rw [encSchemes, ih, encScheme_eq, map_cons, flatMap_cons, map_append, encCalls_append]

theorem encTerms_eq (terms : Terms) : encTerms terms = encCalls (calls (offersValue (view terms))) := by
  rw [calls, tokens_offers]
  simp [encTerms, view, encSchemes_eq, encKvUint, encKvText, Token.call, encCalls, encCall, encCalls_append]

theorem forall_offerFields {P : Value × Value → Prop} :
    (∀ kv ∈ offerFields o, P kv) ↔ P (.uint 1, .uint (kindWire o.kind).toNat) ∧
    (carries o fAmount = true → P (.uint 2, .uint o.amount.toNat)) ∧
    (carries o fCurrency = true → P (.uint 3, .text o.currency)) ∧
    (carries o fRefA = true → P (.uint 4, .text o.refA)) ∧
    (carries o fRefB = true → P (.uint 5, .text o.refB)) := by
  have hcarried : ∀ (b : Bool) (x : Value × Value), (∀ kv ∈ carried b [x], P kv) ↔ (b = true → P x) := by
    intro b x
    cases b <;> simp [carried]
  simp only [offerFields, forall_mem_cons, forall_mem_append, hcarried]

theorem carried_sublist (b : Bool) (l : List α) : (carried b l).Sublist l := by
  cases b with
  | true => exact .refl l
  | false => exact nil_sublist l

theorem offerFields_keysAscend (o : Offer) : (Value.keys (offerFields o)).IsChain (· < ·) := by
  have hall : (Value.keys [(.uint 1, .uint (kindWire o.kind).toNat), (.uint 2, .uint o.amount.toNat),
    (.uint 3, .text o.currency),
      (.uint 4, .text o.refA), (.uint 5, .text o.refB)]).Pairwise (· < ·) := by
    simp only [Value.keys, List.map]
    decide
  have hsub : (offerFields o).Sublist
    [(.uint 1, .uint (kindWire o.kind).toNat), (.uint 2, .uint o.amount.toNat),
      (.uint 3, .text o.currency), (.uint 4, .text o.refA), (.uint 5, .text o.refB)] := by
    apply List.Sublist.cons_cons
    apply (carried_sublist _ _).append
    apply (carried_sublist _ _).append
    exact (carried_sublist _ _).append (carried_sublist _ _)
  exact (hall.sublist (hsub.map _)).isChain

structure Fits (o : Offer) : Prop where
  currency : o.currency.length < currencyMax
  refA : o.refA.length < refMax
  refB : o.refB.length < refMax

theorem offer_within (h : Fits o) : Within 1 (offerValue o) := by
  refine within_map ((length_offerFields o).trans_lt (UInt64.toNat_lt _)) (offerFields_keysAscend o)
    (forall_offerFields.mpr ?_)
  refine ⟨⟨within_uint (by decide), within_uint64 _⟩, fun _ =>
    ⟨within_uint (by decide), within_uint64 _⟩, fun _ => ?_, fun _ => ?_,
    fun _ => ?_⟩
  · exact ⟨within_uint (by decide), within_text (h.currency.trans (by decide))⟩
  · exact ⟨within_uint (by decide), within_text (h.refA.trans (by decide))⟩
  · exact ⟨within_uint (by decide), within_text (h.refB.trans (by decide))⟩

theorem offers_wellFormed (hcount : os.schemes.length ≤ maxSchemes) (hschemes : ∀ o ∈ os.schemes, Fits o)
    (hnotes : os.notes.length < notesMax) : WellFormed (offersValue os) := by
  have harray : Within 2 (.array (os.schemes.map offerValue)) :=
    within_array_map (hcount.trans_lt (by decide)) fun o ho => offer_within (hschemes o ho)
  have hwithin : Within 3 (offersValue os) := by
    apply within_fields [1, 2, 3, 4] rfl (by decide)
    simp [harray, within_text (hnotes.trans (by decide : notesMax < 2 ^ 64))]
  exact hwithin.wellFormed (by decide)

end Encode

section Texts

variable {o : Offer}

theorem fits_view (h : Valid s) : Fits (viewScheme s) :=
  ⟨Text.str_length_lt h.currency, Text.str_length_lt h.refA, Text.str_length_lt h.refB⟩

theorem viewScheme_store (h : Fits o) (hcurrency : 0 ∉ o.currency) (hrefA : 0 ∉ o.refA) (hrefB : 0 ∉ o.refB) :
    viewScheme (storeScheme o) = o := by
  rw [storeScheme, viewScheme, (Text.str_copy_eq_iff h.currency).mpr hcurrency,
    (Text.str_copy_eq_iff h.refA).mpr hrefA,
    (Text.str_copy_eq_iff h.refB).mpr hrefB]

theorem valid_store (h : Valid s) : Valid (storeScheme (viewScheme s)) := by
  have hfits := fits_view h
  have hview := viewScheme_store hfits s.currency.zero_notMem_str s.refA.zero_notMem_str s.refB.zero_notMem_str
  have hcurrency : (storeScheme (viewScheme s)).currency.str = s.currency.str := congrArg Offer.currency hview
  have hrefA : (storeScheme (viewScheme s)).refA.str = s.refA.str := congrArg Offer.refA hview
  have hrefB : (storeScheme (viewScheme s)).refB.str = s.refB.str := congrArg Offer.refB hview
  constructor
  · exact h.known
  · exact Text.terminated_copy hfits.currency
  · exact Text.terminated_copy hfits.refA
  · exact Text.terminated_copy hfits.refB
  · exact h.noAmount
  · rw [hcurrency]
    exact h.noCurrency
  · rw [hrefA]
    exact h.noRefA
  · rw [hrefB]
    exact h.noRefB
  · rw [hcurrency]
    exact h.priced

end Texts

variable {bytes p : Bytes} {o : Offer}

section Decode

variable {us : List Token}

/-- A scheme that the decoder accepts: no text is too long, only what the kind carries is set. -/
structure Accepted (o : Offer) : Prop where
  fits : Fits o
  valid : Valid (storeScheme o)
  noCurrency : carries o fCurrency = false → o.currency = []
  noRefA : carries o fRefA = false → o.refA = []
  noRefB : carries o fRefB = false → o.refB = []

structure AllAccepted (os : Offers) : Prop where
  count : os.schemes.length ≤ maxSchemes
  schemes : ∀ o ∈ os.schemes, Accepted o
  scope : os.scope ≠ .unknown
  notes : os.notes.length < notesMax

theorem yields_decodeTextField (key : UInt64) (cap : Nat) : Yields (decodeTextField key cap) fun t ts =>
    ∃ p : Bytes, p.length < cap ∧ t = .copy cap p ∧ ts = [.uint key.toNat, .text p] := by
  refine yields_field key yields_text fun p => yields_guard fun hlen => ?_
  exact yields_pure ⟨p, Nat.not_le.mp hlen, rfl, rfl⟩

theorem yields_textWhen (b : Bool) (key : UInt64) (hcap : 0 < cap) :
    Yields (decWhen b (decodeTextField key cap) (.copy _ [])) fun t ts =>
      ∃ p : Bytes, p.length < cap ∧ (b = false → p = []) ∧ t = .copy cap p ∧
      ts = carried b [.uint key.toNat, .text p] := by
  cases b with
  | true =>
    apply (yields_decodeTextField key cap).mono
    rintro t ts ⟨p, hlen, ht, hts⟩
    exact ⟨p, hlen, fun h => Bool.noConfusion h, ht, hts⟩
  | false => exact yields_pure ⟨[], hcap, fun _ => rfl, rfl, rfl⟩

theorem yields_uintWhen (b : Bool) (key : UInt64) : Yields (decWhen b (decodeUintField key) 0) fun v ts =>
    ts = carried b [.uint key.toNat, .uint v.toNat] := by
  cases b with
  | true => exact yields_decodeUintField key
  | false => exact yields_pure rfl

theorem yields_decodeScheme : Yields decodeScheme fun s ts =>
    ∃ o, Accepted o ∧ s = storeScheme o ∧ ts = offerTokens o := by
  refine Yields.step (yields_normDecode yields_map) fun nPairs => (yields_decodeUintField 1).seq fun kindU => ?_
  refine yields_guard fun hkind => yields_guard fun hpairs => ?_
  rw [not_not] at hpairs
  refine (yields_uintWhen _ 2).bind fun amount ts₁ h₁ =>
      (yields_textWhen _ 3 (by decide)).bind fun currency ts₂ h₂ =>
    (yields_textWhen _ 4 (by decide)).bind fun refA ts₃ h₃ =>
      (yields_textWhen _ 5 (by decide)).bind fun refB ts₄ h₄ => ?_
  obtain ⟨p, hp, hnoCurrency, rfl, rfl⟩ := h₂
  obtain ⟨q, hq, hnoRefA, rfl, rfl⟩ := h₃
  obtain ⟨r, hr, hnoRefB, rfl, rfl⟩ := h₄
  subst h₁
  refine yields_guard fun hvalid => yields_pure ?_
  refine ⟨⟨kindOf kindU, amount, p, q, r⟩, ⟨⟨hp, hq, hr⟩, ?_, hnoCurrency, hnoRefA, hnoRefB⟩, rfl, ?_⟩
  · rw [← schemeValid_iff, storeScheme]
    simpa using hvalid
  · rw [offerTokens, hpairs, kindWire_kindOf hkind, append_nil]
    rfl

theorem schemes_repeats : Repeats decodeSchemes decodeScheme := ⟨rfl, fun _ => rfl⟩

theorem yields_decodeTerms : Yields decodeTerms (fun terms ts =>
    ∃ os, AllAccepted os ∧ terms = store os ∧ ts = tokens (offersValue os)) True := by
  refine (yields_decodePairs 4).seq fun _ => yields_field 1 yields_array fun n => yields_guard fun hcount => ?_
  refine (schemes_repeats.yields yields_decodeScheme _).bind fun ss ts hss =>
      (yields_decodeUintField 2).seq fun validity =>
    (yields_decodeUintField 3).seq fun scopeU => yields_guard fun hscope => ?_
  refine (yields_decodeTextField 4 notesMax).bind fun notes ts' hnotes => yields_decodeFinish ?_
  obtain ⟨os, hlen, hos, rfl, rfl⟩ := hss
  obtain ⟨p, hp, rfl, rfl⟩ := hnotes
  refine ⟨⟨os, validity, scopeOf scopeU, p⟩, ⟨?_, hos, scopeOf_ne_unknown hscope, hp⟩, rfl, ?_⟩
  · exact hlen.trans_le (Nat.not_lt.mp hcount)
  · rw [tokens_offers, scopeWire_scopeOf hscope, hlen]
    simp

theorem termsDecode_sound (h : termsDecode bytes = .ok terms) :
    ∃ os, AllAccepted os ∧ terms = store os ∧ encode (offersValue os) = bytes := by
  obtain ⟨d, hd⟩ := Crdt.Readers.runDec_eq_ok.mp h
  obtain ⟨ts, ⟨os, hos, hterms, rfl⟩, -, hbytes, -⟩ := yields_decodeTerms.whole hd
  exact ⟨os, hos, hterms, hbytes⟩

theorem takes_decodeTextField (h : p.length < cap) :
    Takes (decodeTextField key cap) (.uint key.toNat :: .text p :: us) us (.copy cap p) := by
  apply takes_field takes_text
  rw [if_neg (Nat.not_le.mpr h)]
  exact takes_pure

theorem takes_textWhen (h : p.length < cap) (habsent : b = false → p = []) :
    Takes (decWhen b (decodeTextField key cap) (.copy _ []))
      (carried b [.uint key.toNat, .text p] ++ us) us (.copy cap p) := by
  cases b with
  | true => exact takes_decodeTextField h
  | false =>
    obtain rfl := habsent rfl
    exact takes_pure

theorem takes_uintWhen {v : UInt64} (habsent : b = false → v = 0) :
    Takes (decWhen b (decodeUintField key) 0) (carried b [.uint key.toNat, .uint v.toNat] ++ us) us v := by
  cases b with
  | true => exact takes_decodeUintField
  | false =>
    obtain rfl := habsent rfl
    exact takes_pure

theorem takes_decodeScheme (h : Accepted o) : Takes decodeScheme (offerTokens o ++ us) us (storeScheme o) := by
  rw [offerTokens]
  simp only [cons_append, append_assoc]
  apply (takes_normDecode takes_map).bind
  apply takes_decodeUintField.bind
  have hkind : ¬ kindWire o.kind > 5 := kindWire_le h.valid.known
  rw [if_neg hkind, kindOf_kindWire]
  dsimp only
  rw [if_neg (not_not.mpr rfl)]
  have hamount : has (schemeFieldMask o.kind) fAmount = false → o.amount = 0 := h.valid.noAmount
  apply (takes_uintWhen hamount).bind
  apply (takes_textWhen h.fits.currency h.noCurrency).bind
  apply (takes_textWhen h.fits.refA h.noRefA).bind
  apply (takes_textWhen h.fits.refB h.noRefB).bind
  have hvalid : schemeValid ⟨o.kind, o.amount, .copy _ o.currency, .copy _ o.refA, .copy _ o.refB⟩ = true :=
    schemeValid_iff.mpr h.valid
  rw [hvalid, if_neg (by simp)]
  exact takes_pure

theorem takes_decodeTerms (h : AllAccepted os) : Takes decodeTerms (tokens (offersValue os)) [] (store os) := by
  have hn : (UInt64.ofNat os.schemes.length).toNat = os.schemes.length :=
    ofNat_toNat (h.count.trans_lt (by decide))
  rw [tokens_offers, ← hn]
  apply Takes.bind (@takes_decodePairs _ 4)
  apply takes_field takes_array
  rw [hn, if_neg (Nat.not_lt.mpr h.count)]
  apply (schemes_repeats.takes fun o ho _ => takes_decodeScheme (h.schemes o ho)).bind
  apply takes_decodeUintField.bind
  apply takes_decodeUintField.bind
  rw [if_neg (scopeWire_le h.scope), scopeOf_scopeWire]
  apply (takes_decodeTextField h.notes).bind
  exact takes_decodeFinish.bind takes_pure

theorem offers_wellFormed_of_accepted (h : AllAccepted os) : WellFormed (offersValue os) :=
  offers_wellFormed h.count (fun o ho => (h.schemes o ho).fits) h.notes

theorem termsDecode_encode (h : AllAccepted os) : termsDecode (encode (offersValue os)) = .ok (store os) :=
  runDec_of_takes (offers_wellFormed_of_accepted h) (takes_decodeTerms h)

end Decode

section Canonical

structure Encodable (terms : Terms) : Prop where
  count : terms.schemes.length ≤ maxSchemes
  scope : terms.scope ≠ .unknown
  notes : terms.notes.terminated = true
  schemes : ∀ s ∈ terms.schemes, Valid s

theorem accepted_view (h : Encodable terms) : AllAccepted (view terms) := by
  constructor
  · exact (length_map ..).trans_le h.count
  · intro o ho
    obtain ⟨s, hs, rfl⟩ := mem_map.mp ho
    have hvalid := h.schemes s hs
    exact ⟨fits_view hvalid, valid_store hvalid, hvalid.noCurrency, hvalid.noRefA, hvalid.noRefB⟩
  · exact h.scope
  · exact Text.str_length_lt h.notes

theorem guard_iff {p : Prop} [Decidable p] {err : Error} {x : Except Error α} {a : α} :
    (if p then .error err else x) = .ok a ↔ ¬ p ∧ x = .ok a := by
  by_cases h : p <;> simp [h]

theorem termsEncode_iff {out : Bytes} : termsEncode terms out = .ok bytes ↔
    Encodable terms ∧ encode (offersValue (view terms)) = bytes ∧ bytes.length ≤ out.length := by
  have hguards : Encodable terms ↔ ¬ terms.schemes.length > maxSchemes ∧ ¬ terms.scope = .unknown ∧
      ¬ (!terms.notes.terminated) = true ∧ ¬ (!terms.schemes.all schemeValid) = true := by
    rw [Nat.not_lt, Bool.not_eq_true', Bool.not_eq_false, Bool.not_eq_true', Bool.not_eq_false, all_eq_true]
    constructor
    · intro h
      exact ⟨h.count, h.scope, h.notes, fun s hs => schemeValid_iff.mpr (h.schemes s hs)⟩
    · rintro ⟨hcount, hscope, hnotes, hschemes⟩
      exact ⟨hcount, hscope, hnotes, fun s hs => schemeValid_iff.mp (hschemes s hs)⟩
  rw [termsEncode, guard_iff, guard_iff, guard_iff, guard_iff, encTerms_eq]
  constructor
  · rintro ⟨hcount, hscope, hnotes, hschemes, henc⟩
    have h := hguards.mpr ⟨hcount, hscope, hnotes, hschemes⟩
    exact ⟨h, (encodeInto_iff (offers_wellFormed_of_accepted (accepted_view h))).mp henc⟩
  · rintro ⟨h, henc⟩
    obtain ⟨hcount, hscope, hnotes, hschemes⟩ := hguards.mp h
    exact ⟨hcount, hscope, hnotes, hschemes,
      (encodeInto_iff (offers_wellFormed_of_accepted (accepted_view h))).mpr henc⟩

theorem encodable_store (h : AllAccepted os) : Encodable (store os) := by
  constructor
  · exact (length_map ..).trans_le h.count
  · exact h.scope
  · exact Text.terminated_copy h.notes
  · intro s hs
    obtain ⟨o, ho, rfl⟩ := mem_map.mp hs
    exact (h.schemes o ho).valid

theorem nulFree_offer : NulFree (offerValue o) ↔ (carries o fCurrency = true → 0 ∉ o.currency) ∧
    (carries o fRefA = true → 0 ∉ o.refA) ∧ (carries o fRefB = true → 0 ∉ o.refB) := by
  have htext : ∀ p : Bytes, NulFree (.text p) ↔ 0 ∉ p := by
    intro p
    simp [NulFree, All]
  have huint : ∀ n, NulFree (.uint n) := by
    intro n
    simp [NulFree, All]
  have hmap : NulFree (offerValue o) ↔ ∀ kv ∈ offerFields o, NulFree kv.1 ∧ NulFree kv.2 := by
    rw [NulFree, offerValue, all_map]
    exact and_iff_right fun t h => Value.noConfusion h
  rw [hmap, forall_offerFields]
  simp only [htext, huint, true_and, implies_true]

theorem nulFree_offers : NulFree (offersValue os) ↔ (∀ o ∈ os.schemes, NulFree (offerValue o)) ∧
    0 ∉ os.notes := by
  simp only [NulFree, offersValue, All, AllPairs, allList_iff, forall_mem_map]
  simp

theorem nulFree_view (terms : Terms) : NulFree (offersValue (view terms)) := by
  rw [nulFree_offers]
  constructor
  · intro o ho
    obtain ⟨s, -, rfl⟩ := mem_map.mp ho
    exact nulFree_offer.mpr ⟨fun _ => s.currency.zero_notMem_str, fun _ =>
      s.refA.zero_notMem_str, fun _ => s.refB.zero_notMem_str⟩
  · exact terms.notes.zero_notMem_str

theorem view_store_of_nulFree (h : AllAccepted os) (hnul : NulFree (offersValue os)) :
    view (store os) = os := by
  obtain ⟨hoffers, hnotes⟩ := nulFree_offers.mp hnul
  -- A text that the kind does not carry is empty.
  have hclear : ∀ {b : Bool} {p : Bytes}, (b = true → 0 ∉ p) → (b = false → p = []) → 0 ∉ p := by
    intro b p hcarried habsent
    cases b with
    | true => exact hcarried rfl
    | false => exact habsent rfl ▸ not_mem_nil
  have hschemes : (os.schemes.map storeScheme).map viewScheme = os.schemes := by
    rw [map_map]
    nth_rewrite 2 [← map_id os.schemes]
    apply map_congr_left
    intro o ho
    obtain ⟨hcurrency, hrefA, hrefB⟩ := nulFree_offer.mp (hoffers o ho)
    have haccepted := h.schemes o ho
    exact viewScheme_store haccepted.fits (hclear hcurrency haccepted.noCurrency)
      (hclear hrefA haccepted.noRefA)
      (hclear hrefB haccepted.noRefB)
  rw [store, view, hschemes, (Text.str_copy_eq_iff h.notes).mpr hnotes]

end Canonical

/-- Decoded terms are written as the bytes read exactly if no text has a zero byte, and written
terms are read back. -/
theorem terms_one_encoding (bytes : Bytes) (terms : Terms) :
    (termsDecode bytes = .ok terms →
      ((∀ out : Bytes, bytes.length ≤ out.length → termsEncode terms out = .ok bytes) ↔
        ∀ v, All InRange v → encode v = bytes → NulFree v)) ∧
    ∀ out, termsEncode terms out = .ok bytes → ∃ terms', termsDecode bytes = .ok terms' ∧
    view terms' = view terms := by
  constructor
  · intro hdec
    obtain ⟨os, hos, rfl, rfl⟩ := termsDecode_sound hdec
    have hrange := (offers_wellFormed_of_accepted hos).inRange
    constructor
    · intro hout v hv hbytes
      obtain ⟨hstore, henc, -⟩ := termsEncode_iff.mp (hout _ (Nat.le_refl _))
      have hrange' := (offers_wellFormed_of_accepted (accepted_view hstore)).inRange
      rw [encode_inj hv hrange hbytes, ← encode_inj hrange' hrange henc]
      exact nulFree_view _
    · intro hnul out hlen
      have hview := view_store_of_nulFree hos (hnul _ hrange rfl)
      rw [termsEncode_iff, hview]
      exact ⟨encodable_store hos, rfl, hlen⟩
  · intro out henc
    obtain ⟨h, rfl, -⟩ := termsEncode_iff.mp henc
    exact ⟨store (view terms), termsDecode_encode (accepted_view h),
      view_store_of_nulFree (accepted_view h) (nulFree_view terms)⟩

def noted (notes : Bytes) : Offers := ⟨[⟨.ncs, 0, [], [0x72], []⟩], 0, .perQuery, notes⟩

theorem accepted_noted {notes : Bytes} (h : notes.length < notesMax) : AllAccepted (noted notes) := by
  constructor
  · change 1 ≤ 8
    decide
  · intro o ho
    obtain rfl := mem_singleton.mp ho
    exact ⟨⟨by decide, by decide, by decide⟩, schemeValid_iff.mp (by decide), fun _ => rfl, fun h =>
      absurd h (by decide), fun _ => rfl⟩
  · exact Scope.noConfusion
  · exact h

theorem terms_one_encoding_noted :
    termsDecode (encode (offersValue (noted [0x61]))) = .ok (store (noted [0x61])) ∧
      termsEncode (store (noted [0x61])) (encode (offersValue (noted [0x61]))) =
        .ok (encode (offersValue (noted [0x61]))) := by
  have hnoted := @accepted_noted [0x61] (by decide)
  have hdec := termsDecode_encode hnoted
  refine ⟨hdec, (((terms_one_encoding _ _).1 hdec).mpr ?_) _ (Nat.le_refl _)⟩
  intro v hv hbytes
  rw [encode_inj hv (offers_wellFormed_of_accepted hnoted).inRange hbytes, nulFree_offers]
  constructor
  · intro o ho
    obtain rfl := mem_singleton.mp ho
    exact nulFree_offer.mpr ⟨fun _ => by decide, fun _ => by decide, fun _ => by decide⟩
  · exact by decide

/-- A note that goes on behind a zero byte is accepted and written shorter. -/
theorem termsDecode_cuts_text :
    (termsDecode [0xa4, 0x01, 0x80, 0x02, 0x00, 0x03, 0x00, 0x04, 0x63, 0x61, 0x00, 0x62] >>= fun terms =>
      termsEncode terms (replicate 64 0)) = .ok [0xa4, 0x01, 0x80, 0x02, 0x00, 0x03, 0x00, 0x04,
      0x61, 0x61] := by
  decide +kernel

section Negotiation

variable (calls calls' : List Scheme)

def built : Terms := calls.foldl (fun terms s => (termsAddScheme terms s).toOption.getD terms) termsInit

def offered : List Scheme := (calls.filter schemeValid).take maxSchemes

theorem built_eq : built calls = { termsInit with schemes := offered calls } := by
  induction calls using reverseRecOn with
  | nil => rfl
  | append_singleton calls s ih =>
    rw [built, foldl_concat, ← built, ih, termsAddScheme, offered, offered, filter_append]
    cases hs : schemeValid s with
    | false => simp [hs, Except.toOption]
    | true =>
      by_cases hroom : (calls.filter schemeValid).length < maxSchemes
      · rw [if_neg (by simp), if_neg (by simpa using hroom), take_of_length_le hroom.le,
          take_of_length_le (by simpa [hs] using hroom)]
        simp [hs, Except.toOption]
      · rw [Nat.not_lt] at hroom
        rw [if_neg (by simp), if_pos (by simpa using hroom), take_append_of_le_length hroom]
        rfl

theorem encodable_built : Encodable (built calls) := by
  rw [built_eq]
  refine ⟨length_take_le .., Scope.noConfusion, Text.terminated_copy (by decide), fun s hs => ?_⟩
  exact schemeValid_iff.mp (mem_filter.mp (mem_of_mem_take hs)).2

theorem termsIntersects_iff (a b : Terms) :
    termsIntersects a b = true ↔ ∃ s ∈ a.schemes, ∃ s' ∈ b.schemes, s.kind = s'.kind := by
  simp [termsIntersects]

/-- Terms so made can always be sent, and two of them intersect on arrival exactly if both sides offered
schemes of one kind. -/
theorem negotiation_over_wire : ∃ sent sent' terms terms',
    (∀ out : Bytes, sent.length ≤ out.length → termsEncode (built calls) out = .ok sent) ∧
    termsDecode sent = .ok terms ∧
    (∀ out : Bytes, sent'.length ≤ out.length → termsEncode (built calls') out = .ok sent') ∧
    termsDecode sent' = .ok terms' ∧
    (termsIntersects terms terms' = true ↔ ∃ s ∈ offered calls, ∃ s' ∈ offered calls', s.kind = s'.kind) := by
  have hsent (cs : List Scheme) := termsDecode_encode (accepted_view (encodable_built cs))
  have hout (cs : List Scheme) (out : Bytes) (hlen : _ ≤ out.length) :=
    termsEncode_iff.mpr ⟨encodable_built cs, rfl, hlen⟩
  refine ⟨_, _, _, _, hout calls, hsent calls, hout calls', hsent calls', ?_⟩
  rw [termsIntersects_iff, built_eq, built_eq]
  simp [store, view, storeScheme, viewScheme]

end Negotiation

end AntsClient.Economy.PaymentCodec
