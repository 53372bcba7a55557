import AntsClient.Cbor.Canonical

namespace AntsClient.Cbor.Parse

open Common Codec Frames Tokens DecoderSpec Values Value Unambiguous Walk Canonical List

variable {ts : List Token} {fs fs' : List Frame} {n : Nat} {bs : Bytes} {last : Option Bytes}

/-- The tokens begin with a whole value, if taking them all leaves no more
containers open than there were. -/
def Parses (ts : List Token) : Prop :=
  ∀ fs fs', fs.length ≤ maxDepth → ts ≠ [] → steps ts fs = .ok fs' → fs'.length ≤ fs.length →
    ∃ v rest, All InRange v ∧ ts = tokens v ++ rest

theorem ne_nil_of_steps {f : Frame} (hs : steps ts (f :: fs) = .ok fs')
    (hle : fs'.length ≤ fs.length) : ts ≠ [] := by
  rintro rfl
  obtain rfl : f :: fs = fs' := by simpa [steps_nil] using hs
  simp at hle

/-- One item of an open container: its tokens come next, and the rest goes on
from the frames that absorbed it. -/
theorem parses_item {f : Frame} (hp : Parses ts) (hfs : fs.length < maxDepth)
    (hs : steps ts (f :: fs) = .ok fs') (hle : fs'.length ≤ fs.length) :
    ∃ v rest gs, All InRange v ∧ ts = tokens v ++ rest ∧ absorb (encode v) (f :: fs) = .ok gs ∧
    steps rest gs = .ok fs' := by
  obtain ⟨v, rest, hv, rfl⟩ := hp (f :: fs) fs' hfs (ne_nil_of_steps hs hle) hs (Nat.le_succ_of_le hle)
  obtain ⟨-, -, hab⟩ := ((settles v hv).steps_append (show (f :: fs).length ≤ maxDepth from hfs)).mp hs
  obtain ⟨gs, hg, hr⟩ := except_bind_eq_ok.mp hab
  exact ⟨v, rest, gs, hv, rfl, hg, hr⟩

theorem parses_array (hp : ∀ us, us <:+ ts → Parses us) (hfs : fs.length < maxDepth)
    (hs : steps ts (⟨.array, n + 1, bs, last⟩ :: fs) = .ok fs') (hle : fs'.length ≤ fs.length) :
    ∃ vs : List Value, ∃ rest, vs.length = n + 1 ∧ (∀ v ∈ vs, All InRange v) ∧
    ts = vs.flatMap tokens ++ rest := by
  induction n generalizing ts bs with
  | zero =>
    obtain ⟨v, rest, -, hv, rfl, -⟩ := parses_item (hp ts suffix_rfl) hfs hs hle
    exact ⟨[v], rest, rfl, by simpa using hv, by simp⟩
  | succ n ih =>
    obtain ⟨v, rest, gs, hv, rfl, hg, hr⟩ := parses_item (hp ts suffix_rfl) hfs hs hle
    rw [absorb_array_next, Except.ok.injEq] at hg
    subst hg
    obtain ⟨vs, rest', hl, hvs, rfl⟩ := ih (fun us hus => hp us (hus.trans (suffix_append _ _))) hr
    exact ⟨v :: vs, rest', by simp [hl], forall_mem_cons.mpr ⟨hv, hvs⟩, by simp⟩

theorem parses_pair (hp : ∀ us, us <:+ ts → Parses us) (hfs : fs.length < maxDepth)
    (hs : steps ts (⟨.mapKey, n + 1, bs, last⟩ :: fs) = .ok fs') (hle : fs'.length ≤ fs.length) :
    ∃ k v rest gs, (All InRange k ∧ All InRange v) ∧ ts = (tokens k ++ tokens v) ++ rest ∧
      absorb (encode v) (⟨.mapValue, n + 1, bs ++ encode k, some (encode k)⟩ :: fs) = .ok gs ∧
      steps rest gs = .ok fs' := by
  obtain ⟨k, ts', gs, hk, rfl, hg, hr⟩ := parses_item (hp ts suffix_rfl) hfs hs hle
  rw [absorb_key] at hg
  split at hg
  · obtain rfl := Except.ok.inj hg
    obtain ⟨v, rest, gs, hv, rfl, hg', hr'⟩ := parses_item (hp ts' (suffix_append _ _)) hfs hr hle
    exact ⟨k, v, rest, gs, ⟨hk, hv⟩, (append_assoc ..).symm, hg', hr'⟩
  · cases hg

theorem parses_map (hp : ∀ us, us <:+ ts → Parses us) (hfs : fs.length < maxDepth)
    (hs : steps ts (⟨.mapKey, n + 1, bs, last⟩ :: fs) = .ok fs') (hle : fs'.length ≤ fs.length) :
    ∃ kvs : List (Value × Value), ∃ rest, kvs.length = n + 1 ∧
    (∀ kv ∈ kvs, All InRange kv.1 ∧ All InRange kv.2) ∧
      ts = (kvs.flatMap fun kv => tokens kv.1 ++ tokens kv.2) ++ rest := by
  induction n generalizing ts bs last with
  | zero =>
    obtain ⟨k, v, rest, -, hkv, rfl, -⟩ := parses_pair hp hfs hs hle
    exact ⟨[(k, v)], rest, rfl, by simpa using hkv, by simp⟩
  | succ n ih =>
    obtain ⟨k, v, rest, gs, hkv, rfl, hg, hr⟩ := parses_pair hp hfs hs hle
    rw [absorb_value_next, Except.ok.injEq] at hg
    subst hg
    obtain ⟨kvs, rest', hl, hkvs, rfl⟩ := ih (fun us hus => hp us (hus.trans (suffix_append _ _))) hr
    exact ⟨(k, v) :: kvs, rest', by simp [hl], forall_mem_cons.mpr ⟨hkv, hkvs⟩, by simp⟩

/-- By induction on the number of tokens: a token either is a value by itself or
opens a container whose items follow. -/
theorem parses (hvalid : ∀ t ∈ ts, t.Valid) : Parses ts := by
  induction hn : ts.length using Nat.strong_induction_on generalizing ts with
  | _ n ih =>
    intro fs fs' hfs hne hs hle
    cases ts with
    | nil => exact absurd rfl hne
    | cons t ts =>
      obtain ⟨ht, hts⟩ := forall_mem_cons.mp hvalid
      have hp : ∀ us, us <:+ ts → Parses us := fun us hus =>
        ih us.length (by have := hus.length_le; simp only [length_cons] at hn; omega)
          (fun t hm => hts t (hus.subset hm)) rfl
      rw [steps_cons] at hs
      cases t with
      | uint n => exact ⟨.uint n, ts, ht, rfl⟩
      | nint n => exact ⟨.nint n, ts, ht, rfl⟩
      | bytes b => exact ⟨.bytes b, ts, ht, rfl⟩
      | text b => exact ⟨.text b, ts, ht, rfl⟩
      | bool v => exact ⟨.bool v, ts, ht, rfl⟩
      | null => exact ⟨.null, ts, ht, rfl⟩
      | array n =>
        cases n with
        | zero => exact ⟨.array [], ts, ⟨ht, trivial⟩, rfl⟩
        | succ n =>
          obtain ⟨hlt, hs⟩ := push_bind_eq_ok.mp hs
          obtain ⟨vs, rest, hl, hvs, rfl⟩ := parses_array hp hlt hs hle
          refine ⟨.array vs, rest, all_array.mpr ⟨?_, hvs⟩, ?_⟩
          · rw [InRange, hl]
            exact ht
          · rw [tokens_array, hl, cons_append]
      | map n =>
        cases n with
        | zero => exact ⟨.map [], ts, ⟨ht, trivial⟩, rfl⟩
        | succ n =>
          obtain ⟨hlt, hs⟩ := push_bind_eq_ok.mp hs
          obtain ⟨kvs, rest, hl, hkvs, rfl⟩ := parses_map hp hlt hs hle
          refine ⟨.map kvs, rest, all_map.mpr ⟨?_, hkvs⟩, ?_⟩
          · rw [InRange, hl]
            exact ht
          · rw [tokens_map, hl, cons_append]
      | tag t =>
        rw [Token.step, if_pos (show t = 0 ∨ t = 32 ∨ t = 42 from ht)] at hs
        obtain ⟨hlt, hs⟩ := push_bind_eq_ok.mp hs
        obtain ⟨v, rest, -, hv, rfl, -⟩ := parses_item (hp ts suffix_rfl) hlt hs hle
        exact ⟨.tag t v, rest, ⟨ht, hv⟩, by rw [tokens, cons_append]⟩

def closes : List Token → List Frame → Nat
  | [], _ => 0
  | t :: ts, fs =>
    match t.step fs with
    | .ok fs' => (if fs'.isEmpty then 1 else 0) + closes ts fs'
    | .error _ => 0

theorem closes_append {us : List Token} {gs : List Frame} (h : steps ts fs = .ok gs) :
    closes (ts ++ us) fs = closes ts fs + closes us gs := by
  induction ts generalizing fs with
  | nil =>
    obtain rfl : fs = gs := by simpa [steps_nil] using h
    simp [closes]
  | cons t ts ih =>
    obtain ⟨fs', ht, h⟩ := except_bind_eq_ok.mp ((steps_cons ..).symm.trans h)
    simp only [cons_append, closes, ht, ih h]
    omega

theorem closes_eq_one (hne : ts ≠ []) (hs : steps ts fs = .ok [])
    (hopen : ∀ p q, ts = p ++ q → p ≠ [] → q ≠ [] → steps p fs ≠ .ok []) : closes ts fs = 1 := by
  induction ts generalizing fs with
  | nil => exact absurd rfl hne
  | cons t ts ih =>
    obtain ⟨fs', ht, hs⟩ := except_bind_eq_ok.mp ((steps_cons ..).symm.trans hs)
    by_cases hts : ts = []
    · subst hts
      obtain rfl : fs' = [] := by simpa [steps_nil] using hs
      simp [closes, ht]
    · have hfs' : fs' ≠ [] := by
        rintro rfl
        refine hopen [t] ts rfl (cons_ne_nil _ _) hts ?_
        rw [steps_cons, ht]
        rfl
      have hrest := ih hts hs fun p q hpq hp hq hps => hopen (t :: p) q (by rw [hpq, cons_append])
        (cons_ne_nil _ _) hq (by rw [steps_cons, ht]; exact hps)
      simp [closes, ht, hfs', hrest]

theorem tokens_ne_nil (v : Value) : tokens v ≠ [] := by
  cases v <;> simp [tokens]

theorem closes_tokens {v : Value} (hv : WellFormed v) : closes (tokens v) [] = 1 := by
  refine closes_eq_one (tokens_ne_nil v) ((wellFormed_iff hv.inRange).mp hv) fun p q hpq hp hq hs => ?_
  have hvalid : ∀ t ∈ p, t.Valid := fun t ht =>
    tokens_valid hv.inRange t (hpq ▸ mem_append_left q ht)
  obtain ⟨v', rest, hv', rfl⟩ := parses hvalid [] [] (Nat.zero_le _) hp hs le_rfl
  have hat : At (encode v) 0 (encode v') := by
    have h := at_self (encode v)
    conv at h =>
      arg 3
      rw [encode, hpq, flatMap_append, flatMap_append]
    exact (at_append.mp (at_append.mp h).1).1
  obtain rfl := encode_unique hv.inRange hv' (at_self _) hat
  have hlen := congrArg List.length hpq
  simp only [length_append] at hlen
  exact hq (length_eq_zero_iff.mp (by omega))

theorem parses_all (hvalid : ∀ t ∈ ts, t.Valid) (hs : steps ts [] = .ok []) :
    ∃ vs : List Value, (∀ v ∈ vs, WellFormed v) ∧ ts = vs.flatMap tokens ∧ closes ts [] = vs.length := by
  induction hn : ts.length using Nat.strong_induction_on generalizing ts with
  | _ n ih =>
    by_cases hne : ts = []
    · subst hne
      exact ⟨[], by simp, rfl, rfl⟩
    · obtain ⟨v, rest, hv, rfl⟩ := parses hvalid [] [] (Nat.zero_le _) hne hs le_rfl
      obtain ⟨ha, hd, hr⟩ := ((settles v hv).steps_append (Nat.zero_le _)).mp hs
      have hr' : steps rest [] = .ok [] := hr
      have hwf : WellFormed v := ⟨hv, ha, hd⟩
      have hpos := length_pos_iff.mpr (tokens_ne_nil v)
      rw [length_append] at hn
      obtain ⟨vs, hvs, hrest, hcl⟩ :=
        ih rest.length (by omega) (fun t ht => hvalid t (mem_append_right _ ht)) hr' rfl
      refine ⟨v :: vs, forall_mem_cons.mpr ⟨hwf, hvs⟩, by rw [flatMap_cons, ← hrest], ?_⟩
      rw [closes_append ((wellFormed_iff hv).mp hwf), closes_tokens hwf, hcl, length_cons]
      omega

end AntsClient.Cbor.Parse
