import AntsClient.Cache.Servable

namespace AntsClient.Cache.Invalidation

open Crypto Wire Records Store Steps Servable Lib.Outcome List

variable {D : Type} (metric : Metric D) (crypto : Primitives) (promptHash producer : Bytes32)

def Concerns (e : Entry) : Prop := e.promptHash = promptHash ∧ e.producer = producer

def challenges (c : State) : Op → Bool
  | .challenge nowSec p q => p = promptHash && q = producer && succeeded (recordChallenge nowSec p q c)
  | _ => false

def successes (c : State) (ops : List Op) : Nat :=
  match ops with
  | [] => 0
  | op :: rest => (challenges promptHash producer c op).toNat + successes (step metric crypto c op) rest

def returned (c : State) : Op → List Entry
  | .get nowSec embedding threshold _ =>
    (getHit metric nowSec embedding threshold c).toList.map fun hit => hit.1.entry
  | .getTopk nowSec embedding threshold topK hammingRadius capMatches =>
    (getTopk metric nowSec embedding threshold topK hammingRadius capMatches c).1.found.map Match.entry
  | .inboundLookup nowSec reqCbor respBuf =>
    match handleInboundLookup metric nowSec reqCbor respBuf c with
    | .ok resp _ => ((lookupResponseDecode resp handleLookupServerCap.toNat).toOption.getD []).map Match.entry
    | .error _ _ => []
  | _ => []

/-- A record with the key is offered only while none is held, and none has been challenged. -/
def OfferedOnce (c : State) (ops : List Op) : Prop :=
  ∀ before op after, ops = before ++ op :: after → ∀ e, op.offered = some e → Concerns promptHash producer e →
    (∀ slot ∈ (run metric crypto c before).entries, isRecord promptHash producer slot = false) ∧
      successes metric crypto promptHash producer c before = 0

structure Counts (n : Nat) (slot : Slot) : Prop where
  count : min n 3 ≤ slot.challengeCount.toNat
  invalidated : 3 ≤ slot.challengeCount.toNat → slot.invalidated = true

/-- At most one entry has the key, and it has counted all challenges. -/
structure Tallied (n : Nat) (c : State) : Prop where
  single : c.entries.countP (isRecord promptHash producer) ≤ 1
  counts : ∀ slot ∈ c.entries, isRecord promptHash producer slot = true → Counts n slot

variable {slot : Slot} {f : Slot → Slot} {e : Entry} {entries : List Slot} {idx : Nat} {op : Op}
  {ops : List Op} {embedding : Embedding}
  {nowSec : UInt64}

section Tallied

variable {metric} {crypto} {promptHash producer} {c c' : State} {n : Nat}

theorem isRecord_iff : isRecord promptHash producer slot = true ↔ Concerns promptHash producer slot.entry := by
  rw [isRecord, Bool.and_eq_true, decide_eq_true_iff, decide_eq_true_iff]
  rfl

theorem isRecord_congr {slot' : Slot} (h : slot'.entry = slot.entry) :
    isRecord promptHash producer slot' = isRecord promptHash producer slot := by
  rw [Bool.eq_iff_iff, isRecord_iff, isRecord_iff, h]

theorem countP_core (entries : List Slot) :
    (entries.map core).countP (isRecord promptHash producer) =
      entries.countP (isRecord promptHash producer) := by
  rw [countP_map]
  rfl

theorem countP_modify (hf : ∀ slot, (f slot).entry = slot.entry) (entries : List Slot) (idx : Nat) :
    (entries.modify idx f).countP (isRecord promptHash producer) =
      entries.countP (isRecord promptHash producer) := by
  induction entries generalizing idx with
  | nil => cases idx <;> rfl
  | cons slot rest ih =>
    cases idx with
    | zero => rw [modify_zero_cons, countP_cons, countP_cons, isRecord_congr (hf slot)]
    | succ idx => rw [modify_succ_cons, countP_cons, countP_cons, ih]

theorem Tallied.thins (h : Tallied promptHash producer n c) (ht : Thins c c') :
    Tallied promptHash producer n c' := by
  refine ⟨?_, fun slot hslot hrec => ?_⟩
  · rw [← countP_core]
    exact (ht.countP_le _).trans ((countP_core c.entries).le.trans h.single)
  · obtain ⟨slot₀, hslot₀, heq⟩ := ht.exists_core hslot
    -- the key and the counts are those of the slot without its stamp
    have hrec₀ : isRecord promptHash producer (core slot₀) = true := by
      rw [heq]
      exact hrec
    obtain ⟨hcount, hinvalid⟩ := h.counts slot₀ hslot₀ hrec₀
    have hcounts : Counts n (core slot₀) := ⟨hcount, hinvalid⟩
    rw [heq] at hcounts
    exact ⟨hcounts.count, hcounts.invalidated⟩

theorem fresh_counts (e : Entry) (embedding : Embedding) (stamp : UInt64) :
    Counts 0 (fresh metric e embedding stamp) := by
  refine ⟨Nat.zero_le _, fun h => ?_⟩
  change 3 ≤ 0 at h
  omega

theorem Tallied.stores (h : Tallied promptHash producer n c) (hs : Stores metric e c c')
    (honce : Concerns promptHash producer e →
      (∀ slot ∈ c.entries, isRecord promptHash producer slot = false) ∧ n = 0) :
    Tallied promptHash producer n c' := by
  obtain ⟨embedding, entries, stamp, -, -, hsub, hentries⟩ := hs
  have hold : entries.countP (isRecord promptHash producer) ≤
    c.entries.countP (isRecord promptHash producer) := hsub.countP_le _
  refine ⟨?_, fun slot hslot hrec => ?_⟩
  · rw [hentries, countP_append, countP_singleton]
    split
    case isTrue hrec =>
      have hnone := (honce (isRecord_iff.mp hrec)).1
      have hzero : c.entries.countP (isRecord promptHash producer) = 0 :=
          countP_eq_zero.mpr fun slot hslot => by
        rw [hnone slot hslot]
        exact Bool.false_ne_true
      omega
    case isFalse => exact hold.trans h.single
  · rw [hentries, mem_append, mem_singleton] at hslot
    obtain hslot | rfl := hslot
    · exact h.counts slot (hsub.subset hslot) hrec
    · obtain ⟨-, rfl⟩ := honce (isRecord_iff.mp hrec)
      exact fresh_counts e embedding stamp

theorem modify_findIdx {p q : Bytes32} (h : entries.findIdx? (isRecord p q) = some idx)
    (f : Slot → Slot) : ∃ front slot back, entries = front ++ slot :: back ∧
    entries.modify idx f = front ++ f slot :: back ∧
      isRecord p q slot = true ∧ ∀ other ∈ front, isRecord p q other = false := by
  induction entries generalizing idx with
  | nil => cases h
  | cons first rest ih =>
    rw [findIdx?_cons] at h
    split at h
    case isTrue hfirst =>
      obtain rfl := Option.some.inj h
      exact ⟨[], first, rest, rfl, rfl, hfirst, fun other hother => absurd hother not_mem_nil⟩
    case isFalse hfirst =>
      obtain ⟨idx', hidx', rfl⟩ := Option.map_eq_some_iff.mp h
      obtain ⟨front, slot, back, hrest, hmodify, hslot, hfront⟩ := ih hidx'
      refine ⟨first :: front, slot, back, by rw [hrest, cons_append], ?_, hslot, ?_⟩
      · rw [modify_succ_cons, hmodify, cons_append]
      · exact forall_mem_cons.mpr ⟨Bool.eq_false_iff.mpr hfirst, hfront⟩

/-- A record is changed, with its count: every other one has kept its own, or there is no
other. -/
theorem Tallied.signals (h : Tallied promptHash producer n c) {p q : Bytes32} {n' : Nat}
    (hidx : c.entries.findIdx? (isRecord p q) = some idx) (hentries : c'.entries = c.entries.modify idx f)
    (hf : ∀ slot, (f slot).entry = slot.entry) (hothers : n' = n ∨ p = promptHash ∧ q = producer)
    (hcounts : ∀ slot, isRecord p q slot = true → isRecord promptHash producer slot = true →
      Counts n slot → Counts n' (f slot)) :
    Tallied promptHash producer n' c' := by
  refine ⟨by rw [hentries, countP_modify hf]; exact h.single, fun slot hslot hrec => ?_⟩
  obtain ⟨front, changed, back, hsplit, hmodify, hchanged, hfront⟩ := modify_findIdx hidx f
  have hsingle := h.single
  have hcount := h.counts
  rw [hsplit] at hsingle hcount
  rw [hentries, hmodify, mem_append, mem_cons] at hslot
  obtain hslot | rfl | hslot := hslot
  · obtain rfl | ⟨rfl, rfl⟩ := hothers
    · exact hcount slot (mem_append_left _ hslot) hrec
    · rw [hfront slot hslot] at hrec
      cases hrec
  · rw [isRecord_congr (hf changed)] at hrec
    exact hcounts changed hchanged hrec (hcount changed (mem_append_right _ mem_cons_self) hrec)
  · obtain rfl | ⟨rfl, rfl⟩ := hothers
    · exact hcount slot (mem_append_right _ (mem_cons_of_mem _ hslot)) hrec
    · rw [countP_append, countP_cons_of_pos hchanged] at hsingle
      have hback : back.countP (isRecord p q) = 0 := by omega
      exact absurd hrec (countP_eq_zero.mp hback slot hslot)

theorem bump_toNat (count : UInt32) : (bump count).toNat = min (count.toNat + 1) 0xffffffff := by
  rw [bump]
  split
  case isTrue h =>
    have hlt : count.toNat < 0xffffffff := UInt32.lt_iff_toNat_lt.mp h
    have hone : (1 : UInt32).toNat = 1 := rfl
    rw [UInt32.toNat_add, hone]
    omega
  case isFalse h =>
    have hge : 0xffffffff ≤ count.toNat := UInt32.le_iff_toNat_le.mp (UInt32.not_lt.mp h)
    have hlt := count.toNat_lt
    omega

theorem Counts.challenged (h : Counts n slot) (nowSec : UInt64) : Counts (n + 1) (challenged nowSec slot) := by
  have hbump := bump_toNat slot.challengeCount
  refine ⟨?_, fun hthree => ?_⟩
  · have hcount := h.count
    change min (n + 1) 3 ≤ (bump slot.challengeCount).toNat
    omega
  · change (slot.invalidated || decide (bump slot.challengeCount ≥ challengeInvalidationThreshold)) = true
    have hge : bump slot.challengeCount ≥ challengeInvalidationThreshold := UInt32.le_iff_toNat_le.mpr hthree
    rw [decide_eq_true hge, Bool.or_true]

theorem Tallied.moves (h : Tallied promptHash producer n c) (hm : Moves metric c op c')
    (hop : ∀ nowSec, op ≠ .challenge nowSec promptHash producer)
    (honce : ∀ e, op.offered = some e → Concerns promptHash producer e →
      (∀ slot ∈ c.entries, isRecord promptHash producer slot = false) ∧ n = 0) :
      Tallied promptHash producer n c' := by
  cases hm with
  | thins ht => exact h.thins ht
  | stores e he hs => exact h.stores hs (honce e he)
  | signals p q f idx hs hidx hentries =>
    refine h.signals hidx hentries (signal_entry hs) (.inl rfl) fun slot hpq hrec hcounts => ?_
    cases op with
    | positive | negative =>
      simp only [Op.signal, Option.some.injEq, Prod.mk.injEq] at hs
      obtain ⟨-, -, rfl⟩ := hs
      exact ⟨hcounts.count, hcounts.invalidated⟩
    | challenge nowSec p' q' =>
      simp only [Op.signal, Option.some.injEq, Prod.mk.injEq] at hs
      obtain ⟨rfl, rfl, -⟩ := hs
      obtain ⟨rfl, rfl⟩ := isRecord_iff.mp hrec
      obtain ⟨rfl, rfl⟩ := isRecord_iff.mp hpq
      exact absurd rfl (hop nowSec)
    | _ => cases hs

theorem Tallied.step (h : Tallied promptHash producer n c) (op : Op)
    (honce : ∀ e, op.offered = some e → Concerns promptHash producer e →
      (∀ slot ∈ c.entries, isRecord promptHash producer slot = false) ∧ n = 0) :
    Tallied promptHash producer (n + (challenges promptHash producer c op).toNat)
      (step metric crypto c op) := by
  by_cases hop : ∃ nowSec, op = .challenge nowSec promptHash producer
  · obtain ⟨nowSec, rfl⟩ := hop
    rw [challenges, Steps.step, recordChallenge, decide_eq_true rfl, decide_eq_true rfl]
    cases hidx : c.entries.findIdx? (isRecord promptHash producer) with
    | none =>
      rw [onRecord_none hidx]
      exact h
    | some idx =>
      rw [onRecord_some hidx]
      exact h.signals hidx rfl (fun _ => rfl) (.inr ⟨rfl, rfl⟩) fun _ _ _ hcounts => hcounts.challenged nowSec
  · have hno : challenges promptHash producer c op = false := by
      cases op with
      | challenge nowSec p q =>
        rw [challenges, Bool.and_assoc, Bool.and_eq_false_iff, Bool.and_eq_false_iff]
        by_cases hp : p = promptHash
        · refine .inr (.inl (decide_eq_false fun hq => hop ⟨nowSec, ?_⟩))
          rw [hp, hq]
        · exact .inl (decide_eq_false hp)
      | _ => rfl
    rw [hno, Bool.toNat_false, Nat.add_zero]
    exact h.moves (step_moves c op) (fun nowSec heq => hop ⟨nowSec, heq⟩) honce

end Tallied

section Runs

variable {metric} {crypto} {promptHash producer} {c : State}

theorem successes_append (before after : List Op) (c : State) :
    successes metric crypto promptHash producer c (before ++ after) =
      successes metric crypto promptHash producer c before +
        successes metric crypto promptHash producer (run metric crypto c before) after := by
  induction before generalizing c with
  | nil => exact (Nat.zero_add _).symm
  | cons op before ih =>
    rw [cons_append, successes, successes, ih, Nat.add_assoc]
    rfl

theorem run_append (before after : List Op) (c : State) :
    run metric crypto c (before ++ after) = run metric crypto (run metric crypto c before) after := foldl_append

theorem OfferedOnce.init {later : List Op}
    (h : OfferedOnce metric crypto promptHash producer c (ops ++ later)) :
    OfferedOnce metric crypto promptHash producer c ops := by
  intro before op after heq
  exact h before op (after ++ later) (by rw [heq, append_assoc, cons_append])

theorem tallied_run (hc : c.entries = []) (h : OfferedOnce metric crypto promptHash producer c ops) :
    Tallied promptHash producer (successes metric crypto promptHash producer c ops)
      (run metric crypto c ops) := by
  induction ops using reverseRecOn with
  | nil =>
    refine ⟨?_, fun slot hslot => ?_⟩
    · rw [run, foldl_nil, hc, countP_nil]
      exact Nat.zero_le 1
    · rw [run, foldl_nil, hc] at hslot
      cases hslot
  | append_singleton ops op ih =>
    rw [run_append, successes_append, successes, successes, Nat.add_zero]
    exact (ih h.init).step op (h ops op [] rfl)

theorem Tallied.invalid {n : Nat} (h : Tallied promptHash producer n c) (hn : 3 ≤ n) (nowSec : UInt64) :
    ∀ slot ∈ c.entries, entryStillValid slot nowSec = true → ¬ Concerns promptHash producer slot.entry := by
  intro slot hslot hvalid hconcerns
  obtain ⟨hcount, hinvalid⟩ := h.counts slot hslot (isRecord_iff.mpr hconcerns)
  rw [Nat.min_eq_right hn] at hcount
  rw [entryStillValid, hinvalid hcount] at hvalid
  cases hvalid

end Runs

section Returned

variable {metric} {crypto} {c : State}

theorem bestOf_valid {i : Nat} {best : Option Nat} {bestSim : D}
    (h : (bestOf metric embedding nowSec entries i best bestSim).1 = some idx) :
    best = some idx ∨ ∃ k slot, idx = i + k ∧ entries[k]? = some slot ∧ entryStillValid slot nowSec = true := by
  induction entries generalizing i best bestSim with
  | nil => exact .inl h
  | cons slot rest ih =>
    have hrest {best' : Option Nat} {sim' : D}
      (h : (bestOf metric embedding nowSec rest (i + 1) best' sim').1 = some idx) :
        best' = some idx ∨ ∃ k slot', idx = i + k ∧ (slot :: rest)[k]? = some slot' ∧
          entryStillValid slot' nowSec = true := by
      obtain hbest | ⟨k, slot', rfl, hk, hvalid⟩ := ih h
      · exact .inl hbest
      · exact .inr ⟨k + 1, slot', by omega, hk, hvalid⟩
    rw [bestOf] at h
    split at h
    case isTrue hcond =>
      obtain hbest | hlater := hrest h
      · obtain rfl := Option.some.inj hbest
        exact .inr ⟨0, slot, rfl, rfl, hcond.2.1⟩
      · exact .inr hlater
    case isFalse => exact hrest h

theorem getHit_valid {threshold : UInt32} {hit : Slot × Nat × D}
    (h : getHit metric nowSec embedding threshold c = some hit) :
    hit.1 ∈ c.entries ∧ entryStillValid hit.1 nowSec = true := by
  rw [getHit] at h
  obtain ⟨idx, hidx, h⟩ := Option.bind_eq_some_iff.mp h
  obtain ⟨slot, hslot, h⟩ := Option.bind_eq_some_iff.mp h
  split at h
  · cases h
  · obtain rfl := Option.some.inj h
    obtain hnone | ⟨k, slot', rfl, hk, hvalid⟩ := bestOf_valid hidx
    · cases hnone
    · rw [Nat.zero_add] at hslot
      obtain rfl : slot = slot' := Option.some.inj (hslot.symm.trans hk)
      exact ⟨mem_of_getElem? hslot, hvalid⟩

theorem returned_valid (hreach : Reachable metric crypto ops c) (h : e ∈ returned metric c op) :
    ∃ nowSec, ∃ slot ∈ c.entries, entryStillValid slot nowSec = true ∧
    e.promptHash = slot.promptHash ∧ e.producer = slot.producer := by
  cases op with
  | get nowSec embedding threshold outCap =>
    obtain ⟨hit, hhit, rfl⟩ := mem_map.mp h
    obtain ⟨hslot, hvalid⟩ := getHit_valid (Option.mem_toList.mp hhit)
    exact ⟨nowSec, hit.1, hslot, hvalid, rfl, rfl⟩
  | getTopk nowSec embedding threshold topK hammingRadius capMatches =>
    obtain ⟨m, hm, rfl⟩ := mem_map.mp h
    obtain ⟨slot, hslot, heq, hvalid⟩ := mem_found hm
    exact ⟨nowSec, slot, hslot, hvalid, by rw [heq]; rfl, by rw [heq]; rfl⟩
  | inboundLookup nowSec reqCbor respBuf =>
    rw [returned] at h
    cases hlookup : handleInboundLookup metric nowSec reqCbor respBuf c with
    | error err c' =>
      rw [hlookup] at h
      cases h
    | ok resp c' =>
      obtain ⟨req, hdecode⟩ := lookup_reply hreach hlookup
      rw [hlookup] at h
      dsimp only at h
      rw [hdecode] at h
      obtain ⟨m', hm', rfl⟩ := mem_map.mp h
      obtain ⟨m, hm, rfl⟩ := mem_map.mp hm'
      obtain ⟨slot, hslot, heq, hvalid⟩ := mem_found hm
      exact ⟨nowSec, slot, hslot, hvalid, by rw [heq]; rfl, by rw [heq]; rfl⟩
  | _ => cases h

end Returned

section Final

variable {metric} {crypto} {promptHash producer}

/-- If a record is offered only once, three challenges that succeed are the last that is
seen of it. -/
theorem challenge_final {perShardMax totalMax : Nat} {mem : List Bool} {c : State}
    (hinit : init perShardMax totalMax mem = .ok c)
    {ops later : List Op} (honce : OfferedOnce metric crypto promptHash producer c (ops ++ later))
    (hthree : 3 ≤ successes metric crypto promptHash producer c ops) (op : Op) :
    ∀ e ∈ returned metric (run metric crypto c (ops ++ later)) op, ¬ Concerns promptHash producer e := by
  intro e he hconcerns
  have htally := tallied_run (init_entries hinit) honce
  have hn : 3 ≤ successes metric crypto promptHash producer c (ops ++ later) := by
    rw [successes_append]
    exact hthree.trans (Nat.le_add_right _ _)
  obtain ⟨nowSec, slot, hslot, hvalid, hhash, hproducer⟩ :=
    returned_valid ⟨perShardMax, totalMax, mem, c, hinit, rfl⟩ he
  exact htally.invalid hn nowSec slot hslot hvalid
    ⟨hhash.symm.trans hconcerns.1, hproducer.symm.trans hconcerns.2⟩

def disputed : Entry := { namedEntry with promptHash := digest 1, producer := digest 2 }

theorem disputed_sized : Sized disputed := ⟨by decide, by decide, by decide, by decide⟩

def disputedOps : List Op :=
  [.putRecord disputed disputed_sized, .challenge 0 (digest 1) (digest 2), .challenge 0 (digest 1) (digest 2),
    .challenge 0 (digest 1) (digest 2)]

/-- The challenged record is stored again, and a lookup returns it. -/
theorem challenge_not_final : init 0 0 [] = .ok empty ∧ ∀ crypto,
    successes whole.metric crypto (digest 1) (digest 2) empty disputedOps = 3 ∧
      ∃ e ∈ returned whole.metric
        (run whole.metric crypto empty (disputedOps ++ [.putRecord disputed disputed_sized]))
        (.getTopk 0 unit 0x3f800000 0 0 15), Concerns (digest 1) (digest 2) e := by
  refine ⟨rfl, fun crypto => ⟨rfl, disputed, ?_, rfl, rfl⟩⟩
  have hentries :
    (run whole.metric crypto empty (disputedOps ++ [.putRecord disputed disputed_sized])).entries =
      [(challenged 0 ∘ challenged 0 ∘ challenged 0) (fresh whole.metric disputed unit 1),
        fresh whole.metric disputed unit 2] := rfl
  obtain ⟨score, hcand⟩ := @candidate_of_valid Int whole.metric 0 unit 0x3f800000 0
    (fresh whole.metric disputed unit 2) 1 rfl
    (fresh_shardKey whole.metric disputed unit 2) unit_similar
  have hcands : candidates whole.metric 0 unit 0x3f800000 0
      (run whole.metric crypto empty (disputedOps ++ [.putRecord disputed disputed_sized])).entries =
      [⟨1, whole.metric.cosine unit unit, score⟩] := by
    rw [candidates, hentries, zipIdx_cons, zipIdx_cons, zipIdx_nil, filterMap_cons, filterMap_cons]
    simp only [hcand]
    rfl
  have hfound := @found_of_candidates Int whole.metric 0 unit 0x3f800000 0 0 _
    (fresh whole.metric disputed unit 2) 15 _ (by decide)
    hcands (by rw [hentries]; rfl) (by decide)
  rw [returned, hfound]
  exact mem_singleton_self _

theorem disputed_once (crypto : Primitives) :
    OfferedOnce whole.metric crypto (digest 1) (digest 2) empty (disputedOps ++ []) := by
  intro before op after heq e he _
  cases before with
  | nil => exact ⟨fun slot hslot => absurd hslot not_mem_nil, rfl⟩
  | cons first before =>
    -- the other calls are challenges
    have hmem : op ∈ (disputedOps ++ []).tail := by
      rw [heq]
      exact mem_append_right _ mem_cons_self
    have hchallenge : op = .challenge 0 (digest 1) (digest 2) := by simpa [disputedOps] using hmem
    rw [hchallenge] at he
    cases he

/-- A record that is challenged three times is not returned. -/
theorem challenge_final_disputed : init 0 0 [] = .ok empty ∧ ∀ crypto,
    3 ≤ successes whole.metric crypto (digest 1) (digest 2) empty disputedOps ∧
      ∀ e ∈ returned whole.metric (run whole.metric crypto empty (disputedOps ++ []))
        (.getTopk 0 unit 0x3f800000 0 0 15),
        ¬ Concerns (digest 1) (digest 2) e := by
  refine ⟨rfl, fun crypto => ⟨le_refl 3, ?_⟩⟩
  exact challenge_final empty_init (disputed_once crypto) (le_refl 3) _

end Final

end AntsClient.Cache.Invalidation
