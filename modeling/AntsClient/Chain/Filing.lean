import AntsClient.Chain.Signing

namespace AntsClient.Chain.Filing

open Common Crypto Blocks BlockValues Committee Chain.Runtime Protocol Simulation Agreement Adoption
  Completeness Signing Lib.Slots List

variable {p : Proposal} {fin : List Act} {i : Nat} {b : Block}

def attemptOf {ι : Type} (s : Rt) (e : Event ι) : UInt64 :=
  if e.input = .tick ∧ e.now ≥ s.attemptStart + finalityTimeoutS then s.h + 1 else s.h

def Above (s : Rt) : Prop := ∀ p, some p ∈ s.props → s.head.height < p.height

def Current (s : Rt) : Prop := ∀ i, s.cur = some i → ∃ p, s.props[i]? = some (some p) ∧ p.height = s.h

def Unfinal (crypto : Primitives) (s : Rt) : Prop :=
  ∀ p, some p ∈ s.props → s.head.height < p.height → isFinal crypto s p = some false

structure Valid (genesis : Genesis) : Prop where
  nonempty : 0 < genesis.trustees.length
  size : genesis.trustees.length ≤ committeeKMax
  phase : 0 < genesis.kPhase

variable {ι : Type} {crypto : Primitives}

section Functions

variable {cb : Callbacks} {s s' : Rt} {now : UInt64}

theorem committeeFor_ne_error {genesis : Genesis} (h : Valid genesis) (prev : Bytes32)
    (height : UInt64) (err : Error) :
    committeeFor crypto genesis prev height ≠ some (.error err) := by
  obtain ⟨hn, hsize, hk⟩ := h
  rw [committeeFor, committeeSelect, if_neg (by split <;> omega), if_neg (by split <;> omega)]
  simp

theorem startAttempt_cur {height : UInt64} (h : startAttempt crypto s height now = some s') :
    s'.cur = none := by
  obtain ⟨member, myPos, proposerPos, -, ⟨rfl, -⟩ | rfl⟩ := startAttempt_cases h
  · rfl
  · rfl

theorem startAttempt_above {height : UInt64} (hvalid : Valid s.genesis)
    (h : startAttempt crypto s height now = some s') : Above s' := by
  obtain ⟨member, myPos, proposerPos, -, ⟨-, err, hc⟩ | rfl⟩ := startAttempt_cases h
  · exact absurd hc (committeeFor_ne_error hvalid _ _ _)
  · intro p hp
    exact of_decide_eq_true (mem_filter.mp hp).2

theorem propVictim_ne_cur {cur : Option Nat} {slots : List (Option Proposal)} {j : Nat}
    {victim : Option (Nat × UInt64)}
    (hv : ∀ v ∈ victim, some v.1 ≠ cur) (hcur : ∀ n, cur = some (i + n) → slots[n]? ≠ some none)
    (h : propVictim cur slots i victim = some j) : cur ≠ some j := by
  induction slots generalizing i victim with
  | nil =>
    obtain ⟨v, hm, rfl⟩ := Option.map_eq_some_iff.mp h
    exact (hv v hm).symm
  | cons slot slots ih =>
    have hlater : ∀ n, cur = some (i + 1 + n) → slots[n]? ≠ some none := by
      intro n hn
      rw [Nat.add_assoc, Nat.add_comm 1] at hn
      exact hcur (n + 1) hn
    cases slot with
    | none =>
      obtain rfl : i = j := Option.some.inj h
      intro hi
      exact hcur 0 hi rfl
    | some p =>
      rw [propVictim] at h
      split at h
      · exact ih hv hlater h
      rename_i hne
      split at h
      · exact ih hv hlater h
      · refine ih ?_ hlater h
        intro v hm
        cases hm
        exact hne

theorem propAlloc_ne_cur (hc : Current s) (h : propAlloc s = some (i, s')) : s.cur ≠ some i := by
  obtain ⟨j, hj, he⟩ := Option.map_eq_some_iff.mp h
  cases he
  refine propVictim_ne_cur (by simp) ?_ hj
  intro n hn
  rw [Nat.zero_add] at hn
  obtain ⟨p, hp, -⟩ := hc n hn
  simp [hp]

theorem Current.set {slot : Option Proposal} (hc : Current s) (hne : s.cur ≠ some i) :
    Current { s with props := s.props.set i slot } := by
  intro n hn
  obtain ⟨p, hp, hh⟩ := hc n hn
  have hni : i ≠ n := by
    rintro rfl
    exact hne hn
  exact ⟨p, by rwa [getElem?_set_ne hni], hh⟩

theorem signAndEmit_current (hc : Current s) (hp : s.props[i]? = some (some p))
    (hh : p.height = s.h) (emit : Bool) : Current (signAndEmit cb s i p emit now).1 := by
  rw [signAndEmit]
  split
  · exact hc
  · rename_i sig _
    obtain ⟨atts, seq, hfile, -⟩ :=
      attFile_eq { s with lastSignedHeight := p.height, cur := some i } ⟨p.height, p.hash, s.self, sig⟩
    simp only [hfile]
    intro n hn
    obtain rfl : i = n := Option.some.inj hn
    exact ⟨p, hp, hh⟩

theorem considerSigning_current (hc : Current s) (hp : s.props[i]? = some (some p))
    (hh : Ours s b p now → p.height = s.h) : Current (considerSigning crypto cb s b i p now).1 := by
  rcases considerSigning_cases crypto cb s b i p now with ⟨acts, heq, -⟩ | ⟨hours, mine, q, -, -, heq⟩
  · rwa [heq]
  · rw [heq]
    exact signAndEmit_current hc hp (hh hours) false

theorem fileProposal_current {hash : Bytes32} {block : Bytes} (hc : Current s)
    (h : fileProposal s b hash block = some (i, p, s')) : Current s' := by
  obtain ⟨-, ⟨rfl, -⟩ | ⟨-, -, s₁, ha, rfl⟩⟩ := fileProposal_cases h
  · exact hc
  · have hne := propAlloc_ne_cur hc ha
    obtain ⟨rfl, -⟩ := propAlloc_some ha
    exact (hc.set hne).set hne

end Functions

section Distinct

variable {e : Event ι} {cb : Callbacks} {s s' : Rt} {now : UInt64} {acts : List Act}
  (hd : Distinct pairOf s.atts)

include hd

theorem startAttempt_distinct {height : UInt64} (h : startAttempt crypto s height now = some s') :
    Distinct pairOf s'.atts := by
  obtain ⟨member, myPos, proposerPos, -, ⟨rfl, -⟩ | rfl⟩ := startAttempt_cases h
  · exact hd
  · exact hd.filter _

theorem attFile_distinct (a : Attestation) : Distinct pairOf (attFile s a).atts := by
  cases hfind : attFind s.atts a.blockHash a.signer with
  | some a' =>
    rw [attFile, hfind]
    exact hd
  | none =>
    rw [attFile, hfind]
    simp only [Option.isSome_none, Bool.false_eq_true, if_false]
    split
    · exact hd
    · exact hd.put (attFind_none.mp hfind)

theorem signAndEmit_distinct (i : Nat) (p : Proposal) (emit : Bool) :
    Distinct pairOf (signAndEmit cb s i p emit now).1.atts := by
  rw [signAndEmit]
  split
  · exact hd
  · exact @attFile_distinct { s with lastSignedHeight := p.height, cur := some i } hd _

theorem considerSigning_distinct (b : Block) (i : Nat) (p : Proposal) :
    Distinct pairOf (considerSigning crypto cb s b i p now).1.atts := by
  rcases considerSigning_cases crypto cb s b i p now with ⟨acts, heq, -⟩ | ⟨-, mine, q, -, -, heq⟩
  · rwa [heq]
  · rw [heq]
    exact signAndEmit_distinct hd i p false

theorem Skips.distinct (h : Skips crypto e s acts s') : Distinct pairOf s'.atts := by
  cases h with
  | stay => exact hd
  | skip _ _ hs => exact startAttempt_distinct hd hs

theorem Rests.distinct (h : Rests crypto e s acts s') : Distinct pairOf s'.atts := by
  rcases Rests.cases h with ⟨n, rfl⟩ | ⟨-, -, i, ha⟩
  · exact hd
  · obtain ⟨rfl, -⟩ := propAlloc_some ha
    exact hd

theorem Files.distinct (h : Files crypto e s acts s') : Distinct pairOf s'.atts := by
  cases h with
  | @propose i s₁ b p _ _ ha _ =>
    obtain ⟨rfl, -⟩ := propAlloc_some ha
    apply signAndEmit_distinct
    exact hd
  | @proposal block b hash i p s₁ _ _ _ _ _ hfile =>
    have hd₁ : Distinct pairOf s₁.atts := by
      obtain ⟨-, ⟨rfl, -⟩ | ⟨-, -, s₂, ha, rfl⟩⟩ := fileProposal_cases hfile
      · exact hd
      · obtain ⟨rfl, -⟩ := propAlloc_some ha
        exact hd
    exact considerSigning_distinct hd₁ b i p
  | attestation => exact attFile_distinct hd _

theorem tryFinalize_distinct (hfin : tryFinalize crypto s now = some (s', fin)) : Distinct pairOf s'.atts := by
  rcases tryFinalize_cases hfin with ⟨rfl, -⟩ | ⟨p, -, -, hs⟩
  · exact hd
  · exact @startAttempt_distinct _ { s with head := headOf p } _ _ hd _ hs

variable (hsize : s.genesis.trustees.length ≤ committeeKMax)

include hsize

theorem isFinal_shrink (hs : Shrinks s s') (h : isFinal crypto s p = some false) :
    isFinal crypto s' p = some false := by
  by_cases hdegraded : p.degraded = true
  · cases hp : isFinal crypto s' p with
    | none =>
      -- whether the committee can be drawn does not depend on the tables
      exfalso
      rw [isFinal, if_neg (by simp [hdegraded]), hs.genesis] at hp
      rw [isFinal, if_neg (by simp [hdegraded])] at h
      split at hp
      · rename_i hc
        rw [hc] at h
        cases h
      · cases hp
      · cases hp
    | some final =>
      cases final with
      | false => rfl
      | true =>
        exfalso
        have hfinal := Final.mono hs.attestations (hs.genesis ▸ isFinal_final hp)
        rw [isFinal_of_final hd hsize hdegraded hfinal] at h
        cases h
  · rw [isFinal, if_pos (by simpa using hdegraded)]

theorem Unfinal.shrink (h : Unfinal crypto s) (hs : Shrinks s s') : Unfinal crypto s' := by
  intro p hp hlt
  rw [hs.head] at hlt
  exact isFinal_shrink hd hsize hs (h p (hs.proposals hp) hlt)

theorem tryFinalize_unfinal (hfin : tryFinalize crypto s now = some (s', fin)) : Unfinal crypto s' := by
  rcases tryFinalize_cases hfin with ⟨rfl, -, hbest⟩ | ⟨q, hbest, -, hstart⟩
  · intro p hp hlt
    refine ((bestFinal_max hbest).2 p hp hlt).resolve_right ?_
    rintro ⟨q, hq, -⟩
    cases hq
  · obtain hb | ⟨-, hlt, -⟩ := bestFinal_some hbest
    · cases hb
    have hadopted : Unfinal crypto { s with head := headOf q } := by
      intro p hp hlow
      have hlow : q.height < p.height := hlow
      refine ((bestFinal_max hbest).2 p hp (UInt64.lt_trans hlt hlow)).resolve_right ?_
      rintro ⟨q', hq', hle⟩
      cases hq'
      exact absurd hlow (UInt64.not_lt.mpr hle)
    exact @Unfinal.shrink _ { s with head := headOf q } _ hd hsize hadopted (startAttempt_shrinks hstart)

theorem call_unfinal (hu : Unfinal crypto s) (hc : call crypto s e = some (s', acts)) :
    Distinct pairOf s'.atts ∧ Unfinal crypto s' := by
  obtain ⟨s₁, skipped, rest, hskip, -, hrest | ⟨s₂, filed, fin, hfiles, hfin, -⟩⟩ := call_cases hc
  · have hshrink := (Skips.shrinks hskip).1
    have hd₁ := Skips.distinct hd hskip
    have hu₁ := hu.shrink hd hsize hshrink
    exact ⟨Rests.distinct hd₁ hrest, hu₁.shrink hd₁ (hshrink.genesis ▸ hsize) (Rests.shrinks hrest).1⟩
  · have hd₂ := Files.distinct (Skips.distinct hd hskip) hfiles
    have hsize₂ : s₂.genesis.trustees.length ≤ committeeKMax := by
      rwa [(Files.same hfiles).genesis, (Skips.shrinks hskip).1.genesis]
    exact ⟨tryFinalize_distinct hd₂ hfin, tryFinalize_unfinal hd₂ hsize₂ hfin⟩

end Distinct

section Calls

variable {e : Event ι} {s s' : Rt} {acts : List Act}

theorem call_genesis (hc : call crypto s e = some (s', acts)) : s'.genesis = s.genesis := by
  have hfollows : Follows crypto (fun _ => True) s acts s' := call_follows (fun _ _ => trivial) hc
  exact hfollows.genesis

theorem Skips.attempt (h : Skips crypto e s acts s') : s'.h = attemptOf s e := by
  cases h with
  | stay hstay =>
    rw [attemptOf, if_neg]
    rintro ⟨hin, hlate⟩
    exact absurd hlate (UInt64.not_le.mpr (hstay hin))
  | skip hin hlate hs =>
    rw [attemptOf, if_pos ⟨hin, hlate⟩]
    exact (startAttempt_some hs).2.1.2.1

theorem Skips.above (hvalid : Valid s.genesis) (ha : Above s) (h : Skips crypto e s acts s') : Above s' := by
  cases h with
  | stay => exact ha
  | skip _ _ hs => exact startAttempt_above hvalid hs

theorem Above.shrink (h : Above s) (hs : Shrinks s s') : Above s' := by
  intro p hp
  rw [hs.head]
  exact h p (hs.proposals hp)

theorem Files.above (hcount : e.input = .tick → s.head.height < s.h) (ha : Above s)
    (h : Files crypto e s acts s') : Above s' := by
  cases h with
  | @propose i s₁ b p hin hturn halloc hc =>
    have hsign : Attests e.cb _ p (signAndEmit e.cb _ i p true e.now).2 _ := propose_attests halloc hturn.1 p
    obtain ⟨rfl, -⟩ := propAlloc_some halloc
    obtain ⟨⟨-, hheight, -⟩, hblock, -⟩ := compose_ok hc
    intro q hq
    rw [hsign.props] at hq
    rw [hsign.head]
    rcases mem_of_mem_set_some hq with hq | rfl
    · exact ha q (mem_of_mem_set_none hq)
    · rw [← hheight, hblock]
      exact hcount hin
  | @proposal block b hash i p s₁ _ _ _ hlow _ hfile =>
    have hsign : Attests e.cb s₁ p (considerSigning crypto e.cb s₁ b i p e.now).2 _ :=
      considerSigning_attests b i p
    intro q hq
    rw [hsign.props] at hq
    rw [hsign.head]
    obtain ⟨-, ⟨rfl, -⟩ | ⟨-, rfl, s₂, halloc, rfl⟩⟩ := fileProposal_cases hfile
    · exact ha q hq
    · obtain ⟨rfl, -⟩ := propAlloc_some halloc
      rcases mem_of_mem_set_some hq with hq | rfl
      · exact ha q (mem_of_mem_set_none hq)
      · exact hlow
  | @attestation a _ _ _ _ _ =>
    obtain ⟨-, -, -, hhead, hprops⟩ := attFile_rest s a
    intro q hq
    rw [hprops] at hq
    rw [hhead]
    exact ha q hq

theorem call_above (hvalid : Valid s.genesis)
    (hcount : e.input = .tick → s.head.height < attemptOf s e) (ha : Above s)
    (hc : call crypto s e = some (s', acts)) : Above s' := by
  obtain ⟨s₁, skipped, rest, hskip, -, hrest | ⟨s₂, filed, fin, hfiles, hfin, -⟩⟩ := call_cases hc
  · exact (Skips.above hvalid ha hskip).shrink (Rests.shrinks hrest).1
  · have hshrink := (Skips.shrinks hskip).1
    have hcount₁ : e.input = .tick → s₁.head.height < s₁.h := by
      rw [hshrink.head, Skips.attempt hskip]
      exact hcount
    have ha₂ := Files.above hcount₁ (Skips.above hvalid ha hskip) hfiles
    have hvalid₂ : Valid s₂.genesis := by rwa [(Files.same hfiles).genesis, hshrink.genesis]
    rcases tryFinalize_cases hfin with ⟨rfl, -⟩ | ⟨p, -, -, hs⟩
    · exact ha₂
    · exact @startAttempt_above _ { s₂ with head := headOf p } _ _ _ hvalid₂ hs

theorem Skips.current (hcur : Current s) (h : Skips crypto e s acts s') : Current s' := by
  cases h with
  | stay => exact hcur
  | skip _ _ hs =>
    intro i hi
    rw [startAttempt_cur hs] at hi
    cases hi

theorem Rests.current (hcur : Current s) (h : Rests crypto e s acts s') : Current s' := by
  rcases Rests.cases h with ⟨n, rfl⟩ | ⟨-, -, i, ha⟩
  · exact hcur
  · have hne := propAlloc_ne_cur hcur ha
    obtain ⟨rfl, -⟩ := propAlloc_some ha
    exact hcur.set hne

theorem tryFinalize_current {now : UInt64} (hcur : Current s)
    (hfin : tryFinalize crypto s now = some (s', fin)) : Current s' := by
  rcases tryFinalize_cases hfin with ⟨rfl, -⟩ | ⟨p, -, -, hs⟩
  · exact hcur
  · intro i hi
    rw [startAttempt_cur hs] at hi
    cases hi

variable {genesis : Genesis} {self : Bytes32} {hist all : History ι}

theorem Files.current (hf : Founded crypto genesis self hist s) (hsub : hist ⊆ all) {acts' : List Act}
    (hmem : (e, acts') ∈ all) (hinj : Set.InjOn crypto.blake3 (heldBlocks all)) (hcur : Current s)
    (h : Files crypto e s acts s') : Current s' := by
  cases h with
  | @propose i s₁ b p _ _ ha hc =>
    have hne := propAlloc_ne_cur hcur ha
    obtain ⟨⟨-, hheight, -⟩, hblock, -⟩ := compose_ok hc
    obtain ⟨rfl, hlt⟩ := propAlloc_some ha
    refine signAndEmit_current ((hcur.set hne).set hne) ?_ (hheight.symm.trans hblock) true
    simp [hlt]
  | @proposal block b hash i p s₁ hin hb _ _ hh hfile =>
    refine considerSigning_current (fileProposal_current hcur hfile) (fileProposal_cases hfile).1
      fun hours => ?_
    rw [← hours.2.1]
    exact fileProposal_height hf hsub hmem hinj hin hb hh hfile
  | @attestation a _ _ _ _ _ =>
    obtain ⟨atts, seq, hfile, -⟩ := attFile_eq s a
    rw [hfile]
    exact hcur

theorem call_current (hf : Founded crypto genesis self hist s)
    (hinj : Set.InjOn crypto.blake3 (heldBlocks (hist ++ [(e, acts)])))
    (hcur : Current s) (hc : call crypto s e = some (s', acts)) : Current s' := by
  obtain ⟨s₁, skipped, rest, hskip, -, hrest | ⟨s₂, filed, fin, hfiles, hfin, -⟩⟩ := call_cases hc
  · exact Rests.current (Skips.current hcur hskip) hrest
  · have hf₁ := hf.shrink (Skips.shrinks hskip).1
    have hsub : hist ⊆ hist ++ [(e, acts)] := subset_append_left _ _
    have hmem : (e, acts) ∈ hist ++ [(e, acts)] := by simp
    exact tryFinalize_current (Files.current hf₁ hsub hmem hinj (Skips.current hcur hskip) hfiles) hfin

end Calls

section Run

variable {s s₀ : Rt} {hist : History ι} {es : List (Event ι)} {cfg : Config} {now : UInt64}

theorem init_valid (h : init crypto cfg now = some (.ok s)) : Valid cfg.genesis := by
  have hcond := (init_start h).1
  exact ⟨by omega, by omega, by omega⟩

theorem init_tables_empty (h : init crypto cfg now = some (.ok s)) :
    Distinct pairOf s.atts ∧ (∀ p, some p ∉ s.props) ∧ s.cur = none := by
  refine ⟨(@init_tables _ ∅ ∅ zeroProposal _ _ _ h).atts, fun p hp => ?_, startAttempt_cur (init_start h).2.2⟩
  have hview : p ∈ (view s).proposals := hp
  rw [(init_ok h).2.2.1] at hview
  exact hview

variable (hinit : init crypto cfg now = some (.ok s₀)) (hrun : calls crypto s₀ es = some (s, hist))

include hinit hrun

theorem calls_unfinal : Unfinal crypto s := by
  obtain ⟨hd, hempty, -⟩ := init_tables_empty hinit
  have hkeep := calls_keep (P := fun s _ =>
    s.genesis.trustees.length ≤ committeeKMax ∧ Distinct pairOf s.atts ∧ Unfinal crypto s)
    ?_ ⟨?_, hd, fun p hp => absurd hp (hempty p)⟩ hrun
  · exact hkeep.2.2
  · rintro s _ e s' acts ⟨hsize, hd, hu⟩ hc
    have hgenesis := call_genesis hc
    exact ⟨hgenesis ▸ hsize, call_unfinal hd hsize hu hc⟩
  · rw [(init_ok hinit).1]
    exact (init_valid hinit).size

theorem calls_above
    (hcount : ∀ es₁ e es₂ s₁ hist₁, es = es₁ ++ e :: es₂ → calls crypto s₀ es₁ = some (s₁, hist₁) →
      e.input = .tick → s₁.head.height < attemptOf s₁ e) : Above s := by
  obtain ⟨-, hempty, -⟩ := init_tables_empty hinit
  have hkeep := calls_keep_of (P := fun s _ => Valid s.genesis ∧ Above s)
    (C := fun s e _ => e.input = .tick → s.head.height < attemptOf s e)
      ?_ ⟨?_, fun p hp => absurd hp (hempty p)⟩ hrun
    fun es₁ e es₂ s₁ hist₁ _ _ hes hrun₁ _ => hcount es₁ e es₂ s₁ hist₁ hes hrun₁
  · exact hkeep.2
  · rintro s _ e s' acts ⟨hvalid, ha⟩ hC hc
    have hgenesis := call_genesis hc
    exact ⟨hgenesis ▸ hvalid, call_above hvalid hC ha hc⟩
  · rw [(init_ok hinit).1]
    exact init_valid hinit

theorem calls_current (hinj : Set.InjOn crypto.blake3 (heldBlocks hist)) : Current s := by
  have hkeep := calls_keep (P := fun s hist => Founded crypto cfg.genesis cfg.self hist s ∧
    (Set.InjOn crypto.blake3 (heldBlocks hist) → Current s)) ?_ ⟨init_founded hinit, fun _ i hi => ?_⟩ hrun
  · exact hkeep.2 hinj
  · rintro s hist e s' acts ⟨hf, hcur⟩ hc
    refine ⟨(hf.call hc).1, fun hinj => ?_⟩
    have hsub : hist ⊆ hist ++ [(e, acts)] := subset_append_left _ _
    exact call_current hf hinj (hcur (hinj.mono (heldBlocks_mono hsub))) hc
  · rw [(init_tables_empty hinit).2.2] at hi
    cases hi

/-- No block that the node could prove final is left on file; while the attempt is above the head,
nothing at or below the head is. -/
theorem final_not_left
    (hcount : ∀ es₁ e es₂ s₁ hist₁, es = es₁ ++ e :: es₂ → calls crypto s₀ es₁ = some (s₁, hist₁) →
      e.input = .tick → s₁.head.height < attemptOf s₁ e) :
    (∀ p, some p ∈ s.props → s.head.height < p.height ∧ isFinal crypto s p = some false) ∧
      (Set.InjOn crypto.blake3 (heldBlocks hist) →
        ∀ i, s.cur = some i → ∃ p, s.props[i]? = some (some p) ∧ p.height = s.h) := by
  refine ⟨fun p hp => ?_, calls_current hinit hrun⟩
  have hlt := calls_above hinit hrun hcount p hp
  exact ⟨hlt, calls_unfinal hinit hrun p hp hlt⟩

end Run

/-- The second trustee has proposed, and waits for the others. -/
theorem final_not_left_sample : ∃ s hist,
    calls sampleCrypto (sampleWorld.nodes 1) [sampleEvent 1 30 .tick] = some (s, hist) ∧ s.cur = some 0 ∧
      ∀ p, some p ∈ s.props → s.head.height < p.height ∧ isFinal sampleCrypto s p = some false := by
  have hcur : (calls sampleCrypto (sampleWorld.nodes 1) [sampleEvent 1 30 .tick]).map
      (fun r => r.1.cur) = some (some 0) := by
    unfold calls callNext call tick tickPropose onProposal considerSigning compose
    simp only [blockHash_eq, blockEncode_eq]
    decide +kernel
  obtain ⟨⟨s, hist⟩, hrun, hcur⟩ := Option.map_eq_some_iff.mp hcur
  refine ⟨s, hist, hrun, hcur, (final_not_left sampleNode_init hrun ?_).1⟩
  intro es₁ e es₂ s₁ hist₁ hes hrun₁ _
  rcases singleton_eq_append_iff.mp hes with ⟨rfl, he⟩ | ⟨-, he⟩
  · cases he
    cases hrun₁
    decide +kernel
  · cases he

def topBlock : Block := ⟨0xffffffffffffffff, zero32, true, 0, 30, noProofs, []⟩

def topHash : Bytes32 := digest 0x1740d1dfd3aa019fa6d0ef58addb2f63fee0c61ee4d8bdfe5a6d2241a9894615

def lowBlock : Block := ⟨1, topHash, true, 0, 190, noProofs, []⟩

def lowHash : Bytes32 := digest 0x1d951adfe7b18206a4a2ae33ec7d4e891f0914cd839b2188b0fdb2dfd4e4fd8c

def wrapSignatures : List (Bytes32 × Bytes32 × Signature) := [
  (trustee₀, topHash, Agreement.signature
    0x337ff5eca3c471ca19c908633217ca44758b0293ed8f51acb76220061f96f27e5227d5aee7f9e7319975dbce6652d594af05e4f6c65ba6d94e63e98813f72e08),
  (trustee₂, topHash, Agreement.signature
    0xe0ddb4778580a6c0dd0760a240b461bea4ed66254a9fc4dabd5cb46a88c01d0f35183da1eeeba44ace5979555fae29a3bff6bcaa4c595d10674e920137c74d07),
  (trustee₁, lowHash, Agreement.signature
    0xc226163ce133dd352e40c76e3a054a34922c5f12214ce3e8c488c68a2ce700a966a5ce2015b6a73437d24b71ef0f415391f476d78e5b9e849d11d1c736c8fb02)]

def wrapDraws : List Draw := sampleDraws.take 1 ++ [
  ⟨zero32, 0xffffffffffffffff, digest 0x369de72f10b5b3ff46424330d17632218bad51da1a26b310fca2a562eb404660,
    [digest 0x1751390a6df617717d344871e44243b907ce39cb419c14b430044d98bb464ac3,
      digest 0x6e13f16eb52fd62cc6faacca19c1f81773e5d18a5c14e83c187072f37e8cdef5,
      digest 0x37e2843bb2ee147127d1879a16d310ef04c5a3ff1478fec3c9ac0181b2622c77]⟩,
  ⟨topHash, 0, digest 0xcf303cb4f0cbf9f9f2e3947d334abb4265d16d422792b647c14fa97f8feb82c7,
    [digest 0xcf428ea0e42f2ef95a8e22de804e81c19abb4608684d41daca55556f55b95dfb,
      digest 0x3ca0169865e244254493bab1862df314f46808b6ecfdf12d7c3dd20709461499,
      digest 0xfd5292295c07ce4116bb7111f59462e2bb7104ca5ba7170a2288b5b80889c03d]⟩,
  ⟨topHash, 1, digest 0x0d78f26485fa541889df35b5bcfdd733136f1d0aae619b28e142ed96444f1e39,
    [digest 0xf6a293599557310990a37a729f84c77f874c08dbac8c605efcae55543ec64c46,
      digest 0x580d342fa5779708b63ef465420805dfabbeb370b9b2f77ad9f322e37bc48f61,
      digest 0x7fc64ef1bb9271a6fc0b4b8a3eee9874ad6829bff50335698c52465c446bd4f8]⟩]

def wrapCrypto : Primitives :=
  tablePrimitives wrapDraws [([0x02], noProofs), (blockBytes topBlock, topHash),
    (blockBytes lowBlock, lowHash)] wrapSignatures

def wrapConfig : Config := ⟨sampleSetup.genesis, trustee₁, true, true⟩

def wrapStart : Rt :=
  match init wrapCrypto wrapConfig 0 with
  | some (.ok s) => s
  | _ => zeroRt

def wrapEvent (now : UInt64) (input : Input) : Event Unit :=
  ⟨(), now, input, tableCallbacks trustee₁ wrapSignatures⟩

def wrapAttestation (id : Bytes32) : Attestation :=
  ⟨topBlock.height, topHash, id,
    ((wrapSignatures.find? fun e => e.1 = id).map fun e => e.2.2).getD (Agreement.signature 0)⟩

/-- The others have signed a block at the greatest height: the attempts that follow it are at the
heights 0 and 1. -/
def wrapEvents : List (Event Unit) := [
  wrapEvent 40 (.attestation (wrapAttestation trustee₀)),
  wrapEvent 40 (.attestation (wrapAttestation trustee₂)),
  wrapEvent 40 (.proposal (blockBytes topBlock)),
  wrapEvent 160 .tick,
  wrapEvent 190 .tick]

theorem wrap_init : init wrapCrypto wrapConfig 0 = some (.ok wrapStart) := by decide +kernel

def hashedBlock : Act → Option Block
  | .hash b => some b
  | _ => none

theorem wrap_filed : (calls wrapCrypto wrapStart wrapEvents).map (fun r =>
    (r.1.head.height, r.1.props.map (Option.map Proposal.height),
      (r.2.flatMap Prod.snd).filterMap hashedBlock)) =
    some (0xffffffffffffffff, [some 1, none, none, none], [topBlock, lowBlock]) := by
  unfold calls callNext call tick tickPropose onProposal considerSigning compose
  simp only [blockHash_eq, blockEncode_eq]
  decide +kernel

theorem wrap_injOn {s : Rt} {hist : History Unit}
    (hrun : calls wrapCrypto wrapStart wrapEvents = some (s, hist))
    (hblocks : (hist.flatMap Prod.snd).filterMap hashedBlock = [topBlock, lowBlock]) :
    Set.InjOn wrapCrypto.blake3 (heldBlocks hist) := by
  have hne : wrapCrypto.blake3 (blockBytes topBlock) ≠ wrapCrypto.blake3 (blockBytes lowBlock) := by
    decide +kernel
  have hheld {bytes : Bytes} (h : Held hist bytes) :
      bytes = blockBytes topBlock ∨ bytes = blockBytes lowBlock := by
    obtain ⟨r, hr, hin | ⟨-, b, hb, he⟩⟩ := h
    · have hmem : r.1 ∈ wrapEvents := calls_history hrun ▸ mem_map_of_mem hr
      simp only [wrapEvents, mem_cons, not_mem_nil, or_false] at hmem
      rcases hmem with h | h | h | h | h <;> simp [h, wrapEvent] at hin
      exact .inl hin.symm
    · have hmem : b ∈ (hist.flatMap Prod.snd).filterMap hashedBlock :=
        mem_filterMap.mpr ⟨.hash b, mem_flatMap.mpr ⟨r, hr, hb⟩, rfl⟩
      rw [hblocks] at hmem
      rw [blockEncode_eq] at he
      split at he
      · rw [← Except.ok.inj he]
        have hb : b = topBlock ∨ b = lowBlock := by simpa using hmem
        exact hb.imp (congrArg blockBytes) (congrArg blockBytes)
      · cases he
  exact (Set.injOn_pair.mpr fun heq => absurd heq hne).mono fun bytes h => hheld h.1

/-- The node files its own block, far below the head. -/
theorem wrap_left_below : ∃ s hist p, init wrapCrypto wrapConfig 0 = some (.ok wrapStart) ∧
    calls wrapCrypto wrapStart wrapEvents = some (s, hist) ∧ Set.InjOn wrapCrypto.blake3 (heldBlocks hist) ∧
      some p ∈ s.props ∧ ¬s.head.height < p.height := by
  obtain ⟨⟨s, hist⟩, hrun, hfiled⟩ := Option.map_eq_some_iff.mp wrap_filed
  obtain ⟨hhead, hprops, hblocks⟩ : s.head.height = 0xffffffffffffffff ∧
      s.props.map (Option.map Proposal.height) = [some 1, none, none, none] ∧
      (hist.flatMap Prod.snd).filterMap hashedBlock = [topBlock, lowBlock] := by simpa using hfiled
  have hmem : some 1 ∈ s.props.map (Option.map Proposal.height) := by simp [hprops]
  obtain ⟨slot, hslot, hheight⟩ := mem_map.mp hmem
  obtain ⟨p, rfl, hp⟩ := Option.map_eq_some_iff.mp hheight
  refine ⟨s, hist, p, wrap_init, hrun, wrap_injOn hrun hblocks, hslot, ?_⟩
  rw [hhead, hp]
  decide

end AntsClient.Chain.Filing
