import AntsClient.Chain.Protocol

namespace AntsClient.Chain.Ancestry

open Crypto Blocks Committee Chain.Runtime Protocol

variable {ι : Type}

/-- The hash `a` is on the chain below `p`: it is the parent's, or it is on the chain
below a final block that is the parent. -/
inductive Ancestor (log : Log ι) (a : Bytes32) : Proposal → Prop
  | parent {p : Proposal} : p.prev = a → Ancestor log a p
  | further {i : ι} {p q : Proposal} :
    (i, .final q) ∈ log → q.hash = p.prev → Ancestor log a q → Ancestor log a p

/-- The node gave up the attempt at a height that it had signed at; `last` is the last
height that it had signed by then. -/
def GaveUp (log : Log ι) (i : ι) (height last : UInt64) : Prop :=
  (i, .skip height last) ∈ log ∧ height ≤ last

/-- A node that has signed signs again only after it has adopted a head not below, or given up the
attempt at that height. -/
structure Climbs (setup : Setup ι) (log : Log ι) (i : ι) (l : Local) : Prop where
  positive : ∀ p, (i, .sign p) ∈ log → 0 < p.height
  head : l.head.hash = setup.genesis.genesisHash ∧ l.head.height = 0 ∨
    ∃ q, (i, .final q) ∈ log ∧ l.head = headOf q
  caught : ∀ p, (i, .sign p) ∈ log → l.attempt ≤ p.height ∨
    p.height ≤ l.head.height ∧ l.head.height < l.attempt ∨
    ∃ last, GaveUp log i p.height last ∧ last ≤ l.lastSigned
  climbs : ∀ p q, (i, .sign p) ∈ log → (i, .sign q) ∈ log → p.height < q.height →
    (∃ last, GaveUp log i p.height last ∧ last < q.height) ∨
      ∃ r, (i, .final r) ∈ log ∧ r.hash = q.prev ∧ p.height ≤ r.height ∧ r.height < q.height

variable {crypto : Primitives} {setup : Setup ι} {log : Log ι} {a : Bytes32} {p : Proposal}
  {l : Local} {acts : List Act}
  {log' : Log ι} {q : Proposal} {i j : ι}

theorem Ancestor.mono (h : log ⊆ log') (hp : Ancestor log a p) : Ancestor log' a p := by
  induction hp with
  | parent hp => exact .parent hp
  | further hq hh _ ih => exact .further (h hq) hh ih

theorem Ancestor.of_prev (h : p.prev = q.prev) (hp : Ancestor log a p) : Ancestor log a q := by
  cases hp with
  | parent hp => exact .parent (h ▸ hp)
  | further hr hh ha => exact .further hr (h ▸ hh) ha

theorem GaveUp.mono {height last : UInt64} (h : log ⊆ log') (hi : GaveUp log i height last) :
    GaveUp log' i height last := hi.imp_left fun hm => h hm

theorem succ_cases (n : UInt64) : n + 1 = 0 ∨ ∀ m, m < n + 1 ↔ m ≤ n := by
  have hn := n.toNat_lt
  have hadd : (n + 1).toNat = (n.toNat + 1) % 2 ^ 64 := UInt64.toNat_add n 1
  by_cases hmax : n.toNat + 1 = 2 ^ 64
  · left
    rw [← UInt64.toNat_inj, hadd, hmax]
    rfl
  · right
    intro m
    rw [UInt64.lt_iff_toNat_lt, UInt64.le_iff_toNat_le, hadd, Nat.mod_eq_of_lt (by omega)]
    omega

/-- What a node has signed stays ordered when the log grows by no signature of its own. -/
theorem Climbs.ordered (h : Climbs setup log i l) (hsub : log ⊆ log')
    (hsign : ∀ p, (i, .sign p) ∈ log' → (i, .sign p) ∈ log) {p q : Proposal}
    (hp : (i, .sign p) ∈ log') (hq : (i, .sign q) ∈ log') (hpq : p.height < q.height) :
    (∃ last, GaveUp log' i p.height last ∧ last < q.height) ∨
      ∃ r, (i, .final r) ∈ log' ∧ r.hash = q.prev ∧ p.height ≤ r.height ∧ r.height < q.height := by
  rcases h.climbs p q (hsign p hp) (hsign q hq) hpq with ⟨last, hgave, hlast⟩ | ⟨r, hr, hrest⟩
  · exact .inl ⟨last, hgave.mono hsub, hlast⟩
  · exact .inr ⟨r, hsub hr, hrest⟩

/-- The invariant looks only at signatures, adoptions and skips, and only at this
node's. -/
theorem Climbs.quiet {l' : Local} (h : Climbs setup log j l) (hhead : l'.head = l.head)
    (hattempt : l'.attempt = l.attempt) (hlast : l'.lastSigned = l.lastSigned)
    (hsign : ∀ p, (j, .sign p) ∈ record log i acts → (j, .sign p) ∈ log) :
    Climbs setup (record log i acts) j l' := by
  have hsub := subset_record log i acts
  refine ⟨fun p hp => h.positive p (hsign p hp), ?_, fun p hp => ?_, fun p q => h.ordered hsub hsign⟩
  · rw [hhead]
    exact h.head.imp_right fun ⟨q, hq, he⟩ => ⟨q, hsub hq, he⟩
  · rw [hhead, hattempt, hlast]
    exact (h.caught p (hsign p hp)).imp_right (Or.imp_right fun ⟨last, hgave, hle⟩ =>
      ⟨last, hgave.mono hsub, hle⟩)

theorem mem_log_of_notMem {act : Act} (hn : act ∉ acts) (h : (j, act) ∈ record log i acts) :
    (j, act) ∈ log := (mem_record.mp h).resolve_right fun h => hn h.2

theorem Climbs.adopt {i : ι} (h : Climbs setup log i l) :
    Climbs setup (record log i [.final p]) i { l with head := headOf p, attempt := p.height + 1 } := by
  have hold (q : Proposal) (hq : (i, .sign q) ∈ record log i [.final p]) : (i, .sign q) ∈ log :=
    mem_log_of_notMem (by simp) hq
  refine ⟨fun q hq => h.positive q (hold q hq), ?_, fun q _ => ?_,
    fun q r => h.ordered (subset_record log i _) hold⟩
  · exact .inr ⟨p, mem_record.mpr (.inr ⟨rfl, by simp⟩), rfl⟩
  · rcases succ_cases p.height with hmax | hsucc
    · exact .inl (by simp [hmax])
    · by_cases hle : q.height ≤ p.height
      · exact .inr (.inl ⟨hle, (hsucc _).mpr (UInt64.le_refl _)⟩)
      · exact .inl (UInt64.not_lt.mp fun hlt => hle ((hsucc _).mp hlt))

theorem Climbs.skip (h : Climbs setup log i l) (hs : Sound crypto setup log i l) :
    Climbs setup (record log i [.skip l.attempt l.lastSigned]) i
      { l with attempt := l.attempt + 1 } := by
  have hsub := subset_record log i [.skip l.attempt l.lastSigned]
  have hold (q : Proposal) (hq : (i, .sign q) ∈ record log i [.skip l.attempt l.lastSigned]) :
      (i, .sign q) ∈ log := mem_log_of_notMem (by simp) hq
  refine ⟨fun q hq => h.positive q (hold q hq),
    h.head.imp_right fun ⟨q, hq, he⟩ => ⟨q, hsub hq, he⟩, fun q hq => ?_,
    fun q r => h.ordered hsub hold⟩
  have hq := hold q hq
  rcases succ_cases l.attempt with hmax | hsucc
  · exact .inl (by simp [hmax])
  rcases h.caught q hq with hle | ⟨hle, hlt⟩ | ⟨last, hgave, hlast⟩
  · rcases UInt64.lt_or_eq_of_le hle with hlt | heq
    · exact .inl (UInt64.not_lt.mp fun hbelow => UInt64.not_le.mpr hlt ((hsucc _).mp hbelow))
    · -- the attempt that is given up is the one at the height of `q`
      have hgave : GaveUp (record log i [.skip l.attempt l.lastSigned]) i q.height l.lastSigned := by
        rw [← heq]
        exact ⟨mem_record.mpr (.inr ⟨rfl, by simp⟩), heq ▸ (hs.signed q hq).2⟩
      exact .inr (.inr ⟨_, hgave, UInt64.le_refl _⟩)
  · exact .inr (.inl ⟨hle, (hsucc _).mpr (UInt64.le_of_lt hlt)⟩)
  · exact .inr (.inr ⟨last, hgave.mono hsub, hlast⟩)

theorem Climbs.sign {i : ι} {b : Block} {ps : Set Proposal} {as : Set Attestation}
    (h : Climbs setup log i l) (hs : Sound crypto setup log i l) (hheight : p.height = l.attempt)
    (hprev : p.prev = l.head.hash) (hlt : l.lastSigned < l.attempt) :
    Climbs setup (record log i [.hash b, .sign p]) i
      { l with lastSigned := p.height, proposals := ps, attestations := as } := by
  have hsub := subset_record log i [.hash b, .sign p]
  have hcase {q : Proposal} (hm : (i, .sign q) ∈ record log i [.hash b, .sign p]) :
      (i, .sign q) ∈ log ∨ q = p :=
    (mem_record.mp hm).imp_right fun hn => by simpa using hn.2
  have hpos : 0 < p.height :=
    hheight ▸ UInt64.pos_iff_ne_zero.mpr fun h0 => UInt64.not_lt_zero (h0 ▸ hlt)
  have hlast {last : UInt64} (hle : last ≤ l.lastSigned) : last < p.height :=
    hheight ▸ UInt64.lt_of_le_of_lt hle hlt
  refine ⟨?_, h.head.imp_right fun ⟨q, hq, he⟩ => ⟨q, hsub hq, he⟩, ?_, ?_⟩
  · intro q hq
    rcases hcase hq with hq | rfl
    · exact h.positive q hq
    · exact hpos
  · intro q hq
    rcases hcase hq with hq | rfl
    · exact (h.caught q hq).imp_right (Or.imp_right fun ⟨last, hgave, hle⟩ =>
        ⟨last, hgave.mono hsub, UInt64.le_of_lt (hlast hle)⟩)
    · exact .inl (hheight ▸ UInt64.le_refl _)
  · intro q r hq hr hqr
    rcases hcase hr with hr' | rfl
    · rcases hcase hq with hq' | rfl
      · rcases h.climbs q r hq' hr' hqr with ⟨last, hgave, hlt⟩ | ⟨t, ht, hrest⟩
        · exact .inl ⟨last, hgave.mono hsub, hlt⟩
        · exact .inr ⟨t, hsub ht, hrest⟩
      · -- the new signature is above every old one
        exact absurd hqr (UInt64.not_lt.mpr (UInt64.le_of_lt (hlast (hs.signed r hr').2)))
    · have hq : (i, .sign q) ∈ log := (hcase hq).resolve_right fun he => UInt64.lt_irrefl _ (he ▸ hqr)
      rcases h.caught q hq with hle | ⟨hle, hbelow⟩ | ⟨last, hgave, hle⟩
      · exact absurd hqr (UInt64.not_lt.mpr (hheight ▸ hle))
      · rcases h.head with ⟨-, h0⟩ | ⟨t, ht, he⟩
        · exact absurd (UInt64.lt_of_lt_of_le (h.positive q hq) hle) (h0 ▸ UInt64.lt_irrefl _)
        · rw [he] at hle hbelow hprev
          exact .inr ⟨t, hsub ht, hprev.symm, hle, hheight ▸ hbelow⟩
      · exact .inl ⟨last, hgave.mono hsub, hlast hle⟩

theorem Climbs.move {i : ι} {l' : Local} (h : Climbs setup log i l) (hs : Sound crypto setup log i l)
    (hinj : Set.InjOn crypto.blake3 (hashedBytes (record log i acts)))
    (hm : Move crypto setup.genesis (setup.self i) (Genuine crypto setup log) l acts l') :
    Climbs setup (record log i acts) i l' := by
  cases hm with
  | forget | hash | learn | receive | attest | propose =>
    exact h.quiet rfl rfl rfl fun _ => mem_log_of_notMem (by simp)
  | adopt => exact h.adopt
  | skip => exact h.skip hs
  | sign sig hp hb hattempt hprev hlt =>
    obtain ⟨-, hheight, hpprev⟩ := sign_known hinj hs hp hb
    exact h.sign hs (hheight.trans hattempt) (hpprev.trans hprev) hlt

section Reachable

variable [DecidableEq ι] {L : ι → Local} (hr : Reaches crypto setup L log)
  (hinj : Set.InjOn crypto.blake3 (hashedBytes log))

include hr hinj

theorem climbs_of_reaches (i : ι) : Climbs setup log i (L i) := by
  induction hr generalizing i with
  | start =>
    exact ⟨by simp, .inl ⟨rfl, rfl⟩, by simp, by simp⟩
  | @move L log j acts l hr hm ih =>
    have hinj' := hinj.mono (hashedBytes_mono (subset_record log j acts))
    by_cases hij : i = j
    · subst hij
      rw [Function.update_self]
      exact (ih hinj' i).move (sound_of_reaches hr hinj' i) hinj hm
    · rw [Function.update_of_ne hij]
      exact (ih hinj' i).quiet rfl rfl rfl fun p hp => (mem_record.mp hp).resolve_right fun hn => hij hn.1

variable (hsize : setup.genesis.trustees.length ≤ committeeKMax)
  (hhonest : ∀ id ∈ setup.genesis.trustees, id ∉ setup.byzantine)

include hsize hhonest

omit [DecidableEq ι] hr hinj in
theorem fewByzantine_of_honest {prev : Bytes32} {height : UInt64} {c : List Nat}
    (hc : committeeFor crypto setup.genesis prev height = some (.ok c)) : FewByzantine setup c := by
  obtain ⟨hpos, hmem⟩ := committeeFor_trustees hsize hc
  have hzero : (c.map (pubkeyAt setup.genesis)).countP (· ∈ setup.byzantine) = 0 := by
    rw [List.countP_eq_zero]
    intro id hid
    simpa using hhonest id (hmem id hid)
  rw [FewByzantine, hzero]
  exact hpos

theorem exists_signer_of_final (hp : (i, .final p) ∈ log) : ∃ j p', (j, .sign p') ∈ log ∧ p'.prev = p.prev := by
  obtain ⟨hknown, hcert⟩ := (sound_of_reaches hr hinj i).final p hp
  obtain ⟨c, hc, -⟩ := hcert.choose_spec.1
  obtain ⟨j, p', hp', hh⟩ := exists_signer (fewByzantine_of_honest hsize hhonest hc) hcert hc
  exact ⟨j, p', hp', (known_unique hinj ((sound_of_reaches hr hinj j).signed p' hp').1 hknown hh).2⟩

theorem signed_ancestor (hp : (i, .sign p) ∈ log) : Ancestor log setup.genesis.genesisHash p := by
  induction hr generalizing i p with
  | start => simp at hp
  | @move L log j acts l hr hm ih =>
    have hsub := subset_record log j acts
    have hinj' := hinj.mono (hashedBytes_mono hsub)
    rcases mem_record.mp hp with hold | ⟨rfl, hnew⟩
    · exact (ih hinj' hold).mono hsub
    cases hm with
    | @sign b q sig hq hb hattempt hprev hlt =>
      obtain ⟨-, -, hqprev⟩ := sign_known hinj (sound_of_reaches hr hinj' i) hq hb
      obtain rfl : p = q := by simpa using hnew
      rcases (climbs_of_reaches hr hinj' i).head with ⟨h0, -⟩ | ⟨t, ht, he⟩
      · exact .parent (hqprev.trans (hprev.trans h0))
      · obtain ⟨k, t', ht', htprev⟩ := exists_signer_of_final hr hinj' hsize hhonest ht
        refine .further (hsub ht) ?_ (((ih hinj' ht').of_prev htprev).mono hsub)
        rw [hqprev, hprev, he]
        rfl
    | forget | hash | learn | receive | attest | propose | adopt | skip => simp at hnew

theorem final_ancestor (hp : (i, .final p) ∈ log) : Ancestor log setup.genesis.genesisHash p := by
  obtain ⟨j, p', hp', hprev⟩ := exists_signer_of_final hr hinj hsize hhonest hp
  exact (signed_ancestor hr hinj hsize hhonest hp').of_prev hprev

variable (hk : setup.genesis.trustees.length ≤ setup.genesis.kPhase) (honce : RunsOnce setup)

include hk honce

/-- The only way off the chain: a signer of `p` gave up at its height and then signed, above `p`,
`q` or a block below it, on a parent that is not final from there on. -/
def Forks (log : Log ι) (p q : Proposal) : Prop :=
  ∃ x p' r last, (x, .sign p') ∈ log ∧ p'.hash = p.hash ∧
    (x, .sign r) ∈ log ∧ (r.hash = q.hash ∨ Ancestor log r.hash q) ∧
    GaveUp log x p.height last ∧ last < r.height ∧
    ∀ i t, (i, .final t) ∈ log → t.hash = r.prev → ¬ (p.height ≤ t.height ∧ t.height < r.height)

theorem final_agree (hp : (i, .final p) ∈ log) (hq : (j, .final q) ∈ log)
    (hpq : p.height = q.height) : p.hash = q.hash := by
  have hs := sound_of_reaches hr hinj
  obtain ⟨hkp, hcp⟩ := (hs i).final p hp
  obtain ⟨hkq, hcq⟩ := (hs j).final q hq
  obtain ⟨c, hc, -⟩ := hcp.choose_spec.1
  obtain ⟨c', hc', -⟩ := hcq.choose_spec.1
  obtain rfl : c = c' := (committeeFor_all hsize hk hc).trans (committeeFor_all hsize hk hc').symm
  exact certified_agree hsize (fewByzantine_of_honest hsize hhonest hc) honce hinj hs hkp hkq hcp hcq hc hc' hpq

theorem final_chain (hp : (i, .final p) ∈ log) (hq : (j, .final q) ∈ log) (hpq : p.height < q.height) :
    Ancestor log p.hash q ∨ Forks log p q := by
  have hs := sound_of_reaches hr hinj
  obtain ⟨hkp, hcp⟩ := (hs i).final p hp
  -- down the final blocks from `q`, by height
  induction hn : q.height.toNat using Nat.strong_induction_on generalizing j q with
  | _ n ih =>
    obtain ⟨hkq, hcq⟩ := (hs j).final q hq
    obtain ⟨c, hc, -⟩ := hcp.choose_spec.1
    obtain ⟨c', hc', -⟩ := hcq.choose_spec.1
    obtain rfl : c = c' := (committeeFor_all hsize hk hc).trans (committeeFor_all hsize hk hc').symm
    obtain ⟨x, p', q', hp', hq', hhp, hhq⟩ :=
      exists_common_signer hsize (fewByzantine_of_honest hsize hhonest hc) honce hcp hcq hc hc'
    have hheight := (known_unique hinj ((hs x).signed p' hp').1 hkp hhp).1
    obtain ⟨hheight', hprev'⟩ := known_unique hinj ((hs x).signed q' hq').1 hkq hhq
    by_cases hparent : ∃ k r, (k, .final r) ∈ log ∧ r.hash = q'.prev ∧ p.height ≤ r.height ∧
        r.height < q'.height
    · obtain ⟨k, r, hr', hh, hle, hlt⟩ := hparent
      rw [hprev'] at hh
      rw [hheight'] at hlt
      rcases UInt64.lt_or_eq_of_le hle with hlt' | heq
      · have hdown := ih r.height.toNat (hn ▸ UInt64.lt_iff_toNat_lt.mp hlt) hr' hlt' rfl
        rcases hdown with hdown | ⟨y, p'', t, last, hp'', hhp'', ht, hbelow, hrest⟩
        · exact .inl (.further hr' hh hdown)
        · refine .inr ⟨y, p'', t, last, hp'', hhp'', ht, .inr ?_, hrest⟩
          rcases hbelow with he | hbelow
          · exact .parent (hh.symm.trans he.symm)
          · exact .further hr' hh hbelow
      · have hsame := final_agree hr hinj hsize hhonest hk honce hp hr' heq
        exact .inl (.parent (hh.symm.trans hsame.symm))
    · have hclimb := (climbs_of_reaches hr hinj x).climbs p' q' hp' hq' (by rwa [hheight, hheight'])
      rw [hheight] at hclimb
      obtain ⟨last, hgave, hlast⟩ := hclimb.resolve_right fun ⟨r, hr', hrest⟩ =>
        hparent ⟨x, r, hr', hrest⟩
      exact .inr ⟨x, p', q', last, hp', hhp, hq', .inl hhq, hgave, hlast,
        fun k t ht hh hbetween => hparent ⟨k, t, ht, hh, hbetween⟩⟩

end Reachable

end AntsClient.Chain.Ancestry
