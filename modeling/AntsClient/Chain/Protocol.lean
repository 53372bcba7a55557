import AntsClient.Chain.BlockValues
import AntsClient.Chain.Runtime
import AntsClient.Lib.Quorum

namespace AntsClient.Chain.Protocol

open Common Crypto Blocks BlockValues Committee Chain.Runtime Lib.Quorum List

/-- The nodes that follow the protocol, the times at which they start, and the peers
that need not follow it. -/
structure Setup (ι : Type) where
  genesis : Genesis
  self : ι → Bytes32
  startTime : ι → UInt64
  byzantine : Finset Bytes32

abbrev Log (ι : Type) := List (ι × Act)

def record {ι : Type} (log : Log ι) (i : ι) (acts : List Act) : Log ι := log ++ acts.map (i, ·)

/-- What counts of a node for the safety of the chain: the tables are sets, and the
clock does not appear. -/
structure Local where
  head : Head
  attempt : UInt64
  lastSigned : UInt64
  proposals : Set Proposal
  attestations : Set Attestation

def initial (genesis : Genesis) : Local where
  head := ⟨0, genesis.genesisHash, genesis.genesisTime, 0, false⟩
  attempt := 1
  lastSigned := 0
  proposals := ∅
  attestations := ∅

section

variable (crypto : Primitives) (genesis : Genesis)

def Denotes (b : Block) (p : Proposal) : Prop :=
  blockHash crypto b = .ok p.hash ∧ b.height = p.height ∧ b.prevBlockHash = p.prev

def Quorum (p : Proposal) (A : Bytes32 → Bool) : Prop :=
  ∃ c, committeeFor crypto genesis p.prev p.height = some (.ok c) ∧
    2 * c.length ≤ 3 * (c.map (pubkeyAt genesis)).countP A

def Final (attestations : Set Attestation) (p : Proposal) : Prop :=
  ∃ A, Quorum crypto genesis p A ∧ ∀ id, A id → ∃ a ∈ attestations, a.blockHash = p.hash ∧ a.signer = id ∧
    crypto.ed25519Verify a.signer a.blockHash.val a.sig.val

/-- One move of the node `self`, which takes only `genuine` attestations from the network and may
forget at any time. -/
inductive Move (self : Bytes32) (genuine : Attestation → Prop) : Local → List Act → Local → Prop
  | forget {l : Local} {ps : Set Proposal} {as : Set Attestation} :
      ps ⊆ l.proposals → as ⊆ l.attestations →
        Move self genuine l [] { l with proposals := ps, attestations := as }
  | hash {l : Local} (b : Block) : Move self genuine l [.hash b] l
  | learn {l : Local} {b : Block} {p : Proposal} :
      Denotes crypto b p → Move self genuine l [.hash b] { l with proposals := insert p l.proposals }
  | receive {l : Local} {a : Attestation} :
      genuine a → Move self genuine l [] { l with attestations := insert a l.attestations }
  | sign {l : Local} {b : Block} {p : Proposal} (sig : Signature) :
      p ∈ l.proposals ∨ Denotes crypto b p → blockHash crypto b = .ok p.hash → b.height = l.attempt →
      b.prevBlockHash = l.head.hash → l.lastSigned < l.attempt →
      Move self genuine l [.hash b, .sign p]
        { l with
          lastSigned := p.height
          proposals := insert p l.proposals
          attestations := insert ⟨p.height, p.hash, self, sig⟩ l.attestations }
  | attest {l : Local} (a : Attestation) : Move self genuine l [.attestation a] l
  | propose {l : Local} (block : Bytes) : Move self genuine l [.proposal block] l
  | adopt {l : Local} {p : Proposal} :
      p ∈ l.proposals → l.head.height < p.height → Final crypto genesis l.attestations p →
      Move self genuine l [.final p] { l with head := headOf p, attempt := p.height + 1 }
  | skip {l : Local} : Move self genuine l [.skip l.attempt l.lastSigned] { l with attempt := l.attempt + 1 }

end

section

variable {ι : Type} (crypto : Primitives) (setup : Setup ι)

def signs (id hash : Bytes32) : ι × Act → Bool
  | (i, .sign p) => setup.self i = id && p.hash = hash
  | _ => false

def Signed (log : Log ι) (id hash : Bytes32) : Prop := ∃ e ∈ log, signs setup id hash e

/-- Signatures of honest peers are not forged: one that verifies was made by them. -/
def Genuine (log : Log ι) (a : Attestation) : Prop :=
  a.signer ∈ setup.byzantine ∨ crypto.ed25519Verify a.signer a.blockHash.val a.sig.val = false ∨
    Signed setup log a.signer a.blockHash

/-- The states that the protocol reaches, with everything that was done on the way. -/
inductive Reaches [DecidableEq ι] : (ι → Local) → Log ι → Prop
  | start : Reaches (fun _ => initial setup.genesis) []
  | move {L : ι → Local} {log : Log ι} {i : ι} {acts : List Act} {l : Local} : Reaches L log →
      Move crypto setup.genesis (setup.self i) (Genuine crypto setup log) (L i) acts l →
      Reaches (Function.update L i l) (record log i acts)

def hashedBytes (log : Log ι) : Set Bytes :=
  { bytes | ∃ i b, (i, Act.hash b) ∈ log ∧ blockEncode b (replicate blockEncodedMax 0) = .ok bytes }

def Known (log : Log ι) (p : Proposal) : Prop := ∃ i b, (i, Act.hash b) ∈ log ∧ Denotes crypto b p

def Certified (log : Log ι) (p : Proposal) : Prop :=
  ∃ A, Quorum crypto setup.genesis p A ∧ ∀ id, A id → id ∉ setup.byzantine → Signed setup log id p.hash

structure Sound (log : Log ι) (i : ι) (l : Local) : Prop where
  known : ∀ p ∈ l.proposals, Known crypto log p
  genuine : ∀ a ∈ l.attestations, Genuine crypto setup log a
  signed : ∀ p, (i, .sign p) ∈ log → Known crypto log p ∧ p.height ≤ l.lastSigned
  once : ∀ p q, (i, .sign p) ∈ log → (i, .sign q) ∈ log → p.height = q.height → p = q
  final : ∀ p, (i, .final p) ∈ log → Known crypto log p ∧ Certified crypto setup log p

end

variable {ι : Type} {crypto : Primitives} {setup : Setup ι} {log : Log ι}
  {acts : List Act} {b : Block} {l : Local} {prev : Bytes32} {height : UInt64} {i j : ι} {L : ι → Local}

theorem mem_record {act : Act} : (j, act) ∈ record log i acts ↔ (j, act) ∈ log ∨ j = i ∧ act ∈ acts := by
  simp only [record, mem_append, mem_map, Prod.mk.injEq]
  constructor
  · rintro (h | ⟨a, ha, rfl, rfl⟩)
    · exact .inl h
    · exact .inr ⟨rfl, ha⟩
  · rintro (h | ⟨rfl, h⟩)
    · exact .inl h
    · exact .inr ⟨act, h, rfl, rfl⟩

theorem subset_record (log : Log ι) (i : ι) (acts : List Act) : log ⊆ record log i acts :=
  subset_append_left _ _

theorem record_append (log : Log ι) (i : ι) (acts acts' : List Act) :
    record log i (acts ++ acts') = record (record log i acts) i acts' := by
  simp [record]

theorem signed_iff {id hash : Bytes32} :
    Signed setup log id hash ↔ ∃ i p, setup.self i = id ∧ (i, .sign p) ∈ log ∧ p.hash = hash := by
  constructor
  · rintro ⟨⟨i, act⟩, hmem, hs⟩
    cases act with
    | sign p =>
      obtain ⟨hid, hh⟩ : setup.self i = id ∧ p.hash = hash := by simpa [signs] using hs
      exact ⟨i, p, hid, hmem, hh⟩
    | hash | attestation | proposal | final | skip => cases hs
  · rintro ⟨i, p, rfl, hmem, rfl⟩
    exact ⟨_, hmem, by simp [signs]⟩

variable {p : Proposal}

section Mono

variable {log' : Log ι} (h : log ⊆ log')

include h

theorem Signed.mono {id hash : Bytes32} (hs : Signed setup log id hash) : Signed setup log' id hash := by
  obtain ⟨e, he, hs⟩ := hs
  exact ⟨e, h he, hs⟩

theorem Genuine.mono {a : Attestation} (ha : Genuine crypto setup log a) : Genuine crypto setup log' a :=
  ha.imp_right (Or.imp_right (Signed.mono h))

theorem Known.mono (hp : Known crypto log p) : Known crypto log' p := by
  obtain ⟨i, b, hb, hd⟩ := hp
  exact ⟨i, b, h hb, hd⟩

theorem Certified.mono (hp : Certified crypto setup log p) : Certified crypto setup log' p := by
  obtain ⟨A, hq, hA⟩ := hp
  exact ⟨A, hq, fun id hid hb => (hA id hid hb).mono h⟩

theorem hashedBytes_mono : hashedBytes log ⊆ hashedBytes log' := by
  rintro bytes ⟨i, b, hb, he⟩
  exact ⟨i, b, h hb, he⟩

end Mono

section Unique

variable (hinj : Set.InjOn crypto.blake3 (hashedBytes log))

include hinj

theorem block_unique {b' : Block} {x : Bytes32} (hb : (i, Act.hash b) ∈ log) (hb' : (j, Act.hash b') ∈ log)
    (h : blockHash crypto b = .ok x) (h' : blockHash crypto b' = .ok x) : b = b' := by
  simp only [blockHash] at h h'
  cases he : blockEncode b (replicate blockEncodedMax 0) with
  | error err => simp [he, Except.map] at h
  | ok bytes =>
    cases he' : blockEncode b' (replicate blockEncodedMax 0) with
    | error err => simp [he', Except.map] at h'
    | ok bytes' =>
      have heq : crypto.blake3 bytes = crypto.blake3 bytes' := by
        rw [he] at h
        rw [he'] at h'
        exact (Except.ok.inj h).trans (Except.ok.inj h').symm
      obtain rfl := hinj ⟨i, b, hb, he⟩ ⟨j, b', hb', he'⟩ heq
      exact blockEncode_inj he he'

theorem known_unique {q : Proposal} (hp : Known crypto log p) (hq : Known crypto log q) (h : p.hash = q.hash) :
    p.height = q.height ∧ p.prev = q.prev := by
  obtain ⟨i, b, hb, hd, hh, hv⟩ := hp
  obtain ⟨j, b', hb', hd', hh', hv'⟩ := hq
  obtain rfl := block_unique hinj hb hb' hd (h ▸ hd')
  exact ⟨hh.symm.trans hh', hv.symm.trans hv'⟩

end Unique

theorem Final.certified {attestations : Set Attestation} (h : Final crypto setup.genesis attestations p)
    (hg : ∀ a ∈ attestations, Genuine crypto setup log a) : Certified crypto setup log p := by
  obtain ⟨A, hq, hA⟩ := h
  refine ⟨A, hq, fun id hid hb => ?_⟩
  obtain ⟨a, ha, hhash, rfl, hv⟩ := hA id hid
  rcases hg a ha with h | h | h
  · exact absurd h hb
  · exact absurd (h.symm.trans hv) (by simp)
  · exact hhash ▸ h

theorem Sound.other (h : Sound crypto setup log j l) (hij : j ≠ i) :
    Sound crypto setup (record log i acts) j l := by
  have hsub := subset_record log i acts
  have hold {act : Act} (hm : (j, act) ∈ record log i acts) : (j, act) ∈ log :=
    (mem_record.mp hm).resolve_right fun hn => hij hn.1
  exact
    { known := fun p hp => (h.known p hp).mono hsub
      genuine := fun a ha => (h.genuine a ha).mono hsub
      signed := fun p hp => (h.signed p (hold hp)).imp_left (Known.mono hsub)
      once := fun p q hp hq => h.once p q (hold hp) (hold hq)
      final := fun p hp => (h.final p (hold hp)).imp (Known.mono hsub) (Certified.mono hsub) }

/-- A move that does not sign keeps the invariant, if what it adds to the tables and to the
log may stand there. -/
theorem Sound.quiet {l' : Local} (h : Sound crypto setup log i l)
    (hlast : l'.lastSigned = l.lastSigned) (hsign : ∀ p, .sign p ∉ acts)
    (hfinal : ∀ p, .final p ∈ acts → Known crypto log p ∧ Certified crypto setup log p)
    (hps : ∀ p ∈ l'.proposals, p ∈ l.proposals ∨ Known crypto (record log i acts) p)
    (has : ∀ a ∈ l'.attestations, a ∈ l.attestations ∨ Genuine crypto setup log a) :
    Sound crypto setup (record log i acts) i l' := by
  have hsub := subset_record log i acts
  have holdSign {p : Proposal} (hm : (i, .sign p) ∈ record log i acts) : (i, .sign p) ∈ log :=
    (mem_record.mp hm).resolve_right fun hn => hsign p hn.2
  exact
    { known := fun p hp => (hps p hp).elim (fun hp => (h.known p hp).mono hsub) id
      genuine := fun a ha => ((has a ha).elim (h.genuine a) id).mono hsub
      signed := fun p hp => by
        rw [hlast]
        exact (h.signed p (holdSign hp)).imp_left (Known.mono hsub)
      once := fun p q hp hq => h.once p q (holdSign hp) (holdSign hq)
      final := fun p hp => ((mem_record.mp hp).elim (h.final p) fun hn => hfinal p hn.2).imp
        (Known.mono hsub) (Certified.mono hsub) }

/-- A signature is at the attempt's height and on the head, above everything signed
before. -/
theorem sign_known (hinj : Set.InjOn crypto.blake3 (hashedBytes (record log i [.hash b, .sign p])))
    (h : Sound crypto setup log i l) (hp : p ∈ l.proposals ∨ Denotes crypto b p)
    (hb : blockHash crypto b = .ok p.hash) :
    Known crypto (record log i [.hash b, .sign p]) p ∧ p.height = b.height ∧ p.prev = b.prevBlockHash := by
  have hmem : (i, .hash b) ∈ record log i [.hash b, .sign p] := mem_record.mpr (.inr ⟨rfl, by simp⟩)
  rcases hp with hp | hp
  · have hk := (h.known p hp).mono (subset_record log i [.hash b, .sign p])
    obtain ⟨j, b', hb', hd, hh, hv⟩ := hk
    obtain rfl := block_unique hinj hmem hb' hb hd
    exact ⟨⟨j, _, hb', hd, hh, hv⟩, hh.symm, hv.symm⟩
  · exact ⟨⟨i, b, hmem, hp⟩, hp.2.1.symm, hp.2.2.symm⟩

theorem Sound.move {i : ι} {l' : Local} (h : Sound crypto setup log i l)
    (hinj : Set.InjOn crypto.blake3 (hashedBytes (record log i acts)))
    (hm : Move crypto setup.genesis (setup.self i) (Genuine crypto setup log) l acts l') :
    Sound crypto setup (record log i acts) i l' := by
  cases hm with
  | forget hps has =>
    exact h.quiet rfl (by simp) (by simp) (fun p hp => .inl (hps hp)) (fun a ha => .inl (has ha))
  | hash | attest | propose | skip =>
    exact h.quiet rfl (by simp) (by simp) (fun p hp => .inl hp) (fun a ha => .inl ha)
  | @learn b p hd =>
    refine h.quiet rfl (by simp) (by simp) ?_ (fun a ha => .inl ha)
    rintro q (rfl | hq)
    · exact .inr ⟨i, b, mem_record.mpr (.inr ⟨rfl, by simp⟩), hd⟩
    · exact .inl hq
  | receive ha =>
    refine h.quiet rfl (by simp) (by simp) (fun p hp => .inl hp) ?_
    rintro a (rfl | ha')
    · exact .inr ha
    · exact .inl ha'
  | @adopt p hp hlt hfinal =>
    refine h.quiet rfl (by simp) (fun q hq => ?_) (fun p hp => .inl hp) (fun a ha => .inl ha)
    obtain rfl : q = p := by simpa using hq
    exact ⟨h.known q hp, hfinal.certified h.genuine⟩
  | @sign b p sig hp hb hattempt hprev hlast =>
    have hsub := subset_record log i [.hash b, .sign p]
    obtain ⟨hknown, hheight, -⟩ := sign_known hinj h hp hb
    have hlt : l.lastSigned < p.height := by rw [hheight, hattempt]; exact hlast
    have hbelow {q : Proposal} (hq : (i, .sign q) ∈ log) : q.height < p.height :=
      UInt64.lt_of_le_of_lt (h.signed q hq).2 hlt
    have hcase {q : Proposal} (hm : (i, .sign q) ∈ record log i [.hash b, .sign p]) :
        (i, .sign q) ∈ log ∨ q = p :=
      (mem_record.mp hm).imp_right fun hn => by simpa using hn.2
    have hsigned : Signed setup (record log i [.hash b, .sign p]) (setup.self i) p.hash :=
      signed_iff.mpr ⟨i, p, rfl, mem_record.mpr (.inr ⟨rfl, by simp⟩), rfl⟩
    exact
      { known := by
          rintro q (rfl | hq)
          · exact hknown
          · exact (h.known q hq).mono hsub
        genuine := by
          rintro a (rfl | ha)
          · exact .inr (.inr hsigned)
          · exact (h.genuine a ha).mono hsub
        signed := fun q hq => by
          rcases hcase hq with hold | rfl
          · exact ⟨(h.signed q hold).1.mono hsub, UInt64.le_of_lt (hbelow hold)⟩
          · exact ⟨hknown, UInt64.le_refl _⟩
        once := fun q r hq hr hqr => by
          rcases hcase hq with hq' | hq' <;> rcases hcase hr with hr' | hr'
          · exact h.once q r hq' hr' hqr
          · exact absurd (hqr.trans (congrArg _ hr')) (UInt64.ne_of_lt (hbelow hq'))
          · exact absurd (hqr.symm.trans (congrArg _ hq')) (UInt64.ne_of_lt (hbelow hr'))
          · exact hq'.trans hr'.symm
        final := fun q hq => by
          have hq : (i, .final q) ∈ log := (mem_record.mp hq).resolve_right fun hn => by simp at hn
          exact (h.final q hq).imp (Known.mono hsub) (Certified.mono hsub) }

variable [DecidableEq ι]

theorem sound_of_reaches (hr : Reaches crypto setup L log)
    (hinj : Set.InjOn crypto.blake3 (hashedBytes log)) (i : ι) : Sound crypto setup log i (L i) := by
  induction hr generalizing i with
  | start => exact ⟨by simp [initial], by simp [initial], by simp, by simp, by simp⟩
  | @move L log j acts l hr hm ih =>
    have ih := ih (hinj.mono (hashedBytes_mono (subset_record log j acts)))
    by_cases hij : i = j
    · subst hij
      rw [Function.update_self]
      exact (ih i).move hinj hm
    · rw [Function.update_of_ne hij]
      exact (ih i).other hij

omit [DecidableEq ι]

def RunsOnce (setup : Setup ι) : Prop :=
  ∀ i j, setup.self i = setup.self j → setup.self i ∈ setup.genesis.trustees →
    setup.self i ∉ setup.byzantine → i = j

theorem committeeFor_trustees {c : List Nat} (hsize : setup.genesis.trustees.length ≤ committeeKMax)
    (hc : committeeFor crypto setup.genesis prev height = some (.ok c)) :
    0 < c.length ∧ ∀ id ∈ c.map (pubkeyAt setup.genesis), id ∈ setup.genesis.trustees := by
  have hlt : setup.genesis.trustees.length < 2 ^ 64 := lt_of_le_of_lt hsize (by decide)
  obtain ⟨-, hl, hk, -, -, -, hi⟩ := committeeSelect_ok hlt hc
  refine ⟨hl ▸ hk, forall_mem_map.mpr fun i hm => ?_⟩
  rw [pubkeyAt, getD_eq_getElem?_getD, getElem?_eq_getElem (hi i hm), Option.getD_some]
  exact getElem_mem _

theorem committeeFor_all {c : List Nat}
    (hsize : setup.genesis.trustees.length ≤ committeeKMax)
    (hk : setup.genesis.trustees.length ≤ setup.genesis.kPhase)
    (hc : committeeFor crypto setup.genesis prev height = some (.ok c)) :
    c = range setup.genesis.trustees.length := by
  have hlt : setup.genesis.trustees.length < 2 ^ 64 := lt_of_le_of_lt hsize (by decide)
  have hmin : (if setup.genesis.trustees.length < setup.genesis.kPhase then setup.genesis.trustees.length
      else setup.genesis.kPhase) = setup.genesis.trustees.length := by
    split <;> omega
  rw [committeeFor, hmin] at hc
  exact committeeSelect_all hlt hc

/-- Fewer than a third of the committee need not follow the protocol. -/
def FewByzantine (setup : Setup ι) (c : List Nat) : Prop :=
  3 * (c.map (pubkeyAt setup.genesis)).countP (· ∈ setup.byzantine) < c.length

section Intersection

variable {q : Proposal} {c : List Nat} (hsize : setup.genesis.trustees.length ≤ committeeKMax)
  (hfew : FewByzantine setup c)

include hfew

theorem exists_signer (hp : Certified crypto setup log p)
    (hc : committeeFor crypto setup.genesis p.prev p.height = some (.ok c)) :
    ∃ i p', (i, .sign p') ∈ log ∧ p'.hash = p.hash := by
  obtain ⟨A, ⟨c', hc', hA⟩, hs⟩ := hp
  obtain rfl : c = c' := Except.ok.inj (Option.some.inj (hc.symm.trans hc'))
  rw [← length_map (pubkeyAt setup.genesis)] at hA
  obtain ⟨id, -, hAid, hbad⟩ := exists_member hA (by rw [length_map]; exact hfew)
  obtain ⟨i, p', -, hm, hh⟩ := signed_iff.mp (hs id hAid (by simpa using hbad))
  exact ⟨i, p', hm, hh⟩

include hsize

theorem exists_common_signer (honce : RunsOnce setup) (hp : Certified crypto setup log p)
    (hq : Certified crypto setup log q) (hc : committeeFor crypto setup.genesis p.prev p.height = some (.ok c))
    (hc' : committeeFor crypto setup.genesis q.prev q.height = some (.ok c)) :
    ∃ i p' q', (i, .sign p') ∈ log ∧ (i, .sign q') ∈ log ∧ p'.hash = p.hash ∧ q'.hash = q.hash := by
  obtain ⟨A, ⟨c₁, hc₁, hA⟩, hs⟩ := hp
  obtain ⟨B, ⟨c₂, hc₂, hB⟩, hs'⟩ := hq
  obtain rfl : c = c₁ := Except.ok.inj (Option.some.inj (hc.symm.trans hc₁))
  obtain rfl : c = c₂ := Except.ok.inj (Option.some.inj (hc'.symm.trans hc₂))
  rw [← length_map (pubkeyAt setup.genesis)] at hA hB
  obtain ⟨id, hid, hAid, hBid, hbad⟩ := exists_common hA hB (by rw [length_map]; exact hfew)
  have hhonest : id ∉ setup.byzantine := by simpa using hbad
  obtain ⟨i, p', hi, hm, hh⟩ := signed_iff.mp (hs id hAid hhonest)
  obtain ⟨j, q', hj, hm', hh'⟩ := signed_iff.mp (hs' id hBid hhonest)
  obtain rfl : i = j := honce i j (hi.trans hj.symm)
    (hi ▸ (committeeFor_trustees hsize hc).2 id hid) (hi ▸ hhonest)
  exact ⟨i, p', q', hm, hm', hh, hh'⟩

theorem certified_agree (honce : RunsOnce setup) (hinj : Set.InjOn crypto.blake3 (hashedBytes log))
    (hsound : ∀ i, Sound crypto setup log i (L i)) (hkp : Known crypto log p) (hkq : Known crypto log q)
    (hp : Certified crypto setup log p) (hq : Certified crypto setup log q)
    (hc : committeeFor crypto setup.genesis p.prev p.height = some (.ok c))
    (hc' : committeeFor crypto setup.genesis q.prev q.height = some (.ok c)) (hheight : p.height = q.height) :
    p.hash = q.hash := by
  obtain ⟨i, p', q', hp', hq', hhp, hhq⟩ := exists_common_signer hsize hfew honce hp hq hc hc'
  have h₁ := (known_unique hinj ((hsound i).signed p' hp').1 hkp hhp).1
  have h₂ := (known_unique hinj ((hsound i).signed q' hq').1 hkq hhq).1
  obtain rfl := (hsound i).once p' q' hp' hq' (h₁.trans (hheight.trans h₂.symm))
  exact hhp.symm.trans hhq

end Intersection

end AntsClient.Chain.Protocol
