import AntsClient.Chain.Ancestry
import AntsClient.Chain.Simulation

namespace AntsClient.Chain.Agreement

open Common Cbor Head Values Crypto Blocks BlockValues Committee Chain.Runtime Protocol Ancestry Simulation

section

variable {ι : Type} {crypto : Primitives} {setup : Setup ι} {w₀ w : World ι} {es : List (Event ι)}

theorem trustees_le (i : ι) (hstart : Starts crypto setup w₀) :
    setup.genesis.trustees.length ≤ committeeKMax := by
  obtain ⟨signFn, viewFn, hs⟩ := hstart.2 i
  exact (init_ok hs).2.2.2

variable [DecidableEq ι]

/-- Two nodes never adopt different heads of one height if the two blocks, which were hashed in the
run, have one committee and fewer than a third of it break the rules. -/
theorem adopted_agree {i j : ι} {p q : Proposal} {c : List Nat} (hstart : Starts crypto setup w₀)
    (hrun : run crypto setup w₀ es = some w) (honce : RunsOnce setup)
    (hinj : Set.InjOn crypto.blake3 (hashedBytes w.log)) (hp : (i, .final p) ∈ w.log)
    (hq : (j, .final q) ∈ w.log)
    (hheight : (headOf p).height = (headOf q).height)
    (hc : committeeFor crypto setup.genesis p.prev p.height = some (.ok c))
    (hsame : committeeFor crypto setup.genesis q.prev q.height = some (.ok c) ∨ p.prev = q.prev ∨
      setup.genesis.trustees.length ≤ setup.genesis.kPhase)
    (hfew : FewByzantine setup c) :
    Known crypto w.log p ∧ Known crypto w.log q ∧ (headOf p).hash = (headOf q).hash := by
  have hsize := trustees_le i hstart
  have hsound := sound_of_reaches (run_simulates hstart hrun).reaches hinj
  obtain ⟨hkp, hcp⟩ := (hsound i).final p hp
  obtain ⟨hkq, hcq⟩ := (hsound j).final q hq
  have hc' : committeeFor crypto setup.genesis q.prev q.height = some (.ok c) := by
    rcases hsame with h | h | h
    · exact h
    · rw [← h, ← show p.height = q.height from hheight]
      exact hc
    · obtain ⟨c', hc', -⟩ := hcq.choose_spec.1
      rwa [committeeFor_all hsize h hc, ← committeeFor_all hsize h hc']
  exact ⟨hkp, hkq, certified_agree hsize hfew honce hinj hsound hkp hkq hcp hcq hc hc' hheight⟩

/-- With honest trustees, all in every committee, a height has at most one final block, every final
block descends from the genesis through final blocks, and of two the lower is below the higher
unless a signer of the lower gave up at its height and signed again beside it. -/
theorem final_chain_or_forks (hstart : Starts crypto setup w₀)
    (hrun : run crypto setup w₀ es = some w) (honce : RunsOnce setup)
    (hhonest : ∀ id ∈ setup.genesis.trustees, id ∉ setup.byzantine)
    (hk : setup.genesis.trustees.length ≤ setup.genesis.kPhase)
    (hinj : Set.InjOn crypto.blake3 (hashedBytes w.log)) :
    (∀ i p, (i, .final p) ∈ w.log → Ancestor w.log setup.genesis.genesisHash p) ∧
      ∀ i j p q, (i, .final p) ∈ w.log → (j, .final q) ∈ w.log →
        (p.height = q.height → p.hash = q.hash) ∧
        (p.height < q.height → Ancestor w.log p.hash q ∨ Forks w.log p q) := by
  have hr := (run_simulates hstart hrun).reaches
  refine ⟨fun i p hp => final_ancestor hr hinj (trustees_le i hstart) hhonest hp, fun i j p q hp hq => ⟨?_, ?_⟩⟩
  · exact final_agree hr hinj (trustees_le i hstart) hhonest hk honce hp hq
  · exact final_chain hr hinj (trustees_le i hstart) hhonest hk honce hp hq

def ClocksAdvance (setup : Setup ι) (es : List (Event ι)) : Prop :=
  (∀ e ∈ es, setup.startTime e.node ≤ e.now) ∧ es.Pairwise fun e e' => e.node = e'.node → e.now ≤ e'.now

def SameViews (es : List (Event ι)) : Prop := ∃ view, ∀ e ∈ es, e.cb.viewFn = view

end

def signature (n : Nat) : Signature := ⟨beBytes 64 n, by simp [beBytes]⟩

def trustee₀ : Bytes32 := digest 0x3d4017c3e843895a92b70aa74d1b7ebc9c982ccf2ec4968cc0cd55f12af4660c

def trustee₁ : Bytes32 := digest 0xd75a980182b10ab7d54bfed3c964073a0ee172f3daa62325af021a68f707511a

def trustee₂ : Bytes32 := digest 0xfc51cd8e6218a1a38da47ed00230f0580816ed13ba3303ac5deb911548908025

def sampleSetup : Setup (Fin 3) where
  genesis := ⟨[trustee₀, trustee₁, trustee₂], 0, zero32, 5⟩
  self i := [trustee₀, trustee₁, trustee₂].getD i zero32
  startTime _ := 0
  byzantine := ∅

def noProofs : Bytes32 := digest 0xab13bedf42e84bae0f7c62c7dd6a8ada571e8829bed6ea558217f0361b5e25d0

def block₁ : Block := ⟨1, zero32, true, 0, 30, noProofs, []⟩

def blockHash₁ : Bytes32 := digest 0xe960096c18f83e68e988b9d18761f615b8952ee2e3089feb3c19e11b5d13b0f1

def block₂ : Block := ⟨2, zero32, true, 0, 150, noProofs, []⟩

def blockHash₂ : Bytes32 := digest 0xeaca820e9bfa263cc66f9adf446f09f9723e182fcc30de8eca50271f4d43fe53

def blockBytes (b : Block) : Bytes := Value.encode (blockValue b)

/-- The seed of an attempt, and the digests of the first words drawn from it. -/
structure Draw where
  prev : Bytes32
  height : UInt64
  seed : Bytes32
  words : List Bytes32

def sampleDraws : List Draw := [
  ⟨zero32, 1, digest 0xc9894a76263e1c8195a957ef57a704644a483150a2b935696b3e3ff73aa82a87,
    [digest 0x05cd0fa830ed490d8cceefc18b076ad5c20170e55f1463c31fca4f4d72c15a73,
      digest 0xab5833c7ad505cd7206bddecb47997bdedbddd51ea0131a011d5c0b96c0e793e,
      digest 0xaad0fd5a8395fc4e254165ae7a25e8fca6791a008cf9cca307122e04b10f3a01]⟩,
  ⟨zero32, 2, digest 0x87d2b131da602d4acc4b0d48848d6289c05a7ab4ab9faa6f86c6f5e472fe3d89,
    [digest 0xb540982139eee51519b3d99f9a61f5b61087b8653f0760cadc0239e16c24eb33,
      digest 0x077930f70f76329da69511e83cdde573531a1060777d26cceceac2db43d48d65,
      digest 0x6d037660f5b87aa141c2da19e4fbe22ac0b103b041704502adb4bec7f22f587f]⟩,
  ⟨blockHash₁, 2, digest 0xa294920d939efa96d44c55a895b81a5af9ff8b4584d755397ff94d334536e027,
    [digest 0xc0c1882028f955477720fd22894d77e8032b1cdce957fde1134700a6974b2811,
      digest 0x79c6271065669604eebff14e341d7c8ccf5907483565e5b54a3e3885b889667f,
      digest 0xfba471a05c81f0dda6d207c8f3fd498a715abcb6b18a5fdafa3839cb0c531c9e]⟩,
  ⟨blockHash₂, 3, digest 0x1066fb0eae12835d19d7608c56f55afbc2b63edb73a4cd8c87e0d14dbc8b848e,
    [digest 0xad0685826763e3430eab77e91851dc708a5050b9580a3a5bd05a4d54703e86ae,
      digest 0xef4a547e094610d3964480164089b97b6e9a5016d7e97a820350a2412b6fbef6,
      digest 0xf5bd89172846c8371696eadae6052ee9a490b1eedf2e8f554d0081aa4ad8e5de]⟩]

def sampleSignatures : List (Bytes32 × Bytes32 × Signature) := [
  (trustee₀, blockHash₁, signature
    0xc844474c2eba8b294ff4bad4700edd64ebba2d54a30505fbb4fe1757ea7a9e51bb8a4da0853a0ae4b29ec9020854d560f56e1fe77eb7757acf233cfd4ddc1c06),
  (trustee₁, blockHash₁, signature
    0x7ce76d623575a4da6636e1fa5cfd5b4b0063b85e8c9e0b13847ceca8748ddbe2c1cf7e8d3c52b5d7bba05c23a98376e50faff60fc98674299931eac9dac29f0d),
  (trustee₁, blockHash₂, signature
    0x2073e9e1b3ddfd4557c501cc217341451680439fa8a8f7f13eea7d0a504e83a4defcdfebbb26333de38518b7538ee06eaabe59d32ae8834ded68aaecb90a450b),
  (trustee₂, blockHash₂, signature
    0x247593e5ebaf8a92d6d4e12040698c5a73b303d2a1e52e67b3d119773c02d109b6ab46467f512bfa8caefa34d0f00af2a714990620ff2b0c169830e63a5d610b)]

def tablePrimitives (draws : List Draw) (hashes : List (Bytes × Bytes32))
    (sigs : List (Bytes32 × Bytes32 × Signature)) : Primitives where
  blake3 b :=
    ((hashes ++ draws.flatMap fun d => d.words.zipIdx.map fun w =>
      (d.prev.val ++ d.seed.val ++ committeeTag ++ writeLe64 (UInt64.ofNat w.2), w.1)).find?
        fun e => e.1 = b).elim zero32 Prod.snd
  blake3DeriveKey context material :=
    (draws.find? fun d =>
      context = "ants-v1-vrf-seed-degraded" && material = d.prev.val ++ writeBe64 d.height).elim
        zero32 Draw.seed
  ed25519Verify peer msg sig := sigs.any fun e => e.1 = peer && e.2.1.val = msg && e.2.2.val = sig

def tableCallbacks (id : Bytes32) (sigs : List (Bytes32 × Bytes32 × Signature)) : Callbacks where
  signFn hash := match sigs.find? fun e => e.1 = id && e.2.1 = hash with
    | some e => .ok e.2.2
    | none => .error .invalidArg
  viewFn _ := .ok ([], [])

def sampleHashes : List (Bytes × Bytes32) :=
  [([0x02], noProofs), (blockBytes block₁, blockHash₁), (blockBytes block₂, blockHash₂)]

def sampleCrypto : Primitives := tablePrimitives sampleDraws sampleHashes sampleSignatures

def proposal₁ : Proposal := ⟨true, 1, 30, 0, zero32, blockHash₁, blockBytes block₁⟩

def proposal₂ : Proposal := ⟨true, 2, 150, 0, zero32, blockHash₂, blockBytes block₂⟩

def attestationBy (i : Fin 3) (p : Proposal) : Attestation :=
  ⟨p.height, p.hash, sampleSetup.self i,
    (sampleSignatures.find? fun e => e.1 = sampleSetup.self i && e.2.1 = p.hash).elim (signature 0)
      fun e => e.2.2⟩

def lead : Fin 3 := 1

def third : Fin 3 := 2

def sampleEvent (i : Fin 3) (now : UInt64) (input : Input) : Event (Fin 3) :=
  ⟨i, now, input, tableCallbacks (sampleSetup.self i) sampleSignatures⟩

def zeroRt : Rt :=
  ⟨sampleSetup.genesis, zero32, false, ⟨0, zero32, 0, 0, false⟩, 0, 0, false, 0, 0, none, 0, 0, [], [], 0⟩

def sampleWorld : World (Fin 3) where
  nodes i := match init sampleCrypto ⟨sampleSetup.genesis, sampleSetup.self i, true, true⟩ 0 with
    | some (.ok s) => s
    | _ => zeroRt
  log := []

/-- The second trustee proposes, the first one signs and has two thirds. -/
def firstEvents : List (Event (Fin 3)) := [
  sampleEvent 1 30 .tick,
  sampleEvent 0 31 (.attestation (attestationBy 1 proposal₁)),
  sampleEvent 0 31 (.proposal (blockBytes block₁))]

def agreeEvents : List (Event (Fin 3)) :=
  firstEvents ++ [sampleEvent 1 32 (.attestation (attestationBy 0 proposal₁))]

/-- The other two give the attempt up and agree on a second block on the genesis. -/
def forkEvents : List (Event (Fin 3)) := firstEvents ++ [
  sampleEvent 1 120 .tick,
  sampleEvent 2 120 .tick,
  sampleEvent 2 150 .tick,
  sampleEvent 1 151 (.attestation (attestationBy 2 proposal₂)),
  sampleEvent 1 151 (.proposal (blockBytes block₂))]

def firstLog : Log (Fin 3) :=
  [(1, .hash block₁), (1, .sign proposal₁), (1, .attestation (attestationBy 1 proposal₁)),
  (1, .proposal (blockBytes block₁)), (0, .hash block₁), (0, .hash block₁), (0, .sign proposal₁),
  (0, .attestation (attestationBy 0 proposal₁)), (0, .final proposal₁)]

def agreeLog : Log (Fin 3) := firstLog ++ [(1, .final proposal₁)]

def forkLog : Log (Fin 3) :=
  firstLog ++ [(1, .skip 1 1), (2, .skip 1 0), (2, .hash block₂), (2, .sign proposal₂),
  (2, .attestation (attestationBy 2 proposal₂)), (2, .proposal (blockBytes block₂)),
    (1, .hash block₂), (1, .hash block₂),
  (1, .sign proposal₂), (1, .attestation (attestationBy 1 proposal₂)), (1, .final proposal₂)]

theorem sampleWorld_starts : Starts sampleCrypto sampleSetup sampleWorld := by
  refine ⟨rfl, fun i => ⟨true, true, ?_⟩⟩
  revert i
  decide +kernel

theorem sampleSetup_once : RunsOnce sampleSetup := by
  have h : ∀ i j : Fin 3, sampleSetup.self i = sampleSetup.self j → i = j := by decide +kernel
  exact fun i j hij _ _ => h i j hij

theorem sampleSetup_honest : ∀ id ∈ sampleSetup.genesis.trustees, id ∉ sampleSetup.byzantine := by
    simp [sampleSetup]

theorem sample_logs : (run sampleCrypto sampleSetup sampleWorld agreeEvents).map World.log = some agreeLog ∧
    (run sampleCrypto sampleSetup sampleWorld forkEvents).map World.log = some forkLog := by
  unfold run step call tick tickPropose onProposal considerSigning compose
  simp only [blockHash_eq, blockEncode_eq]
  decide +kernel

theorem sample_injOn {log : Log (Fin 3)} (h : ∀ i b, (i, Act.hash b) ∈ log → b = block₁ ∨ b = block₂) :
    Set.InjOn sampleCrypto.blake3 (hashedBytes log) := by
  have hne : sampleCrypto.blake3 (blockBytes block₁) ≠ sampleCrypto.blake3 (blockBytes block₂) := by
    decide +kernel
  have hbytes {bytes : Bytes} (hm : bytes ∈ hashedBytes log) :
      bytes = blockBytes block₁ ∨ bytes = blockBytes block₂ := by
    obtain ⟨i, b, hb, he⟩ := hm
    rw [blockEncode_eq] at he
    split at he
    · rw [← Except.ok.inj he]
      exact (h i b hb).imp (congrArg blockBytes) (congrArg blockBytes)
    · cases he
  exact (Set.injOn_pair.mpr fun heq => absurd heq hne).mono fun bytes => hbytes

theorem agreeLog_hashes (i : Fin 3) (b : Block) (h : (i, Act.hash b) ∈ agreeLog) : b = block₁ ∨ b = block₂ := by
  simp [agreeLog, firstLog] at h
  tauto

theorem forkLog_hashes (i : Fin 3) (b : Block) (h : (i, Act.hash b) ∈ forkLog) : b = block₁ ∨ b = block₂ := by
  simp [forkLog, firstLog] at h
  tauto

theorem adopted_agree_sample : ∃ w p q, run sampleCrypto sampleSetup sampleWorld agreeEvents = some w ∧
    (0, .final p) ∈ w.log ∧ (1, .final q) ∈ w.log ∧
      Known sampleCrypto w.log p ∧ Known sampleCrypto w.log q ∧ (headOf p).hash = (headOf q).hash := by
  obtain ⟨w, hrun, hlog⟩ := Option.map_eq_some_iff.mp sample_logs.1
  have h₀ : (0, .final proposal₁) ∈ w.log := by simp [hlog, agreeLog, firstLog]
  have h₁ : (1, .final proposal₁) ∈ w.log := by simp [hlog, agreeLog]
  have hinj : Set.InjOn sampleCrypto.blake3 (hashedBytes w.log) := sample_injOn (hlog ▸ agreeLog_hashes)
  have hc : committeeFor sampleCrypto sampleSetup.genesis proposal₁.prev proposal₁.height =
      some (.ok [0, 1, 2]) := by
    decide +kernel
  have hfew : FewByzantine sampleSetup [0, 1, 2] := by
    unfold FewByzantine
    decide +kernel
  exact ⟨w, _, _, hrun, h₀, h₁,
    adopted_agree sampleWorld_starts hrun sampleSetup_once hinj h₀ h₁ rfl hc (.inl hc) hfew⟩

/-- All trustees are honest and no clock goes backwards, and still two final blocks stand side by
side on the genesis. -/
theorem fork_not_chain : ∃ w, run sampleCrypto sampleSetup sampleWorld forkEvents = some w ∧
    (Starts sampleCrypto sampleSetup sampleWorld ∧ RunsOnce sampleSetup ∧
      (∀ id ∈ sampleSetup.genesis.trustees, id ∉ sampleSetup.byzantine) ∧
      sampleSetup.genesis.trustees.length ≤ sampleSetup.genesis.kPhase ∧
      Set.InjOn sampleCrypto.blake3 (hashedBytes w.log) ∧ ClocksAdvance sampleSetup forkEvents ∧
      SameViews forkEvents) ∧
    (0, .final proposal₁) ∈ w.log ∧ (1, .final proposal₂) ∈ w.log ∧ proposal₁.height < proposal₂.height ∧
      ¬Ancestor w.log proposal₁.hash proposal₂ := by
  obtain ⟨w, hrun, hlog⟩ := Option.map_eq_some_iff.mp sample_logs.2
  refine ⟨w, hrun, ⟨sampleWorld_starts, sampleSetup_once, sampleSetup_honest, by decide, ?_, ?_,
    ?_⟩, ?_, ?_, by decide, ?_⟩
  · exact sample_injOn (hlog ▸ forkLog_hashes)
  · refine ⟨?_, ?_⟩
    · intro e _
      exact UInt64.zero_le
    · simp [forkEvents, firstEvents, sampleEvent]
  · refine ⟨fun _ => .ok ([], []), ?_⟩
    simp [forkEvents, firstEvents, sampleEvent, tableCallbacks]
  · simp [hlog, forkLog, firstLog]
  · simp [hlog, forkLog]
  · have hfinal {i : Fin 3} {q : Proposal} (hq : (i, .final q) ∈ w.log) : q.hash ≠ zero32 := by
      have hq : q = proposal₁ ∨ q = proposal₂ := by
        simp [hlog, forkLog, firstLog] at hq
        exact hq.imp And.right And.right
      rcases hq with rfl | rfl <;> decide +kernel
    intro ha
    cases ha with
    | parent h => exact absurd h (by decide +kernel)
    | further hq hh _ => exact hfinal hq hh

theorem final_chain_or_forks_sample : ∃ w, run sampleCrypto sampleSetup sampleWorld forkEvents = some w ∧
    Ancestor w.log sampleSetup.genesis.genesisHash proposal₂ ∧
      (Ancestor w.log proposal₁.hash proposal₂ ∨ Forks w.log proposal₁ proposal₂) := by
  obtain ⟨w, hrun, hlog⟩ := Option.map_eq_some_iff.mp sample_logs.2
  have h₀ : (0, .final proposal₁) ∈ w.log := by simp [hlog, forkLog, firstLog]
  have h₁ : (1, .final proposal₂) ∈ w.log := by simp [hlog, forkLog]
  have hchain := final_chain_or_forks sampleWorld_starts hrun sampleSetup_once sampleSetup_honest (by decide)
    (sample_injOn (hlog ▸ forkLog_hashes))
  exact ⟨w, hrun, hchain.1 1 proposal₂ h₁, (hchain.2 0 1 proposal₁ proposal₂ h₀ h₁).2 (by decide)⟩

end AntsClient.Chain.Agreement
