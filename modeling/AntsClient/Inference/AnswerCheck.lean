import AntsClient.Inference.Serve

namespace AntsClient.Inference.AnswerCheck

open Common Cbor.Values Value Crypto Commits Envelope Openings Reference Serve

def policyBroken (tier : UInt8) (auditThreshold : UInt64) : Bool :=
  tier = 1 && auditThreshold < tier1AuditThreshold || tier ≠ 1 && auditThreshold ≠ uint64Max

variable (crypto : Primitives)

/-- The checks of `ants_inference_answer_check` in their order; the commit is returned
where they end with `*out_ok = true`. -/
def checkAnswer (commitBytes : Bytes) (sig : Signature) (producerPub : Bytes32)
    (envelope input : Bytes) (tier : UInt8)
    (reqNonce : Bytes32) : Option Commit := do
  let commit ← (commitDecode commitBytes).toOption
  let sigOk ← (commitVerifySig crypto commit producerPub sig).toOption
  guard sigOk
  guard (crypto.blake3 input = commit.inputHash ∧ reqNonce = commit.reqNonce ∧ commit.tier = tier)
  let env ← (answerEnvelopeDecode envelope).toOption
  guard (env.input = input)
  guard (commit.length ≠ 0 ∧ commit.length.toNat ≤ refSeqlenMax ∧ env.tokens.length = commit.length.toNat ∧
    commit.m ≠ 0 ∧ commit.m ≤ commit.length)
  guard (policyBroken tier commit.auditThreshold = false)
  guard ((env.dists.headD []).length / 4 ≤ refVocabMax)
  guard (promptEff input.length + commit.length.toNat ≤ refSeqlenMax)
  let root ← (distsRoot crypto env.dists).toOption
  guard (root = commit.root)
  return commit

def answerCheck (commitBytes : Bytes) (sig : Signature) (producerPub : Bytes32)
    (envelope input : Bytes) (tier : UInt8)
    (reqNonce : Bytes32) : Except Error (Option Commit) :=
  if commitBytes.length = 0 ∨ envelope.length = 0 ∨ input.length = 0 then .error .invalidArg
  else .ok (checkAnswer crypto commitBytes sig producerPub envelope input tier reqNonce)

structure Accepted (commitBytes : Bytes) (sig : Signature) (producerPub : Bytes32)
    (envelope input : Bytes) (tier : UInt8)
    (reqNonce : Bytes32) (commit : Commit) (env : AnswerEnv) : Prop where
  decoded : commitDecode commitBytes = .ok commit
  signed : crypto.ed25519Verify producerPub (encode (commitValue commit)) sig.val = true
  hash_eq : crypto.blake3 input = commit.inputHash
  nonce_eq : reqNonce = commit.reqNonce
  tier_eq : commit.tier = tier
  opened : answerEnvelopeDecode envelope = .ok env
  input_eq : env.input = input
  length_eq : env.tokens.length = commit.length.toNat
  bounds : commit.length ≠ 0 ∧ commit.length.toNat ≤ refSeqlenMax ∧ commit.m ≠ 0 ∧ commit.m ≤ commit.length
  policy : policyBroken tier commit.auditThreshold = false
  vocab_le : (env.dists.headD []).length / 4 ≤ refVocabMax
  room : promptEff input.length + commit.length.toNat ≤ refSeqlenMax
  root_eq : distsRoot crypto env.dists = .ok commit.root

variable {crypto} {commitBytes : Bytes} {sig : Signature} {producerPub : Bytes32} {input : Bytes} {tier : UInt8}
  {reqNonce : Bytes32} {commit : Commit}

theorem toOption_eq_some {ε α : Type} {x : Except ε α} {a : α} : x.toOption = some a ↔ x = .ok a := by
  cases x <;> simp [Except.toOption]

theorem checkAnswer_iff {envelope : Bytes} :
    checkAnswer crypto commitBytes sig producerPub envelope input tier reqNonce = some commit ↔
      ∃ env, Accepted crypto commitBytes sig producerPub envelope input tier reqNonce commit env := by
  simp only [checkAnswer, Option.bind_eq_bind, Option.bind_eq_some_iff, toOption_eq_some, commitVerifySig_eq,
    Option.guard_eq_some', Option.pure_def, Option.some.injEq, Except.ok.injEq]
  constructor
  · rintro ⟨c, hc, -, rfl, -, hsig, -, ⟨hhash, hnonce, htier⟩, env, henv, -, hinput, -,
      ⟨hl, hmax, hlen, hm, hml⟩, -, hpolicy, -,
      hvocab, -, hroom, root, hroot, -, rfl, rfl⟩
    exact ⟨env, hc, hsig, hhash, hnonce, htier, henv, hinput, hlen, ⟨hl, hmax, hm, hml⟩, hpolicy,
      hvocab, hroom, hroot⟩
  · rintro ⟨env, h⟩
    obtain ⟨hl, hmax, hm, hml⟩ := h.bounds
    exact ⟨commit, h.decoded, _, rfl, (), h.signed, (), ⟨h.hash_eq, h.nonce_eq, h.tier_eq⟩, env,
      h.opened, (), h.input_eq, (),
      ⟨hl, hmax, h.length_eq, hm, hml⟩, (), h.policy, (), h.vocab_le, (), h.room, commit.root,
      h.root_eq, (), rfl, rfl⟩

theorem answerCheck_iff {envelope : Bytes} :
    answerCheck crypto commitBytes sig producerPub envelope input tier reqNonce = .ok (some commit) ↔
      input ≠ [] ∧ ∃ env,
      Accepted crypto commitBytes sig producerPub envelope input tier reqNonce commit env := by
  rw [answerCheck]
  by_cases h : commitBytes.length = 0 ∨ envelope.length = 0 ∨ input.length = 0
  · rw [if_pos h]
    refine iff_of_false nofun ?_
    rintro ⟨hinput, env, hacc⟩
    rcases h with h | h | h
    · obtain ⟨hne, -⟩ := Chain.FieldReaders.decodeBuf_eq_ok.mp hacc.decoded
      exact hne (List.length_eq_zero_iff.mp h)
    · obtain ⟨-, henc⟩ := answerEnvelopeDecode_sound hacc.opened
      have hpos := Cbor.Walk.encode_length_pos (envValue env)
      rw [henc] at hpos
      omega
    · exact hinput (List.length_eq_zero_iff.mp h)
  · rw [if_neg h, Except.ok.injEq, checkAnswer_iff]
    have hinput : input ≠ [] := fun hnil => h (.inr (.inr (List.length_eq_zero_iff.mpr hnil)))
    simp only [hinput, ne_eq, not_false_eq_true, true_and]

/-- Request and commit fix everything in an accepted envelope but its tokens. -/
theorem answers_eq_iff {e₁ e₂ : Bytes} {commit₁ commit₂ : Commit}
    (h₁ : answerCheck crypto commitBytes sig producerPub e₁ input tier reqNonce = .ok (some commit₁))
    (h₂ : answerCheck crypto commitBytes sig producerPub e₂ input tier reqNonce = .ok (some commit₂))
    (hinj : ∀ env₁ env₂, answerEnvelopeDecode e₁ = .ok env₁ → answerEnvelopeDecode e₂ = .ok env₂ →
      Set.InjOn crypto.blake3 (rootInputs crypto env₁.dists ∪ rootInputs crypto env₂.dists)) :
    ∃ env₁ env₂, answerEnvelopeDecode e₁ = .ok env₁ ∧ answerEnvelopeDecode e₂ = .ok env₂ ∧
      (e₁ = e₂ ↔ env₁.tokens = env₂.tokens) := by
  obtain ⟨-, env₁, hacc₁⟩ := answerCheck_iff.mp h₁
  obtain ⟨-, env₂, hacc₂⟩ := answerCheck_iff.mp h₂
  obtain ⟨hshape₁, henc₁⟩ := answerEnvelopeDecode_sound hacc₁.opened
  obtain ⟨hshape₂, henc₂⟩ := answerEnvelopeDecode_sound hacc₂.opened
  refine ⟨env₁, env₂, hacc₁.opened, hacc₂.opened, ?_, fun htokens => ?_⟩
  · rintro rfl
    rw [Except.ok.inj (hacc₁.opened.symm.trans hacc₂.opened)]
  · obtain rfl : commit₁ = commit₂ := Except.ok.inj (hacc₁.decoded.symm.trans hacc₂.decoded)
    have hdists : env₁.dists = env₂.dists :=
      distsRoot_inj hshape₁.dists_ne_nil hshape₂.dists_ne_nil hacc₁.root_eq hacc₂.root_eq
      (hinj _ _ hacc₁.opened hacc₂.opened)
    have henv : env₁ = env₂ := by
      obtain ⟨input₁, tokens₁, dists₁⟩ := env₁
      obtain ⟨input₂, tokens₂, dists₂⟩ := env₂
      rw [AnswerEnv.mk.injEq]
      exact ⟨hacc₁.input_eq.trans hacc₂.input_eq.symm, htokens, hdists⟩
    rw [← henc₁, ← henc₂, henv]

section Sample

def repeater : Model where
  vocab := 2
  forward tokens := if tokens.getLast? = some 0 then [0, -335544320] else [-335544320, 0]
  vocab_pos := by decide
  vocab_le := by decide
  forward_length tokens := by split <;> rfl

def sampleInput : Bytes := List.replicate 56 0

def sampleDists : List Bytes := List.replicate 8 (serializeDist [0, -335544320])

def sampleLeaves : List Bytes32 := [digest 0x3ec7a8b12e5d99cbd74ad6de4ec5936a2987b7ed755715f8ad3cc1419faa2aeb,
  digest 0x28a4e2333f72abc6d3b51c39f45fb520fa60d1480a012abb96a9fd4f04ecabc5,
  digest 0x9653b96dedffab4232a4f0135f05e779c4a67c3c959a3095a81af53c260d2cf6,
  digest 0xb8927dd476a87fed9f03c46dd0bfc92040b54945e6ca22c3aaea0c6d958e2ac7,
  digest 0x4feec6674975b6073390cd24f76b705d803fd6cec920eafc7879b54658d37c55,
  digest 0x5f1ed588955d3b7b2ddec0fff8023ce01b6c1cb45d5168649a6b39d234b30aa6,
  digest 0x022c9d605c3a9810c3f016947a3c5f9a6d34d4f676b481f3b64265a418211950,
  digest 0x1d5707b17463578110d0513c091be9665d4800b65b29ba16bfb9c2b9d0e441fa]

def samplePairs : List Bytes32 := [digest 0x37b22fee9458e17f623e4e7d4ae05fb2273b55e2c94f63b905cd1e5c3971d906,
  digest 0xad075e6baa81cbb9457e297b1f167d5295073fa42b596d0842b7d7ab34a1b35e,
  digest 0xc3be6a10b8d32aef81dbd61bc85f13b829813c7b9d512759b60ba639efbeb05a,
  digest 0x4afce3a65dba663d3969a072c5636e5b75c8cae478b1a85ae6975659418e2a52]

def sampleQuarters : List Bytes32 := [digest 0x5923bd5132d3870219e417ac53ea55f3b933a157ed75dc40a40fa3dc91f4ec4c,
  digest 0xec7fea40458f5d4553c2d5c47a241474f68e316ec5fd62f759393d5d2d598146]

def sampleRoot : Bytes32 := digest 0xb2ae84a6bc5210e3567e4953c47f8ee80dc0bbeae9e1734262f081c4bbe887a8

def pairInputs : List Bytes32 → List Bytes
  | l :: r :: hs => (0x01 :: (l.val ++ r.val)) :: pairInputs hs
  | _ => []

def sampleTable : List (Bytes × Bytes32) :=
  ((leafData 0 sampleDists).map (0x00 :: ·)).zip sampleLeaves ++ (pairInputs sampleLeaves).zip samplePairs ++
    (pairInputs samplePairs).zip sampleQuarters ++ (pairInputs sampleQuarters).zip [sampleRoot] ++
    [(sampleInput, digest 0x16f7d7f185c197029deb76de81b3c86ac70a01af8ae32cc73b59d6cd049cee87),
     -- the block that selects the commit under the zero beacon
     (zero32.val ++ sampleRoot.val ++ [0x73, 0x65, 0x6c] ++ List.replicate 8 0,
     digest 0x45ccd4e6c78a6b34ef1cf94fd16063350ebfae3d6e9bdadb4ace4d76d7667349)]

def sampleCommit : Commit where
  root := sampleRoot
  modelHash := zero32
  inputHash := digest 0x16f7d7f185c197029deb76de81b3c86ac70a01af8ae32cc73b59d6cd049cee87
  reqNonce := zero32
  agentMeas := zero32
  round := 7
  auditThreshold := uint64Max
  m := 8
  length := 8
  tier := 2

def sampleProducer : KeyPair where
  pub := digest 0xd75a980182b10ab7d54bfed3c964073a0ee172f3daa62325af021a68f707511a
  sign _ :=
    { val :=
        Cbor.Head.beBytes 32 0xebf75b057183884969076e2f62a8518155ca4c828c2fde5009ef91296d74e653 ++
          Cbor.Head.beBytes 32 0x1d332cfd75ae3525c00a4670849a1b3d1a8cbe3f733ced5b6c5efb12612eff07
      length_val := rfl }

def sampleState : State := ⟨repeater, zero32, sampleProducer⟩

def sampleCrypto : Primitives where
  blake3 b := ((sampleTable.find? fun entry => entry.1 = b).map Prod.snd).getD zero32
  blake3DeriveKey _ _ := zero32
  ed25519Verify pub msg sig :=
    pub = sampleProducer.pub && msg = encode (commitValue sampleCommit) && sig = (sampleProducer.sign msg).val

def sampleEnv (tokens : Bytes) : AnswerEnv := ⟨sampleInput, tokens, sampleDists⟩

def sampleCheck (tokens : Bytes) : Except Error (Option Commit) :=
  answerCheck sampleCrypto (encode (commitValue sampleCommit)) (sampleProducer.sign []) sampleProducer.pub
    (encode (envValue (sampleEnv tokens))) sampleInput 2 zero32

theorem sampleEnv_decode {tokens : Bytes} (h : tokens.length = 8) :
    answerEnvelopeDecode (encode (envValue (sampleEnv tokens))) = .ok (sampleEnv tokens) := by
  have hlen : ∀ d ∈ sampleDists, d.length = 8 := by decide
  have hinput : sampleInput.length < 2 ^ 64 := by decide
  refine answerEnvelopeDecode_encode ⟨h.le.trans (by decide), h.symm, 8, by decide, rfl, hlen⟩
    hinput fun d hd => ?_
  rw [hlen d hd]
  norm_num

theorem sampleDists_root : distsRoot sampleCrypto sampleDists = .ok sampleRoot := by decide +kernel

theorem sampleDists_collisionFree :
    Set.InjOn sampleCrypto.blake3
      (rootInputs sampleCrypto sampleDists ∪ rootInputs sampleCrypto sampleDists) := by
  rw [Set.union_self]
  exact Tree.injOn_of_nodup (by decide +kernel) fun _ => Tree.mem_treeInputList.mpr

theorem sampleCheck_eq {tokens : Bytes} (h : tokens.length = 8) :
    sampleCheck tokens = .ok (some sampleCommit) := by
  have hvocab : (sampleDists.headD []).length / 4 ≤ refVocabMax := by decide
  refine answerCheck_iff.mpr ⟨by decide, sampleEnv tokens, ?_⟩
  exact {
    decoded := commitDecode_encode sampleCommit
    signed := by decide +kernel
    hash_eq := by decide +kernel
    nonce_eq := rfl
    tier_eq := rfl
    opened := sampleEnv_decode h
    input_eq := rfl
    length_eq := h
    bounds := by decide
    policy := by decide
    vocab_le := hvocab
    room := by decide
    root_eq := sampleDists_root }

theorem retokened_ne :
    encode (envValue (sampleEnv (List.replicate 8 0))) ≠
      encode (envValue (sampleEnv (List.replicate 8 1))) := by
  intro heq
  have h := @sampleEnv_decode (List.replicate 8 0) rfl
  rw [heq, sampleEnv_decode rfl] at h
  cases h

/-- A relay can put other tokens under the producer's commit. -/
theorem retokened_accepted :
    sampleCheck (List.replicate 8 0) = .ok (some sampleCommit) ∧
    sampleCheck (List.replicate 8 1) = .ok (some sampleCommit) ∧
      Set.InjOn sampleCrypto.blake3 (rootInputs sampleCrypto (sampleEnv (List.replicate 8 0)).dists ∪
        rootInputs sampleCrypto (sampleEnv (List.replicate 8 1)).dists) ∧
      encode (envValue (sampleEnv (List.replicate 8 0))) ≠ encode (envValue (sampleEnv (List.replicate 8 1))) :=
  ⟨sampleCheck_eq rfl, sampleCheck_eq rfl, sampleDists_collisionFree, retokened_ne⟩

theorem answers_eq_iff_sample :
    ∃ env₁ env₂, answerEnvelopeDecode (encode (envValue (sampleEnv (List.replicate 8 0)))) = .ok env₁ ∧
      answerEnvelopeDecode (encode (envValue (sampleEnv (List.replicate 8 1)))) = .ok env₂ ∧
      env₁.tokens ≠ env₂.tokens := by
  have h₀ := @sampleCheck_eq (List.replicate 8 0) rfl
  have h₁ := @sampleCheck_eq (List.replicate 8 1) rfl
  obtain ⟨env₁, env₂, henv₁, henv₂, hiff⟩ := answers_eq_iff h₀ h₁ fun env₁ env₂ h₁ h₂ => by
    rw [sampleEnv_decode rfl] at h₁ h₂
    obtain rfl := Except.ok.inj h₁
    obtain rfl := Except.ok.inj h₂
    exact sampleDists_collisionFree
  exact ⟨env₁, env₂, henv₁, henv₂, fun heq => retokened_ne (hiff.mpr heq)⟩

end Sample

end AntsClient.Inference.AnswerCheck
