import AntsClient.Inference.Envelope
import AntsClient.Lib.Continuation

namespace AntsClient.Inference.Reference

open Common Cbor.Head Envelope Lib.Continuation List

def refVocabMax : Nat := 256

def refGenTokens : Nat := 16

structure Model where
  vocab : Nat
  forward : List Nat → List Int32
  vocab_pos : 0 < vocab
  vocab_le : vocab ≤ refVocabMax
  forward_length : ∀ tokens, (forward tokens).length = vocab

def writeLe32 (v : UInt32) : Bytes := (beBytes 4 v.toNat).reverse

def readLe32 (b : Bytes) : UInt32 := UInt32.ofNat (beNat (b.take 4).reverse)

def serializeDist (dist : List Int32) : Bytes := dist.flatMap fun q => writeLe32 q.toUInt32

def readDist (bytes : Bytes) : List Int32 :=
  (range (bytes.length / 4)).map fun k => (readLe32 (bytes.drop (k * 4))).toInt32

def argmaxQ24 (dist : List Int32) : Nat :=
  (List.range' 1 (dist.length - 1)).foldl (fun best i => if dist.getD i 0 > dist.getD best 0 then i else best) 0

/-- The part of a prompt that is tokenised: the prefix leaves room for one position. -/
def promptEff (inputLen : Nat) : Nat := if inputLen > refSeqlenMax - 1 then refSeqlenMax - 1 else inputLen

def genCount (eff : Nat) : Nat := if refGenTokens > refSeqlenMax - eff then refSeqlenMax - eff else refGenTokens

variable (model : Model)

def tokensOf (bytes : Bytes) : List Nat := bytes.map fun b => b.toNat % model.vocab

def referenceDistribution (prefixBytes : Bytes) (_position : UInt64) (outDistCap : Nat) :
    Except Error (List Int32) :=
  if prefixBytes.length = 0 then .error .invalidArg
  else if prefixBytes.length > refSeqlenMax then .error .bufferTooSmall
  else if outDistCap < model.vocab then .error .bufferTooSmall
  else .ok (model.forward (tokensOf model prefixBytes))

def nextToken (tokens : List Nat) : Nat := argmaxQ24 (model.forward tokens)

def prompt (input : Bytes) : List Nat := tokensOf model (input.take (promptEff input.length))

/-- The prefix from which the producer computes the distribution at a position. -/
def prefixAt (input : Bytes) (position : Nat) : List Nat :=
  extend (nextToken model) (prompt model input) position

def distAt (input : Bytes) (position : Nat) : List Int32 := model.forward (prefixAt model input position)

def answerTokens (input : Bytes) (n : Nat) : Bytes :=
  (generated (nextToken model) (prompt model input) n).map UInt8.ofNat

def answerDists (input : Bytes) (n : Nat) : List Bytes :=
  (range n).map fun j => serializeDist (distAt model input j)

def answerOf (input : Bytes) : AnswerEnv :=
  let n := genCount (promptEff input.length)
  ⟨input, answerTokens model input n, answerDists model input n⟩

variable {model}

theorem writeLe32_length (v : UInt32) : (writeLe32 v).length = 4 := by
  rw [writeLe32, length_reverse, beBytes_length]

theorem readLe32_append (v : UInt32) (rest : Bytes) : readLe32 (writeLe32 v ++ rest) = v := by
  rw [readLe32, take_left' (writeLe32_length v), writeLe32, reverse_reverse,
    beNat_beBytes v.toNat_lt, UInt32.ofNat_toNat]

theorem serializeDist_length (dist : List Int32) : (serializeDist dist).length = dist.length * 4 := by
  induction dist with
  | nil => rfl
  | cons q dist ih =>
    rw [serializeDist, flatMap_cons, length_append, writeLe32_length, ← serializeDist, ih, length_cons]
    omega

theorem readDist_serializeDist (dist : List Int32) : readDist (serializeDist dist) = dist := by
  rw [readDist, serializeDist_length, Nat.mul_div_cancel _ (by norm_num)]
  induction dist with
  | nil => rfl
  | cons q dist ih =>
    have hdrop (k : Nat) : (serializeDist (q :: dist)).drop ((k + 1) * 4) =
        (serializeDist dist).drop (k * 4) := by
      rw [serializeDist, flatMap_cons, Nat.succ_mul, Nat.add_comm, ← drop_drop, drop_left' (writeLe32_length _)]
      rfl
    rw [length_cons, range_succ_eq_map, map_cons, map_map]
    congr 1
    · rw [Nat.zero_mul, drop_zero, serializeDist, flatMap_cons, readLe32_append, Int32.toInt32_toUInt32]
    · refine Eq.trans (map_congr_left fun k _ => ?_) ih
      rw [Function.comp_apply, Nat.succ_eq_add_one, hdrop]

theorem argmaxQ24_lt {dist : List Int32} (h : 0 < dist.length) : argmaxQ24 dist < dist.length := by
  have key (is : List Nat) (best : Nat) (hbest : best < dist.length) (his : ∀ i ∈ is, i < dist.length) :
      is.foldl (fun best i => if dist.getD i 0 > dist.getD best 0 then i else best) best < dist.length := by
    induction is generalizing best with
    | nil => exact hbest
    | cons i is ih =>
      obtain ⟨hi, his⟩ := forall_mem_cons.mp his
      rw [foldl_cons]
      refine ih _ ?_ his
      split
      · exact hi
      · exact hbest
  refine key _ 0 h fun i hi => ?_
  rw [mem_range'_1] at hi
  omega

theorem nextToken_lt (tokens : List Nat) : nextToken model tokens < model.vocab := by
  have hlen := model.forward_length tokens
  rw [nextToken, ← hlen]
  exact argmaxQ24_lt (hlen ▸ model.vocab_pos)

theorem promptEff_le (inputLen : Nat) : promptEff inputLen ≤ inputLen ∧ promptEff inputLen < refSeqlenMax := by
  rw [promptEff, refSeqlenMax]
  split <;> omega

theorem promptEff_pos {inputLen : Nat} (h : 0 < inputLen) : 0 < promptEff inputLen := by
  rw [promptEff, refSeqlenMax]
  split <;> omega

theorem genCount_bounds {eff : Nat} (h : eff < refSeqlenMax) :
    0 < genCount eff ∧ genCount eff ≤ refGenTokens ∧ eff + genCount eff ≤ refSeqlenMax := by
  rw [genCount]
  rw [refSeqlenMax] at *
  rw [refGenTokens]
  split <;> omega

theorem ofNat_count (input : Bytes) :
    (UInt32.ofNat (genCount (promptEff input.length))).toNat = genCount (promptEff input.length) ∧
    genCount (promptEff input.length) ≤ refSeqlenMax ∧
    UInt32.ofNat (genCount (promptEff input.length)) ≠ 0 := by
  obtain ⟨hpos, hle, -⟩ := genCount_bounds (promptEff_le input.length).2
  have hmax : genCount (promptEff input.length) ≤ refSeqlenMax := hle.trans (by decide)
  have hlt : genCount (promptEff input.length) < 2 ^ 32 := lt_of_le_of_lt hmax (by decide)
  refine ⟨UInt32.toNat_ofNat_of_lt' hlt, hmax, fun hzero => ?_⟩
  have := congrArg UInt32.toNat hzero
  rw [UInt32.toNat_ofNat_of_lt' hlt] at this
  exact absurd this (Nat.ne_of_gt hpos)

theorem prompt_length (input : Bytes) : (prompt model input).length = promptEff input.length := by
  rw [prompt, tokensOf, length_map, length_take, min_eq_left (promptEff_le _).1]

theorem tokensOf_append (a b : Bytes) :
    tokensOf model (a ++ b) = tokensOf model a ++ tokensOf model b := map_append

theorem tokensOf_take (b : Bytes) (n : Nat) : tokensOf model (b.take n) = (tokensOf model b).take n := map_take

theorem answerTokens_zero (input : Bytes) : answerTokens model input 0 = [] := by
  rw [answerTokens, generated_zero]
  rfl

theorem answerTokens_length (input : Bytes) (n : Nat) : (answerTokens model input n).length = n := by
  rw [answerTokens, length_map, generated_length]

theorem tokensOf_answerTokens (input : Bytes) (n : Nat) :
    tokensOf model (answerTokens model input n) = generated (nextToken model) (prompt model input) n := by
  rw [tokensOf, answerTokens, map_map]
  refine (map_congr_left ?_).trans (map_id _)
  refine forall_mem_generated fun tokens => ?_
  have hlt : nextToken model tokens < model.vocab := nextToken_lt tokens
  have hle := model.vocab_le
  rw [refVocabMax] at hle
  rw [Function.comp_apply, UInt8.toNat_ofNat',
    Nat.mod_eq_of_lt (a := nextToken model tokens) (by omega), Nat.mod_eq_of_lt hlt]
  rfl

variable {input : Bytes} {n : Nat}

theorem answerTokens_take {k : Nat} (h : k ≤ n) :
    (answerTokens model input n).take k = answerTokens model input k := by
  rw [answerTokens, ← map_take, generated_take h]
  rfl

theorem prefixAt_eq (input : Bytes) (p : Nat) :
    prefixAt model input p = prompt model input ++
      generated (nextToken model) (prompt model input) p := extend_eq p

theorem dist_ne_nil (input : Bytes) (p : Nat) : serializeDist (distAt model input p) ≠ [] := by
  rw [← length_pos_iff, serializeDist_length, distAt, model.forward_length]
  have := model.vocab_pos
  omega

theorem mem_answerDists {d : Bytes} (h : d ∈ answerDists model input n) :
    ∃ p, p < n ∧ d = serializeDist (distAt model input p) := by
  obtain ⟨p, hp, rfl⟩ := mem_map.mp h
  exact ⟨p, mem_range.mp hp, rfl⟩

theorem answerDists_getD {p : Nat} (h : p < n) :
    (answerDists model input n).getD p [] = serializeDist (distAt model input p) := by
  simp [answerDists, getElem?_range h]

theorem answerOf_shaped (input : Bytes) : Shaped (answerOf model input) := by
  obtain ⟨-, hgen, -⟩ := genCount_bounds (promptEff_le input.length).2
  refine ⟨?_, ?_, model.vocab * 4, ?_, ?_, ?_⟩
  · exact (answerTokens_length _ _).le.trans (hgen.trans (by decide))
  · simp [answerOf, answerDists, answerTokens_length]
  · have := model.vocab_pos
    omega
  · exact Nat.mul_mod_left _ _
  · intro d hd
    obtain ⟨p, -, rfl⟩ := mem_answerDists hd
    rw [serializeDist_length, distAt, model.forward_length]

end AntsClient.Inference.Reference
