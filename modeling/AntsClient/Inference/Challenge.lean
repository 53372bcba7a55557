import AntsClient.Chain.Committee

namespace AntsClient.Inference.Challenge

open Common Crypto Chain.Committee

def prfContextSel : Bytes := [0x73, 0x65, 0x6c]

def prfContextPos : Bytes := [0x70, 0x6f, 0x73]

/-- `prf_keystream_t`: the block hashed last, the counter of the next one, and how many
words of the block are unread. -/
structure Keystream where
  beacon : Bytes32
  root : Bytes32
  tag : Bytes
  block : Bytes32
  nextBlock : UInt64
  wordsLeft : Nat

def prfKeystreamInit (beacon root : Bytes32) (tag : Bytes) : Keystream := ⟨beacon, root, tag, zero32, 0, 0⟩

variable (crypto : Primitives)

def prfComputeBlock (ks : Keystream) (counter : UInt64) : Bytes32 :=
  crypto.blake3 (ks.beacon.val ++ ks.root.val ++ ks.tag ++ writeLe64 counter)

def prfNextWord (ks : Keystream) : UInt64 × Keystream :=
  let ks := if ks.wordsLeft = 0 then
      { ks with block := prfComputeBlock crypto ks ks.nextBlock, nextBlock := ks.nextBlock + 1, wordsLeft := 4 }
    else ks
  (readBe64 (ks.block.val.drop ((4 - ks.wordsLeft) * 8)), { ks with wordsLeft := ks.wordsLeft - 1 })

def challengeIsAudited (beacon root : Bytes32) (auditThreshold : UInt64) : Bool :=
  (prfNextWord crypto (prfKeystreamInit beacon root prfContextSel)).1 < auditThreshold

def drawPositions (m length : UInt32) : Nat → UInt64 → Keystream → List UInt64
  | 0, _, _ => []
  | rounds + 1, j, ks =>
    let lo := j * length.toUInt64 / m.toUInt64
    let hi := (j + 1) * length.toUInt64 / m.toUInt64
    let (w, ks) := prfNextWord crypto ks
    (lo + w % (hi - lo)) :: drawPositions m length rounds (j + 1) ks

def challengePositions (beacon root : Bytes32) (m length : UInt32) (cap : Nat) : Except Error (List UInt64) :=
  if m = 0 ∨ length = 0 then .error .invalidArg
  else if cap < (if m < length then m else length).toNat then .error .bufferTooSmall
  else if m ≥ length then .ok ((List.range length.toNat).map UInt64.ofNat)
  else .ok (drawPositions crypto m length m.toNat 0 (prfKeystreamInit beacon root prfContextPos))

end AntsClient.Inference.Challenge
