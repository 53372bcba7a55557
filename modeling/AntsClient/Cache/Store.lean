import AntsClient.Cache.Wire

namespace AntsClient.Cache.Store

open Common Crypto Wire

def shardKeyBits : Nat := 64

def initialEntryCapacity : Nat := 16

def topkMaxCandidates : Nat := 256

def handleLookupServerCap : UInt32 := 15

def evictionMultiplier : UInt64 := 4

def recencyDecaySec : UInt64 := 31500000

def challengeInvalidationThreshold : UInt32 := 3

def uint64Max : UInt64 := 0xffffffffffffffff

def uint32Max : UInt32 := 0xffffffff

/-- The numbers that the cache computes from embeddings, and how it compares them. -/
structure Metric (D : Type) where
  shardKey : Embedding → UInt64
  cosine : Embedding → Embedding → D
  score : (positiveCount negativeCount : UInt32) → (created : UInt64) → (sim : D) → (nowSec : UInt64) → D
  lt : D → D → Bool
  ofFloat : UInt32 → D
  toFloat : D → UInt32
  minusTwo : D

/-- The machine's arithmetic on doubles, and the hyperplanes that shard keys come from. -/
structure Arith (D : Type) where
  add : D → D → D
  sub : D → D → D
  mul : D → D → D
  div : D → D → D
  lt : D → D → Bool
  le : D → D → Bool
  ofFloat : UInt32 → D
  toFloat : D → UInt32
  ofUInt64 : UInt64 → D
  minusTwo : D
  recencyFloor : D
  projection : Nat → List UInt32

section Arith

variable {D : Type} (arith : Arith D)

def Arith.dot (a b : List UInt32) : D :=
  (a.zip b).foldl (fun dot p => arith.add dot (arith.mul (arith.ofFloat p.1) (arith.ofFloat p.2)))
    (arith.ofUInt64 0)

def Arith.shardKey (embedding : Embedding) : UInt64 :=
  (List.range shardKeyBits).foldl (fun key j =>
    if arith.le (arith.ofUInt64 0) (arith.dot embedding.val (arith.projection j)) then
    key ||| 1 <<< UInt64.ofNat j else key) 0

def ageSec (created nowSec : UInt64) : UInt64 := if nowSec ≥ created then nowSec - created else 0

def Arith.computeScore (positiveCount negativeCount : UInt32) (created : UInt64) (sim : D)
    (nowSec : UInt64) : D :=
  let one := arith.ofUInt64 1
  let signalRatio := arith.div (arith.add (arith.ofUInt64 positiveCount.toUInt64) one)
    (arith.add (arith.ofUInt64 negativeCount.toUInt64) one)
  let recency := arith.sub one
    (arith.div (arith.ofUInt64 (ageSec created nowSec)) (arith.ofUInt64 recencyDecaySec))
  let recency := if arith.lt recency arith.recencyFloor then arith.recencyFloor else recency
  arith.mul (arith.mul sim signalRatio) recency

def Arith.metric : Metric D where
  shardKey := arith.shardKey
  cosine a b := arith.dot a.val b.val
  score := arith.computeScore
  lt := arith.lt
  ofFloat := arith.ofFloat
  toFloat := arith.toFloat
  minusTwo := arith.minusTwo

end Arith

structure Quality where
  positiveCount : UInt32
  negativeCount : UInt32
  challengeCount : UInt32
  lastChallengedSec : UInt64
  invalidated : Bool
  deriving DecidableEq

def Quality.zero : Quality := ⟨0, 0, 0, 0, false⟩

structure Slot extends Quality where
  shardKey : UInt64
  embedding : Embedding
  lastAccess : UInt64
  embeddingModel : Buf
  promptHash : Bytes32
  response : Buf
  responseModel : Buf
  producer : Bytes32
  created : UInt64
  validityClass : UInt32
  attestation : Buf
  signature : Signature

/-- `struct ants_semantic_cache_state`, with the verdicts of the allocations to come (those not
listed succeed). `spare` is what storing a record does not write of the places behind the entries.
-/
structure State where
  perShardMax : Nat
  totalMax : Nat
  entries : List Slot
  spare : List Quality
  lruCounter : UInt64
  mem : List Bool
  spare_zero : ∀ q ∈ spare, q = .zero

theorem zero_nil : ∀ q ∈ ([] : List Quality), q = .zero := nofun

def State.capEntries (c : State) : Nat := c.entries.length + c.spare.length

theorem State.zeroed_zero (c : State) (n : Nat) : ∀ q ∈ List.replicate n .zero ++ c.spare, q = .zero := by
  intro q hq
  obtain hq | hq := List.mem_append.mp hq
  · exact List.eq_of_mem_replicate hq
  · exact c.spare_zero q hq

theorem State.tail_zero (c : State) : ∀ q ∈ c.spare.tail, q = .zero :=
  fun q hq => c.spare_zero q (List.mem_of_mem_tail hq)

theorem State.headD_spare (c : State) : c.spare.headD .zero = .zero := by
  cases h : c.spare with
  | nil => rfl
  | cons q rest => exact c.spare_zero q (h ▸ List.mem_cons_self)

def State.zeroed (n : Nat) (c : State) : State :=
  { c with spare := List.replicate n .zero ++ c.spare, spare_zero := c.zeroed_zero n }

abbrev CacheM := EStateM Error State

def init (perShardMax totalMax : Nat) (mem : List Bool) : Except Error State :=
  if mem.headD true then
    .ok (State.zeroed initialEntryCapacity ⟨perShardMax, totalMax, [], [], 0, mem.tail, zero_nil⟩)
  else .error .malformed

def malloc : CacheM Unit := fun c =>
  if c.mem.headD true then .ok () { c with mem := c.mem.tail }
    else .error .malformed { c with mem := c.mem.tail }

def countInShard (entries : List Slot) (key : UInt64) : Nat := entries.countP fun slot => slot.shardKey = key

def findLruFrom (pick : Slot → Bool) : List Slot → Nat → UInt64 → Option Nat → Option Nat
  | [], _, _, best => best
  | slot :: rest, i, minAccess, best =>
    if pick slot ∧ slot.lastAccess < minAccess then findLruFrom pick rest (i + 1) slot.lastAccess (some i)
    else findLruFrom pick rest (i + 1) minAccess best

def findLru (pick : Slot → Bool) (entries : List Slot) : Option Nat := findLruFrom pick entries 0 uint64Max none

def evictAt (entries : List Slot) (idx : Nat) : List Slot :=
  match entries.getLast? with
  | some last => (entries.set idx last).dropLast
  | none => entries

def evictLru (pick : Slot → Bool) (entries : List Slot) : List Slot :=
  match findLru pick entries with
  | some idx => evictAt entries idx
  | none => entries

def enforceCapsOnInsert (key : UInt64) (c : State) : State :=
  let entries := if c.totalMax > 0 ∧
    c.entries.length ≥ c.totalMax then evictLru (fun _ => true) c.entries else c.entries
  let entries := if c.perShardMax > 0 ∧
    countInShard entries key ≥ c.perShardMax then evictLru (fun slot => slot.shardKey = key) entries
    else entries
  { c.zeroed (c.entries.length - entries.length) with entries := entries }

def validityHorizonSec (validityClass : UInt32) : UInt64 :=
  if validityClass = 0 then 300
  else if validityClass = 1 then 1200000
  else if validityClass = 2 then 7000000
  else if validityClass = 3 then 60000000
  else if validityClass = 4 then uint64Max
  else 0

def entryStillValid (slot : Slot) (nowSec : UInt64) : Bool :=
  let horizon := validityHorizonSec slot.validityClass
  if slot.invalidated then false
  else if horizon = uint64Max then true
  else if horizon = 0 then false
  else ageSec slot.created nowSec < if horizon > uint64Max / evictionMultiplier then
    uint64Max else horizon * evictionMultiplier

def isRecord (promptHash producer : Bytes32) (slot : Slot) : Bool :=
  slot.promptHash = promptHash && slot.producer = producer

def putRecordValidate (e : Entry) : Except Error Unit := entryValidate e

def orThrow {α : Type} : Except Error α → CacheM α
  | .ok a => pure a
  | .error err => throw err

def dupBytes (b : Buf) : CacheM Buf := do
  if b.len = 0 then return .null 0
  malloc
  return .data b.bytes

def growEntries : CacheM Unit := do
  let c ← get
  if c.entries.length = c.capEntries then
    malloc
    modify fun c => c.zeroed c.capEntries

variable {D : Type} (metric : Metric D)

def putRecord (e : Entry) : CacheM Unit := do
  orThrow (putRecordValidate e)
  match e.embedding with
  | none => throw .invalidArg
  | some embedding =>
    modify (enforceCapsOnInsert (metric.shardKey embedding))
    growEntries
    let embeddingModel ← dupBytes e.embeddingModel
    let response ← dupBytes e.response
    let responseModel ← dupBytes e.responseModel
    let attestation ← dupBytes e.attestation
    modify fun c => { c with
      lruCounter := c.lruCounter + 1
      spare := c.spare.tail
      spare_zero := c.tail_zero
      entries := c.entries ++ [{
        toQuality := c.spare.headD .zero
        shardKey := metric.shardKey embedding
        embedding := embedding
        lastAccess := c.lruCounter + 1
        embeddingModel := embeddingModel
        promptHash := e.promptHash
        response := response
        responseModel := responseModel
        producer := e.producer
        created := e.created
        validityClass := e.validityClass
        attestation := attestation
        signature := e.signature }] }

def embModel : Bytes := [0x61, 0x6e, 0x74, 0x73, 0x2d, 0x65, 0x6d, 0x62, 0x65, 0x64, 0x2d, 0x76, 0x31]

def valueEntry (nowSec : UInt64) (embedding : Embedding) (value : Bytes) : Entry where
  embedding := some embedding
  embeddingModel := .data embModel
  promptHash := zero32
  response := .data value
  responseModel := .data []
  producer := zero32
  created := nowSec
  validityClass := 0
  attestation := .null 0
  signature := signature 0 0

def put (nowSec : UInt64) (embedding : Embedding) (value : Bytes) : CacheM Unit := do
  if value.length = 0 then throw .invalidArg
  putRecord metric (valueEntry nowSec embedding value)

/-- The valid entry of the query's shard that is most similar to it, the first of those
that are equally so. -/
def bestOf (embedding : Embedding) (nowSec : UInt64) : List Slot → Nat → Option Nat → D → Option Nat × D
  | [], _, best, bestSim => (best, bestSim)
  | slot :: rest, i, best, bestSim =>
    if slot.shardKey = metric.shardKey embedding ∧ entryStillValid slot nowSec ∧
        metric.lt bestSim (metric.cosine slot.embedding embedding) then
      bestOf embedding nowSec rest (i + 1) (some i) (metric.cosine slot.embedding embedding)
    else bestOf embedding nowSec rest (i + 1) best bestSim

def touch (idx : Nat) (c : State) : State := { c with
  lruCounter := c.lruCounter + 1
  entries := c.entries.modify idx fun slot => { slot with lastAccess := c.lruCounter + 1 } }

def getHit (nowSec : UInt64) (embedding : Embedding) (threshold : UInt32) (c : State) :
    Option (Slot × Nat × D) := do
  let (best, sim) := bestOf metric embedding nowSec c.entries 0 none metric.minusTwo
  let idx ← best
  let slot ← c.entries[idx]?
  if metric.lt sim (metric.ofFloat threshold) then none else some (slot, idx, sim)

def get (nowSec : UInt64) (embedding : Embedding) (threshold : UInt32) (outCap : Nat) :
    CacheM (Bytes × UInt32) := do
  match getHit metric nowSec embedding threshold (← MonadState.get) with
  | none => throw .notFound
  | some (slot, idx, sim) =>
    modify (touch idx)
    if slot.response.bytes.length > outCap then throw .bufferTooSmall
    return (slot.response.bytes, metric.toFloat sim)

structure Candidate (D : Type) where
  entryIdx : Nat
  similarity : D
  score : D

def popcountRounds : Nat → UInt64 → Nat
  | 0, _ => 0
  | rounds + 1, x => if x = 0 then 0 else popcountRounds rounds (x &&& (x - 1)) + 1

def shardKeyPopcount (x : UInt64) : Nat := popcountRounds 64 x

def candidate (nowSec : UInt64) (embedding : Embedding) (threshold hammingRadius : UInt32)
    (slot : Slot) (idx : Nat) :
    Option (Candidate D) :=
  let sim := metric.cosine slot.embedding embedding
  if !entryStillValid slot nowSec then none
  else if shardKeyPopcount (slot.shardKey ^^^ metric.shardKey embedding) > hammingRadius.toNat then none
  else if metric.lt sim (metric.ofFloat threshold) then none
  else some ⟨idx, sim, metric.score slot.positiveCount slot.negativeCount slot.created sim nowSec⟩

def candidates (nowSec : UInt64) (embedding : Embedding) (threshold hammingRadius : UInt32)
    (entries : List Slot) :
    List (Candidate D) :=
  (entries.zipIdx.filterMap fun p =>
    candidate metric nowSec embedding threshold hammingRadius p.1 p.2).take topkMaxCandidates

/-- One step of the insertion sort, from the end of the sorted part, which is listed first. -/
def insertCandidate (pivot : Candidate D) : List (Candidate D) → List (Candidate D)
  | [] => [pivot]
  | c :: rest => if metric.lt c.score pivot.score then c :: insertCandidate pivot rest else pivot :: c :: rest

def sortCandidates (cands : List (Candidate D)) : List (Candidate D) :=
  (cands.foldl (fun sorted pivot => insertCandidate metric pivot sorted) []).reverse

def select (nowSec : UInt64) (embedding : Embedding) (threshold topK hammingRadius : UInt32)
    (entries : List Slot) :
    List (Candidate D) :=
  let sorted := sortCandidates metric (candidates metric nowSec embedding threshold hammingRadius entries)
  if topK > 0 then sorted.take topK.toNat else sorted

def Slot.entry (slot : Slot) : Entry where
  embedding := some slot.embedding
  embeddingModel := slot.embeddingModel
  promptHash := slot.promptHash
  response := slot.response
  responseModel := slot.responseModel
  producer := slot.producer
  created := slot.created
  validityClass := slot.validityClass
  attestation := slot.attestation
  signature := slot.signature

/-- The error that is returned, `*out_n`, and the matches that are written. -/
structure TopK where
  err : Option Error
  outN : Nat
  found : List Match

def getTopk (nowSec : UInt64) (embedding : Embedding) (threshold topK hammingRadius : UInt32)
    (capMatches : Nat) (c : State) :
    TopK × State :=
  if hammingRadius > maxHammingRadius then (⟨some .invalidArg, 0, []⟩, c)
  else
    let selected := select metric nowSec embedding threshold topK hammingRadius c.entries
    if selected.length = 0 then (⟨some .notFound, 0, []⟩, c)
    else
      let emitted := selected.take capMatches
      let found := emitted.filterMap fun cand =>
        (c.entries[cand.entryIdx]?).map fun slot => ⟨slot.entry, metric.toFloat cand.similarity⟩
      let c := emitted.foldl (fun c cand => touch cand.entryIdx c) c
      (⟨if capMatches < selected.length then some .bufferTooSmall else none, selected.length, found⟩, c)

def clear : CacheM Unit := modify fun c => { c.zeroed c.entries.length with entries := [] }

variable (crypto : Primitives)

def handleInboundEntry (entryCbor : Bytes) : CacheM Unit := do
  if entryCbor.length = 0 then throw .invalidArg
  let e ← orThrow (entryDecode entryCbor)
  malloc
  let payload ← orThrow (cacheEntryEmitSigningPayload e (List.replicate entryCbor.length 0))
  if !crypto.ed25519Verify e.producer payload e.signature.val then throw .malformed
  putRecord metric e

def clampTopK (topK : UInt32) : UInt32 :=
  if topK = 0 ∨ topK > handleLookupServerCap then handleLookupServerCap else topK

def handleInboundLookup (nowSec : UInt64) (reqCbor respBuf : Bytes) : CacheM Bytes := do
  if reqCbor.length = 0 then throw .invalidArg
  let req ← orThrow (lookupRequestDecode reqCbor)
  malloc
  let c ← MonadState.get
  let (topk, c) := getTopk metric nowSec req.embedding req.threshold (clampTopK req.topK) req.hammingRadius
    handleLookupServerCap.toNat c
  set c
  match topk.err with
  | none => orThrow (lookupResponseEncode topk.found respBuf)
  | some .notFound => orThrow (lookupResponseEncode [] respBuf)
  | some err => throw err

def onRecord (promptHash producer : Bytes32) (f : Slot → Slot) : CacheM Unit := do
  let c ← MonadState.get
  match c.entries.findIdx? (isRecord promptHash producer) with
  | none => throw .notFound
  | some idx => set { c with entries := c.entries.modify idx f }

def bump (n : UInt32) : UInt32 := if n < uint32Max then n + 1 else n

def praised (slot : Slot) : Slot := { slot with positiveCount := bump slot.positiveCount }

def blamed (slot : Slot) : Slot := { slot with negativeCount := bump slot.negativeCount }

def challenged (nowSec : UInt64) (slot : Slot) : Slot := { slot with
  challengeCount := bump slot.challengeCount
  lastChallengedSec := nowSec
  invalidated := slot.invalidated || bump slot.challengeCount ≥ challengeInvalidationThreshold }

def recordPositive (promptHash producer : Bytes32) : CacheM Unit := onRecord promptHash producer praised

def recordNegative (promptHash producer : Bytes32) : CacheM Unit := onRecord promptHash producer blamed

def recordChallenge (nowSec : UInt64) (promptHash producer : Bytes32) : CacheM Unit :=
  onRecord promptHash producer (challenged nowSec)

end AntsClient.Cache.Store
