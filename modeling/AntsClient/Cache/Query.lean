import AntsClient.Cache.Store
import AntsClient.Lib.Best

namespace AntsClient.Cache.Query

open Common Crypto Wire Lib Best Ranking Store

def queryMaxFanout : UInt32 := 8

def queryPeerResponseCap : Nat := 15

def candidatesMax : Nat := queryMaxFanout.toNat * queryPeerResponseCap

inductive Status
  | empty
  | dialing
  | awaitingResponse
  | responded
  | failed
  deriving DecidableEq

structure Slot where
  status : Status
  decoded : List Match

variable {β : Type} [LinearOrder β] (value : UInt32 → β)

def entryDupKey (m : Match) : Bytes32 × Bytes32 := (m.entry.producer, m.entry.promptHash)

def similarity (m : Match) : β := value m.similarity

def collectSlot : List Match → List Match → List Match
  | candidates, [] => candidates
  | candidates, m :: rest =>
    if candidates.length ≥ candidatesMax then candidates else collectSlot (candidates ++ [m]) rest

def collect : List Match → List Slot → List Match
  | candidates, [] => candidates
  | candidates, s :: rest =>
    if s.status ≠ .responded then collect candidates rest else collect (collectSlot candidates s.decoded) rest

def outputCap (capMatches : Nat) (topK : UInt32) : Nat :=
  if topK > 0 ∧ topK.toNat < capMatches then topK.toNat else capMatches

def aggregateMatches (slots : List Slot) (capMatches : Nat) (topK : UInt32) : List Match :=
  let unique := keepBest entryDupKey (similarity value) (collect [] slots)
  let sorted := sortDown (similarity value) unique
  sorted.take (if unique.length < outputCap capMatches topK then unique.length else outputCap capMatches topK)

end AntsClient.Cache.Query
