import AntsClient.Crypto

namespace AntsClient.Dht.Lookup

open Common Crypto

abbrev Conn := Nat

structure Peer where
  peerId : Bytes32
  multiaddr : Bytes
  deriving DecidableEq

def xorDistance (a b : Bytes32) : Bytes32 :=
  ⟨List.zipWith (· ^^^ ·) a.val b.val, by rw [List.length_zipWith, a.length_val, b.length_val]; rfl⟩

def distCmp (a b : Bytes32) : Ordering := memcmp a.val b.val

def keyLe (key : UInt64) : Bytes := (List.range 8).map fun i => (key >>> (UInt64.ofNat (i * 8))).toUInt8

end AntsClient.Dht.Lookup
