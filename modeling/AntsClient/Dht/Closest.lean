import AntsClient.Dht.Server
import AntsClient.Lib.Nearest
import Mathlib.Data.List.Perm.Subperm

namespace AntsClient.Dht.Closest

open Common Crypto Lib.Nearest Server Dht.Lookup List

structure BucketEntry where
  peer : Peer
  conn : Option Conn
  deriving DecidableEq

def BucketEntry.peerId (e : BucketEntry) : Bytes32 := e.peer.peerId

def connInsert (target : Bytes32) (top : List (BucketEntry × Bytes32)) (e : BucketEntry) :
    List (BucketEntry × Bytes32) :=
  if e.conn = none then top
  else
    let dist := xorDistance target e.peer.peerId
    let pos := top.findIdx fun c => distCmp dist c.2 = .lt
    if pos = closestCap then top else (top.insertIdx pos (e, dist)).take closestCap

def findKclosestConnEntries (buckets : List (List BucketEntry)) (target : Bytes32) : List BucketEntry :=
  (buckets.flatten.foldl (connInsert target) []).map Prod.fst

/-- The list is the `closestCap` candidates closest to the target, in order. -/
structure Nearest {α : Type} (idOf : α → Bytes32) (target : Bytes32) (candidates found : List α) : Prop where
  length : found.length = min closestCap candidates.length
  members : found.Subperm candidates
  ascending : found.Pairwise fun a b =>
    distCmp (xorDistance target (idOf a)) (xorDistance target (idOf b)) = .lt
  nearest : ∀ a ∈ found, ∀ b ∈ candidates, b ∉ found →
    distCmp (xorDistance target (idOf a)) (xorDistance target (idOf b)) = .lt

section Order

variable {a b c : Bytes32}

theorem distCmp_lt_iff : distCmp a b = .lt ↔ a.val < b.val :=
  memcmp_lt_iff (a.length_val.trans b.length_val.symm)

theorem distCmp_irrefl (a : Bytes32) : distCmp a a ≠ .lt := fun h => List.lt_irrefl _ (distCmp_lt_iff.mp h)

theorem distCmp_trans (h : distCmp a b = .lt) (h' : distCmp b c = .lt) : distCmp a c = .lt :=
  distCmp_lt_iff.mpr (List.lt_trans (distCmp_lt_iff.mp h) (distCmp_lt_iff.mp h'))

theorem distCmp_total (h : a ≠ b) : distCmp a b = .lt ∨ distCmp b a = .lt := by
  rw [distCmp_lt_iff, distCmp_lt_iff]
  by_contra hnot
  rw [not_or, List.not_lt, List.not_lt] at hnot
  exact h (Bytes32.ext (List.le_antisymm hnot.2 hnot.1))

theorem xor_zipWith_inj {t a b : Bytes} (ha : a.length = t.length) (hb : b.length = t.length)
    (h : List.zipWith (· ^^^ ·) t a = List.zipWith (· ^^^ ·) t b) : a = b := by
  induction t generalizing a b with
  | nil => rw [length_eq_zero_iff.mp ha, length_eq_zero_iff.mp hb]
  | cons x t ih =>
    obtain ⟨y, a, rfl⟩ := exists_cons_of_length_eq_add_one ha
    obtain ⟨z, b, rfl⟩ := exists_cons_of_length_eq_add_one hb
    rw [zipWith_cons_cons, zipWith_cons_cons, List.cons.injEq] at h
    have hhead : y = z := by simpa using h.1
    rw [hhead, ih (Nat.succ.inj ha) (Nat.succ.inj hb) h.2]

theorem xorDistance_inj {target : Bytes32} (h : xorDistance target a = xorDistance target b) : a = b := by
  apply Bytes32.ext
  apply xor_zipWith_inj (a.length_val.trans target.length_val.symm) (b.length_val.trans target.length_val.symm)
  exact congrArg Bytes32.val h

end Order

section Measured

variable {α : Type} {idOf : α → Bytes32} {target : Bytes32} {l : List α}

def closer (x y : α × Bytes32) : Bool := distCmp x.2 y.2 = .lt

theorem closer_iff {x y : α × Bytes32} : closer x y = true ↔ distCmp x.2 y.2 = .lt := decide_eq_true_iff

def measure (idOf : α → Bytes32) (target : Bytes32) (a : α) : α × Bytes32 := (a, xorDistance target (idOf a))

theorem closest_of_foldl (hl : (l.map idOf).Nodup) :
    Nearest idOf target l
      (((l.map (measure idOf target)).foldl (insertCapped closer closestCap) []).map Prod.fst) := by
  have hpair : (l.map (measure idOf target)).Pairwise fun x y => closer y x = true ∨ closer x y = true := by
    rw [pairwise_map]
    apply List.Pairwise.imp _ (pairwise_map.mp hl)
    intro a b hne
    rw [closer_iff, closer_iff]
    exact distCmp_total fun h => hne (xorDistance_inj h).symm
  have htrans (x y z : α × Bytes32) (hxy : closer x y = true) (hyz : closer y z = true) :
      closer x z = true := by
    rw [closer_iff] at hxy hyz ⊢
    exact distCmp_trans hxy hyz
  rw [← nil_append (l.map (measure idOf target))] at hpair
  have hholds := @holds_foldl _ closer closestCap _ _ (fun x => by simp [closer, distCmp_irrefl])
    htrans _ hpair holds_nil
  rw [nil_append] at hholds
  generalize (l.map (measure idOf target)).foldl (insertCapped closer closestCap) [] = top at hholds
  obtain ⟨rest, hperm, hrest⟩ := hholds.rest
  have hmeasured : ∀ x ∈ top ++ rest, x.2 = xorDistance target (idOf x.1) := by
    intro x hx
    obtain ⟨a, -, rfl⟩ := mem_map.mp (hperm.subset hx)
    rfl
  have hfst : ((top ++ rest).map Prod.fst).Perm l := by
    have h := hperm.map Prod.fst
    have hid : Prod.fst ∘ measure idOf target = id := rfl
    rwa [map_map, hid, map_id] at h
  have htop : ∀ x ∈ top, x.2 = xorDistance target (idOf x.1) := fun x hx => hmeasured x (mem_append_left _ hx)
  refine ⟨?_, ?_, ?_, ?_⟩
  · rw [length_map, hholds.length, length_map]
  · rw [map_append] at hfst
    exact (sublist_append_left _ _).subperm.trans hfst.subperm
  · rw [pairwise_map]
    apply hholds.sorted.imp_of_mem
    intro x y hx hy h
    rw [← htop x hx, ← htop y hy]
    exact closer_iff.mp h
  · intro a ha b hb hnot
    obtain ⟨x, hx, rfl⟩ := mem_map.mp ha
    obtain ⟨y, hy, rfl⟩ := mem_map.mp (hfst.symm.subset hb)
    obtain hy' | hy' := mem_append.mp hy
    · exact absurd (mem_map_of_mem hy') hnot
    · rw [← htop x hx, ← hmeasured y hy]
      exact closer_iff.mp (hrest x hx y hy')

end Measured

/-- Both searches find the closest of their candidates exactly. -/
theorem closest_exact (target : Bytes32) :
    (∀ buckets : List (List Peer), (buckets.flatten.map Peer.peerId).Nodup →
      Nearest Peer.peerId target buckets.flatten (findKclosestPeers buckets target)) ∧
    ∀ buckets : List (List BucketEntry), (buckets.flatten.map BucketEntry.peerId).Nodup →
      Nearest BucketEntry.peerId target (buckets.flatten.filter fun e => e.conn.isSome)
        (findKclosestConnEntries buckets target) := by
  constructor
  · intro buckets hdistinct
    have h := @closest_of_foldl _ _ target _ hdistinct
    rw [foldl_map] at h
    exact h
  · intro buckets hdistinct
    have hconn : connInsert target = fun top e =>
        if e.conn.isSome then
          insertCapped closer closestCap top (measure BucketEntry.peerId target e) else top := by
      funext top e
      rw [connInsert]
      cases e.conn <;> rfl
    have hsub : (buckets.flatten.filter fun e => e.conn.isSome).Sublist buckets.flatten := filter_sublist
    have h := @closest_of_foldl _ _ target _ (hdistinct.sublist (hsub.map _))
    rw [foldl_map, foldl_filter] at h
    rw [findKclosestConnEntries, hconn]
    exact h

def peerAt (n : Nat) : Peer := ⟨digest n, []⟩

def crowdBuckets : List (List BucketEntry) :=
  [(range 23).map fun n => ⟨peerAt (46 - n), if n % 2 = 0 then some n else none⟩,
    (range 23).map fun n => ⟨peerAt (n + 1), if n % 2 = 0 then some n else none⟩]

theorem crowdBuckets_distinct : (crowdBuckets.flatten.map BucketEntry.peerId).Nodup :=
  .of_map (fun id => id.val.getLast?) (by decide +kernel)

theorem closest_exact_crowd :
    Nearest Peer.peerId zero32 (crowdBuckets.map (·.map BucketEntry.peer)).flatten
        ((range 20).map fun n => peerAt (n + 1)) ∧
      Nearest BucketEntry.peerId zero32 (crowdBuckets.flatten.filter fun e => e.conn.isSome)
        (findKclosestConnEntries crowdBuckets zero32) := by
  obtain ⟨hpeers, hentries⟩ := closest_exact zero32
  have hfound : findKclosestPeers (crowdBuckets.map (·.map BucketEntry.peer)) zero32 =
      (range 20).map fun n => peerAt (n + 1) := by decide +kernel
  have hdistinct : ((crowdBuckets.map (·.map BucketEntry.peer)).flatten.map Peer.peerId).Nodup := by
    rw [← map_flatten, map_map]
    exact crowdBuckets_distinct
  exact ⟨hfound ▸ hpeers _ hdistinct, hentries _ crowdBuckets_distinct⟩

end AntsClient.Dht.Closest
