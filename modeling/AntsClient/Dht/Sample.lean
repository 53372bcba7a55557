import AntsClient.Dht.Server
import AntsClient.Lib.RoundRobin

namespace AntsClient.Dht.Sample

open Lib.RoundRobin Dht.Lookup List UInt64

def bucketCount : Nat := 256

def bucketCap : Nat := 20

structure RoutingTable where
  buckets : List (List Peer)
  count : buckets.length = bucketCount
  size : ∀ b ∈ buckets, b.length ≤ bucketCap
  distinct : (buckets.flatten.map Peer.peerId).Nodup

section Source

variable (buckets : List (List Peer)) (rotation : UInt64) (nOut : Nat)

def visited (i : Nat) : List Peer :=
  buckets[((rotation + UInt64.ofNat i) % UInt64.ofNat bucketCount).toNat]?.getD []

def entryAt (depth : Nat) (bucket : List Peer) : Option Peer :=
  if depth ≥ bucket.length then none
  else bucket[(depth + (rotation % UInt64.ofNat bucket.length).toNat) % bucket.length]?

def sampleStep (depth : Nat) (s : List Peer × Bool) (i : Nat) : List Peer × Bool :=
  if s.1.length < nOut then
    match entryAt rotation depth (visited buckets rotation i) with
    | none => s
    | some e => (s.1 ++ [e], true)
  else s

def sweep (depth : Nat) (out : List Peer) : List Peer × Bool :=
  (range bucketCount).foldl (sampleStep buckets rotation nOut depth) (out, false)

def sampleLoop : Nat → Nat → List Peer → Option (List Peer)
  | 0, _, _ => none
  | fuel + 1, depth, out =>
    let s := sweep buckets rotation nOut depth out
    if s.2 ∧ s.1.length < nOut then sampleLoop fuel (depth + 1) s.1 else some s.1

/-- `kbucket_sample`: every sweep but the last writes a peer. -/
def kbucketSample : Option (List Peer) := sampleLoop buckets rotation nOut (nOut + 1) 0 []

end Source

section Sweep

variable {buckets : List (List Peer)} {rotation : UInt64} {nOut depth : Nat} {out : List Peer}

theorem foldl_sampleStep (rounds : List Nat) (progress : Bool) (hout : out.length ≤ nOut) :
    rounds.foldl (sampleStep buckets rotation nOut depth) (out, progress) =
      ((out ++ rounds.filterMap fun i => entryAt rotation depth (visited buckets rotation i)).take nOut,
        progress || decide (out.length < nOut ∧ (rounds.filterMap fun i =>
          entryAt rotation depth (visited buckets rotation i)) ≠ [])) := by
  induction rounds generalizing out progress with
  | nil => simp [take_of_length_le hout]
  | cons i rounds ih =>
    rw [foldl_cons, filterMap_cons, sampleStep]
    by_cases hroom : out.length < nOut
    · rw [if_pos hroom]
      cases entryAt rotation depth (visited buckets rotation i) with
      | none => exact ih progress hout
      | some e =>
        rw [ih true (by rw [length_append]; exact hroom)]
        simp [hroom]
    · have hfull : nOut = out.length := by omega
      rw [if_neg hroom, ih progress hout, hfull, take_left, take_left]
      simp

def turns (buckets : List (List Peer)) (rotation : UInt64) : List (List Peer) :=
  (buckets.rotate rotation.toNat).map fun b => b.rotate rotation.toNat

theorem map_visited (hcount : buckets.length = bucketCount) :
    (range bucketCount).map (visited buckets rotation) = buckets.rotate rotation.toNat := by
  apply ext_getElem
  · rw [length_map, length_range, length_rotate, hcount]
  · intro i hi hi'
    rw [length_map, length_range, bucketCount] at hi
    have hplace : ((rotation + UInt64.ofNat i) % UInt64.ofNat bucketCount).toNat =
        (i + rotation.toNat) % buckets.length := by
      rw [UInt64.toNat_mod, UInt64.toNat_add, UInt64.toNat_ofNat', UInt64.toNat_ofNat', hcount, bucketCount]
      simp only [Nat.reducePow, Nat.reduceMod]
      omega
    rw [getElem_map, getElem_range, getElem_rotate, visited, hplace, getElem?_eq_getElem, Option.getD_some]

theorem entryAt_eq {b : List Peer} (hb : b.length ≤ bucketCap) :
    entryAt rotation depth b = (b.rotate rotation.toNat)[depth]? := by
  rw [entryAt]
  split
  · rw [getElem?_eq_none]
    rwa [length_rotate]
  · rename_i hdepth
    have hlen : (UInt64.ofNat b.length).toNat = b.length := by
      rw [toNat_ofNat', Nat.mod_eq_of_lt]
      exact hb.trans_lt (by simp [bucketCap])
    rw [getElem?_rotate (Nat.lt_of_not_le hdepth), UInt64.toNat_mod, hlen, Nat.add_mod_mod]

variable (t : RoutingTable)

theorem filterMap_entryAt :
    ((range bucketCount).filterMap fun i => entryAt rotation depth (visited t.buckets rotation i)) =
      level (turns t.buckets rotation) depth := by
  have hmap : ((range bucketCount).filterMap fun i => entryAt rotation depth (visited t.buckets rotation i)) =
      ((range bucketCount).map (visited t.buckets rotation)).filterMap (entryAt rotation depth) := by
    rw [filterMap_map]
    rfl
  rw [hmap, map_visited t.count, level, turns, filterMap_map]
  apply filterMap_congr
  intro b hb
  exact entryAt_eq (t.size b (mem_rotate.mp hb))

theorem sweep_eq (hout : out.length ≤ nOut) : sweep t.buckets rotation nOut depth out =
      ((out ++ level (turns t.buckets rotation) depth).take nOut,
        decide (out.length < nOut ∧ level (turns t.buckets rotation) depth ≠ [])) := by
  rw [sweep, foldl_sampleStep _ _ hout, filterMap_entryAt, Bool.false_or]

theorem turns_perm : (turns t.buckets rotation).flatten.Perm t.buckets.flatten := by
  rw [turns, ← flatMap_def]
  have hrotated : ((t.buckets.rotate rotation.toNat).flatMap fun b => b.rotate rotation.toNat).Perm
      ((t.buckets.rotate rotation.toNat).flatMap id) := List.Perm.flatMap_left _ fun b _ => rotate_perm b _
  rw [flatMap_id] at hrotated
  exact hrotated.trans (rotate_perm t.buckets _).flatten

theorem turns_size : ∀ b ∈ turns t.buckets rotation, b.length ≤ bucketCap := by
  intro _ hturn
  obtain ⟨b, hb, rfl⟩ := mem_map.mp hturn
  rw [length_rotate]
  exact t.size b (mem_rotate.mp hb)

theorem nodup : t.buckets.flatten.Nodup := List.Nodup.of_map _ t.distinct

theorem turns_nodup : (turns t.buckets rotation).flatten.Nodup := (turns_perm t).nodup_iff.mpr (nodup t)

theorem sampleLoop_eq (fuel : Nat) (hdepth : depth ≤ bucketCap)
    (hfuel : nOut - ((dealt (turns t.buckets rotation) depth).take nOut).length < fuel) :
    sampleLoop t.buckets rotation nOut fuel depth ((dealt (turns t.buckets rotation) depth).take nOut) =
      some ((dealt (turns t.buckets rotation) bucketCap).take nOut) := by
  induction fuel generalizing depth with
  | zero => exact absurd hfuel (Nat.not_lt_zero _)
  | succ fuel ih =>
    have hout := length_take_le nOut (dealt (turns t.buckets rotation) depth)
    rw [sampleLoop, sweep_eq t hout]
    generalize hxss : turns t.buckets rotation = xss at *
    have hnext : ((dealt xss depth).take nOut ++ level xss depth).take nOut =
        (dealt xss (depth + 1)).take nOut := by
      rw [dealt_succ, take_append, take_append, take_take, min_self, length_take]
      congr 2
      omega
    have hlen : (dealt xss (depth + 1)).length = (dealt xss depth).length + (level xss depth).length := by
      rw [dealt_succ, length_append]
    simp only [hnext, decide_eq_true_eq, length_take] at hfuel ⊢
    by_cases hlevel : level xss depth = []
    · rw [if_neg fun h => h.1.2 hlevel, dealt_of_level_nil hlevel hdepth, dealt_succ, hlevel, append_nil]
    have hbelow : depth < bucketCap := by
      by_contra hnot
      apply hlevel
      apply level_eq_nil
      intro xs hxs
      rw [← hxss] at hxs
      exact (turns_size t xs hxs).trans (Nat.le_of_not_lt hnot)
    have hpos := length_pos_iff.mpr hlevel
    split
    · apply @ih (depth + 1) hbelow
      rw [length_take]
      omega
    · rename_i hstop
      have hfull : nOut ≤ (dealt xss (depth + 1)).length := by
        by_contra hnot
        exact hstop ⟨⟨by omega, hlevel⟩, by omega⟩
      rw [dealt_split hbelow, take_append_of_le_length hfull]

theorem kbucketSample_eq : kbucketSample t.buckets rotation nOut =
      some ((dealt (turns t.buckets rotation) bucketCap).take nOut) := by
  have h := @sampleLoop_eq rotation nOut 0 t (nOut + 1) (Nat.zero_le _) (by omega)
  rwa [dealt, range_zero, flatMap_nil, take_nil] at h

theorem dealt_perm_table : (dealt (turns t.buckets rotation) bucketCap).Perm t.buckets.flatten :=
  (dealt_perm (turns_size t)).trans (turns_perm t)

end Sweep

section Turns

variable (t : RoutingTable) {e : Peer} {b : List Peer}

def nonEmpty (buckets : List (List Peer)) : Nat := buckets.countP fun b => b ≠ []

theorem length_level_turns (rotation : UInt64) :
    (level (turns t.buckets rotation) 0).length = nonEmpty t.buckets := by
  rw [level, length_filterMap_eq_countP, turns, countP_map, (rotate_perm _ _).countP_eq]
  apply countP_congr
  intro b _
  cases b with
  | nil => simp
  | cons x b => simp

theorem kbucketSample_nonEmpty (rotation : UInt64) :
    kbucketSample t.buckets rotation (nonEmpty t.buckets) = some (level (turns t.buckets rotation) 0) := by
  have hfirst : dealt (turns t.buckets rotation) 1 = level (turns t.buckets rotation) 0 := by
    rw [dealt, range_one, flatMap_singleton]
  rw [kbucketSample_eq, dealt_split (by simp [bucketCap] : 1 ≤ bucketCap), hfirst,
    ← length_level_turns t rotation, take_left]

theorem mem_level_turns (rotation : UInt64) (hb : b ∈ t.buckets) (he : e ∈ b) :
    e ∈ level (turns t.buckets rotation) 0 ↔ b[rotation.toNat % b.length]? = some e := by
  have hfront (b : List Peer) (hpos : 0 < b.length) :
      (b.rotate rotation.toNat)[0]? = b[rotation.toNat % b.length]? := by
    rw [getElem?_rotate hpos, Nat.zero_add]
  have hpos := length_pos_of_mem he
  rw [mem_level]
  constructor
  · rintro ⟨_, hturn, hfirst⟩
    obtain ⟨b', hb', rfl⟩ := mem_map.mp hturn
    have he' := mem_rotate.mp (mem_of_getElem? hfirst)
    have hsame : b' = b := list_unique (nodup t) (mem_rotate.mp hb') hb he' he
    rw [← hfront b hpos, ← hsame, hfirst]
  · intro h
    exact ⟨_, mem_map_of_mem (mem_rotate.mpr hb), (hfront b hpos).trans h⟩

theorem add_mod_unique {m r j : Nat} (hj : j < m) : ∃! k, k < m ∧ (r + k) % m = j := by
  have hm := Nat.zero_lt_of_lt hj
  have hr := Nat.mod_lt r hm
  have hfound : (r + (j + (m - r % m)) % m) % m = j := by
    have hsum : r % m + (j + (m - r % m)) = j + m := by omega
    rw [Nat.add_mod_mod, ← Nat.mod_add_mod, hsum, Nat.add_mod_right, Nat.mod_eq_of_lt hj]
  apply ExistsUnique.intro _ ⟨Nat.mod_lt _ hm, hfound⟩
  rintro k ⟨hk, hkj⟩
  have hmod : k ≡ (j + (m - r % m)) % m [MOD m] := Nat.ModEq.add_left_cancel' r (hkj.trans hfound.symm)
  rwa [Nat.ModEq, Nat.mod_mod, Nat.mod_eq_of_lt hk] at hmod

end Turns

/-- The sample takes from every bucket in turn, and starts at the entry that the rotation says. -/
theorem sample_fair (t : RoutingTable) :
    (∀ (rotation : UInt64) (nOut : Nat), ∃ out, kbucketSample t.buckets rotation nOut = some out ∧
      out.length = min nOut t.buckets.flatten.length ∧ (out.map Peer.peerId).Nodup ∧ out ⊆ t.buckets.flatten ∧
      ∀ a ∈ t.buckets, ∀ b ∈ t.buckets, 1 ≤ out.countP (· ∈ b) →
        min a.length (out.countP (· ∈ b) - 1) ≤ out.countP (· ∈ a)) ∧
    ∀ b ∈ t.buckets, ∀ first : Nat, first + b.length ≤ 2 ^ 64 → ∀ e ∈ b, ∃! k, k < b.length ∧
      ∃ out, kbucketSample t.buckets (UInt64.ofNat (first + k)) (nonEmpty t.buckets) = some out ∧ e ∈ out := by
  constructor
  · intro rotation nOut
    refine ⟨_, kbucketSample_eq t, ?_, ?_, ?_, ?_⟩
    · rw [length_take, (dealt_perm_table t).length_eq]
    · apply List.Nodup.sublist ((take_sublist _ _).map _)
      exact ((dealt_perm_table t).map _).nodup_iff.mpr t.distinct
    · intro e he
      exact (dealt_perm_table t).subset (mem_of_mem_take he)
    · intro a ha b hb hpos
      have hturn (b : List Peer) (hb : b ∈ t.buckets) : b.rotate rotation.toNat ∈ turns t.buckets rotation :=
        mem_map_of_mem (mem_rotate.mpr hb)
      have h := @countP_take_le _ _ _ _ bucketCap nOut _ (turns_size t) (turns_nodup t)
        (hturn b hb) (hturn a ha)
      simp only [mem_rotate, length_rotate] at h
      exact h hpos
  · intro b hb first hfirst e he
    obtain ⟨j, hj, hej⟩ := mem_iff_getElem.mp he
    have hiff (k : Nat) (hk : k < b.length) :
        (∃ out, kbucketSample t.buckets (UInt64.ofNat (first + k)) (nonEmpty t.buckets) = some out ∧ e ∈ out) ↔
          (first + k) % b.length = j := by
      have hrotation : (UInt64.ofNat (first + k)).toNat = first + k := by
        rw [toNat_ofNat', Nat.mod_eq_of_lt]
        omega
      have hmod := Nat.mod_lt (first + k) (Nat.zero_lt_of_lt hj)
      simp only [kbucketSample_nonEmpty, Option.some.injEq, exists_eq_left']
      rw [mem_level_turns t _ hb he, hrotation, getElem?_eq_getElem hmod, Option.some.injEq, ← hej]
      exact List.Nodup.getElem_inj_iff ((nodup_flatten.mp (nodup t)).1 b hb)
    obtain ⟨k, ⟨hk, hkj⟩, hunique⟩ := @add_mod_unique b.length first j hj
    apply ExistsUnique.intro k ⟨hk, (hiff k hk).mpr hkj⟩
    rintro k' ⟨hk', hout⟩
    exact hunique k' ⟨hk', (hiff k' hk').mp hout⟩

def peerAt (n : Nat) : Peer := ⟨Crypto.digest n, []⟩

def smallTable : RoutingTable where
  buckets := [peerAt 1] :: [] :: [peerAt 2, peerAt 3] :: replicate 252 [] ++ [[peerAt 4, peerAt 5, peerAt 6]]
  count := by decide +kernel
  size := by decide +kernel
  distinct := by decide +kernel

theorem sample_fair_small :
    (∃ out, kbucketSample smallTable.buckets 7 4 = some out ∧ out.length = 4 ∧ (out.map Peer.peerId).Nodup) ∧
      ∃! k, k < 3 ∧ ∃ out, kbucketSample smallTable.buckets (UInt64.ofNat (7 + k)) 3 = some out ∧
        peerAt 5 ∈ out := by
  obtain ⟨hsample, hturn⟩ := sample_fair smallTable
  obtain ⟨out, hout, hlen, hnodup, -⟩ := hsample 7 4
  have hcount : nonEmpty smallTable.buckets = 3 := by decide +kernel
  have hunique := hturn [peerAt 4, peerAt 5, peerAt 6] (by decide +kernel) 7 (by decide) (peerAt 5)
    (by decide +kernel)
  rw [hcount] at hunique
  exact ⟨⟨out, hout, hlen.trans (by decide +kernel), hnodup⟩, hunique⟩

end AntsClient.Dht.Sample
