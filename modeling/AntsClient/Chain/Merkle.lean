import AntsClient.Crypto
import AntsClient.Lib.MerklePath

namespace AntsClient.Chain.Merkle

open Common Crypto Lib MerkleTree MerklePath List

def merkleMaxDepth : Nat := 32

variable (crypto : Primitives)

def leafHash (contentId : Bytes32) : Bytes32 := crypto.blake3 (0x00 :: contentId.val)

def nodeHash (left right : Bytes32) : Bytes32 := crypto.blake3 (0x01 :: (left.val ++ right.val))

def emptyRoot : Bytes32 := crypto.blake3 [0x02]

def subtreeRootRange (ids : List Bytes32) (lo hi : Nat) : Bytes32 :=
  (build (nodeHash crypto) (((ids.drop lo).take (hi - lo)).map (leafHash crypto))).getD zero32

def idsStrictlyAscending : List Bytes32 → Bool
  | a :: b :: ids => memcmp a.val b.val = .lt && idsStrictlyAscending (b :: ids)
  | _ => true

variable {ids : List Bytes32} {root : Bytes32}

/-- A check that compares neighbours leaves no id twice. -/
theorem nodup_of_ascending (check : List Bytes32 → Bool)
    (hcheck : ∀ a b ids, check (a :: b :: ids) = (memcmp a.val b.val = .lt && check (b :: ids)))
    (h : check ids = true) : ids.Nodup := by
  have htrans : IsTrans Bytes32 fun a b => a.val < b.val := ⟨fun _ _ _ => List.lt_trans⟩
  have hchain : ids.IsChain fun a b => a.val < b.val := by
    induction ids with
    | nil => exact .nil
    | cons a ids ih =>
      cases ids with
      | nil => exact .singleton a
      | cons b ids =>
        rw [hcheck, Bool.and_eq_true, decide_eq_true_eq,
          memcmp_lt_iff (a.length_val.trans b.length_val.symm)] at h
        exact .cons_cons h.1 (ih h.2)
  refine (isChain_iff_pairwise.mp hchain).imp ?_
  rintro a b hlt rfl
  exact List.lt_irrefl _ hlt

def confirmedRoot (contentIds : List Bytes32) : Except Error Bytes32 :=
  if contentIds.length = 0 then .ok (emptyRoot crypto)
  else if contentIds.length > 2 ^ merkleMaxDepth then .error .invalidArg
  else if !idsStrictlyAscending contentIds then .error .nonCanonical
  else .ok (subtreeRootRange crypto contentIds 0 contentIds.length)

def merklePathLen (index nLeaves : Nat) : Nat := pathLen nLeaves index nLeaves

def confirmedProve (contentIds : List Bytes32) (index pathCap : Nat) : Except Error Bytes :=
  let n := contentIds.length
  if n = 0 ∨ index ≥ n then .error .invalidArg
  else if n > 2 ^ merkleMaxDepth then .error .invalidArg
  else if !idsStrictlyAscending contentIds then .error .nonCanonical
  else if merklePathLen index n * 32 > pathCap then .error .bufferTooSmall
  else .ok ((provePath (subtreeRootRange crypto contentIds) n n index n 0).flatMap Bytes32.val)

def inputBytes : Input Bytes32 Bytes32 → Bytes
  | .leaf id => 0x00 :: id.val
  | .node l r => 0x01 :: (l.val ++ r.val)

def inputHash (i : Input Bytes32 Bytes32) : Bytes32 := crypto.blake3 (inputBytes i)

def rootInputs (ids : List Bytes32) : Set Bytes :=
  match build .node (ids.map HashTree.leaf) with
  | none => {[0x02]}
  | some t => inputBytes '' t.inputs (inputHash crypto)

variable {crypto}

theorem inputBytes_inj : Function.Injective inputBytes := by
  intro i j h
  cases i with
  | leaf a =>
    cases j with
    | leaf b => rw [Bytes32.ext (List.cons.inj h).2]
    | node l r => cases (List.cons.inj h).1
  | node l r =>
    cases j with
    | leaf b => cases (List.cons.inj h).1
    | node l' r' =>
      obtain ⟨hl, hr⟩ := append_inj (List.cons.inj h).2 (l.length_val.trans l'.length_val.symm)
      rw [Bytes32.ext hl, Bytes32.ext hr]

theorem inputBytes_ne_empty (i : Input Bytes32 Bytes32) : inputBytes i ≠ [0x02] := by
  cases i <;> exact fun h => by cases (List.cons.inj h).1

theorem subtreeRootRange_eq {t : HashTree Bytes32} (h : build .node (ids.map HashTree.leaf) = some t) :
    subtreeRootRange crypto ids 0 ids.length = t.hash (inputHash crypto) := by
  have hmap := @build_map _ _ HashTree.node (nodeHash crypto) (HashTree.hash (inputHash crypto))
    (fun _ _ => rfl)
    (ids.map HashTree.leaf)
  rw [map_map, h] at hmap
  rw [subtreeRootRange, Nat.sub_zero, drop_zero, take_length]
  exact congrArg (Option.getD · zero32) hmap

theorem confirmedRoot_spec (h : confirmedRoot crypto ids = .ok root) : ids = [] ∧ root = emptyRoot crypto ∨
      ∃ t : HashTree Bytes32, build .node (ids.map HashTree.leaf) = some t ∧ t.leaves = ids ∧
      root = t.hash (inputHash crypto) := by
  rw [confirmedRoot] at h
  split at h
  · rename_i hnil
    exact .inl ⟨length_eq_zero_iff.mp hnil, (Except.ok.inj h).symm⟩
  rename_i hne
  split at h
  · cases h
  split at h
  · cases h
  obtain ⟨t, ht, hleaves⟩ := exists_build (fun hnil : ids = [] => hne (length_eq_zero_iff.mpr hnil))
  exact .inr ⟨t, ht, hleaves, (Except.ok.inj h).symm.trans (subtreeRootRange_eq ht)⟩

/-- A path that climbs to the confirmed root starts at a confirmed id, unless two of the inputs
collide. -/
theorem mem_of_climb {id : Bytes32} {path : List (Sibling Bytes32)}
    (hroot : confirmedRoot crypto ids = .ok root)
    (hinj : Set.InjOn crypto.blake3 (rootInputs crypto ids ∪
      inputBytes '' insert (.leaf id) (climbInputs (inputHash crypto) (inputHash crypto (.leaf id)) path)))
    (h : climb (inputHash crypto) (inputHash crypto (.leaf id)) path = root) : id ∈ ids := by
  rcases confirmedRoot_spec hroot with ⟨rfl, rfl⟩ | ⟨t, ht, hleaves, rfl⟩
  · obtain ⟨i, hi, heq⟩ := @exists_input_climb _ _ (inputHash crypto) id path
    have hbytes := hinj (.inr ⟨i, hi, rfl⟩) (.inl rfl) (heq.trans h)
    exact absurd hbytes (inputBytes_ne_empty i)
  · rw [← hleaves]
    rw [rootInputs, ht, ← Set.image_union] at hinj
    refine mem_leaves_of_climb ?_ h
    intro i hi j hj heq
    exact inputBytes_inj (hinj ⟨i, hi, rfl⟩ ⟨j, hj, rfl⟩ heq)

end AntsClient.Chain.Merkle
