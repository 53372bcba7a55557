import AntsClient.Chain.Committee
import AntsClient.Crypto.Tree

namespace AntsClient.Inference.Openings

open Common Crypto Lib MerkleTree MerklePath Chain.Committee List

def merkleMaxDepth : Nat := 32

def leafData : Nat → List Bytes → List Bytes
  | _, [] => []
  | j, d :: ds => (d ++ writeLe64 (UInt64.ofNat j)) :: leafData (j + 1) ds

variable (crypto : Primitives)

def leafHash (dist : Bytes) (position : UInt64) : Except Error Bytes32 :=
  if dist.length = 0 then .error .invalidArg else .ok (crypto.blake3 (0x00 :: (dist ++ writeLe64 position)))

def subtreeRootRange (leaves : List Bytes32) (lo hi : Nat) : Bytes32 :=
  (build (Tree.nodeHash crypto) ((leaves.drop lo).take (hi - lo))).getD zero32

def merkleRoot (leaves : List Bytes32) : Except Error Bytes32 :=
  if leaves.length = 0 then .error .invalidArg
  else if leaves.length > 2 ^ merkleMaxDepth then .error .invalidArg
  else .ok (subtreeRootRange crypto leaves 0 leaves.length)

def leafHashes : Nat → List Bytes → Except Error (List Bytes32)
  | _, [] => .ok []
  | j, d :: ds => (leafHash crypto d (UInt64.ofNat j)).bind fun leaf =>
    (leafHashes (j + 1) ds).bind fun leaves => .ok (leaf :: leaves)

def distsRoot (dists : List Bytes) : Except Error Bytes32 :=
  (leafHashes crypto 0 dists).bind (merkleRoot crypto)

def rootInputs (dists : List Bytes) : Set Bytes := Tree.treeInputs crypto (leafData 0 dists)

variable {crypto}

theorem leafData_length (j : Nat) (ds : List Bytes) : (leafData j ds).length = ds.length := by
  induction ds generalizing j with
  | nil => rfl
  | cons d ds ih => exact congrArg (· + 1) (ih (j + 1))

theorem leafData_concat (j : Nat) (ds : List Bytes) (d : Bytes) :
    leafData j (ds ++ [d]) = leafData j ds ++ [d ++ writeLe64 (UInt64.ofNat (j + ds.length))] := by
  induction ds generalizing j with
  | nil => rfl
  | cons d' ds ih =>
    rw [cons_append, leafData, ih, leafData, length_cons, Nat.add_right_comm, Nat.add_assoc]
    rfl

variable {j : Nat} {ds : List Bytes} {leaves : List Bytes32} {root : Bytes32}

theorem leafData_inj {ds' : List Bytes} (h : leafData j ds = leafData j ds') : ds = ds' := by
  induction ds generalizing j ds' with
  | nil =>
    cases ds' with
    | nil => rfl
    | cons d' ds' => cases h
  | cons d ds ih =>
    cases ds' with
    | nil => cases h
    | cons d' ds' =>
      obtain ⟨hd, hds⟩ := List.cons.inj h
      rw [append_cancel_right hd, ih hds]

theorem leafHashes_eq (h : ∀ d ∈ ds, d ≠ []) :
    leafHashes crypto j ds = .ok ((leafData j ds).map (Tree.leafHash crypto)) := by
  induction ds generalizing j with
  | nil => rfl
  | cons d ds ih =>
    obtain ⟨hd, hds⟩ := forall_mem_cons.mp h
    rw [leafHashes, leafHash, if_neg (length_eq_zero_iff.not.mpr hd), ih hds]
    rfl

theorem merkleRoot_eq_ok (h : merkleRoot crypto leaves = .ok root) :
    build (Tree.nodeHash crypto) leaves = some root := by
  rw [merkleRoot] at h
  split at h
  · cases h
  rename_i hne
  split at h
  · cases h
  obtain ⟨r, hr⟩ : ∃ r, build (Tree.nodeHash crypto) leaves = some r :=
    exists_root (length_eq_zero_iff.not.mp hne)
  obtain rfl := Except.ok.inj h
  rw [subtreeRootRange, Nat.sub_zero, drop_zero, take_length, hr]
  rfl

theorem exists_merkleRoot (hne : leaves ≠ []) (hlen : leaves.length ≤ 2 ^ merkleMaxDepth) :
    ∃ root, merkleRoot crypto leaves = .ok root := by
  rw [merkleRoot, if_neg (length_eq_zero_iff.not.mpr hne), if_neg (Nat.not_lt.mpr hlen)]
  exact ⟨_, rfl⟩

theorem distsRoot_eq (h : ∀ d ∈ ds, d ≠ []) :
    distsRoot crypto ds = merkleRoot crypto ((leafData 0 ds).map (Tree.leafHash crypto)) := by
  rw [distsRoot, leafHashes_eq h]
  rfl

theorem distsRoot_inj {ds' : List Bytes} (hds : ∀ d ∈ ds, d ≠ []) (hds' : ∀ d ∈ ds', d ≠ [])
    (h : distsRoot crypto ds = .ok root) (h' : distsRoot crypto ds' = .ok root)
    (hinj : Set.InjOn crypto.blake3 (rootInputs crypto ds ∪ rootInputs crypto ds')) : ds = ds' := by
  rw [distsRoot_eq hds] at h
  rw [distsRoot_eq hds'] at h'
  exact leafData_inj (Tree.root_inj (merkleRoot_eq_ok h) (merkleRoot_eq_ok h') hinj)

end AntsClient.Inference.Openings
