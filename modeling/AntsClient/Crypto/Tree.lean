import AntsClient.Crypto
import AntsClient.Lib.MerklePath

namespace AntsClient.Crypto.Tree

open Common Lib MerkleTree MerklePath List

def inputBytes : Input Bytes Bytes32 → Bytes
  | .leaf data => 0x00 :: data
  | .node l r => 0x01 :: (l.val ++ r.val)

def hashAt (path : Bytes) (k : Nat) : Bytes32 := (toBytes32 (slice path (k * 32) (k * 32 + 32))).getD zero32

variable (crypto : Primitives)

def leafHash (data : Bytes) : Bytes32 := crypto.blake3 (0x00 :: data)

def nodeHash (left right : Bytes32) : Bytes32 := crypto.blake3 (0x01 :: (left.val ++ right.val))

def emptyRoot : Bytes32 := crypto.blake3 [0x02]

def inputHash (i : Input Bytes Bytes32) : Bytes32 := crypto.blake3 (inputBytes i)

def treeInputs (data : List Bytes) : Set Bytes :=
  match build .node (data.map HashTree.leaf) with
  | none => {[0x02]}
  | some t => inputBytes '' t.inputs (inputHash crypto)

def treeInputList (data : List Bytes) : List Bytes :=
  match build .node (data.map HashTree.leaf) with
  | none => [[0x02]]
  | some t => (t.inputList (inputHash crypto)).map inputBytes

def pathInputs (data : Bytes) (path : List (Sibling Bytes32)) : Set Bytes :=
  inputBytes '' insert (.leaf data) (climbInputs (inputHash crypto) (leafHash crypto data) path)

def pathInputList (data : Bytes) (path : List (Sibling Bytes32)) : List Bytes :=
  (.leaf data :: climbInputList (inputHash crypto) (leafHash crypto data) path).map inputBytes

variable {crypto}

theorem inputBytes_inj : Function.Injective inputBytes := by
  intro i j h
  cases i with
  | leaf a =>
    cases j with
    | leaf b => rw [(List.cons.inj h).2]
    | node l r => cases (List.cons.inj h).1
  | node l r =>
    cases j with
    | leaf b => cases (List.cons.inj h).1
    | node l' r' =>
      obtain ⟨hl, hr⟩ := append_inj (List.cons.inj h).2 (l.length_val.trans l'.length_val.symm)
      rw [Bytes32.ext hl, Bytes32.ext hr]

theorem inputHash_injOn {s : Set (Input Bytes Bytes32)} (h : Set.InjOn crypto.blake3 (inputBytes '' s)) :
    Set.InjOn (inputHash crypto) s := by
  intro i hi j hj heq
  exact inputBytes_inj (h ⟨i, hi, rfl⟩ ⟨j, hj, rfl⟩ heq)

variable {data : List Bytes} {root x : Bytes32}

theorem exists_tree (h : build (nodeHash crypto) (data.map (leafHash crypto)) = some root) :
    ∃ t : HashTree Bytes, t.leaves = data ∧ t.hash (inputHash crypto) = root ∧
      treeInputs crypto data = inputBytes '' t.inputs (inputHash crypto) := by
  have hne : data ≠ [] := by
    rintro rfl
    cases h
  obtain ⟨t, ht, hleaves⟩ := exists_build hne
  have hmap := @build_map _ _ HashTree.node (nodeHash crypto) (HashTree.hash (inputHash crypto))
    (fun _ _ => rfl)
    (data.map HashTree.leaf)
  rw [map_map, ht] at hmap
  refine ⟨t, hleaves, Option.some.inj (hmap.symm.trans h), ?_⟩
  rw [treeInputs, ht]

theorem mem_treeInputList {b : Bytes} : b ∈ treeInputList crypto data ↔ b ∈ treeInputs crypto data := by
  rw [treeInputList, treeInputs]
  cases build HashTree.node (data.map HashTree.leaf) with
  | none => exact mem_singleton
  | some t => simp only [mem_map, Set.mem_image, HashTree.mem_inputList]

theorem mem_pathInputList {b data : Bytes} {path : List (Sibling Bytes32)} :
    b ∈ pathInputList crypto data path ↔ b ∈ pathInputs crypto data path := by
  simp only [pathInputList, pathInputs, mem_map, Set.mem_image, mem_cons,
    Set.mem_insert_iff, mem_climbInputList]

theorem injOn_of_nodup {inputs : List Bytes} {s : Set Bytes} (h : (inputs.map crypto.blake3).Nodup)
    (hsub : ∀ b ∈ s, b ∈ inputs) : Set.InjOn crypto.blake3 s :=
  fun _ hb _ hb' => inj_on_of_nodup_map h (hsub _ hb) (hsub _ hb')

theorem root_inj {data' : List Bytes} (h : build (nodeHash crypto) (data.map (leafHash crypto)) = some root)
    (h' : build (nodeHash crypto) (data'.map (leafHash crypto)) = some root)
    (hinj : Set.InjOn crypto.blake3 (treeInputs crypto data ∪ treeInputs crypto data')) : data = data' := by
  obtain ⟨t, rfl, ht, hinputs⟩ := exists_tree h
  obtain ⟨t', rfl, ht', hinputs'⟩ := exists_tree h'
  rw [hinputs, hinputs', ← Set.image_union] at hinj
  rw [HashTree.hash_inj (inputHash_injOn hinj) (ht.trans ht'.symm)]

theorem climb_ne_emptyRoot {data : Bytes} {path : List (Sibling Bytes32)}
    (hinj : Set.InjOn crypto.blake3 (insert [0x02] (pathInputs crypto data path))) :
    climb (inputHash crypto) (leafHash crypto data) path ≠ emptyRoot crypto := by
  intro h
  obtain ⟨i, hi, heq⟩ := @exists_input_climb _ _ (inputHash crypto) data path
  have hbytes : inputBytes i = [0x02] := hinj (.inr ⟨i, hi, rfl⟩) (Set.mem_insert _ _) (heq.trans h)
  cases i <;> cases (List.cons.inj hbytes).1

section Path

theorem flatMap_val_length (hs : List Bytes32) : (hs.flatMap Bytes32.val).length = hs.length * 32 := by
  induction hs with
  | nil => rfl
  | cons x hs ih =>
    rw [flatMap_cons, length_append, x.length_val, ih, length_cons]
    omega

theorem hashAt_flatMap {hs : List Bytes32} {k : Nat} (h : hs[k]? = some x) :
    hashAt (hs.flatMap Bytes32.val) k = x := by
  have hslice : slice (hs.flatMap Bytes32.val) (k * 32) (k * 32 + 32) = x.val := by
    induction hs generalizing k with
    | nil => cases h
    | cons y hs ih =>
      rw [flatMap_cons, slice, Nat.add_sub_cancel_left]
      cases k with
      | zero =>
        obtain rfl : y = x := Option.some.inj h
        rw [Nat.zero_mul, drop_zero, take_left' y.length_val]
      | succ k =>
        have hd : (k + 1) * 32 = y.val.length + k * 32 := by
          rw [y.length_val]
          omega
        have hrest := ih h
        rw [slice, Nat.add_sub_cancel_left] at hrest
        rw [hd, drop_length_add_append, hrest]
  rw [hashAt, hslice, toBytes32_eq_some.mpr rfl]
  rfl

theorem foldPath_provePath {node : Bytes32 → Bytes32 → Bytes32} {range : Nat → Nat → Bytes32}
    {xs : List Bytes32} {i : Nat}
    (hrange : ∀ lo hi, lo < hi → hi ≤ xs.length → build node ((xs.drop lo).take (hi - lo)) = some (range lo hi))
    (hx : xs[i]? = some x) (hroot : build node xs = some root) :
    ((provePath range xs.length xs.length i xs.length 0).flatMap Bytes32.val).length =
      pathLen xs.length i xs.length * 32 ∧
      foldPath node (hashAt ((provePath range xs.length xs.length i xs.length 0).flatMap
        Bytes32.val)) xs.length i xs.length 0 x =
        root := by
  have hi : i < xs.length := (List.getElem?_eq_some_iff.mp hx).1
  have hprove : provePath range xs.length xs.length i xs.length 0 = auditPath node xs.length xs i :=
    @provePath_eq _ node _ _ hrange xs.length i 0 hi
  refine ⟨?_, ?_⟩
  · rw [flatMap_val_length, hprove, auditPath_length hi]
  · refine foldPath_auditPath le_rfl hx hroot fun k y hk => ?_
    rw [Nat.zero_add]
    exact hashAt_flatMap (hprove ▸ hk)

end Path

end AntsClient.Crypto.Tree
