import AntsClient.Crdt.Operations

namespace AntsClient.Crdt.Converge

open Common Cbor.Head Crypto Crdt Proof Container Refine Operations List

/-- The view is the one of a set that has been offered `E`, in whatever order. -/
structure Represents (v : View) (E : Finset Elem) : Prop where
  stored : v.stored = E.filter fun e => v.floor ≤ e.epoch
  slashed : ∀ x, Slashed v x ↔ ∃ e ∈ E, e.subject = x

theorem represents_initial : Represents (view initial) ∅ := by
  refine ⟨rfl, fun x => ?_⟩
  simp [Slashed, view, stored, retiredSubjects, initial]

variable {v : View} {E : Finset Elem} {e : Elem} {s : GSet}

theorem Represents.offer (h : Represents v E) (hinj : Set.InjOn Elem.contentId (Insert.insert e E : Set Elem)) :
    Represents (offer v e) (Insert.insert e E) := by
  have hid : ∀ e' ∈ v.stored, e'.contentId = e.contentId → e' = e := by
    intro e' he' heq
    have hE : e' ∈ E := (Finset.mem_filter.mp (h.stored ▸ he')).1
    exact hinj (Set.mem_insert_of_mem _ hE) (Set.mem_insert _ _) heq
  constructor
  · ext e'
    rw [mem_offer hid, offer_floor, h.stored, Finset.mem_filter, Finset.mem_filter,
      Finset.mem_insert, or_and_right, or_comm]
    refine or_congr_left (and_congr_right ?_)
    rintro rfl
    rfl
  · intro x
    rw [slashed_offer hid, h.slashed, or_comm]
    simp only [Finset.mem_insert, exists_eq_or_imp]

theorem Represents.trim (h : Represents v E) (m : Nat) : Represents (trim v m) E := by
  refine ⟨?_, fun x => slashed_trim.trans (h.slashed x)⟩
  simp only [Operations.trim, h.stored, Finset.filter_filter, max_le_iff]

inductive Op
  | insert (proof : Bytes)
  | prune (minEpochKeep : Nat)
  deriving DecidableEq

def after {α : Type} (call : StoreM α) (s : GSet) : GSet := final (call ⟨s, []⟩)

theorem after_outcome {α : Type} {call : StoreM α} {P : α → GSet → Prop} {Q : GSet → Prop}
    (h : Outcome ⟨s, []⟩ P Q (call ⟨s, []⟩)) : ∃ a, P a (after call s) := by
  rw [after]
  cases hr : call ⟨s, []⟩ with
  | ok a t =>
    rw [hr] at h
    exact ⟨a, h.2⟩
  | error err t =>
    rw [hr] at h
    exact absurd h.2.2.1 not_mem_nil

variable (crypto : Primitives)

def step (s : GSet) : Op → GSet
  | .insert proof => after (insert crypto proof) s
  | .prune minEpochKeep => after (prune minEpochKeep) s

def run (ops : List Op) : GSet := ops.foldl (step crypto) initial

def Op.elem : Op → Option Elem
  | .insert proof => elemOf crypto proof
  | .prune _ => none

def offered (ops : List Op) : Finset Elem := (ops.filterMap (Op.elem crypto)).toFinset

def Op.keep : Op → Nat
  | .insert _ => 0
  | .prune minEpochKeep => minEpochKeep

def maxKeep (ops : List Op) : Nat := (ops.map Op.keep).foldr max 0

variable {crypto} {ops : List Op}

theorem mem_offered : e ∈ offered crypto ops ↔ .insert e.proof ∈ ops ∧ elemOf crypto e.proof = some e := by
  rw [offered, mem_toFinset, mem_filterMap]
  constructor
  · rintro ⟨op, hop, he⟩
    cases op with
    | prune m => cases he
    | insert p =>
      obtain ⟨-, v, -, rfl⟩ := elemOf_eq_some.mp he
      exact ⟨hop, he⟩
  · rintro ⟨hop, he⟩
    exact ⟨_, hop, he⟩

theorem offered_concat_insert {p : Bytes} (he : elemOf crypto p = some e) :
    offered crypto (ops ++ [.insert p]) = Insert.insert e (offered crypto ops) := by
  have hop : [Op.insert p].filterMap (Op.elem crypto) = [e] := filterMap_cons_some he
  rw [offered, filterMap_append, hop, toFinset_append, toFinset_cons, toFinset_nil, Finset.union_comm,
    Finset.insert_union, Finset.empty_union]
  rfl

theorem offered_concat_skip {ops : List Op} {op : Op} (hop : Op.elem crypto op = none) :
    offered crypto (ops ++ [op]) = offered crypto ops := by
  have hnil : [op].filterMap (Op.elem crypto) = [] := filterMap_cons_none hop
  rw [offered, filterMap_append, hnil, append_nil]
  rfl

theorem maxKeep_concat (ops : List Op) (op : Op) : maxKeep (ops ++ [op]) = max (maxKeep ops) op.keep := by
  induction ops with
  | nil => simp [maxKeep]
  | cons op' ops ih => exact (congrArg (max op'.keep) ih).trans (max_assoc _ _ _).symm

theorem after_insert {s : GSet} (hs : Inv s) (p : Bytes) :
    Inv (after (insert crypto p) s) ∧
    view (after (insert crypto p) s) = (elemOf crypto p).elim (view s) (offer (view s)) := by
  cases he : elemOf crypto p with
  | none =>
    obtain ⟨err, herr⟩ := insert_refused he ⟨s, []⟩
    rw [after, herr]
    exact ⟨hs, rfl⟩
  | some e =>
    rw [insert_accepted he]
    obtain ⟨_, hinv, hview, -⟩ := after_outcome (@crdtInsertElem_outcome ⟨s, []⟩ hs e)
    exact ⟨hinv, hview⟩

theorem after_prune (hs : Inv s) (m : Nat) :
    Inv (after (prune m) s) ∧ view (after (prune m) s) = trim (view s) m := by
  obtain ⟨_, h⟩ := after_outcome (@prune_outcome ⟨s, []⟩ hs m)
  exact h

theorem run_concat (ops : List Op) (op : Op) : run crypto (ops ++ [op]) = step crypto (run crypto ops) op := by
  rw [run, foldl_concat]
  rfl

theorem run_spec (hinj : Set.InjOn Elem.contentId (offered crypto ops : Set Elem)) :
    Inv (run crypto ops) ∧ Represents (view (run crypto ops)) (offered crypto ops) ∧
    (run crypto ops).floor = maxKeep ops := by
  induction ops using reverseRecOn with
  | nil => exact ⟨inv_initial, represents_initial, rfl⟩
  | append_singleton ops op ih =>
    rw [run_concat, maxKeep_concat]
    cases op with
    | prune m =>
      rw [offered_concat_skip rfl] at hinj ⊢
      obtain ⟨hinv, hrep, hfloor⟩ := ih hinj
      obtain ⟨hinv', hview⟩ := after_prune hinv m
      refine ⟨hinv', hview ▸ hrep.trim m, ?_⟩
      rw [← hfloor]
      exact congrArg View.floor hview
    | insert p =>
      rw [Op.keep, Nat.max_zero]
      cases he : elemOf crypto p with
      | none =>
        have hskip := @offered_concat_skip crypto ops (.insert p) he
        rw [hskip] at hinj ⊢
        obtain ⟨hinv, hrep, hfloor⟩ := ih hinj
        obtain ⟨hinv', hview⟩ := @after_insert crypto _ hinv p
        rw [he] at hview
        exact ⟨hinv', hview ▸ hrep, (congrArg View.floor hview).trans hfloor⟩
      | some e =>
        rw [offered_concat_insert he] at hinj ⊢
        rw [Finset.coe_insert] at hinj
        obtain ⟨hinv, hrep, hfloor⟩ := ih (hinj.mono (Set.subset_insert _ _))
        obtain ⟨hinv', hview⟩ := @after_insert crypto _ hinv p
        rw [he] at hview
        refine ⟨hinv', hview ▸ hrep.offer hinj, ?_⟩
        exact (congrArg View.floor hview).trans ((offer_floor _ _).trans hfloor)

theorem contentId_injOn (hinj : Set.InjOn crypto.blake3 {p | verify crypto p = .ok () ∧ .insert p ∈ ops}) :
    Set.InjOn Elem.contentId (offered crypto ops : Set Elem) := by
  intro e he e' he' hid
  obtain ⟨hop, hsome⟩ := mem_offered.mp he
  obtain ⟨hop', hsome'⟩ := mem_offered.mp he'
  exact elemOf_inj hsome hsome' hid fun hv hv' h => hinj ⟨hv, hop⟩ ⟨hv', hop'⟩ h

section Run

variable (hinj : Set.InjOn crypto.blake3 {p | verify crypto p = .ok () ∧ .insert p ∈ ops})
include hinj

theorem isSlashed_run {x : Bytes32} : isSlashed (run crypto ops) x = true ↔
      ∃ p v, .insert p ∈ ops ∧ verify crypto p = .ok () ∧ faultProofDecode p = .ok v ∧ v.subject = x := by
  obtain ⟨hinv, hrep, -⟩ := run_spec (contentId_injOn hinj)
  rw [isSlashed_iff hinv, hrep.slashed]
  constructor
  · rintro ⟨e, he, rfl⟩
    obtain ⟨hop, hsome⟩ := mem_offered.mp he
    obtain ⟨hv, v, hd, heq⟩ := elemOf_eq_some.mp hsome
    exact ⟨e.proof, v, hop, hv, hd, by rw [heq]⟩
  · rintro ⟨p, v, hop, hv, hd, rfl⟩
    exact ⟨⟨contentId crypto p, v.subject, v.epoch.toNat, p⟩,
      mem_offered.mpr ⟨hop, elemOf_eq_some.mpr ⟨hv, v, hd, rfl⟩⟩, rfl⟩

theorem contains_run {id : Bytes32} : contains (run crypto ops) id = true ↔
      ∃ p v, .insert p ∈ ops ∧ verify crypto p = .ok () ∧ faultProofDecode p = .ok v ∧
      maxKeep ops ≤ v.epoch.toNat ∧
        contentId crypto p = id := by
  obtain ⟨hinv, hrep, hfloor⟩ := run_spec (contentId_injOn hinj)
  have hst : stored (run crypto ops) = (offered crypto ops).filter fun e => maxKeep ops ≤ e.epoch :=
    hfloor ▸ hrep.stored
  rw [contains_iff hinv, hst]
  constructor
  · rintro ⟨e, he, rfl⟩
    obtain ⟨he, hep⟩ := Finset.mem_filter.mp he
    obtain ⟨hop, hsome⟩ := mem_offered.mp he
    obtain ⟨hv, v, hd, heq⟩ := elemOf_eq_some.mp hsome
    rw [heq] at hep
    exact ⟨e.proof, v, hop, hv, hd, hep, by rw [heq]⟩
  · rintro ⟨p, v, hop, hv, hd, hep, rfl⟩
    exact ⟨⟨contentId crypto p, v.subject, v.epoch.toNat, p⟩,
      Finset.mem_filter.mpr ⟨mem_offered.mpr ⟨hop, elemOf_eq_some.mpr ⟨hv, v, hd, rfl⟩⟩, hep⟩, rfl⟩

end Run

theorem offered_congr {ops' : List Op}
    (h : ∀ p, verify crypto p = .ok () → (.insert p ∈ ops ↔ .insert p ∈ ops')) :
    offered crypto ops = offered crypto ops' := by
  ext e
  rw [mem_offered, mem_offered]
  refine and_congr_left fun hsome => h _ ?_
  exact (elemOf_eq_some.mp hsome).1

/-- Sets offered the same accepted proofs and pruned up to the same epoch cannot be told apart,
whatever the order and repetitions. -/
theorem run_converges {ops ops' : List Op}
    (hoffered : ∀ p, verify crypto p = .ok () → (.insert p ∈ ops ↔ .insert p ∈ ops'))
    (hkeep : maxKeep ops = maxKeep ops')
    (hinj : Set.InjOn crypto.blake3 {p | verify crypto p = .ok () ∧ .insert p ∈ ops}) :
    (∀ id, contains (run crypto ops) id = contains (run crypto ops') id) ∧
      size (run crypto ops) = size (run crypto ops') ∧
      pruneFloor (run crypto ops) = pruneFloor (run crypto ops') ∧
      (∀ x, isSlashed (run crypto ops) x = isSlashed (run crypto ops') x) ∧
      pruneFloor (run crypto ops) = maxKeep ops ∧
      (∀ x, isSlashed (run crypto ops) x = true ↔
        ∃ p v, .insert p ∈ ops ∧ verify crypto p = .ok () ∧ faultProofDecode p = .ok v ∧ v.subject = x) ∧
      ∀ id, contains (run crypto ops) id = true ↔
        ∃ p v, .insert p ∈ ops ∧ verify crypto p = .ok () ∧ faultProofDecode p = .ok v ∧
          pruneFloor (run crypto ops) ≤ v.epoch.toNat ∧ contentId crypto p = id := by
  have hsame : offered crypto ops = offered crypto ops' := offered_congr hoffered
  obtain ⟨hinv, hrep, hfloor⟩ := run_spec (contentId_injOn hinj)
  obtain ⟨hinv', hrep', hfloor'⟩ := run_spec (hsame ▸ contentId_injOn hinj)
  have hfl : (run crypto ops).floor = (run crypto ops').floor := by rw [hfloor, hkeep, hfloor']
  have hst : stored (run crypto ops) = stored (run crypto ops') := by
    refine hrep.stored.trans (Eq.trans ?_ hrep'.stored.symm)
    rw [hsame]
    exact congrArg (fun f => (offered crypto ops').filter fun e => f ≤ e.epoch) hfl
  refine ⟨fun id => ?_, ?_, hfl, fun x => ?_, hfloor, fun x => isSlashed_run hinj, fun id => ?_⟩
  · rw [Bool.eq_iff_iff, contains_iff hinv, contains_iff hinv', hst]
  · rw [size_eq hinv, size_eq hinv', hst]
  · rw [Bool.eq_iff_iff, isSlashed_iff hinv, isSlashed_iff hinv', hrep.slashed, hrep'.slashed, hsame]
  · rw [contains_run hinj, pruneFloor, hfloor]

def samplePeer : Bytes32 := ⟨beBytes 32 0xd75a980182b10ab7d54bfed3c964073a0ee172f3daa62325af021a68f707511a, rfl⟩

def sampleBody (payload : UInt8) : Bytes := [0xa4, 0x00, 0x01, 0x01, 0x07, 0x02, 0x03, 0x03, 0x41, payload]

def sampleSig (payload : UInt8) : Bytes :=
  if payload = 0xaa then
    beBytes 32 0x1f9eb99eef68e612e1d834cd7a9c176c73623601ee77ec8e1a644f4b9a4bb21d ++
      beBytes 32 0x13a1ddf3f0202530642c0be811ce43f77da04cccb1a0f58e6f44da709fb8c10a
  else
    beBytes 32 0x54ed26f58fe5f5e392f9a11797ccee1496e36c13a45411a222e571ea514f0117 ++
      beBytes 32 0x4fd972327c27c9bb8c65c8b0f40d79e74b3825695d2cfe014b4cf68b4a5a6a0b

def sampleStmt (payload : UInt8) : Bytes :=
  [0x82, 0x4a] ++ sampleBody payload ++ [0x58, 0x40] ++ sampleSig payload

def sampleProof : Bytes :=
  [0xa4, 0x00, 0x58, 0x20] ++ samplePeer.val ++ [0x01, 0x00, 0x02, 0x07, 0x03, 0x82] ++
    sampleStmt 0xaa ++ sampleStmt 0xbb

def sampleCrypto : Primitives where
  blake3 b :=
    if b = sampleProof then ⟨beBytes 32
      0x78d1df1794d41bc8eb4cc89d02c48454e10965fb5c0245c17077a32e6c7f35a1, rfl⟩ else zero32
  blake3DeriveKey _ _ := zero32
  ed25519Verify peer msg sig :=
    peer = samplePeer ∧
      (msg = sampleBody 0xaa ∧ sig = sampleSig 0xaa ∨ msg = sampleBody 0xbb ∧ sig = sampleSig 0xbb)

theorem sampleProof_accepted : verify sampleCrypto sampleProof = .ok () ∧
      faultProofDecode sampleProof = .ok ⟨samplePeer, 0, 7, sampleProof.drop 41⟩ := by
  constructor <;> decide +kernel

theorem run_converges_late :
    (∀ x, isSlashed (run sampleCrypto [.insert sampleProof, .prune 8]) x =
      isSlashed (run sampleCrypto [.prune 8, .prune 3, .insert sampleProof, .insert sampleProof]) x) ∧
      isSlashed (run sampleCrypto [.insert sampleProof, .prune 8]) samplePeer = true := by
  have hinj : Set.InjOn sampleCrypto.blake3
      {p | verify sampleCrypto p = .ok () ∧ Op.insert p ∈ [.insert sampleProof, .prune 8]} := by
    rintro p ⟨-, hp⟩ q ⟨-, hq⟩ -
    obtain rfl : p = sampleProof := by simpa using hp
    obtain rfl : q = sampleProof := by simpa using hq
    rfl
  obtain ⟨-, -, -, hsame, -, hslashed, -⟩ := @run_converges sampleCrypto [.insert sampleProof, .prune 8]
    [.prune 8, .prune 3, .insert sampleProof, .insert sampleProof] (by simp) rfl hinj
  exact ⟨hsame, (hslashed _).mpr ⟨_, _, mem_cons_self, sampleProof_accepted.1, sampleProof_accepted.2, rfl⟩⟩

end AntsClient.Crdt.Converge
