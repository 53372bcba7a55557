import Mathlib.Data.Set.Function
import Mathlib.Data.List.Induction
import Mathlib.Tactic

namespace AntsClient.Lib.MerkleTree

open List

/-- What a Merkle tree hashes: a leaf, or the digests of two subtrees. -/
inductive Input (α D : Type)
  | leaf (a : α)
  | node (l r : D)

inductive HashTree (α : Type)
  | leaf (a : α)
  | node (l r : HashTree α)

inductive Sibling (D : Type)
  | left (d : D)
  | right (d : D)

variable {α D : Type}

def HashTree.leaves : HashTree α → List α
  | .leaf a => [a]
  | .node l r => l.leaves ++ r.leaves

def HashTree.position : HashTree α → List Bool → Option Nat
  | .leaf _, [] => some 0
  | .node l _, false :: way => l.position way
  | .node l r, true :: way => (r.position way).map (l.leaves.length + ·)
  | _, _ => none

def Sibling.isLeft : Sibling D → Bool
  | .left _ => true
  | .right _ => false

def Sibling.input (s : Sibling D) (cur : D) : Input α D :=
  match s with
  | .left d => .node d cur
  | .right d => .node cur d

variable (H : Input α D → D)

def HashTree.hash : HashTree α → D
  | .leaf a => H (.leaf a)
  | .node l r => H (.node l.hash r.hash)

def HashTree.inputs : HashTree α → Set (Input α D)
  | .leaf a => {.leaf a}
  | .node l r => insert (.node (l.hash H) (r.hash H)) (l.inputs ∪ r.inputs)

def HashTree.inputList : HashTree α → List (Input α D)
  | .leaf a => [.leaf a]
  | .node l r => .node (l.hash H) (r.hash H) :: (l.inputList ++ r.inputList)

def climb (cur : D) : List (Sibling D) → D
  | [] => cur
  | s :: path => climb (H (s.input cur)) path

def climbInputs (cur : D) : List (Sibling D) → Set (Input α D)
  | [] => ∅
  | s :: path => insert (s.input cur) (climbInputs (H (s.input cur)) path)

def climbInputList (cur : D) : List (Sibling D) → List (Input α D)
  | [] => []
  | s :: path => s.input cur :: climbInputList (H (s.input cur)) path

variable {H} {t : HashTree α} {way : List Bool} {k : Nat} {a : α} {path : List (Sibling D)}

theorem HashTree.mem_inputList {i : Input α D} : i ∈ t.inputList H ↔ i ∈ t.inputs H := by
  induction t with
  | leaf a => exact mem_singleton
  | node l r ihl ihr =>
    rw [inputList, inputs, mem_cons, mem_append, ihl, ihr, Set.mem_insert_iff, Set.mem_union]

theorem mem_climbInputList {i : Input α D} {cur : D} :
    i ∈ climbInputList H cur path ↔ i ∈ climbInputs H cur path := by
  induction path generalizing cur with
  | nil => exact iff_of_false not_mem_nil id
  | cons s path ih => rw [climbInputList, climbInputs, mem_cons, ih, Set.mem_insert_iff]

theorem HashTree.position_lt (h : t.position way = some k) : k < t.leaves.length := by
  induction t, way using HashTree.position.induct generalizing k with
  | case1 a =>
    cases h
    exact Nat.one_pos
  | case2 l r way ih =>
    rw [HashTree.leaves, length_append]
    exact Nat.lt_add_right _ (ih h)
  | case3 l r way ih =>
    obtain ⟨k', hk', rfl⟩ := Option.map_eq_some_iff.mp h
    rw [HashTree.leaves, length_append]
    exact Nat.add_lt_add_left (ih hk') _
  | case4 t way h1 h2 h3 => simp [HashTree.position] at h

/-- Different ways end at different positions. -/
theorem HashTree.position_inj {way' : List Bool} (h : t.position way = some k)
    (h' : t.position way' = some k) : way = way' := by
  induction t generalizing way way' k with
  | leaf a =>
    cases way with
    | cons b way => cases h
    | nil =>
      cases way' with
      | cons b way' => cases h'
      | nil => rfl
  | node l r ihl ihr =>
    cases way with
    | nil => cases h
    | cons b way =>
      cases way' with
      | nil => cases h'
      | cons b' way' =>
        cases b <;> cases b' <;> simp only [HashTree.position, Option.map_eq_some_iff] at h h'
        · rw [ihl h h']
        · obtain ⟨k', -, rfl⟩ := h'
          have := HashTree.position_lt h
          omega
        · obtain ⟨k', -, rfl⟩ := h
          have := HashTree.position_lt h'
          omega
        · obtain ⟨i, hi, rfl⟩ := h
          obtain ⟨j, hj, hij⟩ := h'
          obtain rfl : j = i := Nat.add_left_cancel hij
          rw [ihr hi hj]

theorem climb_concat (cur : D) (path : List (Sibling D)) (s : Sibling D) :
    climb H cur (path ++ [s]) = H (s.input (climb H cur path)) := by
  induction path generalizing cur with
  | nil => rfl
  | cons s' path ih => exact ih _

theorem climbInputs_concat (cur : D) (path : List (Sibling D)) (s : Sibling D) :
    climbInputs H cur (path ++ [s]) = insert (s.input (climb H cur path)) (climbInputs H cur path) := by
  induction path generalizing cur with
  | nil => rfl
  | cons s' path ih =>
    rw [cons_append, climbInputs, ih, Set.insert_comm]
    rfl

theorem exists_input_climb (a : α) (path : List (Sibling D)) :
    ∃ i ∈ insert (.leaf a) (climbInputs H (H (.leaf a)) path), H i = climb H (H (.leaf a)) path := by
  rcases path.eq_nil_or_concat' with rfl | ⟨path, s, rfl⟩
  · exact ⟨_, Set.mem_insert _ _, rfl⟩
  · rw [climbInputs_concat, climb_concat]
    exact ⟨_, .inr (Set.mem_insert _ _), rfl⟩

/-- A path that climbs from `a` to the root of a tree is the way to a leaf `a`, unless two of the
inputs collide. -/
theorem position_of_climb
    (hinj : Set.InjOn H (t.inputs H ∪ insert (.leaf a) (climbInputs H (H (.leaf a)) path)))
    (h : climb H (H (.leaf a)) path = t.hash H) :
    ∃ k, t.position (path.map Sibling.isLeft).reverse = some k ∧ t.leaves[k]? = some a := by
  induction t generalizing path with
  | leaf b =>
    rcases path.eq_nil_or_concat' with rfl | ⟨path, s, rfl⟩
    · have heq := hinj (.inr (Set.mem_insert _ _)) (.inl rfl) h
      cases heq
      exact ⟨0, rfl, rfl⟩
    · rw [climbInputs_concat] at hinj
      rw [climb_concat] at h
      have heq := hinj (.inr (.inr (Set.mem_insert _ _))) (.inl rfl) h
      cases s <;> cases heq
  | node l r ihl ihr =>
    have hroot : Input.node (l.hash H) (r.hash H) ∈ (HashTree.node l r).inputs H := Set.mem_insert _ _
    rcases path.eq_nil_or_concat' with rfl | ⟨path, s, rfl⟩
    · have heq := hinj (.inr (Set.mem_insert _ _)) (.inl hroot) h
      cases heq
    · rw [climbInputs_concat] at hinj
      rw [climb_concat] at h
      have heq := hinj (.inr (.inr (Set.mem_insert _ _))) (.inl hroot) h
      have hpath : insert (.leaf a) (climbInputs H (H (.leaf a)) path) ⊆
          insert (.leaf a) (insert (s.input (climb H (H (.leaf a)) path)) (climbInputs H (H (.leaf a)) path)) :=
        Set.insert_subset_insert (Set.subset_insert _ _)
      have hl : l.inputs H ⊆ (HashTree.node l r).inputs H :=
        Set.subset_union_left.trans (Set.subset_insert _ _)
      have hr : r.inputs H ⊆ (HashTree.node l r).inputs H :=
        Set.subset_union_right.trans (Set.subset_insert _ _)
      rw [map_append, map_singleton, reverse_concat]
      cases s with
      | left d =>
        have hcur : climb H (H (.leaf a)) path = r.hash H := (Input.node.inj heq).2
        obtain ⟨k, hk, ha⟩ := ihr (hinj.mono (Set.union_subset_union hr hpath)) hcur
        refine ⟨l.leaves.length + k, congrArg (Option.map _) hk, ?_⟩
        rw [HashTree.leaves, getElem?_append_right (Nat.le_add_right _ _), Nat.add_sub_cancel_left]
        exact ha
      | right d =>
        have hcur : climb H (H (.leaf a)) path = l.hash H := (Input.node.inj heq).1
        obtain ⟨k, hk, ha⟩ := ihl (hinj.mono (Set.union_subset_union hl hpath)) hcur
        refine ⟨k, hk, ?_⟩
        rw [HashTree.leaves, getElem?_append_left (HashTree.position_lt hk)]
        exact ha

theorem mem_leaves_of_climb
    (hinj : Set.InjOn H (t.inputs H ∪ insert (.leaf a) (climbInputs H (H (.leaf a)) path)))
    (h : climb H (H (.leaf a)) path = t.hash H) : a ∈ t.leaves := by
  obtain ⟨k, -, ha⟩ := position_of_climb hinj h
  exact mem_of_getElem? ha

/-- Trees with the same root are the same, unless two of their inputs collide. -/
theorem HashTree.hash_inj {t' : HashTree α} (hinj : Set.InjOn H (t.inputs H ∪ t'.inputs H))
    (h : t.hash H = t'.hash H) : t = t' := by
  induction t generalizing t' with
  | leaf a =>
    cases t' with
    | leaf b =>
      cases hinj (.inl rfl) (.inr rfl) h
      rfl
    | node l' r' => cases hinj (.inl rfl) (.inr (Set.mem_insert _ _)) h
  | node l r ihl ihr =>
    cases t' with
    | leaf b => cases hinj (.inl (Set.mem_insert _ _)) (.inr rfl) h
    | node l' r' =>
      have hroot := hinj (.inl (Set.mem_insert _ _)) (.inr (Set.mem_insert _ _)) h
      obtain ⟨hl, hr⟩ := Input.node.inj hroot
      have hleft : l.inputs H ∪ l'.inputs H ⊆ (HashTree.node l r).inputs H ∪ (HashTree.node l' r').inputs H :=
        Set.union_subset_union (Set.subset_union_left.trans (Set.subset_insert _ _))
          (Set.subset_union_left.trans (Set.subset_insert _ _))
      have hright : r.inputs H ∪ r'.inputs H ⊆ (HashTree.node l r).inputs H ∪ (HashTree.node l' r').inputs H :=
        Set.union_subset_union (Set.subset_union_right.trans (Set.subset_insert _ _))
          (Set.subset_union_right.trans (Set.subset_insert _ _))
      rw [ihl (hinj.mono hleft) hl, ihr (hinj.mono hright) hr]

section Build

variable {X Y : Type} (node : X → X → X)

/-- Push a subtree of height `h`: as long as the top of the stack has the same
height, the two become one. -/
def carry (h : Nat) (x : X) : List (Nat × X) → List (Nat × X)
  | [] => [(h, x)]
  | (h', y) :: stack => if h = h' then carry (h + 1) (node y x) stack else (h, x) :: (h', y) :: stack

def bag (acc : X) : List (Nat × X) → X
  | [] => acc
  | (_, y) :: stack => bag (node y acc) stack

def peaks (xs : List X) : List (Nat × X) := xs.foldl (fun stack x => carry node 0 x stack) []

/-- The online build of a tree over a list: complete subtrees on a stack, joined
right to left at the end. -/
def build (xs : List X) : Option X :=
  match peaks node xs with
  | [] => none
  | (_, top) :: stack => some (bag node top stack)

variable {node} {node' : Y → Y → Y} {f : X → Y}

theorem carry_map (hf : ∀ x y, f (node x y) = node' (f x) (f y)) (h : Nat) (x : X) (stack : List (Nat × X)) :
    carry node' h (f x) (stack.map (Prod.map id f)) = (carry node h x stack).map (Prod.map id f) := by
  induction stack generalizing h x with
  | nil => rfl
  | cons p stack ih =>
    obtain ⟨h', y⟩ := p
    simp only [map_cons, Prod.map_apply, id, carry, ← hf, ih]
    split <;> rfl

theorem bag_map (hf : ∀ x y, f (node x y) = node' (f x) (f y)) (acc : X) (stack : List (Nat × X)) :
    bag node' (f acc) (stack.map (Prod.map id f)) = f (bag node acc stack) := by
  induction stack generalizing acc with
  | nil => rfl
  | cons p stack ih => simp only [map_cons, bag, Prod.map_snd, ← hf, ih]

theorem peaks_concat (xs : List X) (x : X) : peaks node (xs ++ [x]) = carry node 0 x (peaks node xs) := by
  rw [peaks, foldl_concat]
  rfl

theorem peaks_map (hf : ∀ x y, f (node x y) = node' (f x) (f y)) (xs : List X) :
    peaks node' (xs.map f) = (peaks node xs).map (Prod.map id f) := by
  induction xs using reverseRecOn with
  | nil => rfl
  | append_singleton xs x ih =>
    rw [map_append, map_singleton, peaks_concat, peaks_concat, ih, carry_map hf]

theorem build_map (hf : ∀ x y, f (node x y) = node' (f x) (f y)) (xs : List X) :
    build node' (xs.map f) = (build node xs).map f := by
  rw [build, build, peaks_map hf]
  cases peaks node xs with
  | nil => rfl
  | cons p stack => exact congrArg some (bag_map hf _ _)

end Build

section Stack

variable {X : Type} {node : X → X → X}

def Stacked (stack : List (Nat × X)) : Prop := (stack.map Prod.fst).Pairwise (· < ·)

def stackSize (stack : List (Nat × X)) : Nat := (stack.map fun p => 2 ^ p.1).sum

theorem carry_stacked {h : Nat} {x : X} {stack : List (Nat × X)} (hs : Stacked stack)
    (hle : ∀ p ∈ stack, h ≤ p.1) :
    Stacked (carry node h x stack) := by
  induction stack generalizing h x with
  | nil => exact pairwise_singleton _ _
  | cons p stack ih =>
    obtain ⟨h', y⟩ := p
    obtain ⟨htop, hrest⟩ := pairwise_cons.mp hs
    have hbelow : ∀ p ∈ stack, h' < p.1 := fun p hp => htop _ (mem_map_of_mem hp)
    rw [carry]
    split
    · rename_i heq
      exact ih hrest fun p hp => heq ▸ hbelow p hp
    · rename_i hne
      have hlt : h < h' := lt_of_le_of_ne (hle _ mem_cons_self) hne
      refine pairwise_cons.mpr ⟨?_, hs⟩
      rintro k hk
      rcases mem_cons.mp hk with rfl | hk
      · exact hlt
      · exact hlt.trans (htop k hk)

theorem carry_size (h : Nat) (x : X) (stack : List (Nat × X)) :
    stackSize (carry node h x stack) = 2 ^ h + stackSize stack := by
  induction stack generalizing h x with
  | nil => rfl
  | cons p stack ih =>
    obtain ⟨h', y⟩ := p
    rw [carry]
    split
    · rename_i heq
      subst heq
      rw [ih]
      simp only [stackSize, map_cons, sum_cons, pow_succ]
      omega
    · rfl

theorem peaks_stacked (xs : List X) : Stacked (peaks node xs) ∧ stackSize (peaks node xs) = xs.length := by
  induction xs using reverseRecOn with
  | nil => exact ⟨List.Pairwise.nil, rfl⟩
  | append_singleton xs x ih =>
    rw [peaks_concat, carry_size, ih.2, length_append, length_singleton, Nat.add_comm]
    exact ⟨carry_stacked ih.1 fun p _ => Nat.zero_le _, rfl⟩

theorem Stacked.size_le {h : Nat} {stack : List (Nat × X)} (hs : Stacked stack) (hle : ∀ p ∈ stack, h ≤ p.1) :
    2 ^ (h + stack.length) ≤ stackSize stack + 2 ^ h := by
  induction stack generalizing h with
  | nil => simp
  | cons p stack ih =>
    obtain ⟨htop, hrest⟩ := pairwise_cons.mp hs
    have hp : h ≤ p.1 := hle p mem_cons_self
    have hbelow : 2 ^ (h + 1 + stack.length) ≤ stackSize stack + 2 ^ (h + 1) :=
      ih hrest fun q hq => hp.trans_lt (htop _ (mem_map_of_mem hq))
    have hpow : 2 ^ h ≤ 2 ^ p.1 := Nat.pow_le_pow_right (by omega) hp
    rw [length_cons, show h + (stack.length + 1) = h + 1 + stack.length by omega]
    rw [pow_succ 2 h] at hbelow
    simp only [stackSize, map_cons, sum_cons] at hbelow ⊢
    omega

/-- The online build keeps logarithmically many subtrees. -/
theorem two_pow_peaks_le (xs : List X) : 2 ^ (peaks node xs).length ≤ xs.length + 1 := by
  obtain ⟨hs, hsize⟩ := @peaks_stacked _ node xs
  have h := @Stacked.size_le _ 0 _ hs fun p _ => Nat.zero_le _
  rwa [Nat.zero_add, pow_zero, hsize] at h

end Stack

def stackLeaves (stack : List (Nat × HashTree α)) : List α := stack.reverse.flatMap fun p => p.2.leaves

theorem stackLeaves_cons (h : Nat) (t : HashTree α) (stack : List (Nat × HashTree α)) :
    stackLeaves ((h, t) :: stack) = stackLeaves stack ++ t.leaves := by
  simp [stackLeaves]

theorem carry_leaves (h : Nat) (t : HashTree α) (stack : List (Nat × HashTree α)) :
    stackLeaves (carry .node h t stack) = stackLeaves stack ++ t.leaves := by
  induction stack generalizing h t with
  | nil => exact stackLeaves_cons h t []
  | cons p stack ih =>
    obtain ⟨h', y⟩ := p
    rw [carry]
    split
    · rw [ih, stackLeaves_cons, HashTree.leaves, append_assoc]
    · exact stackLeaves_cons h t _

theorem bag_leaves (acc : HashTree α) (stack : List (Nat × HashTree α)) :
    (bag .node acc stack).leaves = stackLeaves stack ++ acc.leaves := by
  induction stack generalizing acc with
  | nil => rfl
  | cons p stack ih => rw [bag, ih, HashTree.leaves, stackLeaves_cons, append_assoc]

theorem peaks_leaves (as : List α) : stackLeaves (peaks .node (as.map HashTree.leaf)) = as := by
  induction as using reverseRecOn with
  | nil => rfl
  | append_singleton as a ih => rw [map_append, map_singleton, peaks_concat, carry_leaves, ih, HashTree.leaves]

/-- The online build gives a tree with the list as its leaves, in order. -/
theorem exists_build {as : List α} (h : as ≠ []) :
    ∃ t, build .node (as.map HashTree.leaf) = some t ∧ t.leaves = as := by
  have hleaves := peaks_leaves as
  rw [build]
  cases hp : peaks .node (as.map HashTree.leaf) with
  | nil =>
    rw [hp] at hleaves
    exact absurd hleaves.symm h
  | cons p stack =>
    refine ⟨_, rfl, ?_⟩
    rw [bag_leaves, ← stackLeaves_cons p.1, ← hp, hleaves]

end AntsClient.Lib.MerkleTree
