import AntsClient.Lib.MerkleTree
import Mathlib.Data.Nat.Log

namespace AntsClient.Lib.MerklePath

open MerkleTree List

variable {X : Type}

section Loops

/-- The loops below walk from a leaf to the root; the number of leaves is always enough `fuel`. -/
def pathLen : Nat → Nat → Nat → Nat
  | 0, _, _ => 0
  | fuel + 1, idx, count =>
    if count > 1 then
      (if idx % 2 = 1 then 1 else if idx + 1 < count then 1 else 0) + pathLen fuel (idx / 2) ((count + 1) / 2)
    else 0

def foldPath (node : X → X → X) (sib : Nat → X) : Nat → Nat → Nat → Nat → X → X
  | 0, _, _, _, cur => cur
  | fuel + 1, idx, count, consumed, cur =>
    if count > 1 then
      if idx % 2 = 1 then
        foldPath node sib fuel (idx / 2) ((count + 1) / 2) (consumed + 1) (node (sib consumed) cur)
      else if idx + 1 < count then
        foldPath node sib fuel (idx / 2) ((count + 1) / 2) (consumed + 1) (node cur (sib consumed))
      else foldPath node sib fuel (idx / 2) ((count + 1) / 2) consumed cur
    else cur

def provePath (range : Nat → Nat → X) (n : Nat) : Nat → Nat → Nat → Nat → List X
  | 0, _, _, _ => []
  | fuel + 1, idx, count, level =>
    if count > 1 then
      let root sib := range (sib * 2 ^ level) (min ((sib + 1) * 2 ^ level) n)
      (if idx % 2 = 1 then [root (idx - 1)] else if idx + 1 < count then [root (idx + 1)] else []) ++
        provePath range n fuel (idx / 2) ((count + 1) / 2) (level + 1)
    else []

def siblings (sib : Nat → X) : Nat → Nat → Nat → Nat → List (Sibling X)
  | 0, _, _, _ => []
  | fuel + 1, idx, count, consumed =>
    if count > 1 then
      if idx % 2 = 1 then .left (sib consumed) :: siblings sib fuel (idx / 2) ((count + 1) / 2) (consumed + 1)
      else if idx + 1 < count then
        .right (sib consumed) :: siblings sib fuel (idx / 2) ((count + 1) / 2) (consumed + 1)
      else siblings sib fuel (idx / 2) ((count + 1) / 2) consumed
    else []

end Loops

theorem pathLen_le (fuel idx count : Nat) : pathLen fuel idx count ≤ fuel := by
  induction fuel generalizing idx count with
  | zero => exact le_rfl
  | succ fuel ih =>
    have := ih (idx / 2) ((count + 1) / 2)
    rw [pathLen]
    split
    · split
      · omega
      · split <;> omega
    · omega

theorem pathLen_le_clog (fuel idx count : Nat) : pathLen fuel idx count ≤ Nat.clog 2 count := by
  induction fuel generalizing idx count with
  | zero => exact Nat.zero_le _
  | succ fuel ih =>
    rw [pathLen]
    split
    · rename_i hcount
      have hup := ih (idx / 2) ((count + 1) / 2)
      rw [Nat.clog_of_two_le one_lt_two hcount]
      rw [show count + 2 - 1 = count + 1 from rfl]
      split
      · omega
      · split <;> omega
    · exact Nat.zero_le _

variable {xs : List X} {fuel i : Nat}

section Levels

variable (node : X → X → X)

/-- One level up: neighbours are joined, and a lone last node is taken over. -/
def pairUp : List X → List X
  | [] => []
  | [a] => [a]
  | a :: b :: xs => node a b :: pairUp xs

def level (k : Nat) (xs : List X) : List X := (pairUp node)^[k] xs

def auditPath : Nat → List X → Nat → List X
  | 0, _, _ => []
  | fuel + 1, xs, i =>
    if xs.length > 1 then
      (if i % 2 = 1 then xs[i - 1]?.toList else xs[i + 1]?.toList) ++ auditPath fuel (pairUp node xs) (i / 2)
    else []

variable {node}

theorem pairUp_length (xs : List X) : (pairUp node xs).length = (xs.length + 1) / 2 := by
  induction xs using pairUp.induct with
  | case1 => simp [pairUp]
  | case2 a => simp [pairUp]
  | case3 a b xs ih =>
    rw [pairUp, length_cons, ih, length_cons, length_cons]
    omega

theorem pairUp_getElem? (xs : List X) (i : Nat) : (pairUp node xs)[i]? = xs[2 * i]?.map fun a =>
    (xs[2 * i + 1]?.map (node a)).getD a := by
  induction xs using pairUp.induct generalizing i with
  | case1 => rfl
  | case2 a => cases i <;> rfl
  | case3 a b xs ih =>
    cases i with
    | zero => rfl
    | succ i =>
      rw [pairUp, getElem?_cons_succ, ih]
      rfl

theorem pairUp_drop (k : Nat) (xs : List X) : pairUp node (xs.drop (2 * k)) = (pairUp node xs).drop k := by
  induction k generalizing xs with
  | zero => rfl
  | succ k ih =>
    match xs with
    | [] => rfl
    | [a] => simp [Nat.mul_succ, pairUp]
    | a :: b :: xs => exact ih xs

theorem pairUp_take (k : Nat) (xs : List X) : pairUp node (xs.take (2 * k)) = (pairUp node xs).take k := by
  induction k generalizing xs with
  | zero => rfl
  | succ k ih =>
    match xs with
    | [] => rfl
    | [a] => simp [Nat.mul_succ, pairUp]
    | a :: b :: xs =>
      rw [Nat.mul_succ, take_succ_cons, take_succ_cons, pairUp, pairUp, ih, take_succ_cons]

def bagAll (node : X → X → X) : List (Nat × X) → Option X
  | [] => none
  | (_, top) :: stack => some (bag node top stack)

theorem build_eq_bagAll (xs : List X) : build node xs = bagAll node (peaks node xs) := by
  rw [build]
  cases peaks node xs <;> rfl

theorem bagAll_carry (h : Nat) (x : X) (stack : List (Nat × X)) :
    bagAll node (carry node h x stack) = some (bag node x stack) := by
  induction stack generalizing h x with
  | nil => rfl
  | cons p stack ih =>
    obtain ⟨h', y⟩ := p
    rw [carry]
    split
    · exact ih _ _
    · rfl

theorem exists_root (h : xs ≠ []) : ∃ root, build node xs = some root := by
  rcases xs.eq_nil_or_concat' with rfl | ⟨xs, x, rfl⟩
  · exact absurd rfl h
  · rw [build_eq_bagAll, peaks_concat, bagAll_carry]
    exact ⟨_, rfl⟩

def lift (stack : List (Nat × X)) : List (Nat × X) := stack.map fun p => (p.1 + 1, p.2)

theorem bag_lift (x : X) (stack : List (Nat × X)) : bag node x (lift stack) = bag node x stack := by
  induction stack generalizing x with
  | nil => rfl
  | cons p stack ih => exact ih _

theorem bagAll_lift (stack : List (Nat × X)) : bagAll node (lift stack) = bagAll node stack := by
  cases stack with
  | nil => rfl
  | cons p stack => exact congrArg some (bag_lift _ _)

theorem carry_zero_lift (x : X) (stack : List (Nat × X)) :
    carry node 0 x (lift stack) = (0, x) :: lift stack := by
  cases stack with
  | nil => rfl
  | cons p stack => exact if_neg (Nat.succ_ne_zero p.1).symm

theorem carry_succ_lift (h : Nat) (x : X) (stack : List (Nat × X)) :
    carry node (h + 1) x (lift stack) = lift (carry node h x stack) := by
  induction stack generalizing h x with
  | nil => rfl
  | cons p stack ih =>
    obtain ⟨h', y⟩ := p
    simp only [lift, map_cons, carry, Nat.add_right_cancel_iff] at ih ⊢
    split
    · exact ih _ _
    · rfl

/-- Two leaves pushed on a stack of higher subtrees are one node pushed one level up. -/
theorem carry_pair (a b : X) (stack : List (Nat × X)) :
    carry node 0 b (carry node 0 a (lift stack)) = lift (carry node 0 (node a b) stack) := by
  rw [carry_zero_lift, carry, if_pos rfl, carry_succ_lift]

theorem bagAll_foldl_pairUp (xs : List X) (stack : List (Nat × X)) :
    bagAll node (xs.foldl (fun stack x => carry node 0 x stack) (lift stack)) =
      bagAll node ((pairUp node xs).foldl (fun stack x => carry node 0 x stack) stack) := by
  induction xs using pairUp.induct generalizing stack with
  | case1 => exact bagAll_lift stack
  | case2 a => simp only [pairUp, foldl_cons, foldl_nil, bagAll_carry, bag_lift]
  | case3 a b xs ih =>
    rw [pairUp, foldl_cons, foldl_cons, foldl_cons, carry_pair]
    exact ih _

/-- The online build gives the same tree from any level of it. -/
theorem build_pairUp (xs : List X) : build node (pairUp node xs) = build node xs := by
  rw [build_eq_bagAll, build_eq_bagAll, peaks, peaks]
  exact (bagAll_foldl_pairUp xs []).symm

theorem level_succ (k : Nat) (xs : List X) : level node (k + 1) xs = pairUp node (level node k xs) :=
  Function.iterate_succ_apply' ..

/-- A node of a level is the root of the range of leaves under it. -/
theorem level_getElem? (k : Nat) (xs : List X) (s : Nat) :
    (level node k xs)[s]? = build node ((xs.drop (s * 2 ^ k)).take (2 ^ k)) := by
  induction k generalizing xs with
  | zero =>
    simp only [level, Function.iterate_zero, id, pow_zero, mul_one, take_one, head?_drop]
    cases xs[s]? <;> rfl
  | succ k ih =>
    have h := ih (pairUp node xs)
    have hs : s * 2 ^ (k + 1) = 2 * (s * 2 ^ k) := by ring
    rw [← pairUp_drop, ← pairUp_take, build_pairUp] at h
    rw [hs, pow_succ', ← h]
    rfl

theorem auditPath_length (hi : i < xs.length) :
    (auditPath node fuel xs i).length = pathLen fuel i xs.length := by
  induction fuel generalizing xs i with
  | zero => rfl
  | succ fuel ih =>
    rw [auditPath, pathLen]
    by_cases hlen : xs.length > 1
    · have hi' : i / 2 < (pairUp node xs).length := by
        rw [pairUp_length]
        omega
      rw [if_pos hlen, if_pos hlen, length_append, ih hi', pairUp_length]
      congr 1
      by_cases hodd : i % 2 = 1
      · rw [if_pos hodd, if_pos hodd, getElem?_eq_getElem (by omega)]
        rfl
      · rw [if_neg hodd, if_neg hodd]
        split
        · rw [getElem?_eq_getElem (by omega)]
          rfl
        · rw [getElem?_eq_none (by omega)]
          rfl
    · rw [if_neg hlen, if_neg hlen]
      rfl

theorem build_nil : build node [] = none := rfl

/-- The online build gives the one node that is left after enough levels. -/
theorem level_top {root : X} (h : build node xs = some root) :
    level node (Nat.clog 2 xs.length) xs = [root] := by
  have hle : xs.length ≤ 2 ^ Nat.clog 2 xs.length := Nat.le_pow_clog one_lt_two _
  apply ext_getElem?
  intro s
  rw [level_getElem?]
  cases s with
  | zero => rw [Nat.zero_mul, drop_zero, take_of_length_le hle, h, getElem?_cons_zero]
  | succ s =>
    have hs : xs.length ≤ (s + 1) * 2 ^ Nat.clog 2 xs.length := hle.trans (Nat.le_mul_of_pos_left _ s.succ_pos)
    rw [drop_eq_nil_of_le hs, take_nil, build_nil, getElem?_cons_succ, getElem?_nil]

/-- The fold over the audit path of a leaf gives the root of the tree. -/
theorem foldPath_auditPath {sib : Nat → X} {xs : List X} {fuel i consumed : Nat} {x root : X}
    (hfuel : xs.length ≤ fuel)
    (hx : xs[i]? = some x) (hroot : build node xs = some root)
    (hsib : ∀ k y, (auditPath node fuel xs i)[k]? = some y → sib (consumed + k) = y) :
    foldPath node sib fuel i xs.length consumed x = root := by
  induction fuel generalizing xs i consumed x with
  | zero =>
    rw [length_eq_zero_iff.mp (Nat.le_zero.mp hfuel)] at hx
    cases hx
  | succ fuel ih =>
    have hi : i < xs.length := (List.getElem?_eq_some_iff.mp hx).1
    rw [foldPath]
    by_cases hlen : xs.length > 1
    · have hfuel' : (pairUp node xs).length ≤ fuel := by
        rw [pairUp_length]
        omega
      have hroot' : build node (pairUp node xs) = some root := (build_pairUp xs).trans hroot
      rw [auditPath, if_pos hlen] at hsib
      rw [if_pos hlen, ← @pairUp_length _ node]
      by_cases hodd : i % 2 = 1
      · have hl : 2 * (i / 2) = i - 1 := by omega
        have hr : 2 * (i / 2) + 1 = i := by omega
        have hy : xs[i - 1]? = some xs[i - 1] := getElem?_eq_getElem _
        rw [if_pos hodd, hy] at hsib
        rw [if_pos hodd, show sib consumed = xs[i - 1] from hsib 0 _ rfl]
        refine ih hfuel' ?_ hroot' fun k y hk => ?_
        · rw [pairUp_getElem?, hr, hl, hx, hy]
          rfl
        · rw [Nat.add_assoc, Nat.add_comm 1]
          exact hsib (k + 1) y hk
      · have hl : 2 * (i / 2) = i := by omega
        rw [if_neg hodd] at hsib ⊢
        by_cases hnext : i + 1 < xs.length
        · have hy : xs[i + 1]? = some xs[i + 1] := getElem?_eq_getElem _
          rw [hy] at hsib
          rw [if_pos hnext, show sib consumed = xs[i + 1] from hsib 0 _ rfl]
          refine ih hfuel' ?_ hroot' fun k y hk => ?_
          · rw [pairUp_getElem?, hl, hx, hy]
            rfl
          · rw [Nat.add_assoc, Nat.add_comm 1]
            exact hsib (k + 1) y hk
        · have hy : xs[i + 1]? = none := getElem?_eq_none (Nat.not_lt.mp hnext)
          rw [hy] at hsib
          rw [if_neg hnext]
          refine ih hfuel' ?_ hroot' hsib
          rw [pairUp_getElem?, hl, hx, hy]
          rfl
    · obtain ⟨a, rfl⟩ := length_eq_one_iff.mp (show xs.length = 1 by omega)
      obtain rfl : i = 0 := by
        rw [length_singleton] at hi
        omega
      rw [if_neg hlen]
      exact Option.some.inj (hx.symm.trans hroot)

variable {range : Nat → Nat → X} {xs : List X}

section Prove

variable (hrange : ∀ lo hi, lo < hi → hi ≤ xs.length →
    build node ((xs.drop lo).take (hi - lo)) = some (range lo hi))

include hrange

/-- The range under a node of a level has that node as its root. -/
theorem range_level {k s : Nat} (hs : s < (level node k xs).length) :
    (level node k xs)[s]? = some (range (s * 2 ^ k) (min ((s + 1) * 2 ^ k) xs.length)) := by
  have hlevel : (level node k xs)[s]? = _ := level_getElem? k xs s
  have hpos : 0 < 2 ^ k := Nat.two_pow_pos k
  have hlo : s * 2 ^ k < xs.length := by
    by_contra hge
    rw [drop_eq_nil_of_le (Nat.not_lt.mp hge), take_nil, build_nil, getElem?_eq_getElem hs] at hlevel
    cases hlevel
  have hmul : (s + 1) * 2 ^ k = s * 2 ^ k + 2 ^ k := Nat.succ_mul s _
  rw [hlevel, ← hrange (s * 2 ^ k) _ (by omega) (Nat.min_le_right _ _)]
  congr 1
  rw [take_eq_take_iff, length_drop]
  omega

theorem provePath_eq {fuel idx k : Nat} (hidx : idx < (level node k xs).length) :
    provePath range xs.length fuel idx (level node k xs).length k =
      auditPath node fuel (level node k xs) idx := by
  induction fuel generalizing idx k with
  | zero => rfl
  | succ fuel ih =>
    rw [provePath, auditPath]
    by_cases hlen : (level node k xs).length > 1
    · have hidx' : idx / 2 < (level node (k + 1) xs).length := by
        rw [level_succ, pairUp_length]
        omega
      rw [if_pos hlen, if_pos hlen, ← level_succ, ← ih hidx', level_succ, pairUp_length]
      dsimp only
      congr 1
      by_cases hodd : idx % 2 = 1
      · rw [if_pos hodd, if_pos hodd, range_level hrange (show idx - 1 < _ by omega)]
        rfl
      · rw [if_neg hodd, if_neg hodd]
        split
        · rename_i hnext
          rw [range_level hrange hnext]
          rfl
        · rename_i hnext
          rw [getElem?_eq_none (Nat.not_lt.mp hnext)]
          rfl
    · rw [if_neg hlen, if_neg hlen]

end Prove

end Levels

section Binding

variable {α D : Type} {H : Input α D → D}

theorem foldPath_eq_climb (sib : Nat → D) (fuel idx count consumed : Nat) (cur : D) :
    foldPath (fun l r => H (.node l r)) sib fuel idx count consumed cur =
      climb H cur (siblings sib fuel idx count consumed) := by
  induction fuel generalizing idx count consumed cur with
  | zero => rfl
  | succ fuel ih =>
    rw [foldPath, siblings]
    split
    · split
      · exact ih ..
      · split
        · exact ih ..
        · exact ih ..
    · rfl

def sides : Nat → Nat → Nat → List Bool
  | 0, _, _ => []
  | fuel + 1, idx, count =>
    if count > 1 then
      (if idx % 2 = 1 then [true] else if idx + 1 < count then [false] else []) ++
        sides fuel (idx / 2) ((count + 1) / 2)
    else []

theorem siblings_sides (sib : Nat → D) (fuel idx count consumed : Nat) :
    (siblings sib fuel idx count consumed).map Sibling.isLeft = sides fuel idx count := by
  induction fuel generalizing idx count consumed with
  | zero => rfl
  | succ fuel ih =>
    rw [siblings, sides]
    split
    · split
      · rw [map_cons, ih]
        rfl
      · split
        · rw [map_cons, ih]
          rfl
        · exact ih ..
    · rfl

/-- The way to one index never ends with the way to another, whatever the number of
leaves that is claimed. -/
theorem sides_suffix {n j : Nat} (hfuel : n ≤ fuel) (hi : i < n) (hj : j < n)
    (h : sides fuel i n <:+ sides fuel j n) : i = j := by
  induction fuel generalizing n i j with
  | zero => omega
  | succ fuel ih =>
    by_cases hn : n > 1
    · rw [sides, sides, if_pos hn, if_pos hn] at h
      have hhalf : i / 2 = j / 2 := by
        have hfuel' : (n + 1) / 2 ≤ fuel := by omega
        have hi' : i / 2 < (n + 1) / 2 := by omega
        have hj' : j / 2 < (n + 1) / 2 := by omega
        rcases suffix_or_suffix_of_suffix ((suffix_append _ _).trans h) (suffix_append _ _) with hs | hs
        · exact ih hfuel' hi' hj' hs
        · exact (ih hfuel' hj' hi' hs).symm
      by_contra hne
      -- the two are neighbours, so their first siblings stand on different sides
      rcases Nat.mod_two_eq_zero_or_one i with hi0 | hi1
      · have hj1 : j % 2 = 1 := by omega
        rw [if_neg (by omega), if_pos (show i + 1 < n by omega), if_pos hj1, hhalf] at h
        cases h.eq_of_length rfl
      · have hj0 : ¬ j % 2 = 1 := by omega
        rw [if_pos hi1, if_neg hj0, if_pos (show j + 1 < n by omega), hhalf] at h
        cases h.eq_of_length rfl
    · omega

def plainHash : Input α (HashTree α) → HashTree α
  | .leaf a => .leaf a
  | .node l r => .node l r

theorem plainHash_inj : Function.Injective (plainHash : Input α (HashTree α) → HashTree α) := by
  intro i j h
  cases i with
  | leaf a =>
    cases j with
    | leaf b => rw [HashTree.leaf.inj h]
    | node l r => cases h
  | node l r =>
    cases j with
    | leaf b => cases h
    | node l' r' =>
      obtain ⟨rfl, rfl⟩ := HashTree.node.inj h
      rfl

theorem hash_plainHash (t : HashTree α) : t.hash plainHash = t := by
  induction t with
  | leaf a => rfl
  | node l r ihl ihr => rw [HashTree.hash, ihl, ihr, plainHash]

/-- In the tree over a list the claimed way to an index ends at that index. -/
theorem position_sides {as : List α} {t : HashTree α} (hnodup : as.Nodup)
    (ht : build .node (as.map HashTree.leaf) = some t) (hi : i < as.length) :
    t.position (sides as.length i as.length).reverse = some i := by
  let sib (k : Nat) : HashTree α := (auditPath .node as.length (as.map HashTree.leaf) i)[k]?.getD t
  have hlen : (as.map HashTree.leaf).length = as.length := length_map _
  have hleaf : (as.map HashTree.leaf)[i]? = some (HashTree.leaf as[i]) := by
    rw [getElem?_map, getElem?_eq_getElem hi]
    rfl
  have hfold := @foldPath_auditPath _ _ sib _ as.length i 0 _ t (le_of_eq hlen) hleaf ht fun k y hk => by
    rw [Nat.zero_add]
    exact congrArg (Option.getD · t) hk
  rw [hlen] at hfold
  have hclimb := (@foldPath_eq_climb α _ plainHash sib as.length i as.length 0 (.leaf as[i])).symm.trans hfold
  obtain ⟨k, hk, ha⟩ := position_of_climb plainHash_inj.injOn (hclimb.trans (hash_plainHash t).symm)
  rw [siblings_sides] at hk
  obtain ⟨t', ht', hleaves⟩ := exists_build (ne_nil_of_length_pos (Nat.zero_lt_of_lt hi))
  obtain rfl : t' = t := Option.some.inj (ht'.symm.trans ht)
  rw [hleaves] at ha
  obtain ⟨hk', heq⟩ := List.getElem?_eq_some_iff.mp ha
  rw [hk, (hnodup.getElem_inj_iff).mp heq]

end Binding

end AntsClient.Lib.MerklePath
