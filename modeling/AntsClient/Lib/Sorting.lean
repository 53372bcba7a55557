import Mathlib.Data.List.Sort
import Mathlib.Data.Set.Function

namespace AntsClient.Lib.Sorting

variable {α κ : Type} (key : α → κ) (le : κ → κ → Prop) [DecidableRel le] [Std.Total le]
  [IsTrans κ le] [Std.Antisymm le]
  {l l' : List α}

/-- Sorting by a key that tells the elements apart forgets the order they came in. -/
theorem insertionSort_congr (h : l.Perm l') (hinj : Set.InjOn key {a | a ∈ l}) :
    l.insertionSort (fun a b => le (key a) (key b)) = l'.insertionSort fun a b => le (key a) (key b) := by
  have : Std.Total fun a b : α => le (key a) (key b) := ⟨fun a b => Std.Total.total (key a) (key b)⟩
  have : IsTrans α fun a b => le (key a) (key b) := ⟨fun a b c => IsTrans.trans (key a) (key b) (key c)⟩
  have hperm := List.perm_insertionSort (fun a b => le (key a) (key b)) l
  have hperm' := List.perm_insertionSort (fun a b => le (key a) (key b)) l'
  refine List.Perm.eq_of_pairwise (fun a b ha hb hab hba => ?_) (List.pairwise_insertionSort _ _)
    (List.pairwise_insertionSort _ _)
    (hperm.trans (h.trans hperm'.symm))
  have ha : a ∈ l := hperm.mem_iff.mp ha
  have hb : b ∈ l := h.mem_iff.mpr (hperm'.mem_iff.mp hb)
  exact hinj ha hb (Std.Antisymm.antisymm (key a) (key b) hab hba)

/-- Insertion from the front of the list, as loops in place do it. -/
theorem foldl_orderedInsert (r : α → α → Prop) [DecidableRel r] (l : List α) :
    l.foldl (fun sorted x => sorted.orderedInsert r x) [] = l.reverse.insertionSort r := by
  rw [List.insertionSort, List.foldr_reverse]

end AntsClient.Lib.Sorting
