import AntsClient.Crdt.Refine

namespace AntsClient.Crdt.Operations

open Common Crypto Lib.LinearProbe Crdt Proof Container Refine List

variable {v : View} {x : Bytes32} {e : Elem} {m : Nat} {s : GSet} {p : Bytes}

def offer (v : View) (e : Elem) : View :=
  if e.epoch < v.floor then { v with retired := Insert.insert e.subject v.retired }
  else if ∃ e' ∈ v.stored, e'.contentId = e.contentId then v
  else { v with stored := Insert.insert e v.stored }

def trim (v : View) (minEpochKeep : Nat) : View where
  stored := v.stored.filter fun e => minEpochKeep ≤ e.epoch
  retired := v.retired ∪ (v.stored.filter fun e => e.epoch < minEpochKeep).image Elem.subject
  floor := max v.floor minEpochKeep

theorem slashed_offer_of (h : Slashed v x) (e : Elem) : Slashed (offer v e) x := by
  rw [offer]
  split
  · exact h.imp_right (Finset.mem_insert_of_mem ·)
  · split
    · exact h
    · refine h.imp_left ?_
      rintro ⟨e', he', hx⟩
      exact ⟨e', Finset.mem_insert_of_mem he', hx⟩

theorem slashed_of_offer (h : Slashed (offer v e) x) : Slashed v x ∨ e.subject = x := by
  rw [offer] at h
  split at h
  · rcases h with hst | hret
    · exact .inl (.inl hst)
    · rcases Finset.mem_insert.mp hret with rfl | hret
      · exact .inr rfl
      · exact .inl (.inr hret)
  · split at h
    · exact .inl h
    · rcases h with ⟨e', he', hx⟩ | hret
      · rcases Finset.mem_insert.mp he' with rfl | he'
        · exact .inr hx
        · exact .inl (.inl ⟨e', he', hx⟩)
      · exact .inl (.inr hret)

theorem stored_subset_offer (v : View) (e : Elem) : v.stored ⊆ (offer v e).stored := by
  rw [offer]
  split_ifs
  · exact subset_rfl
  · exact subset_rfl
  · exact Finset.subset_insert _ _

theorem offer_floor (v : View) (e : Elem) : (offer v e).floor = v.floor := by
  rw [offer]
  split
  · rfl
  · split <;> rfl

section Fresh

variable (hid : ∀ e' ∈ v.stored, e'.contentId = e.contentId → e' = e)
include hid

theorem mem_offer {e' : Elem} : e' ∈ (offer v e).stored ↔ e' ∈ v.stored ∨ e' = e ∧ v.floor ≤ e.epoch := by
  rw [offer]
  by_cases hlow : e.epoch < v.floor
  · rw [if_pos hlow]
    simp [Nat.not_le.mpr hlow]
  · rw [if_neg hlow]
    split
    · rename_i hdup
      obtain ⟨e₀, he₀, heq⟩ := hdup
      obtain rfl := hid e₀ he₀ heq
      constructor
      · exact .inl
      · rintro (h | ⟨rfl, -⟩)
        · exact h
        · exact he₀
    · simp [Nat.not_lt.mp hlow, or_comm]

theorem slashed_offer : Slashed (offer v e) x ↔ Slashed v x ∨ e.subject = x := by
  constructor
  · exact slashed_of_offer
  · rintro (h | rfl)
    · exact slashed_offer_of h e
    · by_cases hlow : e.epoch < v.floor
      · rw [offer, if_pos hlow]
        exact .inr (Finset.mem_insert_self _ _)
      · exact .inl ⟨e, (mem_offer hid).mpr (.inr ⟨rfl, Nat.not_lt.mp hlow⟩), rfl⟩

end Fresh

theorem slashed_trim : Slashed (trim v m) x ↔ Slashed v x := by
  simp only [Slashed, trim, Finset.mem_filter, Finset.mem_union, Finset.mem_image]
  constructor
  · rintro (⟨e, he, hx⟩ | hret | ⟨e, he, hx⟩)
    · exact .inl ⟨e, he.1, hx⟩
    · exact .inr hret
    · exact .inl ⟨e, he.1, hx⟩
  · rintro (⟨e, he, hx⟩ | hret)
    · rcases Nat.lt_or_ge e.epoch m with hlt | hge
      · exact .inr (.inr ⟨e, ⟨he, hlt⟩, hx⟩)
      · exact .inl ⟨e, ⟨he, hge⟩, hx⟩
    · exact .inr (.inl hret)

theorem retiredAdd_view (hs : Inv s) (hroom : (s.nRetired + 1) * 2 ≤ s.retired.length) (x : Bytes32) :
    view (retiredAdd s x) = { view s with retired := Insert.insert x (retiredSubjects s) } := by
  obtain ⟨tab, n, z, heq, -, hsub, -⟩ := retiredAdd_spec hs hroom x
  rw [view, hsub, heq]
  rfl

theorem crdtInsertElem_below {s : Store} (hs : Inv s.set) (he : e.epoch < s.set.floor) :
    Outcome s (fun fresh t => Inv t ∧ view t = offer (view s.set) e ∧ (fresh = true ↔ view t ≠ view s.set))
      (fun t => Inv t ∧ view t = view s.set) (crdtInsertElem e s) := by
  have hoffer : offer (view s.set) e =
      { view s.set with retired := Insert.insert e.subject (retiredSubjects s.set) } :=
    if_pos he
  rw [hoffer]
  refine getSet_outcome.bind ?_
  rintro _ s' _ ⟨rfl, ht⟩
  simp only [he, if_true]
  by_cases hr : retiredHas s.set e.subject
  · simp only [hr, if_true]
    refine pure_outcome ?_
    rw [ht, Finset.insert_eq_self.mpr ((retiredHas_iff hs).mp hr)]
    exact ⟨hs, rfl, by simp⟩
  · simp only [hr]
    have hreserve := @retiredReserve_outcome s' (ht ▸ hs) 1
    rw [ht] at hreserve
    refine (hreserve.mono (fun _ _ h => h) fun t h => by rw [h]; exact ⟨hs, rfl⟩).bind fun _ s'' _ hinv => ?_
    obtain ⟨hinv, hview, hroom, -⟩ := hinv
    refine (updateSet_outcome (P := fun _ t => t = retiredAdd s''.set e.subject) rfl).bind fun _ s₃ _ hadd => ?_
    refine pure_outcome ?_
    have hret : retiredSubjects s''.set = retiredSubjects s.set := congrArg View.retired hview
    obtain ⟨-, -, -, -, hinv', -⟩ := retiredAdd_spec hinv hroom e.subject
    rw [hadd, retiredAdd_view hinv hroom, hview, hret]
    refine ⟨hinv', rfl, ?_⟩
    simp only [true_iff]
    intro heq
    have hmem : e.subject ∈ retiredSubjects s.set := Finset.insert_eq_self.mp (congrArg View.retired heq)
    exact hr ((retiredHas_iff hs).mpr hmem)

theorem place_elem (hs : Inv s) (hroom : (s.count + 1) * 10 < s.slots.length * 7)
    (he : s.floor ≤ e.epoch) (hnew : ¬(crdtProbe s.slots e.contentId).2 = true) :
    Inv { s with slots := s.slots.set (crdtProbe s.slots e.contentId).1 (some e), count := s.count + 1 } ∧
      stored { s with slots := s.slots.set (crdtProbe s.slots e.contentId).1 (some e), count := s.count + 1 } =
        Insert.insert e (stored s) := by
  obtain ⟨k, hk⟩ := hs.pow2
  rw [crdtProbe_eq hk] at hnew ⊢
  obtain ⟨hp, hocc⟩ := put_new hs.placed hs.room (show elemKey (some e) = some e.contentId from rfl)
    fun y hy hkey => hnew ((probe_found hs.placed hs.room).mpr ⟨y, hy, hkey⟩)
  have hlen := @put_length _ _ elemKey idHash _ s.slots e.contentId (some e)
  have hcount : s.count + 1 = (occupied elemKey (put elemKey idHash s.slots e.contentId (some e))).length := by
    rw [hocc.length_eq, length_cons, hs.count]
  have hst : stored { s with slots := put elemKey idHash s.slots e.contentId (some e), count := s.count + 1 } =
      Insert.insert e (stored s) := by
    rw [occupied_elem, occupied_elem, ← map_cons, map_perm_map_iff (Option.some_injective _)] at hocc
    exact (toFinset_eq_of_perm _ _ hocc).trans toFinset_cons
  refine ⟨⟨⟨k, hlen.trans hk⟩, hlen.symm ▸ hs.cap, hp, hcount, hlen.symm ▸ hroom, hs.retiredPow2,
    hs.retiredPlaced,
    hs.nRetired, hs.retiredLoad, ?_⟩, hst⟩
  intro e' he'
  rcases Finset.mem_insert.mp (hst ▸ he') with rfl | hold
  · exact he
  · exact hs.floor e' hold

theorem offer_above (he : ¬e.epoch < v.floor) :
    offer v e = if ∃ e' ∈ v.stored, e'.contentId = e.contentId then v
      else { v with stored := Insert.insert e v.stored } :=
  if_neg he

theorem crdtInsertElem_above {s : Store} (hs : Inv s.set) (he : ¬e.epoch < s.set.floor) :
    Outcome s (fun fresh t => Inv t ∧ view t = offer (view s.set) e ∧ (fresh = true ↔ view t ≠ view s.set))
      (fun t => Inv t ∧ view t = view s.set) (crdtInsertElem e s) := by
  -- from the probe on, once the table has room for one more
  have hplace : ∀ s' : Store, Inv s'.set → view s'.set = view s.set →
    (s'.set.count + 1) * 10 < s'.set.slots.length * 7 →
      Outcome s' (fun fresh t => Inv t ∧ view t = offer (view s.set) e ∧ (fresh = true ↔ view t ≠ view s.set))
        (fun t => Inv t ∧ view t = view s.set) ((do
          let set ← getSet
          if (crdtProbe set.slots e.contentId).2 then return false
          alloc
          updateSet fun set => { set with
            slots := set.slots.set (crdtProbe set.slots e.contentId).1 (some e)
            count := set.count + 1 }
          return true : StoreM Bool) s') := by
    intro s' hs' hview hroom
    rw [offer_above he, ← hview]
    refine getSet_outcome.bind ?_
    rintro _ s'' _ ⟨rfl, ht⟩
    have hfound : (crdtProbe s'.set.slots e.contentId).2 = true ↔
        ∃ e' ∈ (view s'.set).stored, e'.contentId = e.contentId := contains_iff hs'
    by_cases hf : (crdtProbe s'.set.slots e.contentId).2 = true
    · simp only [hf, if_true]
      refine pure_outcome ?_
      rw [ht, if_pos (hfound.mp hf)]
      exact ⟨hs', rfl, by simp⟩
    · simp only [hf]
      refine ((alloc_outcome s'').mono (fun _ _ h => h) fun t h => by rw [h, ht]; exact ⟨hs', rfl⟩).bind
        fun _ s₃ _ halloc => ?_
      refine (updateSet_outcome (P := fun _ t => t = _) rfl).bind fun _ s₄ _ hput => ?_
      refine pure_outcome ?_
      have hfloor : s'.set.floor = s.set.floor := congrArg View.floor hview
      obtain ⟨hinv, hst⟩ := place_elem hs' hroom (hfloor ▸ Nat.not_lt.mp he) hf
      have hnew : ¬∃ e' ∈ (view s'.set).stored, e'.contentId = e.contentId := fun h => hf (hfound.mpr h)
      rw [hput, halloc, ht, if_neg hnew, view, hst]
      refine ⟨hinv, rfl, ?_⟩
      simp only [true_iff]
      intro heq
      have hmem : e ∈ stored s'.set := Finset.insert_eq_self.mp (congrArg View.stored heq)
      exact hnew ⟨e, hmem, rfl⟩
  refine getSet_outcome.bind ?_
  rintro _ s' _ ⟨rfl, ht⟩
  simp only [he, if_false]
  by_cases hload : (s.set.count + 1) * 10 ≥ s.set.slots.length * 7
  · simp only [hload, if_true]
    have hgrow := @crdtGrow_outcome s' (ht ▸ hs)
    rw [ht] at hgrow
    refine (hgrow.mono (fun _ _ h => h) fun t h => by rw [h]; exact ⟨hs, rfl⟩).bind fun _ s'' _ h => ?_
    exact hplace s'' h.1 h.2.1 h.2.2
  · simp only [hload, if_false]
    exact hplace s' (ht ▸ hs) (ht ▸ rfl) (ht ▸ Nat.not_le.mp hload)

/-- Inserting a checked element refines `offer`; when memory runs out the view is as
it was. -/
theorem crdtInsertElem_outcome {s : Store} (hs : Inv s.set) (e : Elem) :
    Outcome s (fun fresh t => Inv t ∧ view t = offer (view s.set) e ∧ (fresh = true ↔ view t ≠ view s.set))
      (fun t => Inv t ∧ view t = view s.set) (crdtInsertElem e s) := by
  by_cases he : e.epoch < s.set.floor
  · exact crdtInsertElem_below hs he
  · exact crdtInsertElem_above hs he

def dropped (minEpochKeep : Nat) (slots : List (Option Elem)) : List Elem :=
  (slots.filterMap id).filter fun e => e.epoch < minEpochKeep

theorem pruneSlot_foldl {k : Nat} {slots ns : List (Option Elem)} (hk : ns.length = 2 ^ k)
    (s : GSet) : slots.foldl (pruneSlot m) (ns, s) =
      (putAll elemKey idHash ns (slots.filter (survives m)),
        ((dropped m slots).map Elem.subject).foldl retiredAdd s) := by
  induction slots generalizing ns s with
  | nil => rfl
  | cons slot slots ih =>
    rw [foldl_cons]
    rcases slot with _ | e
    · exact ih hk s
    · by_cases he : m ≤ e.epoch
      · have hdrop : dropped m (some e :: slots) = dropped m slots := by simp [dropped, he]
        have hkeep : (some e :: slots).filter (survives m) = some e ::
          slots.filter (survives m) := by simp [survives, he]
        rw [hdrop, hkeep, pruneSlot, if_pos he, crdtProbe_eq hk, ih (length_set.trans hk)]
        rfl
      · have hdrop : dropped m (some e :: slots) = e :: dropped m slots := by simp [dropped, Nat.not_le.mp he]
        have hkeep : (some e :: slots).filter (survives m) = slots.filter (survives m) := by simp [survives, he]
        rw [hdrop, hkeep, pruneSlot, if_neg he, ih hk]
        rfl

theorem retiredAdd_foldl {xs : List Bytes32} {s : GSet} (hs : Inv s)
    (hroom : (s.nRetired + xs.length) * 2 ≤ s.retired.length) :
    ∃ tab n z, xs.foldl retiredAdd s = { s with retired := tab, nRetired := n, retiredZero := z } ∧
      Inv (xs.foldl retiredAdd s) ∧
      retiredSubjects (xs.foldl retiredAdd s) = retiredSubjects s ∪ xs.toFinset := by
  induction xs generalizing s with
  | nil => exact ⟨_, _, _, rfl, hs, by simp⟩
  | cons x xs ih =>
    rw [length_cons] at hroom
    obtain ⟨tab, n, z, heq, hinv, hsub, hn, hlen⟩ := retiredAdd_spec hs (by omega) x
    have hroom' : ((retiredAdd s x).nRetired + xs.length) * 2 ≤ (retiredAdd s x).retired.length := by
      rw [heq]
      change (n + xs.length) * 2 ≤ tab.length
      omega
    obtain ⟨tab', n', z', heq', hinv', hsub'⟩ := ih hinv hroom'
    refine ⟨tab', n', z', ?_, hinv', ?_⟩
    · rw [foldl_cons, heq', heq]
    · rw [foldl_cons, hsub', hsub, toFinset_cons, Finset.insert_union, Finset.union_insert]

theorem crdtCapFor_spec (n : Nat) : ∃ k, crdtCapFor n = 2 ^ k ∧ initialCap ≤ 2 ^ k ∧ n * 10 < 2 ^ k * 7 := by
  have hend : (fun cap => decide (n * 10 ≥ cap * 7)) (initialCap * 2 ^ n) = false := by
    have hn : n < 2 ^ n := Nat.lt_two_pow_self
    refine decide_eq_false ?_
    rw [initialCap]
    omega
  obtain ⟨k, hk, hs⟩ := @doubleWhile_spec (fun cap => decide (n * 10 ≥ cap * 7)) n initialCap hend
  have hpow : initialCap * 2 ^ k = 2 ^ (4 + k) := by rw [Nat.pow_add, initialCap]
  rw [hpow] at hk hs
  refine ⟨4 + k, hk, ?_, by simpa using hs⟩
  rw [← hpow]
  exact Nat.le_mul_of_pos_right _ (Nat.two_pow_pos k)

theorem filterMap_survives (m : Nat) (slots : List (Option Elem)) :
    (slots.filter (survives m)).filterMap id = (slots.filterMap id).filter fun e => m ≤ e.epoch := by
  induction slots with
  | nil => rfl
  | cons slot slots ih =>
    rcases slot with _ | e
    · simpa [survives] using ih
    · by_cases he : m ≤ e.epoch <;> simpa [survives, he] using ih

theorem countP_survives (m : Nat) (slots : List (Option Elem)) :
    slots.countP (survives m) = (occupied elemKey (slots.filter (survives m))).length := by
  rw [countP_eq_length_filter, occupied, filter_filter]
  congr 2
  funext slot
  cases slot <;> simp [survives, elemKey]

theorem dropped_length (hs : Inv s) : s.count - s.slots.countP (survives m) = (dropped m s.slots).length := by
  rw [hs.count, countP_survives, occupied_elem, occupied_elem, length_map, length_map,
    filterMap_survives, dropped]
  have hsplit := length_eq_length_filter_add (l := s.slots.filterMap id) fun e => decide (m ≤ e.epoch)
  simp only [← decide_not, Nat.not_le] at hsplit
  omega

theorem rebuild_spec (hs : Inv s) (hroom : (s.nRetired + (dropped m s.slots).length) * 2 ≤ s.retired.length) :
    Inv (rebuild m (s.slots.countP (survives m)) s) ∧
    view (rebuild m (s.slots.countP (survives m)) s) = trim (view s) m := by
  obtain ⟨k, hk, hcap, hload⟩ := crdtCapFor_spec (s.slots.countP (survives m))
  obtain ⟨tab, n, z, heq, hinv, hsub⟩ := @retiredAdd_foldl ((dropped m s.slots).map Elem.subject) s hs
    (by rwa [length_map])
  have hnd : ((s.slots.filter (survives m)).filterMap elemKey).Nodup :=
    (keys_nodup hs.placed).sublist (filter_sublist.filterMap _)
  obtain ⟨hp, hocc⟩ := @rehash_spec _ _ _ idHash _ (2 ^ k) none (s.slots.filter (survives m)) rfl hnd
    (by rw [← countP_survives]; omega)
  have hlen := @putAll_length _ _ elemKey idHash _ (replicate (2 ^ k) none) (s.slots.filter (survives m))
  rw [length_replicate] at hlen
  have hreb : rebuild m (s.slots.countP (survives m)) s =
      { ((dropped m s.slots).map Elem.subject).foldl retiredAdd s with
        slots := putAll elemKey idHash (replicate (2 ^ k) none) (s.slots.filter (survives m))
        count := s.slots.countP (survives m)
        floor := max s.floor m } := by
    rw [rebuild, hk, pruneSlot_foldl length_replicate]
    simp only [heq]
  have hst : stored (rebuild m (s.slots.countP (survives m)) s) = (stored s).filter fun e => m ≤ e.epoch := by
    rw [occupied_elem, occupied_elem, map_perm_map_iff (Option.some_injective _), filterMap_survives] at hocc
    rw [hreb]
    refine (toFinset_eq_of_perm _ _ hocc).trans ?_
    rw [stored, toFinset_filter]
    simp only [decide_eq_true_eq]
  constructor
  · have hfloor : ∀ e ∈ stored (rebuild m (s.slots.countP (survives m)) s), max s.floor m ≤ e.epoch := by
      intro e he
      rw [hst, Finset.mem_filter] at he
      exact max_le (hs.floor e he.1) he.2
    rw [hreb] at hfloor ⊢
    exact ⟨⟨k, hlen⟩, hlen.symm ▸ hcap, hp, (countP_survives m s.slots).trans hocc.length_eq.symm,
      hlen.symm ▸ hload,
      hinv.retiredPow2, hinv.retiredPlaced, hinv.nRetired, hinv.retiredLoad, hfloor⟩
  · have hret : retiredSubjects (rebuild m (s.slots.countP (survives m)) s) =
        retiredSubjects s ∪ ((stored s).filter fun e => e.epoch < m).image Elem.subject := by
      have hdrop : ((dropped m s.slots).map Elem.subject).toFinset =
          ((stored s).filter fun e => e.epoch < m).image Elem.subject := by
        ext x
        simp [dropped, stored]
      rw [← hdrop, ← hsub, hreb]
      rfl
    rw [view, hst, hret, hreb]
    rfl

theorem prune_outcome {s : Store} (hs : Inv s.set) (m : Nat) :
    Outcome s (fun _ t => Inv t ∧ view t = trim (view s.set) m) (fun t => t = s.set) (prune m s) := by
  refine getSet_outcome.bind ?_
  rintro _ s₁ _ ⟨rfl, ht₁⟩
  refine ((alloc_outcome s₁).mono (fun _ _ h => h) fun _ h => h.trans ht₁).bind fun _ s₂ _ ht₂ => ?_
  have hset : s₂.set = s.set := ht₂.trans ht₁
  have hreserve := @retiredReserve_outcome s₂ (hset ▸ hs) (s.set.count - s.set.slots.countP (survives m))
  rw [hset] at hreserve
  refine hreserve.bind fun _ s₃ _ h => ?_
  obtain ⟨hinv, hview, hroom, tab, htab⟩ := h
  have hslots : s₃.set.slots = s.set.slots := by rw [htab]
  rw [dropped_length hs, ← hslots] at hroom
  obtain ⟨hinv', hview'⟩ := rebuild_spec hinv hroom
  rw [hview, hslots] at hview'
  rw [hslots] at hinv'
  exact (updateSet_outcome (P := fun _ t => Inv t ∧ view t = trim (view s.set) m) ⟨hinv', hview'⟩).bind
    fun _ _ _ h => pure_outcome h

def offerAll (v : View) (es : List Elem) : View := es.foldl offer v

theorem offerAll_floor (v : View) (es : List Elem) : (offerAll v es).floor = v.floor := by
  induction es generalizing v with
  | nil => rfl
  | cons e es ih => exact (ih _).trans (offer_floor v e)

theorem offerAll_spec {es : List Elem} (hinj : Set.InjOn Elem.contentId {e | e ∈ v.stored ∨ e ∈ es}) :
    (∀ e, e ∈ (offerAll v es).stored ↔ e ∈ v.stored ∨ e ∈ es ∧ v.floor ≤ e.epoch) ∧
      ∀ x, Slashed (offerAll v es) x ↔ Slashed v x ∨ ∃ e ∈ es, e.subject = x := by
  induction es generalizing v with
  | nil => simp [offerAll]
  | cons e es ih =>
    have hid : ∀ e' ∈ v.stored, e'.contentId = e.contentId → e' = e := fun e' he' heq =>
      hinj (.inl he') (.inr mem_cons_self) heq
    have hsub : {e' | e' ∈ (offer v e).stored ∨ e' ∈ es} ⊆ {e' | e' ∈ v.stored ∨ e' ∈ e :: es} := by
      rintro e' (he' | he')
      · rcases (mem_offer hid).mp he' with he' | ⟨rfl, -⟩
        · exact .inl he'
        · exact .inr mem_cons_self
      · exact .inr (mem_cons_of_mem _ he')
    obtain ⟨hst, hsl⟩ := ih (hinj.mono hsub)
    constructor
    · intro e'
      rw [offerAll, foldl_cons]
      refine (hst e').trans ?_
      rw [mem_offer hid, offer_floor, mem_cons, or_assoc, or_and_right]
      refine or_congr_right (or_congr_left (and_congr_right ?_))
      rintro rfl
      rfl
    · intro x
      rw [offerAll, foldl_cons]
      refine (hsl x).trans ?_
      rw [slashed_offer hid, or_assoc]
      simp only [mem_cons, exists_eq_or_imp]

theorem mergeElems_outcome {slots : List (Option Elem)} {s : Store} (hs : Inv s.set) :
    Outcome s (fun _ t => Inv t ∧ view t = offerAll (view s.set) (slots.filterMap id))
      (fun t => Inv t ∧ ∃ es, es <+: slots.filterMap id ∧ view t = offerAll (view s.set) es)
        (mergeElems slots s) := by
  induction slots generalizing s with
  | nil => exact pure_outcome ⟨hs, rfl⟩
  | cons slot slots ih =>
    cases slot with
    | none => exact ih hs
    | some e =>
      refine ((crdtInsertElem_outcome hs e).mono (fun _ _ h => h) fun t h =>
        ⟨h.1, [], List.nil_prefix, h.2⟩).bind
        fun _ s' _ h => ?_
      obtain ⟨hinv, hview, -⟩ := h
      have hrest := ih hinv
      rw [hview] at hrest
      refine hrest.mono (fun _ _ h => h) fun t h => ?_
      obtain ⟨hinv', es, hes, heq⟩ := h
      exact ⟨hinv', e :: es, List.prefix_cons_inj e |>.mpr hes, heq⟩

variable {crypto : Primitives}

theorem decode_of_verify (h : verify crypto p = .ok ()) : ∃ v, faultProofDecode p = .ok v := by
  rw [verify, verifyLevel] at h
  split at h
  · cases h
  · split at h
    · cases h
    · exact ⟨_, ‹_›⟩

theorem verifyLevel_of_decode {v : FaultProofView} (h : faultProofDecode p = .ok v) (level : Nat) :
    verifyLevel crypto (level + 1) p =
      if v.faultType = faultEquivocation then verifyEquivocation crypto p v.subject v.epoch
      else if v.faultType = faultInvalidTransition then
        verifyInvalidTransition crypto (verifyLevel crypto level) v.evidence v.subject v.epoch
      else .error .unsupportedType := by
  have hne : p.length ≠ 0 := fun h0 => by
    rw [faultProofDecode, if_pos h0] at h
    cases h
  rw [verifyLevel, if_neg hne, h]

variable (crypto) in
def elemOf (p : Bytes) : Option Elem :=
  match verify crypto p, faultProofDecode p with
  | .ok _, .ok view => some ⟨contentId crypto p, view.subject, view.epoch.toNat, p⟩
  | _, _ => none

theorem elemOf_eq_some : elemOf crypto p = some e ↔ verify crypto p = .ok () ∧
      ∃ v, faultProofDecode p = .ok v ∧ e = ⟨contentId crypto p, v.subject, v.epoch.toNat, p⟩ := by
  rw [elemOf]
  split
  · rename_i u v hv hd
    simp [hv, hd, eq_comm]
  · rename_i hno
    simp only [reduceCtorEq, false_iff]
    rintro ⟨hv, v, hd, -⟩
    exact hno _ _ hv hd

theorem elemOf_inj {p' : Bytes} {e' : Elem} (h : elemOf crypto p = some e) (h' : elemOf crypto p' = some e')
    (hid : e.contentId = e'.contentId)
    (hinj : verify crypto p = .ok () → verify crypto p' = .ok () →
      crypto.blake3 p = crypto.blake3 p' → p = p') : e = e' := by
  obtain ⟨hv, v, -, heq⟩ := elemOf_eq_some.mp h
  obtain ⟨hv', v', -, heq'⟩ := elemOf_eq_some.mp h'
  rw [heq, heq'] at hid
  obtain rfl := hinj hv hv' hid
  exact Option.some.inj (h.symm.trans h')

theorem insert_accepted (h : elemOf crypto p = some e) : insert crypto p = crdtInsertElem e := by
  obtain ⟨hv, v, hd, rfl⟩ := elemOf_eq_some.mp h
  have hne : p.length ≠ 0 := by
    intro hp
    rw [verify, verifyLevel, if_pos hp] at hv
    cases hv
  unfold Container.insert
  simp only [hne, hv, hd, if_false]

theorem insert_refused (h : elemOf crypto p = none) (s : Store) : ∃ err, insert crypto p s = .error err s := by
  unfold Container.insert
  split
  · exact ⟨_, rfl⟩
  · cases hv : verify crypto p with
    | error err => exact ⟨err, rfl⟩
    | ok u =>
      obtain ⟨v, hd⟩ := decode_of_verify hv
      have hsome := elemOf_eq_some.mpr ⟨hv, v, hd, rfl⟩
      rw [h] at hsome
      cases hsome

end AntsClient.Crdt.Operations
