import Mathlib.Data.List.Perm.Basic
import Mathlib.Data.List.Nodup
import Mathlib.Tactic

namespace AntsClient.Lib.LinearProbe

open List

variable {σ K : Type} (key? : σ → Option K) (start : K → Nat)

def keyAt (slots : List σ) (i : Nat) : Option K := slots[i]?.bind key?

def Path (slots : List σ) (k : K) (d : Nat) : Prop :=
  ∀ e < d, ∃ k', keyAt key? slots ((start k + e) % slots.length) = some k' ∧ k' ≠ k

/-- Every key stands at the end of a path of other keys from its home. -/
def Placed (slots : List σ) : Prop :=
  ∀ i k, keyAt key? slots i = some k → ∃ d < slots.length, i = (start k + d) % slots.length ∧
    Path key? start slots k d

def occupied (slots : List σ) : List σ := slots.filter fun x => (key? x).isSome

variable {i d n fuel : Nat} {k : K} {j : Nat} {x : σ}

section Keys

variable {key? start} {slots : List σ}

theorem keyAt_set (hi : i < slots.length) :
    keyAt key? (slots.set i x) j = if i = j then key? x else keyAt key? slots j := by
  rw [keyAt, getElem?_set]
  split
  · subst j
    simp
  · rfl

theorem exists_keyAt_iff : (∃ i, keyAt key? slots i = some k) ↔ ∃ x ∈ slots, key? x = some k := by
  constructor
  · rintro ⟨i, h⟩
    rw [keyAt, Option.bind_eq_some_iff] at h
    obtain ⟨x, hx, hk⟩ := h
    exact ⟨x, mem_of_getElem? hx, hk⟩
  · rintro ⟨x, hx, hk⟩
    obtain ⟨i, hi⟩ := mem_iff_getElem?.mp hx
    exact ⟨i, by rw [keyAt, hi]; exact hk⟩

theorem exists_empty (h : (occupied key? slots).length < slots.length) :
    ∃ i < slots.length, keyAt key? slots i = none := by
  obtain ⟨x, hx, hk⟩ : ∃ x ∈ slots, (key? x).isSome ≠ true := by
    by_contra hall
    have hall' : ∀ x ∈ slots, (key? x).isSome = true := fun x hx => by
      by_contra hk
      exact hall ⟨x, hx, hk⟩
    rw [occupied, filter_eq_self.mpr hall'] at h
    exact Nat.lt_irrefl _ h
  obtain ⟨i, hi⟩ := mem_iff_getElem?.mp hx
  refine ⟨i, (List.getElem?_eq_some_iff.mp hi).1, ?_⟩
  rw [keyAt, hi]
  simpa using hk

theorem occupied_set (hi : i < slots.length) (hx : (key? x).isSome)
    (hempty : keyAt key? slots i = none) : (occupied key? (slots.set i x)).Perm (x :: occupied key? slots) := by
  induction slots generalizing i with
  | nil => simp at hi
  | cons y ys ih =>
    cases i with
    | zero =>
      have hy : (key? y).isSome = false := by simpa [keyAt] using hempty
      simp [occupied, hx, hy]
    | succ i =>
      have hrest := ih (Nat.lt_of_succ_lt_succ hi) hempty
      by_cases hy : (key? y).isSome
      · have hswap := (hrest.cons y).trans (List.Perm.swap x y _)
        simpa [occupied, hy] using hswap
      · simpa [occupied, hy] using hrest

theorem keyAt_inj (hp : Placed key? start slots) (hi : keyAt key? slots i = some k)
    (hj : keyAt key? slots j = some k) : i = j := by
  obtain ⟨d, -, rfl, hpd⟩ := hp i k hi
  obtain ⟨e, -, rfl, hpe⟩ := hp j k hj
  rcases Nat.lt_trichotomy d e with hlt | rfl | hgt
  · obtain ⟨k', hk', hne⟩ := hpe d hlt
    exact absurd (Option.some.inj (hk'.symm.trans hi)) hne
  · rfl
  · obtain ⟨k', hk', hne⟩ := hpd e hgt
    exact absurd (Option.some.inj (hk'.symm.trans hj)) hne

theorem placed_set (hp : Placed key? start slots) (hx : key? x = some k)
    (hfree : keyAt key? slots i = none) (hd : d < slots.length) (hi : i = (start k + d) % slots.length)
    (hpath : Path key? start slots k d) : Placed key? start (slots.set i x) := by
  have hlt : i < slots.length := hi ▸ Nat.mod_lt _ (Nat.zero_lt_of_lt hd)
  -- an empty slot lies on no path, so every path is as it was
  have hkeep {k' : K} {c : Nat} (hc : Path key? start slots k' c) : Path key? start (slots.set i x) k' c := by
    intro e he
    obtain ⟨k'', hk'', hne⟩ := hc e he
    refine ⟨k'', ?_, hne⟩
    rw [length_set, keyAt_set hlt, if_neg]
    · exact hk''
    · intro heq
      rw [← heq, hfree] at hk''
      cases hk''
  intro j k' hj
  rw [keyAt_set hlt] at hj
  rw [length_set]
  split at hj
  · subst j
    obtain rfl := Option.some.inj (hx.symm.trans hj)
    exact ⟨d, hd, hi, hkeep hpath⟩
  · obtain ⟨c, hc, hjc, hpc⟩ := hp j k' hj
    exact ⟨c, hc, hjc, hkeep hpc⟩

theorem mem_of_occupied {ys zs : List σ} (h : (occupied key? ys).Perm zs) {y : σ} (hy : y ∈ ys)
    (hk : key? y = some k) : y ∈ zs :=
  h.subset (mem_filter.mpr ⟨hy, by rw [hk]; rfl⟩)

theorem keys_nodup (hp : Placed key? start slots) : (slots.filterMap key?).Nodup := by
  rw [List.Nodup, pairwise_filterMap, pairwise_iff_getElem]
  intro i j hi hj hlt k hk k' hk' heq
  subst heq
  have hi' : keyAt key? slots i = some k := by rw [keyAt, getElem?_eq_getElem hi]; exact hk
  have hj' : keyAt key? slots j = some k := by rw [keyAt, getElem?_eq_getElem hj]; exact hk'
  exact absurd (keyAt_inj hp hi' hj') hlt.ne

theorem placed_of_empty (h : ∀ x ∈ slots, key? x = none) : Placed key? start slots := by
  intro i k hk
  obtain ⟨x, hx, hxk⟩ := exists_keyAt_iff.mp ⟨i, hk⟩
  rw [h x hx] at hxk
  cases hxk

end Keys

variable [DecidableEq K]

def probeFrom (slots : List σ) (k : K) : Nat → Nat → Nat × Bool
  | 0, i => (i, false)
  | fuel + 1, i =>
    match keyAt key? slots i with
    | none => (i, false)
    | some k' => if k' = k then (i, true) else probeFrom slots k fuel ((i + 1) % slots.length)

/-- Linear probing: from the home slot of `k` to the next slot that is empty or
holds `k`, and whether it holds `k`. -/
def probe (slots : List σ) (k : K) : Nat × Bool := probeFrom key? slots k slots.length (start k % slots.length)

def put (slots : List σ) (k : K) (x : σ) : List σ := slots.set (probe key? start slots k).1 x

def putAll (slots xs : List σ) : List σ :=
  xs.foldl (fun t x => match key? x with
    | none => t
    | some k => put key? start t k x) slots

variable {key? start} {slots : List σ}

theorem probeFrom_path (hp : Path key? start slots k d) (fuel c : Nat) (hc : c ≤ d) :
    probeFrom key? slots k (fuel + (d - c)) ((start k + c) % slots.length) =
      probeFrom key? slots k fuel ((start k + d) % slots.length) := by
  induction hn : d - c generalizing c with
  | zero =>
    obtain rfl : c = d := by omega
    rfl
  | succ n ih =>
    obtain ⟨k', hk, hne⟩ := hp c (by omega)
    rw [← Nat.add_assoc, probeFrom, hk]
    simp only [hne, if_false]
    rw [Nat.mod_add_mod, Nat.add_assoc, ← ih (c + 1) (by omega) (by omega)]

theorem exists_distance (hi : i < n) (a : Nat) : ∃ d < n, (a + d) % n = i := by
  have ha : a % n < n := Nat.mod_lt _ (Nat.zero_lt_of_lt hi)
  refine ⟨(i + (n - a % n)) % n, Nat.mod_lt _ (Nat.zero_lt_of_lt hi), ?_⟩
  rw [Nat.add_mod_mod, ← Nat.mod_add_mod, show a % n + (i + (n - a % n)) = i + n by omega,
    Nat.add_mod_right, Nat.mod_eq_of_lt hi]

theorem probeFrom_stop (hpath : Path key? start slots k d)
    (hstop : ∀ k', keyAt key? slots ((start k + d) % slots.length) = some k' → k' = k) (hfuel : d < fuel) :
    probeFrom key? slots k fuel (start k % slots.length) =
      ((start k + d) % slots.length, (keyAt key? slots ((start k + d) % slots.length)).isSome) := by
  obtain ⟨rest, rfl⟩ : ∃ rest, fuel = rest + 1 + (d - 0) := ⟨fuel - d - 1, by omega⟩
  have hrun : probeFrom key? slots k (rest + 1 + (d - 0)) (start k % slots.length) =
      probeFrom key? slots k (rest + 1) ((start k + d) % slots.length) :=
        probeFrom_path hpath (rest + 1) 0 (Nat.zero_le d)
  rw [hrun, probeFrom]
  cases hk : keyAt key? slots ((start k + d) % slots.length) with
  | none => rfl
  | some k' =>
    obtain rfl := hstop k' hk
    exact if_pos rfl

/-- Probing stops within the table, at the first slot on the way that is empty or
holds the key. -/
theorem probe_spec (hempty : ∃ i < slots.length, keyAt key? slots i = none) (k : K) :
    ∃ d < slots.length, (probe key? start slots k).1 = (start k + d) % slots.length ∧
    Path key? start slots k d ∧
      keyAt key? slots (probe key? start slots k).1 = if (probe key? start slots k).2 then
      some k else none := by
  classical
  obtain ⟨i, hi, hnone⟩ := hempty
  obtain ⟨d₀, hd₀, rfl⟩ := exists_distance hi (start k)
  have hex : ∃ d, ∀ k', keyAt key? slots ((start k + d) % slots.length) = some k' → k' = k :=
    ⟨d₀, fun k' hk' => by rw [hnone] at hk'; cases hk'⟩
  have hle : Nat.find hex ≤ d₀ := Nat.find_min' hex fun k' hk' => by rw [hnone] at hk'; cases hk'
  have hpath : Path key? start slots k (Nat.find hex) := by
    intro e he
    have hne := Nat.find_min hex he
    push Not at hne
    exact hne
  have hstop := Nat.find_spec hex
  generalize Nat.find hex = d at hle hpath hstop
  refine ⟨d, by omega, ?_⟩
  rw [probe, probeFrom_stop hpath hstop (by omega)]
  refine ⟨rfl, hpath, ?_⟩
  cases hk : keyAt key? slots ((start k + d) % slots.length) with
  | none => rfl
  | some k' =>
    obtain rfl := hstop k' hk
    rfl

/-- More rounds than the table has slots change nothing: the loop has stopped by then. -/
theorem probe_stable (hempty : ∃ i < slots.length, keyAt key? slots i = none) (k : K)
    (hfuel : slots.length ≤ fuel) :
    probeFrom key? slots k fuel (start k % slots.length) = probe key? start slots k := by
  obtain ⟨d, hd, hidx, hpath, hkey⟩ := @probe_spec _ _ _ start _ _ hempty k
  have hstop : ∀ k', keyAt key? slots ((start k + d) % slots.length) = some k' → k' = k := by
    intro k' hk'
    rw [← hidx, hkey] at hk'
    split at hk'
    · exact (Option.some.inj hk').symm
    · cases hk'
  rw [probe, probeFrom_stop hpath hstop (hd.trans_le hfuel), probeFrom_stop hpath hstop hd]

section Table

variable (hp : Placed key? start slots) (hroom : (occupied key? slots).length < slots.length)
include hp hroom

theorem probe_found : (probe key? start slots k).2 = true ↔ ∃ x ∈ slots, key? x = some k := by
  obtain ⟨d, hd, hidx, hpath, hkey⟩ := @probe_spec _ _ _ start _ _ (exists_empty hroom) k
  rw [← exists_keyAt_iff]
  constructor
  · intro hfound
    rw [hfound, if_pos rfl] at hkey
    exact ⟨_, hkey⟩
  · rintro ⟨i, hi⟩
    by_contra hfound
    rw [if_neg hfound, hidx] at hkey
    obtain ⟨c, -, rfl, hpc⟩ := hp i k hi
    rcases Nat.lt_trichotomy d c with hlt | rfl | hgt
    · obtain ⟨k', hk', -⟩ := hpc d hlt
      rw [hkey] at hk'
      cases hk'
    · rw [hkey] at hi
      cases hi
    · obtain ⟨k', hk', hne⟩ := hpath c hgt
      exact hne (Option.some.inj (hk'.symm.trans hi))

/-- A new key goes into an empty slot, and nothing else moves. -/
theorem put_new (hx : key? x = some k) (hnew : ∀ y ∈ slots, key? y ≠ some k) :
    Placed key? start (put key? start slots k x) ∧
    (occupied key? (put key? start slots k x)).Perm (x :: occupied key? slots) := by
  obtain ⟨d, hd, hidx, hpath, hkey⟩ := @probe_spec _ _ _ start _ _ (exists_empty hroom) k
  have hfound : (probe key? start slots k).2 ≠ true := fun h => by
    obtain ⟨y, hy, hk⟩ := (probe_found hp hroom).mp h
    exact hnew y hy hk
  rw [if_neg hfound] at hkey
  have hlt : (probe key? start slots k).1 < slots.length := hidx ▸ Nat.mod_lt _ (Nat.zero_lt_of_lt hd)
  exact ⟨placed_set hp hx hkey hd hidx hpath, occupied_set hlt (by rw [hx]; rfl) hkey⟩

end Table

theorem put_length (slots : List σ) (k : K) (x : σ) : (put key? start slots k x).length = slots.length :=
  length_set

theorem putAll_length (slots xs : List σ) : (putAll key? start slots xs).length = slots.length := by
  induction xs generalizing slots with
  | nil => rfl
  | cons x xs ih =>
    rw [putAll, foldl_cons]
    refine (ih _).trans ?_
    cases key? x with
    | none => rfl
    | some k => exact put_length slots k x

/-- Entries with fresh, pairwise different keys all find a slot. -/
theorem putAll_spec {xs : List σ} (hp : Placed key? start slots)
    (hroom : (occupied key? slots).length + (occupied key? xs).length ≤ slots.length)
    (hnd : (xs.filterMap key?).Nodup) (hnew : ∀ x ∈ xs, ∀ k, key? x = some k → ∀ y ∈ slots, key? y ≠ some k) :
    Placed key? start (putAll key? start slots xs) ∧
      (occupied key? (putAll key? start slots xs)).Perm (occupied key? slots ++ occupied key? xs) := by
  induction xs generalizing slots with
  | nil => exact ⟨hp, by simp [putAll, occupied]⟩
  | cons x xs ih =>
    obtain ⟨hx, hxs⟩ := forall_mem_cons.mp hnew
    cases hk : key? x with
    | none =>
      have hocc : occupied key? (x :: xs) = occupied key? xs := by simp [occupied, hk]
      have hput : putAll key? start slots (x :: xs) = putAll key? start slots xs := by
        simp only [putAll, foldl_cons, hk]
      rw [hocc] at hroom
      rw [filterMap_cons_none hk] at hnd
      rw [hocc, hput]
      exact ih hp hroom hnd hxs
    | some k =>
      have hocc : occupied key? (x :: xs) = x :: occupied key? xs := by simp [occupied, hk]
      have hput : putAll key? start slots (x :: xs) = putAll key? start (put key? start slots k x) xs := by
        simp only [putAll, foldl_cons, hk]
      rw [hocc, length_cons] at hroom
      rw [filterMap_cons_some hk, nodup_cons] at hnd
      obtain ⟨hp', hocc'⟩ := put_new hp (by omega) hk (hx k hk)
      have hnew' : ∀ y ∈ xs, ∀ k', key? y = some k' → ∀ z ∈ put key? start slots k x, key? z ≠ some k' := by
        intro y hy k' hk' z hz hzk
        rcases mem_cons.mp (mem_of_occupied hocc' hz hzk) with rfl | hz'
        · obtain rfl := Option.some.inj (hk.symm.trans hzk)
          exact hnd.1 (mem_filterMap.mpr ⟨y, hy, hk'⟩)
        · exact hxs y hy k' hk' z (mem_filter.mp hz').1 hzk
      have hroom' : (occupied key? (put key? start slots k x)).length + (occupied key? xs).length ≤
          (put key? start slots k x).length := by
        rw [hocc'.length_eq, put_length, length_cons]
        omega
      obtain ⟨hp'', hocc''⟩ := ih hp' hroom' hnd.2 hnew'
      rw [hput, hocc]
      exact ⟨hp'', hocc''.trans ((hocc'.append_right _).trans perm_middle.symm)⟩

/-- A fresh table takes over the entries of another one. -/
theorem rehash_spec {n : Nat} {empty : σ} {xs : List σ} (he : key? empty = none)
    (hnd : (xs.filterMap key?).Nodup) (hn : (occupied key? xs).length ≤ n) :
    Placed key? start (putAll key? start (replicate n empty) xs) ∧
      (occupied key? (putAll key? start (replicate n empty) xs)).Perm (occupied key? xs) := by
  have hnone : ∀ x ∈ replicate n empty, key? x = none := fun x hx => (eq_of_mem_replicate hx) ▸ he
  have hocc : occupied key? (replicate n empty) = [] := by simp [occupied, he]
  have hfree : Placed key? start (replicate n empty) := placed_of_empty hnone
  have hspec := putAll_spec hfree (by rw [hocc]; simpa using hn) hnd
    fun x _ k _ y hy hk => by rw [hnone y hy] at hk; cases hk
  rwa [hocc, nil_append] at hspec

end AntsClient.Lib.LinearProbe
