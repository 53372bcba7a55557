import AntsClient.Crypto
import AntsClient.Lib.Outcome
import AntsClient.Lib.Saturating
import AntsClient.Lib.Table

namespace AntsClient.Economy.Bonds

open Common Crypto Lib Outcome Saturating Table UInt64
open List hiding lookup lookup_cons lookup_eq_none_iff

def disputeWindowS : UInt64 := 604800

def maxLocked : Nat := 32

structure Bond where
  actId : Bytes32
  amount : UInt64
  tStart : UInt64
  tRelease : UInt64
  slashTarget : Signature
  deriving DecidableEq

/-- The slots of `ants_bond_ledger_t` that are in use; the others are never read. -/
abbrev Ledger := List Bond

abbrev BondM := EStateM Error Ledger

def ledgerInit : Ledger := []

def lockedFrom : Ledger → UInt64 → UInt64
  | [], total => total
  | b :: rest, total => if b.amount > uint64Max - total then uint64Max else lockedFrom rest (total + b.amount)

def lockedTotal (ledger : Ledger) : UInt64 := lockedFrom ledger 0

def bondIndex (ledger : Ledger) (actId : Bytes32) : Option Nat := ledger.findIdx? fun b => b.actId = actId

def find (ledger : Ledger) (actId : Bytes32) : Option Bond := do
  let idx ← bondIndex ledger actId
  ledger[idx]?

def bondableA (ledger : Ledger) (totalA : UInt64) : UInt64 :=
  let locked := lockedTotal ledger
  if totalA > locked then totalA - locked else 0

/-- The verdict; for want of headroom it is `false`, which is no error. -/
def bondAdmit (actId : Bytes32) (amount tStart : UInt64) (slashTarget : Signature)
    (totalA : UInt64) : BondM Bool := do
  let ledger ← get
  if (bondIndex ledger actId).isSome then throw .invalidArg
  if tStart > uint64Max - disputeWindowS then throw .invalidArg
  if ledger.length ≥ maxLocked then throw .bufferTooSmall
  if bondableA ledger totalA < amount then return false
  set (ledger ++ [⟨actId, amount, tStart, tStart + disputeWindowS, slashTarget⟩])
  return true

def bondRemoveAt (ledger : Ledger) (idx : Nat) : Ledger := swapRemove ledger idx

def release (actId : Bytes32) : BondM Bool := do
  let ledger ← get
  match bondIndex ledger actId with
  | some idx =>
    set (bondRemoveAt ledger idx)
    return true
  | none => return false

def slash (actId : Bytes32) : BondM (UInt64 × Bool) := do
  let ledger ← get
  match bondIndex ledger actId with
  | some idx =>
    let amount := (ledger[idx]?.map Bond.amount).getD 0
    set (bondRemoveAt ledger idx)
    return (amount, true)
  | none => return (0, false)

def requiredTier3 (queryStakes n : UInt64) : Except Error UInt64 :=
  if n = 0 then .error .invalidArg else .ok (queryStakes / n)

def requiredForkRecovery (totalTAtStake : UInt64) : UInt64 := totalTAtStake

def requiredValueScaled (value multNum multDen : UInt64) : Except Error UInt64 := do
  if multDen = 0 then throw .invalidArg
  let q := value / multDen
  let r := value % multDen
  if multNum ≠ 0 ∧ q > uint64Max / multNum then throw .overflow
  let term1 := q * multNum
  if multNum ≠ 0 ∧ r > uint64Max / multNum then throw .overflow
  let term2 := r * multNum / multDen
  if term1 > uint64Max - term2 then throw .overflow
  return term1 + term2

def exactTotal (ledger : Ledger) : Nat := (ledger.map fun b => b.amount.toNat).sum

theorem toNat_lockedFrom (ledger : Ledger) (total : UInt64) :
    (lockedFrom ledger total).toNat = min (total.toNat + exactTotal ledger) (2 ^ 64 - 1) := by
  induction ledger generalizing total with
  | nil =>
    have := total.toNat_lt
    simp only [lockedFrom, exactTotal, map_nil, sum_nil]
    omega
  | cons b rest ih =>
    have hsum : exactTotal (b :: rest) = b.amount.toNat + exactTotal rest := by simp [exactTotal]
    have ht := total.toNat_lt
    rw [lockedFrom, hsum]
    by_cases h : b.amount > uint64Max - total
    · have hlt := lt_iff_toNat_lt.mp h
      rw [toNat_uint64Max_sub] at hlt
      rw [if_pos h, toNat_uint64Max]
      omega
    · have hle := le_iff_toNat_le.mp (UInt64.not_lt.mp h)
      rw [toNat_uint64Max_sub] at hle
      rw [if_neg h, ih, UInt64.toNat_add, Nat.mod_eq_of_lt (by omega)]
      omega

theorem toNat_lockedTotal (ledger : Ledger) :
    (lockedTotal ledger).toNat = min (exactTotal ledger) (2 ^ 64 - 1) := by
  rw [lockedTotal, toNat_lockedFrom, UInt64.toNat_zero, Nat.zero_add]

variable {ledger ledger' : Ledger} {actId : Bytes32} {idx : Nat}

theorem exactTotal_perm (h : ledger.Perm ledger') : exactTotal ledger = exactTotal ledger' :=
  (h.map _).sum_eq

theorem toNat_bondableA (ledger : Ledger) (totalA : UInt64) :
    (bondableA ledger totalA).toNat = totalA.toNat - (lockedTotal ledger).toNat := by
  rw [bondableA]
  by_cases h : totalA > lockedTotal ledger
  · rw [if_pos h, UInt64.toNat_sub_of_le _ _ (UInt64.le_of_lt h)]
  · have := le_iff_toNat_le.mp (UInt64.not_lt.mp h)
    rw [if_neg h, UInt64.toNat_zero]
    omega

theorem find_eq_lookup (ledger : Ledger) : find ledger = lookup Bond.actId ledger := by
  funext actId
  rw [find, bondIndex, lookup, find?_eq_bind_findIdx?_getElem?]
  rfl

theorem bondIndex_eq_none (h : bondIndex ledger actId = none) : find ledger actId = none := by
  rw [find, h]
  rfl

theorem bondIndex_eq_some (h : bondIndex ledger actId = some idx) :
    ∃ hlt : idx < ledger.length, ledger[idx].actId = actId ∧ find ledger actId = some ledger[idx] := by
  obtain ⟨hlt, hid, -⟩ := findIdx?_eq_some_iff_getElem.mp h
  refine ⟨hlt, by simpa using hid, ?_⟩
  rw [find, h]
  exact getElem?_eq_getElem hlt

inductive Call
  | bondAdmit (actId : Bytes32) (amount tStart : UInt64) (slashTarget : Signature) (totalA : UInt64)
  | release (actId : Bytes32)
  | slash (actId : Bytes32)

def step (ledger : Ledger) : Call → Ledger
  | .bondAdmit actId amount tStart slashTarget totalA =>
    after (bondAdmit actId amount tStart slashTarget totalA ledger)
  | .release actId => after (release actId ledger)
  | .slash actId => after (slash actId ledger)

def lockedBy (ledger : Ledger) : Call → Nat
  | .bondAdmit actId amount tStart slashTarget totalA =>
    match bondAdmit actId amount tStart slashTarget totalA ledger with
    | .ok true _ => amount.toNat
    | _ => 0
  | _ => 0

def releasedBy (ledger : Ledger) : Call → Nat
  | .release actId => ((find ledger actId).map fun b => b.amount.toNat).getD 0
  | _ => 0

def slashedBy (ledger : Ledger) : Call → Nat
  | .slash actId =>
    match slash actId ledger with
    | .ok (amount, _) _ => amount.toNat
    | .error _ _ => 0
  | _ => 0

/-- A ledger after some calls, with the sums of what they locked, released and slashed. -/
structure Books where
  ledger : Ledger
  admitted : Nat
  released : Nat
  slashed : Nat

def Books.enter (b : Books) (call : Call) : Books where
  ledger := step b.ledger call
  admitted := b.admitted + lockedBy b.ledger call
  released := b.released + releasedBy b.ledger call
  slashed := b.slashed + slashedBy b.ledger call

def books (calls : List Call) : Books := calls.foldl Books.enter ⟨ledgerInit, 0, 0, 0⟩

structure Sound (ledger : Ledger) : Prop where
  keyed : Keyed Bond.actId ledger
  fits : ledger.length ≤ maxLocked
  bounded : exactTotal ledger < 2 ^ 64

variable {amount tStart totalA : UInt64} {slashTarget : Signature}

theorem Sound.lockedTotal_eq (h : Sound ledger) : (lockedTotal ledger).toNat = exactTotal ledger := by
  have := h.bounded
  rw [toNat_lockedTotal]
  omega

/-- An admission that reports `true` adds the bond at the end; any other leaves the ledger
as it was. -/
theorem admit_cases (actId : Bytes32) (amount tStart : UInt64) (slashTarget : Signature)
    (totalA : UInt64) (ledger : Ledger) :
    (find ledger actId = none ∧ ledger.length < maxLocked ∧ amount ≤ bondableA ledger totalA ∧
      bondAdmit actId amount tStart slashTarget totalA ledger =
        .ok true (ledger ++ [⟨actId, amount, tStart, tStart + disputeWindowS, slashTarget⟩])) ∨
    bondAdmit actId amount tStart slashTarget totalA ledger = .ok false ledger ∨
    ∃ err, bondAdmit actId amount tStart slashTarget totalA ledger = .error err ledger := by
  rw [bondAdmit, get_bind_apply]
  cases hidx : bondIndex ledger actId with
  | some idx => exact .inr (.inr ⟨.invalidArg, rfl⟩)
  | none =>
    by_cases hstart : tStart > uint64Max - disputeWindowS
    · exact .inr (.inr ⟨.invalidArg, by simp [hstart, throw_bind_apply]⟩)
    · by_cases hfull : ledger.length ≥ maxLocked
      · exact .inr (.inr ⟨.bufferTooSmall, by simp [hstart, hfull, throw_bind_apply]⟩)
      · by_cases hroom : bondableA ledger totalA < amount
        · refine .inr (.inl ?_)
          simp [hstart, hfull, hroom]
          rfl
        · refine .inl ⟨bondIndex_eq_none hidx, Nat.not_le.mp hfull, UInt64.not_lt.mp hroom, ?_⟩
          simp [hstart, hfull, hroom]
          rfl

def Without (ledger : Ledger) (actId : Bytes32) (ledger' : Ledger) : Prop :=
  ledger'.Perm (ledger.filter fun b => b.actId ≠ actId) ∧
    find ledger' = Function.update (find ledger) actId none

theorem without_of_bondIndex (h : Keyed Bond.actId ledger) (hidx : bondIndex ledger actId = some idx) :
    Without ledger actId (bondRemoveAt ledger idx) := by
  obtain ⟨hlt, rfl, -⟩ := bondIndex_eq_some hidx
  constructor
  · have hperm := (cons_swapRemove_perm hlt).trans (h.cons_filter_perm (getElem_mem hlt)).symm
    exact hperm.cons_inv
  · funext k
    rw [find_eq_lookup, find_eq_lookup, bondRemoveAt, h.lookup_swapRemove hlt, Function.update_apply]

theorem without_of_find_eq_none (h : find ledger actId = none) : Without ledger actId ledger := by
  constructor
  · rw [find_eq_lookup, lookup_eq_none_iff] at h
    rw [filter_eq_self.mpr fun b hb => decide_eq_true (h b hb)]
  · rw [← h, Function.update_eq_self]

theorem release_spec (h : Keyed Bond.actId ledger) (actId : Bytes32) :
    ∃ ledger', release actId ledger = .ok (find ledger actId).isSome ledger' ∧
    Without ledger actId ledger' := by
  rw [release, get_bind_apply]
  cases hidx : bondIndex ledger actId with
  | none =>
    have hfind := bondIndex_eq_none hidx
    rw [hfind]
    exact ⟨ledger, rfl, without_of_find_eq_none hfind⟩
  | some idx =>
    obtain ⟨hlt, -, hfind⟩ := bondIndex_eq_some hidx
    rw [hfind]
    exact ⟨bondRemoveAt ledger idx, rfl, without_of_bondIndex h hidx⟩

theorem slash_spec (h : Keyed Bond.actId ledger) (actId : Bytes32) :
    ∃ ledger', slash actId ledger =
      .ok (((find ledger actId).map Bond.amount).getD 0, (find ledger actId).isSome) ledger' ∧
      Without ledger actId ledger' := by
  rw [slash, get_bind_apply]
  cases hidx : bondIndex ledger actId with
  | none =>
    have hfind := bondIndex_eq_none hidx
    rw [hfind]
    exact ⟨ledger, rfl, without_of_find_eq_none hfind⟩
  | some idx =>
    obtain ⟨hlt, -, hfind⟩ := bondIndex_eq_some hidx
    rw [hfind]
    refine ⟨bondRemoveAt ledger idx, ?_, without_of_bondIndex h hidx⟩
    dsimp only
    rw [getElem?_eq_getElem hlt]
    rfl

theorem Without.exactTotal_eq (hw : Without ledger actId ledger') (h : Keyed Bond.actId ledger) :
    exactTotal ledger' + ((find ledger actId).map fun b => b.amount.toNat).getD 0 = exactTotal ledger := by
  rw [exactTotal_perm hw.1, find_eq_lookup]
  cases hb : lookup Bond.actId ledger actId with
  | none =>
    rw [lookup_eq_none_iff] at hb
    rw [filter_eq_self.mpr fun b hm => decide_eq_true (hb b hm)]
    rfl
  | some b =>
    obtain ⟨hm, rfl⟩ := h.lookup_eq_some_iff.mp hb
    rw [← exactTotal_perm (h.cons_filter_perm hm)]
    exact Nat.add_comm _ _

theorem Sound.without (h : Sound ledger) (hw : Without ledger actId ledger') : Sound ledger' where
  keyed := Keyed.perm (h.keyed.sublist (filter_sublist.map _)) hw.1.symm
  fits := by
    rw [hw.1.length_eq]
    exact (length_filter_le _ _).trans h.fits
  bounded := by
    have := hw.exactTotal_eq h.keyed
    have := h.bounded
    omega

theorem exactTotal_append (ledger : Ledger) (b : Bond) :
    exactTotal (ledger ++ [b]) = exactTotal ledger + b.amount.toNat := by
  simp [exactTotal]

theorem Sound.room (h : Sound ledger) (hroom : amount ≤ bondableA ledger totalA) :
    exactTotal ledger + amount.toNat ≤ totalA.toNat ∨ amount = 0 := by
  rw [le_iff_toNat_le, toNat_bondableA, h.lockedTotal_eq] at hroom
  by_cases hzero : amount = 0
  · exact .inr hzero
  · have hpos : amount.toNat ≠ 0 := fun h0 => hzero (UInt64.toNat.inj h0)
    exact .inl (by omega)

theorem keyed_cons (h : Keyed Bond.actId ledger) {b : Bond} (hnew : find ledger b.actId = none) :
    Keyed Bond.actId (b :: ledger) := by
  rw [find_eq_lookup, lookup_eq_none_iff] at hnew
  refine nodup_cons.mpr ⟨fun hm => ?_, h⟩
  obtain ⟨b', hb', he⟩ := mem_map.mp hm
  exact hnew b' hb' he

theorem Sound.append (h : Sound ledger) (hnew : find ledger actId = none) (hlen : ledger.length < maxLocked)
    (hroom : amount ≤ bondableA ledger totalA) :
    Sound (ledger ++ [⟨actId, amount, tStart, tStart + disputeWindowS, slashTarget⟩]) where
  keyed := (keyed_cons h.keyed hnew).perm (perm_append_singleton _ _).symm
  fits := by
    rw [length_append, length_singleton]
    omega
  bounded := by
    have hA := totalA.toNat_lt
    have hb := h.bounded
    rw [exactTotal_append]
    dsimp only
    rcases h.room hroom with hle | rfl
    · omega
    · exact hb

theorem find_append (h : Keyed Bond.actId ledger) (b : Bond) (hnew : find ledger b.actId = none) :
    find (ledger ++ [b]) = Function.update (find ledger) b.actId (some b) := by
  have hperm : (ledger ++ [b]).Perm (b :: ledger) := perm_append_singleton b ledger
  funext k
  rw [find_eq_lookup, find_eq_lookup, ((keyed_cons h hnew).perm hperm.symm).lookup_perm hperm,
    lookup_cons, Function.update_apply]

theorem Sound.step (h : Sound ledger) (call : Call) : Sound (step ledger call) := by
  cases call with
  | bondAdmit actId amount tStart slashTarget totalA =>
    rw [Bonds.step]
    rcases admit_cases actId amount tStart slashTarget totalA ledger with
      ⟨hnew, hlen, hroom, he⟩ | he | ⟨err, he⟩
    · rw [he]
      exact h.append hnew hlen hroom
    · rwa [he]
    · rwa [he]
  | release actId =>
    obtain ⟨ledger', he, hw⟩ := release_spec h.keyed actId
    rw [Bonds.step, he]
    exact h.without hw
  | slash actId =>
    obtain ⟨ledger', he, hw⟩ := slash_spec h.keyed actId
    rw [Bonds.step, he]
    exact h.without hw

theorem Sound.exactTotal_step (h : Sound ledger) (call : Call) :
    exactTotal (Bonds.step ledger call) + releasedBy ledger call + slashedBy ledger call =
      exactTotal ledger + lockedBy ledger call := by
  cases call with
  | bondAdmit actId amount tStart slashTarget totalA =>
    simp only [Bonds.step, lockedBy, releasedBy, slashedBy]
    rcases admit_cases actId amount tStart slashTarget totalA ledger with
      ⟨hnew, hlen, hroom, he⟩ | he | ⟨err, he⟩
    · rw [he]
      exact exactTotal_append ledger _
    · rw [he]
      rfl
    · rw [he]
      rfl
  | release actId =>
    obtain ⟨ledger', he, hw⟩ := release_spec h.keyed actId
    simp only [Bonds.step, lockedBy, releasedBy, slashedBy, he]
    exact hw.exactTotal_eq h.keyed
  | slash actId =>
    obtain ⟨ledger', he, hw⟩ := slash_spec h.keyed actId
    have hsum := hw.exactTotal_eq h.keyed
    simp only [Bonds.step, lockedBy, releasedBy, slashedBy, he]
    cases hfind : find ledger actId with
    | _ =>
      rw [hfind] at hsum
      exact hsum

structure Balanced (b : Books) : Prop where
  sound : Sound b.ledger
  conserved : exactTotal b.ledger + b.released + b.slashed = b.admitted

theorem Balanced.enter {b : Books} (h : Balanced b) (call : Call) : Balanced (b.enter call) where
  sound := h.sound.step call
  conserved := by
    have hstep := h.sound.exactTotal_step call
    have hsum := h.conserved
    simp only [Books.enter]
    omega

theorem balanced_books (calls : List Call) : Balanced (books calls) := by
  have hrun (b : Books) (h : Balanced b) : Balanced (calls.foldl Books.enter b) := by
    induction calls generalizing b with
    | nil => exact h
    | cons call calls ih => exact ih (b.enter call) (h.enter call)
  apply hrun
  exact ⟨⟨nodup_nil, Nat.zero_le _, Nat.two_pow_pos 64⟩, rfl⟩

/-- What a ledger is after any calls, and what any further call does to it. -/
theorem bonds_conserved (calls : List Call) :
    (Keyed Bond.actId (books calls).ledger ∧ (books calls).ledger.length ≤ maxLocked ∧
      exactTotal (books calls).ledger < 2 ^ 64 ∧
      (lockedTotal (books calls).ledger).toNat = exactTotal (books calls).ledger ∧
      exactTotal (books calls).ledger + (books calls).released + (books calls).slashed =
        (books calls).admitted) ∧
    (∀ actId amount tStart slashTarget totalA,
      (∃ ledger', bondAdmit actId amount tStart slashTarget totalA (books calls).ledger = .ok true ledger' ∧
        (0 < amount → exactTotal ledger' ≤ totalA.toNat) ∧
        exactTotal ledger' = exactTotal (books calls).ledger + amount.toNat ∧
        find ledger' = Function.update (find (books calls).ledger) actId
          (some ⟨actId, amount, tStart, tStart + disputeWindowS, slashTarget⟩)) ∨
      (∀ ledger', bondAdmit actId amount tStart slashTarget totalA (books calls).ledger ≠ .ok true ledger') ∧
        after (bondAdmit actId amount tStart slashTarget totalA (books calls).ledger) = (books calls).ledger) ∧
    (∀ actId, ∃ ledger', release actId (books calls).ledger =
      .ok (find (books calls).ledger actId).isSome ledger' ∧
      Without (books calls).ledger actId ledger') ∧
    ∀ actId, ∃ ledger', slash actId (books calls).ledger =
        .ok (((find (books calls).ledger actId).map Bond.amount).getD 0,
          (find (books calls).ledger actId).isSome) ledger' ∧
      Without (books calls).ledger actId ledger' := by
  obtain ⟨hsound, hsum⟩ := balanced_books calls
  refine ⟨⟨hsound.keyed, hsound.fits, hsound.bounded, hsound.lockedTotal_eq, hsum⟩, ?_,
    release_spec hsound.keyed,
    slash_spec hsound.keyed⟩
  intro actId amount tStart slashTarget totalA
  rcases admit_cases actId amount tStart slashTarget totalA (books calls).ledger with
    ⟨hnew, -, hroom, he⟩ | he | ⟨err, he⟩
  · refine .inl ⟨_, he, ?_, exactTotal_append _ _, find_append hsound.keyed _ hnew⟩
    intro hpos
    rw [exactTotal_append]
    rcases hsound.room hroom with hle | rfl
    · exact hle
    · exact absurd hpos (by decide)
  · rw [he]
    exact .inr ⟨by simp, rfl⟩
  · rw [he]
    exact .inr ⟨by simp, rfl⟩

/-- A bond of nothing is admitted against less than is locked. -/
theorem admit_beyond_total :
    ∃ calls actId slashTarget ledger',
    bondAdmit actId 0 0 slashTarget 3 (books calls).ledger = .ok true ledger' ∧
      ¬exactTotal ledger' ≤ (3 : UInt64).toNat :=
  ⟨[.bondAdmit (digest 1) 5 0 (signature 0 0) 5], digest 2, signature 0 0,
    [⟨digest 1, 5, 0, disputeWindowS, signature 0 0⟩,
    ⟨digest 2, 0, 0, disputeWindowS, signature 0 0⟩], by decide +kernel⟩

section ValueScaled

variable {value multNum multDen : UInt64}

theorem product_fits_iff {a b : UInt64} : ¬(b ≠ 0 ∧ a > uint64Max / b) ↔ a.toNat * b.toNat < 2 ^ 64 := by
  by_cases hb : b = 0
  · simp [hb]
  · have hpos : 0 < b.toNat := Nat.pos_of_ne_zero fun h0 => hb (UInt64.toNat.inj h0)
    have hle : a ≤ uint64Max / b ↔ a.toNat * b.toNat ≤ 2 ^ 64 - 1 := by
      rw [UInt64.le_iff_toNat_le, UInt64.toNat_div, toNat_uint64Max, Nat.le_div_iff_mul_le hpos]
    rw [not_and, UInt64.not_lt, hle]
    constructor
    · intro h
      have := h hb
      omega
    · intro h _
      omega

theorem toNat_mul_of_fits {a b : UInt64} (h : a.toNat * b.toNat < 2 ^ 64) :
    (a * b).toNat = a.toNat * b.toNat := by
  rw [UInt64.toNat_mul, Nat.mod_eq_of_lt h]

theorem scaled_eq (v n : Nat) {d : Nat} (hd : 0 < d) : v * n / d = v / d * n + v % d * n / d := by
  conv_lhs => rw [← Nat.div_add_mod v d]
  rw [Nat.add_mul, Nat.mul_assoc, Nat.mul_add_div hd]

theorem requiredValueScaled_eq (hden : multDen ≠ 0) : requiredValueScaled value multNum multDen =
      if value.toNat % multDen.toNat * multNum.toNat < 2 ^ 64 ∧
      value.toNat * multNum.toNat / multDen.toNat < 2 ^ 64 then
        .ok (UInt64.ofNat (value.toNat * multNum.toNat / multDen.toNat))
      else .error .overflow := by
  have hd : 0 < multDen.toNat := Nat.pos_of_ne_zero fun h0 => hden (UInt64.toNat.inj h0)
  have hsplit := scaled_eq value.toNat multNum.toNat hd
  have hq : (value / multDen).toNat = value.toNat / multDen.toNat := UInt64.toNat_div ..
  have hr : (value % multDen).toNat = value.toNat % multDen.toNat := UInt64.toNat_mod ..
  rw [← hq] at hsplit
  rw [← hr] at hsplit ⊢
  rw [requiredValueScaled, if_neg hden]
  by_cases h1 : (value / multDen).toNat * multNum.toNat < 2 ^ 64
  · dsimp only
    rw [if_neg (product_fits_iff.mpr h1)]
    by_cases h2 : (value % multDen).toNat * multNum.toNat < 2 ^ 64
    · have hterm1 := toNat_mul_of_fits h1
      have hterm2 : (value % multDen * multNum / multDen).toNat =
          (value % multDen).toNat * multNum.toNat / multDen.toNat := by
        rw [UInt64.toNat_div, toNat_mul_of_fits h2]
      rw [if_neg (product_fits_iff.mpr h2), hsplit, ← hterm1, ← hterm2, if_congr (and_iff_right h2) rfl rfl]
      by_cases h3 : value / multDen * multNum > uint64Max - value % multDen * multNum / multDen
      · have hlt := lt_iff_toNat_lt.mp h3
        rw [toNat_uint64Max_sub] at hlt
        rw [if_pos h3, if_neg (by omega)]
        rfl
      · have hle := le_iff_toNat_le.mp (UInt64.not_lt.mp h3)
        rw [toNat_uint64Max_sub] at hle
        have hlast := (value % multDen * multNum / multDen).toNat_lt
        rw [if_neg h3, if_pos (by omega), UInt64.ofNat_add, UInt64.ofNat_toNat, UInt64.ofNat_toNat]
        rfl
    · have hno : ¬((value % multDen).toNat * multNum.toNat < 2 ^ 64 ∧
          value.toNat * multNum.toNat / multDen.toNat < 2 ^ 64) :=
        fun h => h2 h.1
      rw [if_pos (not_not.mp (mt product_fits_iff.mp h2)), if_neg hno]
      rfl
  · have hno : ¬((value % multDen).toNat * multNum.toNat < 2 ^ 64 ∧
        value.toNat * multNum.toNat / multDen.toNat < 2 ^ 64) := by
      rw [hsplit]
      exact fun h => h1 (Nat.lt_of_le_of_lt (Nat.le_add_right _ _) h.2)
    dsimp only
    rw [if_pos (not_not.mp (mt product_fits_iff.mp h1)), if_neg hno]
    rfl

/-- The bond is the exact number or an overflow, unless the second product overflows although
the number fits. -/
theorem requiredValueScaled_exact_iff (value multNum multDen : UInt64) (hden : 1 ≤ multDen) :
    requiredValueScaled value multNum multDen =
      (if value.toNat * multNum.toNat / multDen.toNat ≤ 2 ^ 64 - 1 then
        .ok (UInt64.ofNat (value.toNat * multNum.toNat / multDen.toNat))
      else .error .overflow) ↔
    value.toNat % multDen.toNat * multNum.toNat < 2 ^ 64 ∨
    2 ^ 64 ≤ value.toNat * multNum.toNat / multDen.toNat := by
  have hne : multDen ≠ 0 := by
    rintro rfl
    exact absurd hden (by decide)
  rw [requiredValueScaled_eq hne]
  by_cases hfits : value.toNat * multNum.toNat / multDen.toNat < 2 ^ 64
  · by_cases hsecond : value.toNat % multDen.toNat * multNum.toNat < 2 ^ 64
    · rw [if_pos ⟨hsecond, hfits⟩, if_pos (by omega)]
      exact iff_of_true rfl (.inl hsecond)
    · rw [if_neg (fun h => hsecond h.1), if_pos (by omega)]
      apply iff_of_false
      · simp
      · omega
  · rw [if_neg (fun h => hfits h.2), if_neg (by omega)]
    exact iff_of_true rfl (.inr (by omega))

theorem requiredValueScaled_exact_iff_half : (1 : UInt64) ≤ 2 ∧
    (requiredValueScaled 7 3 2 =
      (if (7 : UInt64).toNat * (3 : UInt64).toNat / (2 : UInt64).toNat ≤ 2 ^ 64 - 1 then
        .ok (UInt64.ofNat ((7 : UInt64).toNat * (3 : UInt64).toNat / (2 : UInt64).toNat))
        else .error .overflow) ↔
      (7 : UInt64).toNat % (2 : UInt64).toNat * (3 : UInt64).toNat < 2 ^ 64 ∨
        2 ^ 64 ≤ (7 : UInt64).toNat * (3 : UInt64).toNat / (2 : UInt64).toNat) :=
  ⟨by decide, requiredValueScaled_exact_iff 7 3 2 (by decide)⟩

/-- The bond is 2, but the second product overflows. -/
theorem requiredValueScaled_gives_up :
    requiredValueScaled 0x8000000000000000 4 0xffffffffffffffff = .error .overflow ∧
      0x8000000000000000 * 4 / 0xffffffffffffffff = 2 ∧ 2 ≤ 2 ^ 64 - 1 := by
  decide +kernel

end ValueScaled

end AntsClient.Economy.Bonds
