import AntsClient.Crypto
import AntsClient.Lib.Outcome
import AntsClient.Lib.Ring
import AntsClient.Lib.Saturating

namespace AntsClient.Economy.Ledger

open Common Crypto Lib Outcome Ring Saturating

def recentSamples : Nat := 32

def qualityOne : UInt16 := 10000

structure Sample where
  unixS : UInt64
  amountUncs : UInt64
  deriving DecidableEq

structure Peer where
  peerId : Bytes32
  servedTo : UInt64
  servedBy : UInt64
  sinceUnixS : UInt64
  lastUpdateUnixS : UInt64
  qualityQ14k : UInt16
  choked : Bool
  recent : Buffer Sample recentSamples

abbrev LedgerM := EStateM Error Peer

def emptyRecent : Buffer Sample recentSamples :=
  ⟨List.replicate recentSamples ⟨0, 0⟩, 0, 0, rfl, by decide, by decide⟩

def peerInit (peerId : Bytes32) (now : UInt64) : Peer := ⟨peerId, 0, 0, now, now, qualityOne, true, emptyRecent⟩

def credit (total : Peer → UInt64) (store : Peer → UInt64 → Peer) (amount now : UInt64) : LedgerM Unit := do
  let r ← get
  if amount > uint64Max - total r then throw .overflow
  set (store r (total r + amount))
  if now ≠ 0 then modify fun r => { r with lastUpdateUnixS := now }

def creditServedTo (amount now : UInt64) : LedgerM Unit :=
  credit Peer.servedTo (fun r t => { r with servedTo := t }) amount now

def creditServedBy (amount now : UInt64) : LedgerM Unit :=
  credit Peer.servedBy (fun r t => { r with servedBy := t }) amount now

def recentPush (now amount : UInt64) : LedgerM Unit :=
  modify fun r => { r with recent := r.recent.push ⟨now, amount⟩ }

def recordRecv (amount now : UInt64) : LedgerM Unit := do
  creditServedBy amount now
  recentPush now amount

def int64Max : UInt64 := 0x7fffffffffffffff

def int64Min : Int := -0x8000000000000000

def netBalance (r : Peer) : Except Error Int :=
  if r.servedTo ≥ r.servedBy then
    let d := r.servedTo - r.servedBy
    if d > int64Max then .error .overflow else .ok d.toNat
  else
    let d := r.servedBy - r.servedTo
    if d > int64Max + 1 then .error .overflow
    else if d = int64Max + 1 then .ok int64Min
    else .ok (-d.toNat)

def inWindow (s : Sample) (now window : UInt64) : Bool :=
  if s.unixS = 0 ∨ now ≤ window then true else s.unixS ≥ now - window

def generosityFrom (now window : UInt64) : List Sample → UInt64 → UInt64
  | [], sum => sum
  | s :: rest, sum =>
    generosityFrom now window rest (if inWindow s now window then satAdd sum s.amountUncs else sum)

def generosity (r : Peer) (now window : UInt64) : UInt64 := generosityFrom now window r.recent.stored 0

variable {r : Peer}

section Generosity

theorem inWindow_iff {s : Sample} {now window : UInt64} :
    inWindow s now window = true ↔ s.unixS = 0 ∨ now.toNat ≤ s.unixS.toNat + window.toNat := by
  rw [inWindow]
  by_cases hzero : s.unixS = 0
  · simp [hzero]
  by_cases hnow : now ≤ window
  · have := UInt64.le_iff_toNat_le.mp hnow
    simp only [hnow, or_true, if_true, true_iff]
    right
    omega
  · have hlt : window ≤ now := UInt64.le_of_lt (UInt64.not_le.mp hnow)
    have := UInt64.le_iff_toNat_le.mp hlt
    simp only [hzero, hnow, or_self, if_false, decide_eq_true_eq, ge_iff_le, UInt64.le_iff_toNat_le,
      UInt64.toNat_sub_of_le _ _ hlt, false_or]
    omega

theorem generosityFrom_eq (now window : UInt64) (samples : List Sample) (sum : UInt64) :
    generosityFrom now window samples sum =
      ((samples.filter fun s => inWindow s now window).map Sample.amountUncs).foldl satAdd sum := by
  induction samples generalizing sum with
  | nil => rfl
  | cons s samples ih =>
    rw [generosityFrom, ih]
    by_cases h : inWindow s now window = true
    · rw [if_pos h, List.filter_cons, if_pos h, List.map_cons, List.foldl_cons]
    · rw [if_neg h, List.filter_cons, if_neg h]

theorem generosity_eq (h : r.recent.Packed) (now window : UInt64) : generosity r now window =
    satSum ((r.recent.inOrder.filter fun s => inWindow s now window).map Sample.amountUncs) := by
  rw [generosity, generosityFrom_eq]
  exact satSum_perm ((h.stored_perm.filter _).map _)

end Generosity

inductive Call
  | creditServedTo (amount now : UInt64)
  | creditServedBy (amount now : UInt64)
  | recordRecv (amount now : UInt64)

def act : Call → LedgerM Unit
  | .creditServedTo amount now => creditServedTo amount now
  | .creditServedBy amount now => creditServedBy amount now
  | .recordRecv amount now => recordRecv amount now

def step (r : Peer) (c : Call) : Peer := after (act c r)

def run (calls : List Call) (r : Peer) : Peer := calls.foldl step r

def receipt (r : Peer) (c : Call) : Option Sample :=
  match c with
  | .recordRecv amount now => if succeeded (act c r) then some ⟨now, amount⟩ else none
  | _ => none

def receipts : List Call → Peer → List Sample
  | [], _ => []
  | c :: calls, r => (receipt r c).toList ++ receipts calls (step r c)

section Runs

theorem credit_eq (total : Peer → UInt64) (store : Peer → UInt64 → Peer) (amount now : UInt64) (r : Peer) :
    credit total store amount now r = if amount > uint64Max - total r then .error .overflow r
      else .ok () (if now ≠ 0 then { store r (total r + amount) with lastUpdateUnixS := now }
        else store r (total r + amount)) := by
  rw [credit, get_bind_apply]
  by_cases h : amount > uint64Max - total r
  · rw [if_pos h, if_pos h, throw_bind_apply]
  · rw [if_neg h, if_neg h]
    by_cases hnow : now ≠ 0
    · simp only [if_pos hnow]
      rfl
    · simp only [if_neg hnow]
      rfl

theorem recordRecv_eq (amount now : UInt64) (r : Peer) :
    recordRecv amount now r = match creditServedBy amount now r with
      | .ok _ r' => .ok () { r' with recent := r'.recent.push ⟨now, amount⟩ }
      | .error err r' => .error err r' := by
  rw [recordRecv]
  cases h : creditServedBy amount now r with
  | ok u r' => exact bind_ok h
  | error err r' => exact bind_error h

theorem credit_recent {total : Peer → UInt64} {store : Peer → UInt64 → Peer}
    (hstore : ∀ r t, (store r t).recent = r.recent)
    (amount now : UInt64) (r : Peer) : (after (credit total store amount now r)).recent = r.recent := by
  rw [credit_eq]
  split
  · rfl
  · split
    · exact hstore r _
    · exact hstore r _

theorem creditServedTo_recent (amount now : UInt64) (r : Peer) :
    (after (creditServedTo amount now r)).recent = r.recent := by
  rw [creditServedTo]
  apply credit_recent
  intro r t
  rfl

theorem creditServedBy_recent (amount now : UInt64) (r : Peer) :
    (after (creditServedBy amount now r)).recent = r.recent := by
  rw [creditServedBy]
  apply credit_recent
  intro r t
  rfl

theorem step_recent (r : Peer) (c : Call) : (step r c).recent = (receipt r c).elim r.recent fun s =>
    r.recent.push s := by
  cases c with
  | creditServedTo amount now => exact creditServedTo_recent amount now r
  | creditServedBy amount now => exact creditServedBy_recent amount now r
  | recordRecv amount now =>
    have hcredit := creditServedBy_recent amount now r
    simp only [step, receipt, act, recordRecv_eq]
    cases h : creditServedBy amount now r with
    | ok u r' =>
      rw [h] at hcredit
      exact congrArg (Buffer.push ⟨now, amount⟩) hcredit
    | error err r' =>
      rw [h] at hcredit
      exact hcredit

theorem step_packed (h : r.recent.Packed) (c : Call) : (step r c).recent.Packed := by
  rw [step_recent]
  cases receipt r c with
  | none => exact h
  | some s => exact h.push s

theorem run_packed {calls : List Call} (h : r.recent.Packed) : (run calls r).recent.Packed := by
  induction calls generalizing r with
  | nil => exact h
  | cons c calls ih => exact ih (step_packed h c)

theorem step_inOrder (r : Peer) (c : Call) :
    (step r c).recent.inOrder = lastOf recentSamples (r.recent.inOrder ++ (receipt r c).toList) := by
  rw [step_recent]
  cases receipt r c with
  | none =>
    rw [Option.toList_none, List.append_nil, lastOf, length_inOrder, Nat.sub_eq_zero_of_le r.recent.count_le]
    rfl
  | some s => exact inOrder_push s r.recent

theorem run_inOrder (calls : List Call) (r : Peer) :
    (run calls r).recent.inOrder = lastOf recentSamples (r.recent.inOrder ++ receipts calls r) := by
  induction calls generalizing r with
  | nil =>
    rw [receipts, List.append_nil, lastOf, length_inOrder, Nat.sub_eq_zero_of_le r.recent.count_le]
    rfl
  | cons c calls ih =>
    rw [receipts, ← List.append_assoc, ← lastOf_append_lastOf, ← step_inOrder]
    exact ih (step r c)

theorem peerInit_packed (peerId : Bytes32) (now : UInt64) : (peerInit peerId now).recent.Packed := fun _ => rfl

theorem generosity_run (peerId : Bytes32) (start : UInt64) (calls : List Call) (now window : UInt64) :
    generosity (run calls (peerInit peerId start)) now window =
      satSum (((lastOf recentSamples (receipts calls (peerInit peerId start))).filter
        fun s => inWindow s now window).map Sample.amountUncs) := by
  rw [generosity_eq (run_packed (peerInit_packed peerId start)), run_inOrder]
  rfl

end Runs

end AntsClient.Economy.Ledger
