import AntsClient.Cbor.Sizes
import AntsClient.Chain.FieldReaders
import AntsClient.Economy.Ledger

namespace AntsClient.Economy.LedgerCodec

open Common Cbor Codec Tokens EncoderSpec Values Canonical Schema Sizes Value Crypto Crdt.Proof
  Chain FieldReaders Blocks Lib Outcome Ring
  Saturating Ledger List

def recordEncodedMax : Nat := 1024

def encKvBool (key : UInt64) (val : Bool) : EncM Unit := do
  encUint key
  encBool val

def encSamples : List Sample → EncM Unit
  | [] => return ()
  | s :: rest => do
    encArray 2
    encUint s.unixS
    encUint s.amountUncs
    encSamples rest

def encRecord (r : Peer) : EncM Unit := do
  encMap 8
  encKvBytes 1 r.peerId.val
  encKvUint 2 r.servedTo
  encKvUint 3 r.servedBy
  encKvUint 4 r.sinceUnixS
  encKvUint 5 r.lastUpdateUnixS
  encKvUint 6 r.qualityQ14k.toUInt64
  encKvBool 7 r.choked
  encUint 8
  encArray (UInt64.ofNat r.recent.count)
  encSamples r.recent.inOrder

def recordEncode (r : Peer) (buf : Bytes) : Except Error Bytes := encodeBuf (encRecord r) buf

def decodeBoolField (key : UInt64) : DecM Bool := do
  expectKey key
  normDecode decBool

def decodeSamples : (n : Nat) → DecM { samples : List Sample // samples.length = n }
  | 0 => return ⟨[], rfl⟩
  | n + 1 => do
    let two ← normDecode decArray
    if two ≠ 2 then throw .malformed
    let ts ← normDecode decUint
    let amt ← normDecode decUint
    let rest ← decodeSamples n
    return ⟨⟨ts, amt⟩ :: rest.val, congrArg Nat.succ rest.property⟩

theorem recentSamples_pos : 0 < recentSamples := by decide

/-- The samples go over the first slots of the caller's record, the others stay as they were. -/
def decodeRecent (old : Peer) (n : Nat) : DecM (Buffer Sample recentSamples) :=
  if h : n ≤ recentSamples then do
    let samples ← decodeSamples n
    return .refill old.recent.slots old.recent.length_slots recentSamples_pos samples.val
      (samples.property.le.trans h)
  else throw .malformed

def decodeRecord (old : Peer) : DecM Peer := do
  decodePairs 8
  let peerId ← decodeBytesField 1
  let servedTo ← decodeUintField 2
  let servedBy ← decodeUintField 3
  let sinceUnixS ← decodeUintField 4
  let lastUpdateUnixS ← decodeUintField 5
  let u ← decodeUintField 6
  if u > 65535 then throw .malformed
  let choked ← decodeBoolField 7
  expectKey 8
  let n ← normDecode decArray
  let recent ← decodeRecent old n.toNat
  decodeFinish
  return ⟨peerId, servedTo, servedBy, sinceUnixS, lastUpdateUnixS, u.toUInt16, choked, recent⟩

def recordDecode (buf : Bytes) (old : Peer) : Except Error Peer := runDec (decodeRecord old) buf

/-- What a record says, with the receipts in their order and no trace of where they lie. -/
structure Book where
  peerId : Bytes32
  servedTo : UInt64
  servedBy : UInt64
  sinceUnixS : UInt64
  lastUpdateUnixS : UInt64
  qualityQ14k : UInt16
  choked : Bool
  recent : List Sample

def book (r : Peer) : Book :=
  ⟨r.peerId, r.servedTo, r.servedBy, r.sinceUnixS, r.lastUpdateUnixS, r.qualityQ14k, r.choked, r.recent.inOrder⟩

def sampleValue (s : Sample) : Value := .array [.uint s.unixS.toNat, .uint s.amountUncs.toNat]

def bookFields (b : Book) : List (Value × Value) :=
  [(.uint 1, .bytes b.peerId.val), (.uint 2, .uint b.servedTo.toNat), (.uint 3, .uint b.servedBy.toNat),
    (.uint 4, .uint b.sinceUnixS.toNat), (.uint 5, .uint b.lastUpdateUnixS.toNat),
    (.uint 6, .uint b.qualityQ14k.toUInt64.toNat), (.uint 7, .bool b.choked),
    (.uint 8, .array (b.recent.map sampleValue))]

def bookValue (b : Book) : Value := .map (bookFields b)

section Encode

def sampleTokens (s : Sample) : List Token := [.array 2, .uint s.unixS.toNat, .uint s.amountUncs.toNat]

theorem tokens_sample (s : Sample) : tokens (sampleValue s) = sampleTokens s := by
  simp [sampleValue, sampleTokens, tokens, tokensList]

theorem tokens_book (b : Book) : tokens (bookValue b) =
    [.map 8, .uint 1, .bytes b.peerId.val, .uint 2, .uint b.servedTo.toNat, .uint 3,
      .uint b.servedBy.toNat, .uint 4,
      .uint b.sinceUnixS.toNat, .uint 5, .uint b.lastUpdateUnixS.toNat, .uint 6,
      .uint b.qualityQ14k.toUInt64.toNat,
      .uint 7, .bool b.choked, .uint 8, .array b.recent.length] ++ b.recent.flatMap sampleTokens := by
  simp [bookValue, bookFields, tokens, tokensPairs, tokensList_eq, flatMap_map, tokens_sample]

theorem encSamples_eq (samples : List Sample) :
    encSamples samples = encCalls ((samples.flatMap sampleTokens).map Token.call) := by
  induction samples with
  | nil => rfl
  | cons s samples ih =>
    rw [encSamples, ih]
    simp [sampleTokens, Token.call, encCalls, encCall]

theorem encRecord_eq (r : Peer) : encRecord r = encCalls (calls (bookValue (book r))) := by
  rw [calls, tokens_book, book, length_inOrder]
  simp [encRecord, encKvBytes, encKvUint, encKvBool, encSamples_eq, Token.call, encCalls, encCall]

theorem book_wellFormed {b : Book} (h : b.recent.length < 2 ^ 64) : WellFormed (bookValue b) := by
  have hsample : ∀ s ∈ b.recent, Within 1 (sampleValue s) := fun s _ => within_array (by simp) (by simp)
  have hwithin : Within 3 (bookValue b) := by
    apply within_fields [1, 2, 3, 4, 5, 6, 7, 8] rfl (by decide)
    simp [bookFields, within_array_map h hsample]
  exact hwithin.wellFormed (by decide)

theorem book_fits {b : Book} (h : b.recent.length ≤ recentSamples) :
    (encode (bookValue b)).length ≤ recordEncodedMax := by
  have hrecent := encode_list_length fun s (_ : s ∈ b.recent) => encode_pair_length s.unixS s.amountUncs
  have hhead := head_length_le 4 (b.recent.map sampleValue).length
  have harray : (encode (.array (b.recent.map sampleValue))).length ≤ 9 + b.recent.length * 19 := by
    rw [encode_array, length_append]
    exact Nat.add_le_add hhead hrecent
  refine (encode_fields_length [1, 2, 3, 4, 5, 6, 7, 8] rfl (by decide)
    [35, 9, 9, 9, 9, 9, 1, 9 + b.recent.length * 19]
    (by simp [bookFields, encode_bool_length, harray])).trans ?_
  rw [recentSamples] at h
  simp only [recordEncodedMax, sum_cons, sum_nil, length_cons, length_nil]
  omega

theorem recent_le (r : Peer) : (book r).recent.length ≤ recentSamples :=
  (length_inOrder r.recent).trans_le r.recent.count_le

theorem recent_lt (r : Peer) : (book r).recent.length < 2 ^ 64 := (recent_le r).trans_lt (by decide)

theorem recordEncode_eq (r : Peer) (buf : Bytes) :
    recordEncode r buf = encodeInto (bookValue (book r)) buf := by
  rw [recordEncode, encRecord_eq]
  rfl

end Encode

section Decode

variable {us : List Token}

theorem takes_decodeSamples (samples : List Sample) :
    Takes (decodeSamples samples.length) (samples.flatMap sampleTokens ++ us) us ⟨samples, rfl⟩ := by
  induction samples with
  | nil => exact takes_pure
  | cons s samples ih =>
    apply Takes.bind (takes_normDecode (@takes_array _ 2))
    rw [if_neg (not_not.mpr rfl)]
    apply Takes.bind (takes_normDecode takes_uint)
    apply Takes.bind (takes_normDecode takes_uint)
    exact ih.bind takes_pure

theorem takes_decodeRecent (old : Peer) {samples : List Sample} (h : samples.length ≤ recentSamples) :
    Takes (decodeRecent old samples.length) (samples.flatMap sampleTokens ++ us) us
      (.refill old.recent.slots old.recent.length_slots (by decide) samples h) := by
  rw [decodeRecent, dif_pos h]
  exact (takes_decodeSamples samples).bind takes_pure

theorem takes_decodeBoolField {key : UInt64} {v : Bool} :
    Takes (decodeBoolField key) (.uint key.toNat :: .bool v :: us) us v :=
  takes_expectKey.bind (takes_normDecode takes_bool)

def reopened (old : Peer) (b : Book) (h : b.recent.length ≤ recentSamples) : Peer :=
  ⟨b.peerId, b.servedTo, b.servedBy, b.sinceUnixS, b.lastUpdateUnixS, b.qualityQ14k, b.choked,
    .refill old.recent.slots old.recent.length_slots recentSamples_pos b.recent h⟩

theorem book_reopened (old : Peer) (b : Book) (h : b.recent.length ≤ recentSamples) :
    book (reopened old b h) = b := by
  rw [book, reopened, Buffer.inOrder_refill]

theorem takes_decodeRecord (old : Peer) (b : Book) (h : b.recent.length ≤ recentSamples) :
    Takes (decodeRecord old) (tokens (bookValue b)) [] (reopened old b h) := by
  have hn : (UInt64.ofNat b.recent.length).toNat = b.recent.length := ofNat_toNat (h.trans_lt (by decide))
  have hquality : ¬ b.qualityQ14k.toUInt64 > 65535 := by
    have hlt := b.qualityQ14k.toNat_lt
    rw [gt_iff_lt, UInt64.lt_iff_toNat_lt, UInt16.toNat_toUInt64]
    exact Nat.not_lt.mpr (Nat.le_of_lt_succ hlt)
  rw [tokens_book, ← hn]
  apply Takes.bind (@takes_decodePairs _ 8)
  apply Takes.bind takes_decodeBytesField
  apply Takes.bind takes_decodeUintField
  apply Takes.bind takes_decodeUintField
  apply Takes.bind takes_decodeUintField
  apply Takes.bind takes_decodeUintField
  apply Takes.bind takes_decodeUintField
  rw [if_neg hquality]
  apply Takes.bind takes_decodeBoolField
  apply Takes.bind takes_expectKey
  apply Takes.bind (takes_normDecode takes_array)
  rw [hn]
  have hrecent : Takes (decodeRecent old b.recent.length) (b.recent.flatMap sampleTokens ++ []) []
    _ := takes_decodeRecent old h
  rw [append_nil] at hrecent
  apply hrecent.bind
  apply takes_decodeFinish.bind
  rw [UInt16.toUInt16_toUInt64]
  exact takes_pure

theorem recordDecode_encode (old : Peer) (b : Book) (h : b.recent.length ≤ recentSamples) :
    recordDecode (encode (bookValue b)) old = .ok (reopened old b h) :=
  runDec_of_takes (book_wellFormed (h.trans_lt (by decide))) (takes_decodeRecord old b h)

end Decode

inductive Query
  | call (c : Ledger.Call)
  | generosity (now window : UInt64)
  | netBalance
  | recordEncode (buf : Bytes)

inductive Reply
  | status (err : Option Error)
  | uncs (sum : UInt64)
  | net (balance : Except Error Int)
  | encoded (bytes : Except Error Bytes)

def status {α : Type} : EStateM.Result Error Peer α → Option Error
  | .ok _ _ => none
  | .error err _ => some err

def reply (r : Peer) : Query → Reply
  | .call c => .status (status (act c r))
  | .generosity now window => .uncs (Ledger.generosity r now window)
  | .netBalance => .net (Ledger.netBalance r)
  | .recordEncode buf => .encoded (LedgerCodec.recordEncode r buf)

def proceed (r : Peer) : Query → Peer
  | .call c => step r c
  | _ => r

def replies : Peer → List Query → List Reply
  | _, [] => []
  | r, q :: queries => reply r q :: replies (proceed r q) queries

section Bisimulation

/-- Two records that say the same and differ at most in where the receipts lie. -/
structure Same (r r' : Peer) : Prop where
  packed : r.recent.Packed
  packed' : r'.recent.Packed
  books : book r = book r'

variable {r r' : Peer}

theorem credit_same {total : Peer → UInt64} {store : Peer → UInt64 → Peer} (htotal : total r = total r')
    (hstore : ∀ t, book (store r t) = book (store r' t)) (hbooks : book r = book r') (amount now : UInt64) :
    status (credit total store amount now r) = status (credit total store amount now r') ∧
      book (after (credit total store amount now r)) = book (after (credit total store amount now r')) := by
  rw [credit_eq, credit_eq, htotal]
  split
  · exact ⟨rfl, hbooks⟩
  · constructor
    · rfl
    · have hstored := hstore (total r' + amount)
      split
      · exact congrArg (fun b : Book => { b with lastUpdateUnixS := now }) hstored
      · exact hstored

theorem creditServedTo_same (hbooks : book r = book r') (amount now : UInt64) :
    status (creditServedTo amount now r) = status (creditServedTo amount now r') ∧
      book (after (creditServedTo amount now r)) = book (after (creditServedTo amount now r')) := by
  apply credit_same
  · exact congrArg Book.servedTo hbooks
  · intro t
    exact congrArg (fun b : Book => { b with servedTo := t }) hbooks
  · exact hbooks

theorem creditServedBy_same (hbooks : book r = book r') (amount now : UInt64) :
    status (creditServedBy amount now r) = status (creditServedBy amount now r') ∧
      book (after (creditServedBy amount now r)) = book (after (creditServedBy amount now r')) := by
  apply credit_same
  · exact congrArg Book.servedBy hbooks
  · intro t
    exact congrArg (fun b : Book => { b with servedBy := t }) hbooks
  · exact hbooks

theorem recordRecv_same (hbooks : book r = book r') (amount now : UInt64) :
    status (recordRecv amount now r) = status (recordRecv amount now r') ∧
      book (after (recordRecv amount now r)) = book (after (recordRecv amount now r')) := by
  obtain ⟨hstatus, hcredit⟩ := creditServedBy_same hbooks amount now
  rw [recordRecv_eq, recordRecv_eq]
  cases h : creditServedBy amount now r with
  | error err s =>
    cases h' : creditServedBy amount now r' with
    | error err' s' =>
      rw [h, h'] at hstatus hcredit
      exact ⟨hstatus, hcredit⟩
    | ok u s' =>
      rw [h, h'] at hstatus
      cases hstatus
  | ok u s =>
    cases h' : creditServedBy amount now r' with
    | error err' s' =>
      rw [h, h'] at hstatus
      cases hstatus
    | ok u' s' =>
      rw [h, h'] at hcredit
      -- The new receipt goes behind the receipts that both records hold.
      have hpush : ∀ t : Peer, book { t with recent := t.recent.push ⟨now, amount⟩ } =
          { book t with recent := lastOf recentSamples ((book t).recent ++ [⟨now, amount⟩]) } := by
        intro t
        rw [book, inOrder_push]
        rfl
      refine ⟨rfl, (hpush s).trans ?_⟩
      have hsame : book s = book s' := hcredit
      rw [hsame]
      exact (hpush s').symm

theorem act_same (hbooks : book r = book r') (c : Ledger.Call) :
    status (act c r) = status (act c r') ∧ book (step r c) = book (step r' c) := by
  cases c with
  | creditServedTo amount now => exact creditServedTo_same hbooks amount now
  | creditServedBy amount now => exact creditServedBy_same hbooks amount now
  | recordRecv amount now => exact recordRecv_same hbooks amount now

theorem generosity_same (h : Same r r') (now window : UInt64) :
    generosity r now window = generosity r' now window := by
  rw [generosity_eq h.packed, generosity_eq h.packed',
    show r.recent.inOrder = r'.recent.inOrder from congrArg Book.recent h.books]

theorem netBalance_same (hbooks : book r = book r') : netBalance r = netBalance r' := by
  rw [netBalance, netBalance, show r.servedTo = r'.servedTo from congrArg Book.servedTo hbooks,
    show r.servedBy = r'.servedBy from congrArg Book.servedBy hbooks]

theorem reply_same (h : Same r r') (q : Query) : reply r q = reply r' q := by
  cases q with
  | call c => exact congrArg Reply.status (act_same h.books c).1
  | generosity now window => exact congrArg Reply.uncs (generosity_same h now window)
  | netBalance => exact congrArg Reply.net (netBalance_same h.books)
  | recordEncode buf =>
    apply congrArg Reply.encoded
    rw [recordEncode_eq, recordEncode_eq, h.books]

theorem proceed_same (h : Same r r') (q : Query) : Same (proceed r q) (proceed r' q) := by
  cases q with
  | call c => exact ⟨step_packed h.packed c, step_packed h.packed' c, (act_same h.books c).2⟩
  | generosity now window => exact h
  | netBalance => exact h
  | recordEncode buf => exact h

theorem replies_same (h : Same r r') (queries : List Query) : replies r queries = replies r' queries := by
  induction queries generalizing r r' with
  | nil => rfl
  | cons q queries ih => rw [replies, replies, reply_same h q, ih (proceed_same h q)]

end Bisimulation

/-- The generosity of a record is the saturating sum over the last receipts in the window, and a
record read back from its encoding cannot be told from it. -/
theorem persistence_unobservable (peerId : Bytes32) (start : UInt64) (calls : List Ledger.Call) :
    (∀ now window : UInt64, (generosity (run calls (peerInit peerId start)) now window).toNat =
      min (((lastOf recentSamples (receipts calls (peerInit peerId start))).filter
        fun s => s.unixS = 0 ∨ now.toNat ≤ s.unixS.toNat + window.toNat).map fun s =>
        s.amountUncs.toNat).sum (2 ^ 64 - 1)) ∧
    (∀ buf : Bytes, recordEncodedMax ≤ buf.length → ∃ bytes,
      recordEncode (run calls (peerInit peerId start)) buf = .ok bytes) ∧
    ∀ (buf bytes : Bytes) (old : Peer), recordEncode (run calls (peerInit peerId start)) buf = .ok bytes →
      ∃ r, recordDecode bytes old = .ok r ∧
        ∀ queries, replies r queries = replies (run calls (peerInit peerId start)) queries := by
  have hwell := book_wellFormed (recent_lt (run calls (peerInit peerId start)))
  have hfits := book_fits (recent_le (run calls (peerInit peerId start)))
  refine ⟨fun now window => ?_, fun buf hbuf => ?_, fun buf bytes old henc => ?_⟩
  · rw [generosity_run, toNat_satSum, map_map]
    congr 3
    apply filter_congr
    intro s _
    rw [Bool.eq_iff_iff, inWindow_iff, decide_eq_true_eq]
  · rw [recordEncode_eq]
    exact ⟨_, (encodeInto_iff hwell).mpr ⟨rfl, hfits.trans hbuf⟩⟩
  · rw [recordEncode_eq, encodeInto_iff hwell] at henc
    obtain ⟨rfl, -⟩ := henc
    refine ⟨_, recordDecode_encode old _ (recent_le _), fun queries => replies_same ?_ queries⟩
    constructor
    · exact Buffer.refill_packed old.recent.length_slots (by decide) (recent_le _)
    · exact run_packed (peerInit_packed peerId start)
    · exact book_reopened ..

def traded : List Ledger.Call :=
  [.recordRecv 5 100, .recordRecv 7 0, .recordRecv uint64Max 200, .recordRecv 9 2000]

theorem persistence_unobservable_traded :
    (generosity (run traded (peerInit zero32 50)) 2000 1200).toNat = 16 ∧
    ∃ bytes r, recordEncode (run traded (peerInit zero32 50)) (List.replicate recordEncodedMax 0) = .ok bytes ∧
      recordDecode bytes (peerInit zero32 0) = .ok r ∧
      replies r [.call (.recordRecv 1 2001), .generosity 2001 1200] = [.status none, .uncs 17] := by
  obtain ⟨hsum, hencode, hdecode⟩ := persistence_unobservable zero32 50 traded
  obtain ⟨bytes, hbytes⟩ := hencode _ length_replicate.ge
  obtain ⟨r, hr, hreplies⟩ := hdecode _ bytes (peerInit zero32 0) hbytes
  refine ⟨(hsum 2000 1200).trans (by decide +kernel), bytes, r, hbytes, hr, ?_⟩
  rw [hreplies]
  rfl

end AntsClient.Economy.LedgerCodec
