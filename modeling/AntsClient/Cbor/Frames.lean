import AntsClient.Cbor.Codec

namespace AntsClient.Cbor.Frames

open Common Codec

/-- What an open container has received: its own bytes up to the open child, and those of its last
key. -/
structure Frame where
  kind : CtxKind
  remaining : Nat
  bytes : Bytes
  lastKey : Option Bytes
  deriving DecidableEq

def absorb (item : Bytes) : List Frame → Except Error (List Frame)
  | [] => .ok []
  | f :: rest =>
    if f.kind = .none ∨ f.remaining = 0 then .error .malformed
    else match f.kind with
      | .mapKey =>
        if ∀ k ∈ f.lastKey, k < item then
          .ok ({ f with kind := .mapValue, bytes := f.bytes ++ item, lastKey := some item } :: rest)
        else .error .nonCanonical
      | .mapValue =>
        if f.remaining - 1 = 0 then absorb (f.bytes ++ item) rest
        else .ok ({ f with kind := .mapKey, remaining := f.remaining - 1, bytes := f.bytes ++ item } :: rest)
      | _ =>
        if f.remaining - 1 = 0 then absorb (f.bytes ++ item) rest
        else .ok ({ f with remaining := f.remaining - 1, bytes := f.bytes ++ item } :: rest)

def frame (buf : Bytes) (endPos : Nat) (c : Ctx) : Frame :=
  ⟨c.kind, c.remaining, slice buf c.containerBegin endPos,
    if 0 < c.lastKeyEnd then some (slice buf c.lastKeyBegin c.lastKeyEnd) else none⟩

/-- The frames a context stack stands for; the bytes of a container end where
its open child begins. -/
def frames (buf : Bytes) : Nat → List Ctx → List Frame
  | _, [] => []
  | endPos, c :: cs => frame buf endPos c :: frames buf c.containerBegin cs

def Positioned : Nat → List Ctx → Prop
  | _, [] => True
  | endPos, c :: cs => c.containerBegin ≤ endPos ∧ c.lastKeyEnd ≤ endPos ∧ Positioned c.containerBegin cs

section Absorb

variable (item bs : Bytes) (n : Nat) (last : Option Bytes) (fs : List Frame)

theorem absorb_array_last : absorb item (⟨.array, 1, bs, last⟩ :: fs) = absorb (bs ++ item) fs := by
  simp [absorb]

theorem absorb_array_next : absorb item (⟨.array, n + 2, bs, last⟩ :: fs) =
      .ok (⟨.array, n + 1, bs ++ item, last⟩ :: fs) := by
  simp [absorb]

theorem absorb_tag : absorb item (⟨.tag, 1, bs, last⟩ :: fs) = absorb (bs ++ item) fs := by
  simp [absorb]

theorem absorb_key : absorb item (⟨.mapKey, n + 1, bs, last⟩ :: fs) =
    if ∀ k ∈ last, k < item then
    .ok (⟨.mapValue, n + 1, bs ++ item, some item⟩ :: fs) else .error .nonCanonical := by
  simp [absorb]

theorem absorb_value_last : absorb item (⟨.mapValue, 1, bs, last⟩ :: fs) = absorb (bs ++ item) fs := by
  simp [absorb]

theorem absorb_value_next : absorb item (⟨.mapValue, n + 2, bs, last⟩ :: fs) =
      .ok (⟨.mapKey, n + 1, bs ++ item, last⟩ :: fs) := by
  simp [absorb]

end Absorb

theorem frames_length (buf : Bytes) (endPos : Nat) (cs : List Ctx) :
    (frames buf endPos cs).length = cs.length := by
  induction cs generalizing endPos with
  | nil => rfl
  | cons c cs ih => simp [frames, ih]

variable {buf : Bytes} {endPos begin : Nat} {cs : List Ctx}

theorem frames_eq_nil : frames buf endPos cs = [] ↔ cs = [] := by
  rw [← List.length_eq_zero_iff, frames_length, List.length_eq_zero_iff]

theorem frames_congr {buf' : Bytes} {p : Nat} (h : buf.take p = buf'.take p)
    (hcs : Positioned endPos cs) (hp : endPos ≤ p) : frames buf endPos cs = frames buf' endPos cs := by
  induction cs generalizing endPos with
  | nil => rfl
  | cons c cs ih =>
    obtain ⟨hb, hk, ht⟩ := hcs
    simp only [frames, frame, slice_congr h hp, slice_congr h (hk.trans hp), ih ht (hb.trans hp)]

theorem compareKeys_cons (x y : UInt8) (xs ys : Bytes) :
    compareKeys (x :: xs) (y :: ys) = if x < y then .lt else if y < x then .gt else compareKeys xs ys := by
  have hmin : (if xs.length + 1 < ys.length + 1 then xs.length + 1 else ys.length + 1) =
      (if xs.length < ys.length then xs.length else ys.length) + 1 := by
    split <;> split <;> omega
  simp only [compareKeys, List.length_cons, hmin, List.take_succ_cons, memcmp]
  by_cases h : x < y
  · simp [h]
  · by_cases h' : y < x <;> simp [h, h']

theorem compareKeys_lt_iff (a b : Bytes) : compareKeys a b = .lt ↔ a < b := by
  induction a generalizing b with
  | nil => cases b <;> simp [compareKeys, memcmp]
  | cons x xs ih =>
    cases b with
    | nil => simp [compareKeys, memcmp]
    | cons y ys =>
      rw [compareKeys_cons, List.cons_lt_cons_iff, ← ih]
      by_cases hxy : x = y
      · subst hxy; simp
      · rcases UInt8.lt_or_lt_of_ne hxy with h | h
        · simp [h]
        · simp [h, UInt8.lt_asymm h, hxy]

theorem trackItem_frames {pos : Nat} (hcs : Positioned begin cs) (hlt : begin < pos) :
    (trackItem buf pos cs begin).map (frames buf pos) = absorb (slice buf begin pos) (frames buf begin cs) := by
  induction cs generalizing begin with
  | nil => rfl
  | cons c cs ih =>
    obtain ⟨hb, hk, ht⟩ := hcs
    have hglue : _ ++ slice buf begin pos = _ := slice_append hb hlt.le
    have hclose := ih ht (hb.trans_lt hlt)
    rw [← hglue] at hclose
    rw [trackItem, frames, absorb]
    simp only [frame]
    by_cases hbad : c.kind = .none ∨ c.remaining = 0
    · simp only [hbad, if_true, Except.map]
    · simp only [hbad, if_false]
      obtain ⟨kind, remaining, containerBegin, lastKeyBegin, lastKeyEnd⟩ := c
      cases kind with
      | none => simp at hbad
      | mapKey =>
        simp only [ne_eq, compareKeys_lt_iff]
        by_cases h0 : 0 < lastKeyEnd
        · by_cases hlt' : slice buf lastKeyBegin lastKeyEnd < slice buf begin pos
          · simp [h0, hlt', Except.map, frames, frame, hglue, (Nat.zero_le begin).trans_lt hlt]
          · simp [h0, hlt', Except.map]
        · simp [h0, Except.map, frames, frame, hglue, (Nat.zero_le begin).trans_lt hlt]
      | array | mapValue | tag =>
        by_cases hr : remaining - 1 = 0
        · simpa only [hr, if_true] using hclose
        · simp only [hr, if_false, Except.map, frames, frame, hglue]

theorem trackItem_positioned {pos : Nat} {cs' : List Ctx}
    (hcs : Positioned begin cs) (hlt : begin < pos) (h : trackItem buf pos cs begin = .ok cs') :
    Positioned pos cs' := by
  induction cs generalizing begin with
  | nil =>
    simp only [trackItem, Except.ok.injEq] at h
    subst h
    trivial
  | cons c cs ih =>
    obtain ⟨hb, hk, ht⟩ := hcs
    rw [trackItem] at h
    split at h
    · cases h
    · split at h
      · split at h
        · cases h
        · simp only [Except.ok.injEq] at h
          subst h
          exact ⟨hb.trans hlt.le, le_rfl, ht⟩
      all_goals
        split at h
        · exact ih ht (hb.trans_lt hlt) h
        · simp only [Except.ok.injEq] at h
          subst h
          exact ⟨hb.trans hlt.le, hk.trans hlt.le, ht⟩

end AntsClient.Cbor.Frames
