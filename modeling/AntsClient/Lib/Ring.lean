import Mathlib.Data.List.Rotate

namespace AntsClient.Lib.Ring

open List

variable {α : Type} {cap : Nat}

/-- A buffer of `cap` slots: `head` is the next to write, and the `count` written last are in use.
-/
structure Buffer (α : Type) (cap : Nat) where
  slots : List α
  head : Nat
  count : Nat
  length_slots : slots.length = cap
  head_lt : head < cap
  count_le : count ≤ cap

namespace Buffer

def oldest (r : Buffer α cap) : Nat := (r.head + cap - r.count) % cap

def inOrder (r : Buffer α cap) : List α := (range r.count).filterMap fun k => r.slots[(r.oldest + k) % cap]?

def stored (r : Buffer α cap) : List α := r.slots.take r.count

def push (x : α) (r : Buffer α cap) : Buffer α cap where
  slots := r.slots.set r.head x
  head := (r.head + 1) % cap
  count := if r.count < cap then r.count + 1 else r.count
  length_slots := (length_set ..).trans r.length_slots
  head_lt := Nat.mod_lt _ (Nat.zero_lt_of_lt r.head_lt)
  count_le := by
    split
    · assumption
    · exact r.count_le

/-- The slots in use are the first ones: the writes have not come round yet, or every
slot is in use. -/
def Packed (r : Buffer α cap) : Prop := r.count < cap → r.head = r.count

end Buffer

def lastOf (n : Nat) (xs : List α) : List α := xs.drop (xs.length - n)

theorem lastOf_append_lastOf (n : Nat) (xs ys : List α) :
    lastOf n (lastOf n xs ++ ys) = lastOf n (xs ++ ys) := by
  obtain hle | hgt := Nat.le_total xs.length n
  · rw [show lastOf n xs = xs by rw [lastOf, Nat.sub_eq_zero_of_le hle, drop_zero]]
  · have hlen : (lastOf n xs).length = n := by
      rw [lastOf, length_drop]
      exact Nat.sub_sub_self hgt
    have hcut : lastOf n xs ++ ys = (xs ++ ys).drop (xs.length - n) :=
      (drop_append_of_le_length (Nat.sub_le _ _)).symm
    rw [lastOf, hcut, drop_drop, lastOf, length_drop, length_append]
    congr 1
    omega

theorem filterMap_getElem?_range (xs : List α) (n : Nat) :
    (range n).filterMap (fun k => xs[k]?) = xs.take n := by
  induction n with
  | zero => rfl
  | succ n ih =>
    rw [range_succ, filterMap_append, ih, take_add_one]
    cases h : xs[n]? <;> simp [h]

/-- The slots in the order of writing end with the one before `head`. -/
theorem inOrder_eq (r : Buffer α cap) : r.inOrder = (r.slots.rotate r.head).drop (cap - r.count) := by
  have hstart : r.slots.rotate r.oldest = (r.slots.rotate r.head).rotate (cap - r.count) := by
    have hmod := rotate_mod r.slots (r.head + cap - r.count)
    rw [r.length_slots] at hmod
    rw [Buffer.oldest, rotate_rotate, ← Nat.add_sub_assoc r.count_le, hmod]
  have hlen : (r.slots.rotate r.head).length = cap := (length_rotate ..).trans r.length_slots
  have hread : r.inOrder = (range r.count).filterMap fun k => (r.slots.rotate r.oldest)[k]? := by
    apply filterMap_congr
    intro k hk
    have hk' : k < r.slots.length := (mem_range.mp hk).trans_le (r.count_le.trans r.length_slots.ge)
    rw [getElem?_rotate hk', r.length_slots, Nat.add_comm]
  rw [hread, filterMap_getElem?_range, hstart, rotate_eq_drop_append_take (by omega)]
  apply take_left'
  rw [length_drop, hlen]
  exact Nat.sub_sub_self r.count_le

theorem length_inOrder (r : Buffer α cap) : r.inOrder.length = r.count := by
  rw [inOrder_eq, length_drop, length_rotate, r.length_slots]
  exact Nat.sub_sub_self r.count_le

theorem rotate_push (x : α) (r : Buffer α cap) :
    (r.push x).slots.rotate (r.push x).head = (r.slots.rotate r.head).tail ++ [x] := by
  have hhead : r.head < r.slots.length := r.head_lt.trans_eq r.length_slots.symm
  have hwrite : (r.push x).slots = r.slots.take r.head ++ x :: r.slots.drop (r.head + 1) :=
    set_eq_take_append_cons_drop.trans (if_pos hhead)
  have hlen : (r.push x).slots.length = cap := (r.push x).length_slots
  have hturn : (r.push x).slots.rotate (r.push x).head = (r.push x).slots.rotate (r.head + 1) := by
    rw [← rotate_mod (r.push x).slots (r.head + 1), hlen]
    rfl
  have hold : r.slots.rotate r.head = r.slots.get ⟨r.head, hhead⟩ ::
      (r.slots.drop (r.head + 1) ++ r.slots.take r.head) := by
    rw [rotate_eq_drop_append_take hhead.le, drop_eq_getElem_cons hhead]
    rfl
  rw [hturn, hold, hwrite, append_cons, show r.head + 1 = (r.slots.take r.head ++ [x]).length by
    rw [length_append, length_take_of_le hhead.le]; rfl, rotate_append_length_eq]
  simp

theorem inOrder_push (x : α) (r : Buffer α cap) : (r.push x).inOrder = lastOf cap (r.inOrder ++ [x]) := by
  have hlen : (r.slots.rotate r.head).length = cap := (length_rotate ..).trans r.length_slots
  rw [lastOf, length_append, length_inOrder, inOrder_eq, rotate_push, inOrder_eq]
  obtain ⟨y, ys, hys⟩ := exists_cons_of_length_pos (hlen ▸ Nat.zero_lt_of_lt r.head_lt)
  have hys' : ys.length + 1 = cap := by rw [← hlen, hys, length_cons]
  rw [hys, tail_cons]
  obtain hroom | hfull := Nat.lt_or_ge r.count cap
  · have hcount : (r.push x).count = r.count + 1 := if_pos hroom
    rw [hcount, show cap - r.count = (cap - (r.count + 1)) + 1 by omega, drop_succ_cons,
      drop_append_of_le_length (by omega), length_singleton, Nat.sub_eq_zero_of_le (Nat.succ_le_of_lt hroom),
      drop_zero]
  · have hcount : (r.push x).count = r.count := if_neg (Nat.not_lt.mpr hfull)
    have heq : r.count = cap := Nat.le_antisymm r.count_le hfull
    rw [hcount, heq, Nat.sub_self, length_singleton, Nat.add_sub_cancel_left]
    rfl

namespace Buffer

theorem Packed.push {r : Buffer α cap} (h : r.Packed) (x : α) : (r.push x).Packed := by
  intro hlt
  by_cases hroom : r.count < cap
  · have hcount : (r.push x).count = r.count + 1 := if_pos hroom
    rw [hcount] at hlt ⊢
    change (r.head + 1) % cap = _
    rw [h hroom, Nat.mod_eq_of_lt hlt]
  · have hcount : (r.push x).count = r.count := if_neg hroom
    exact absurd (hcount ▸ hlt) hroom

theorem Packed.stored_perm {r : Buffer α cap} (h : r.Packed) : r.stored.Perm r.inOrder := by
  rw [inOrder_eq, stored]
  obtain hroom | hfull := Nat.lt_or_ge r.count cap
  · rw [h hroom, rotate_eq_drop_append_take (r.count_le.trans r.length_slots.ge), drop_left']
    rw [length_drop, r.length_slots]
  · have heq : r.count = cap := Nat.le_antisymm r.count_le hfull
    rw [heq, Nat.sub_self, drop_zero, take_of_length_le r.length_slots.le]
    exact (rotate_perm ..).symm

def refill (stale : List α) (hstale : stale.length = cap) (hcap : 0 < cap) (xs : List α)
    (hxs : xs.length ≤ cap) : Buffer α cap where
  slots := xs ++ stale.drop xs.length
  head := if xs.length = cap then 0 else xs.length
  count := xs.length
  length_slots := by
    rw [length_append, length_drop, hstale]
    exact Nat.add_sub_of_le hxs
  head_lt := by
    split
    · exact hcap
    · rename_i hne
      exact Nat.lt_of_le_of_ne hxs hne
  count_le := hxs

section Refill

variable {stale xs : List α} (hstale : stale.length = cap) (hcap : 0 < cap) (hxs : xs.length ≤ cap)

theorem refill_packed : (refill stale hstale hcap xs hxs).Packed := fun hlt => if_neg (Nat.ne_of_lt hlt)

/-- A buffer filled from a list holds the list, in order. -/
theorem inOrder_refill : (refill stale hstale hcap xs hxs).inOrder = xs := by
  rw [inOrder_eq]
  obtain hroom | hfull := Nat.lt_or_ge xs.length cap
  · have hhead : (refill stale hstale hcap xs hxs).head = xs.length := if_neg (Nat.ne_of_lt hroom)
    rw [hhead]
    change List.drop (cap - xs.length) ((xs ++ stale.drop xs.length).rotate xs.length) = xs
    rw [rotate_append_length_eq, drop_left']
    rw [length_drop, hstale]
  · have heq : xs.length = cap := Nat.le_antisymm hxs hfull
    have hhead : (refill stale hstale hcap xs hxs).head = 0 := if_pos heq
    rw [hhead, rotate_zero]
    change List.drop (cap - xs.length) (xs ++ stale.drop xs.length) = xs
    rw [heq, Nat.sub_self, drop_zero, drop_of_length_le hstale.le, append_nil]

end Refill

end Buffer

end AntsClient.Lib.Ring
