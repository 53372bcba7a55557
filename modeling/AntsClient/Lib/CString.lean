import Mathlib.Data.List.TakeWhile

namespace AntsClient.Lib.CString

open List

structure Text (cap : Nat) where
  chars : List UInt8
  length_chars : chars.length = cap

namespace Text

variable {cap : Nat}

def terminated (t : Text cap) : Bool := t.chars.contains 0

def first (t : Text cap) : UInt8 := t.chars.headD 0

def str (t : Text cap) : List UInt8 := t.chars.takeWhile (· ≠ 0)

def copy (cap : Nat) (p : List UInt8) : Text cap where
  chars := (p ++ replicate cap 0).take cap
  length_chars := by
    rw [length_take, length_append, length_replicate]
    exact Nat.min_eq_left (Nat.le_add_left ..)

theorem zero_notMem_str (t : Text cap) : 0 ∉ t.str := by
  intro h
  have := mem_takeWhile_imp h
  simp at this

theorem str_length_lt {t : Text cap} (h : t.terminated = true) : t.str.length < cap := by
  have hzero : 0 ∈ t.chars := contains_iff_mem.mp h
  obtain hlt | heq := ( List.takeWhile_prefix (l := t.chars) (· ≠ 0)).length_le.lt_or_eq
  · exact hlt.trans_eq t.length_chars
  · have hall : t.str = t.chars := ( List.takeWhile_prefix _).eq_of_length heq
    exact absurd (hall ▸ hzero) t.zero_notMem_str

theorem first_eq_zero_iff {t : Text cap} : t.first = 0 ↔ t.str = [] := by
  obtain ⟨chars, hchars⟩ := t
  cases chars with
  | nil => simp [first, str]
  | cons c chars => simp [first, str, takeWhile_cons]

variable {p : List UInt8}

theorem chars_copy (h : p.length < cap) : (copy cap p).chars = p ++ replicate (cap - p.length) 0 := by
  change (p ++ replicate cap 0).take cap = _
  rw [take_append, take_of_length_le h.le, take_replicate, Nat.min_eq_left (Nat.sub_le ..)]

theorem terminated_copy (h : p.length < cap) : (copy cap p).terminated = true := by
  rw [terminated, contains_iff_mem, chars_copy h]
  apply mem_append_right
  exact mem_replicate.mpr ⟨by omega, rfl⟩

/-- A copied text ends at its first zero byte. -/
theorem str_copy (h : p.length < cap) : (copy cap p).str = p.takeWhile (· ≠ 0) := by
  obtain ⟨n, hn⟩ : ∃ n, cap - p.length = n + 1 := ⟨cap - p.length - 1, by omega⟩
  rw [str, chars_copy h, hn, replicate_succ, takeWhile_append]
  split
  · rename_i hall
    rw [takeWhile_cons_of_neg (by simp), append_nil]
    exact (( List.takeWhile_prefix _).eq_of_length hall).symm
  · rfl

/-- Copying keeps a string whole exactly if no byte of it ends it. -/
theorem str_copy_eq_iff (h : p.length < cap) : (copy cap p).str = p ↔ 0 ∉ p := by
  rw [str_copy h, takeWhile_eq_self_iff]
  constructor
  · intro hall hzero
    simpa using hall 0 hzero
  · intro hzero c hc
    rw [decide_eq_true_eq]
    rintro rfl
    exact hzero hc

end Text

end AntsClient.Lib.CString
