import AntsClient.Common
import Mathlib.Algebra.BigOperators.Intervals

namespace AntsClient.Tee.Validity

open Common Finset

/-- A computation over the signed types. It has no value once a result does not fit its type. -/
abbrev Checked := ExceptT Error Option

def fit (bound x : Int) : Checked Int := if -bound ≤ x ∧ x < bound then pure x else ExceptT.mk none

def int32 : Int → Checked Int := fit 2147483648

def int64 : Int → Checked Int := fit 9223372036854775808

def twoDigits : Bytes → Checked Int
  | a :: b :: _ => do
    if a < 0x30 ∨ a > 0x39 ∨ b < 0x30 ∨ b > 0x39 then throw .malformed
    int32 ((← int32 ((a.toNat - 0x30) * 10)) + (b.toNat - 0x30))
  | _ => throw .malformed

def daysFromCivil (y m d : Int) : Checked Int := do
  let y ← int64 (y - if m ≤ 2 then 1 else 0)
  let era := (← if y ≥ 0 then pure y else int64 (y - 399)).tdiv 400
  let yoe ← int64 (y - (← int64 (era * 400)))
  let months ← int32 (153 * (← int32 (m + if m > 2 then -3 else 9)))
  let doy ← int32 ((← int32 ((← int32 (months + 2)).tdiv 5 + d)) - 1)
  let doe ← int64 ((← int64 ((← int64 ((← int64 (yoe * 365)) + yoe.tdiv 4)) - yoe.tdiv 100)) + doy)
  int64 ((← int64 ((← int64 (era * 146097)) + doe)) - 719468)

def fieldsToEpoch (year : Int) (v : Bytes) : Checked Int := do
  let mon ← twoDigits v
  let day ← twoDigits (v.drop 2)
  let hh ← twoDigits (v.drop 4)
  let mm ← twoDigits (v.drop 6)
  let ss ← twoDigits (v.drop 8)
  if mon < 1 ∨ mon > 12 ∨ day < 1 ∨ day > 31 ∨ hh > 23 ∨ mm > 59 ∨ ss > 60 then throw .malformed
  let days ← int64 ((← daysFromCivil year mon day) * 86400)
  int64 ((← int64 ((← int64 (days + (← int64 (hh * 3600)))) + (← int64 (mm * 60)))) + ss)

def utcTimeTag : UInt8 := 0x17

def generalizedTimeTag : UInt8 := 0x18

def timeToEpoch (tag : UInt8) (v : Bytes) : Checked Int :=
  if tag = utcTimeTag then do
    if v.length ≠ 13 ∨ v.getD 12 0 ≠ 0x5a then throw .malformed
    let yy ← twoDigits v
    fieldsToEpoch (← int32 ((if yy < 50 then 2000 else 1900) + yy)) (v.drop 2)
  else if tag = generalizedTimeTag then do
    if v.length ≠ 15 ∨ v.getD 14 0 ≠ 0x5a then throw .malformed
    let hi ← twoDigits v
    let lo ← twoDigits (v.drop 2)
    fieldsToEpoch (← int32 ((← int32 (hi * 100)) + lo)) (v.drop 4)
  else throw .malformed

structure Cert where
  notBeforeTag : UInt8
  notBefore : Bytes
  notAfterTag : UInt8
  notAfter : Bytes

def withinValidity (c : Cert) (now : Int) : Checked Unit := do
  let nb ← timeToEpoch c.notBeforeTag c.notBefore
  let na ← timeToEpoch c.notAfterTag c.notAfter
  if now < nb ∨ now > na then throw .malformed

section Calendar

def Leap (y : Nat) : Prop := y % 4 = 0 ∧ (y % 100 ≠ 0 ∨ y % 400 = 0)

instance (y : Nat) : Decidable (Leap y) := inferInstanceAs (Decidable (_ ∧ _))

def yearDays (y : Nat) : Nat := if Leap y then 366 else 365

def monthDays (y m : Nat) : Nat :=
  if m = 2 then if Leap y then 29 else 28 else if m = 4 ∨ m = 6 ∨ m = 9 ∨ m = 11 then 30 else 31

def dayNumber (y m d : Nat) : Nat :=
  ∑ i ∈ range y, yearDays i + ∑ i ∈ range (m - 1), monthDays y (i + 1) + (d - 1)

structure Moment where
  year : Nat
  month : Nat
  day : Nat
  hour : Nat
  minute : Nat
  second : Nat
  year_le : year ≤ 9999
  month_mem : 1 ≤ month ∧ month ≤ 12
  day_mem : 1 ≤ day ∧ day ≤ monthDays year month
  hour_lt : hour < 24
  minute_lt : minute < 60
  second_lt : second < 60

def Moment.fields (t : Moment) : List Nat := [t.year, t.month, t.day, t.hour, t.minute, t.second]

def Moment.epoch (t : Moment) : Int :=
  86400 * (dayNumber t.year t.month t.day - dayNumber 1970 1 1) + (3600 * t.hour + 60 * t.minute + t.second)

def digits (n : Nat) : Bytes := [UInt8.ofNat (0x30 + n / 10), UInt8.ofNat (0x30 + n % 10)]

def Moment.text (t : Moment) : Bytes :=
  digits t.month ++ (digits t.day ++ (digits t.hour ++ (digits t.minute ++ (digits t.second ++ [0x5a]))))

/-- The tag and the text of the moment, in one of the two forms. -/
def Encodes (t : Moment) (tag : UInt8) (v : Bytes) : Prop :=
  tag = generalizedTimeTag ∧ v = digits (t.year / 100) ++ (digits (t.year % 100) ++ t.text) ∨
    tag = utcTimeTag ∧ 1950 ≤ t.year ∧ t.year ≤ 2049 ∧ v = digits (t.year % 100) ++ t.text

theorem leapDays_step (y : Nat) : (y : Int) / 4 - y / 100 + y / 400 =
    (y - 1) / 4 - (y - 1) / 100 + (y - 1) / 400 + if Leap y then 1 else 0 := by
  by_cases hfour : y % 4 = 0
  · by_cases hhundred : y % 100 = 0
    · by_cases hlong : y % 400 = 0
      · rw [if_pos ⟨hfour, .inr hlong⟩]
        omega
      · rw [if_neg fun hleap => hleap.2.elim (· hhundred) hlong]
        omega
    · rw [if_pos ⟨hfour, .inl hhundred⟩]
      omega
  · rw [if_neg fun hleap => hfour hleap.1]
    omega

theorem sum_yearDays (y : Nat) : ((∑ i ∈ range y, yearDays i : Nat) : Int) =
    365 * y + (y - 1) / 4 - (y - 1) / 100 + (y - 1) / 400 + 1 := by
  induction y with
  | zero => rfl
  | succ y ih =>
    have hstep := leapDays_step y
    have hdays : (yearDays y : Int) = 365 + if Leap y then 1 else 0 := by
      rw [yearDays]
      split <;> rfl
    rw [sum_range_succ, Nat.cast_add, ih, hdays, Nat.cast_succ, add_sub_cancel_right]
    linarith

theorem sum_monthDays {y m : Nat} (hm : 1 ≤ m ∧ m ≤ 12) : ∑ i ∈ range (m - 1), monthDays y (i + 1) =
    if m ≤ 2 then 31 * (m - 1) else (153 * (m - 3) + 2) / 5 + if Leap y then 60 else 59 := by
  obtain ⟨h, h'⟩ := hm
  by_cases hleap : Leap y
  · interval_cases m <;> simp [sum_range_succ, monthDays, hleap]
  · interval_cases m <;> simp [sum_range_succ, monthDays, hleap]

/-- The days that the closed form gives, from the first of March of year 0 on. -/
def civil (y m d : Int) : Int := 365 * y + y / 4 - y / 100 + y / 400 + (153 * m + 2) / 5 + d - 1

theorem dayNumber_eq_civil {y m d : Nat} (hm : 1 ≤ m ∧ m ≤ 12) (hd : 1 ≤ d) :
    (dayNumber y m d : Int) = (if m ≤ 2 then civil (y - 1) (m + 9) d else civil y (m - 3) d) + 60 := by
  have hyear := sum_yearDays y
  rw [dayNumber, sum_monthDays hm]
  generalize ∑ i ∈ range y, yearDays i = days at *
  split
  · rw [civil]
    omega
  · have hstep := leapDays_step y
    have hmonth : ((153 * (m - 3) + 2) / 5 : Nat) = (153 * ((m : Int) - 3) + 2) / 5 := by omega
    rw [civil, ← hmonth]
    generalize (153 * (m - 3) + 2) / 5 = before
    split at hstep
    · rename_i hleap
      rw [if_pos hleap]
      push_cast [hyear, Nat.cast_sub hd]
      linarith
    · rename_i hleap
      rw [if_neg hleap]
      push_cast [hyear, Nat.cast_sub hd]
      linarith

end Calendar

section Arithmetic

variable {x y m d : Int}

theorem int32_eq (h : -2147483648 ≤ x) (h' : x < 2147483648) : int32 x = pure x := if_pos ⟨h, h'⟩

theorem int64_eq (h : -9223372036854775808 ≤ x) (h' : x < 9223372036854775808) : int64 x = pure x :=
  if_pos ⟨h, h'⟩

theorem daysFromCivil_eq (hy : 0 ≤ y) (hy' : y ≤ 9999) (hm : 1 ≤ m) (hm' : m ≤ 12) (hd : 1 ≤ d) (hd' : d ≤ 31) :
    daysFromCivil y m d = pure ((if m ≤ 2 then civil (y - 1) (m + 9) d else civil y (m - 3) d) - 719468) := by
  by_cases h : m ≤ 2
  · have h' : ¬ m > 2 := by omega
    obtain rfl | hpos := hy.eq_or_lt
    · -- January and February of year 0 belong to the era before
      have hera : ((0 : Int) - 1 - 399).tdiv 400 = -1 := by decide
      simp (disch := omega) only [daysFromCivil, if_pos h, if_neg h', if_neg, int64_eq, int32_eq,
        pure_bind, hera,
        Int.tdiv_eq_ediv_of_nonneg, civil]
      congr 1
      omega
    · simp (disch := omega) only [daysFromCivil, if_pos h, if_neg h', if_pos, int64_eq, int32_eq, pure_bind,
        Int.tdiv_eq_ediv_of_nonneg, civil]
      congr 1
      omega
  · have h' : m > 2 := by omega
    simp (disch := omega) only [daysFromCivil, if_neg h, if_pos h', if_pos, int64_eq, int32_eq, pure_bind,
      Int.tdiv_eq_ediv_of_nonneg, civil]
    congr 1
    omega

theorem twoDigits_digits {n : Nat} (h : n < 100) (rest : Bytes) :
    twoDigits (digits n ++ rest) = pure (n : Int) := by
  have hsize : UInt8.size = 256 := rfl
  have ha : (UInt8.ofNat (0x30 + n / 10)).toNat = 0x30 + n / 10 := UInt8.toNat_ofNat_of_lt' (by omega)
  have hb : (UInt8.ofNat (0x30 + n % 10)).toNat = 0x30 + n % 10 := UInt8.toNat_ofNat_of_lt' (by omega)
  have hdigit : ¬ (UInt8.ofNat (0x30 + n / 10) < 0x30 ∨ UInt8.ofNat (0x30 + n / 10) > 0x39 ∨
      UInt8.ofNat (0x30 + n % 10) < 0x30 ∨ UInt8.ofNat (0x30 + n % 10) > 0x39) := by
    simp only [UInt8.lt_iff_toNat_lt, ha, hb, gt_iff_lt, UInt8.reduceToNat]
    omega
  rw [digits, List.cons_append, List.cons_append, twoDigits, if_neg hdigit, ha, hb]
  simp (disch := omega) only [int32_eq, pure_bind]
  congr 1
  omega

theorem Moment.day_le (t : Moment) : t.day ≤ 31 := by
  refine t.day_mem.2.trans ?_
  rw [monthDays]
  split_ifs <;> omega

theorem daysFromCivil_moment (t : Moment) :
    daysFromCivil t.year t.month t.day = pure ((dayNumber t.year t.month t.day : Int) - dayNumber 1970 1 1) ∧
      (dayNumber t.year t.month t.day : Int) - dayNumber 1970 1 1 < 2 ^ 31 ∧
      -(2 ^ 31) < (dayNumber t.year t.month t.day : Int) - dayNumber 1970 1 1 := by
  obtain ⟨hm, hm'⟩ := t.month_mem
  have hy := t.year_le
  have hd := t.day_mem.1
  have hd' := t.day_le
  have hepoch : (dayNumber 1970 1 1 : Int) = 719528 := dayNumber_eq_civil (by omega) le_rfl
  have hdays := dayNumber_eq_civil (y := t.year) t.month_mem hd
  have hmonth : ((t.month : Int) ≤ 2) = (t.month ≤ 2) := by simp
  rw [daysFromCivil_eq (by omega) (by omega) (by omega) (by omega) (by omega) (by omega)]
  simp only [hmonth]
  rw [hdays, hepoch]
  refine ⟨by congr 1; omega, ?_⟩
  split
  · rw [civil]
    omega
  · rw [civil]
    omega

theorem fieldsToEpoch_text (t : Moment) : fieldsToEpoch t.year t.text = pure t.epoch := by
  obtain ⟨hdays, hhigh, hlow⟩ := daysFromCivil_moment t
  obtain ⟨hm, hm'⟩ := t.month_mem
  have hd := t.day_mem.1
  have hd' := t.day_le
  have hhour := t.hour_lt
  have hminute := t.minute_lt
  have hsecond := t.second_lt
  have hrange : ¬ ((t.month : Int) < 1 ∨ (t.month : Int) > 12 ∨ (t.day : Int) < 1 ∨
    (t.day : Int) > 31 ∨ (t.hour : Int) > 23 ∨
      (t.minute : Int) > 59 ∨ (t.second : Int) > 60) := by omega
  have hdrop (a : Nat) (k : Nat) (rest : Bytes) : (digits a ++ rest).drop (k + 2) = rest.drop k := rfl
  rw [fieldsToEpoch, Moment.text, Moment.epoch]
  generalize (dayNumber t.year t.month t.day : Int) - dayNumber 1970 1 1 = days at *
  simp (disch := omega) only [hdrop _ 0, hdrop _ 2, hdrop _ 4, hdrop _ 6, List.drop_zero,
    twoDigits_digits, pure_bind, if_neg hrange,
    hdays, int64_eq]
  congr 1
  omega

theorem timeToEpoch_encodes {t : Moment} {tag : UInt8} {v : Bytes} (h : Encodes t tag v) :
    timeToEpoch tag v = pure t.epoch := by
  have hy := t.year_le
  obtain ⟨rfl, rfl⟩ | ⟨rfl, hlow, hhigh, rfl⟩ := h
  · have hyear : (t.year / 100 : Nat) * 100 + (t.year % 100 : Nat) = (t.year : Int) := by omega
    rw [timeToEpoch, if_neg (by decide), if_pos rfl, if_neg (by simp [digits, Moment.text]),
      twoDigits_digits (by omega),
      pure_bind, show (digits (t.year / 100) ++ (digits (t.year % 100) ++ t.text)).drop 2 =
      digits (t.year % 100) ++ t.text from rfl,
      twoDigits_digits (by omega), pure_bind]
    simp (disch := omega) only [int32_eq, pure_bind, hyear]
    exact fieldsToEpoch_text t
  · have hyear : (if ((t.year % 100 : Nat) : Int) < 50 then 2000 else 1900) +
        ((t.year % 100 : Nat) : Int) = (t.year : Int) := by
      split <;> omega
    rw [timeToEpoch, if_pos rfl, if_neg (by simp [digits, Moment.text]),
      twoDigits_digits (by omega), pure_bind, hyear,
      int32_eq (by omega) (by omega), pure_bind]
    exact fieldsToEpoch_text t

end Arithmetic

section Order

theorem sum_add_lt {f : Nat → Nat} {i j r : Nat} (hr : r < f i) (hij : i < j) :
    ∑ k ∈ range i, f k + r < ∑ k ∈ range j, f k := by
  have hle : ∑ k ∈ range (i + 1), f k ≤ ∑ k ∈ range j, f k := sum_le_sum_of_subset (range_mono hij)
  rw [sum_range_succ] at hle
  omega

theorem dayNumber_lt {t u : Moment} (h : [t.year, t.month, t.day] < [u.year, u.month, u.day]) :
    dayNumber t.year t.month t.day < dayNumber u.year u.month u.day := by
  have htd := t.day_mem
  have hud := u.day_mem
  have htm := t.month_mem
  have hum := u.month_mem
  have hyear : ∑ i ∈ range 12, monthDays t.year (i + 1) = yearDays t.year := by
    by_cases hleap : Leap t.year <;> simp [sum_range_succ, monthDays, yearDays, hleap]
  have hmonth (k : Nat) (hk : t.month ≤ k) :
      ∑ i ∈ range (t.month - 1), monthDays t.year (i + 1) + (t.day - 1) <
        ∑ i ∈ range k, monthDays t.year (i + 1) :=
    sum_add_lt (f := fun i => monthDays t.year (i + 1)) (by rw [Nat.sub_add_cancel htm.1]; omega) (by omega)
  simp only [List.cons_lt_cons_iff, List.not_lt_nil, and_false, or_false] at h
  rw [dayNumber, dayNumber]
  obtain h | ⟨heq, h | ⟨heq', h⟩⟩ := h
  · have hlt := sum_add_lt (hyear ▸ hmonth 12 htm.2) h
    omega
  · have hlt := hmonth (u.month - 1) (by omega)
    rw [heq] at hlt ⊢
    omega
  · rw [heq, heq']
    omega

theorem Moment.epoch_lt {t u : Moment} (h : t.fields < u.fields) : t.epoch < u.epoch := by
  have ht := t.hour_lt
  have ht' := t.minute_lt
  have ht'' := t.second_lt
  have hu := u.hour_lt
  have hu' := u.minute_lt
  have hu'' := u.second_lt
  have hday := @dayNumber_lt t u
  simp only [Moment.fields, List.cons_lt_cons_iff, List.not_lt_nil, and_false, or_false] at h hday
  rw [Moment.epoch, Moment.epoch]
  by_cases hlt : t.year < u.year ∨ t.year = u.year ∧ (t.month < u.month ∨ t.month = u.month ∧ t.day < u.day)
  · have hday := hday hlt
    omega
  · obtain ⟨hyear, hmonth, hd, h⟩ : t.year = u.year ∧ t.month = u.month ∧ t.day = u.day ∧ (t.hour < u.hour ∨
        t.hour = u.hour ∧ (t.minute < u.minute ∨ t.minute = u.minute ∧ t.second < u.second)) := by tauto
    rw [hyear, hmonth, hd]
    omega

end Order

/-- A time is read as the seconds that the calendar counts, later times as larger numbers, and a
certificate is valid from the one to the other. -/
theorem times_exact (t u : Moment) (tag : UInt8) (v : Bytes) (c : Cert) (now : Int) :
    (Encodes t tag v → timeToEpoch tag v = pure t.epoch) ∧ (t.fields < u.fields → t.epoch < u.epoch) ∧
    (Encodes t c.notBeforeTag c.notBefore → Encodes u c.notAfterTag c.notAfter →
      (withinValidity c now = pure () ↔ t.epoch ≤ now ∧ now ≤ u.epoch)) := by
  refine ⟨timeToEpoch_encodes, Moment.epoch_lt, fun hnb hna => ?_⟩
  rw [withinValidity, timeToEpoch_encodes hnb, pure_bind, timeToEpoch_encodes hna, pure_bind]
  split
  · rename_i hout
    refine iff_of_false (fun h => ?_) (by omega)
    cases h
  · exact iff_of_true rfl (by omega)

def leapDay : Moment :=
  ⟨2024, 2, 29, 23, 59, 59, by decide, by decide, by decide, by decide, by decide, by decide⟩

def nextHalf : Moment :=
  ⟨2050, 1, 1, 0, 0, 0, by decide, by decide, by decide, by decide, by decide, by decide⟩

def sampleCert : Cert :=
  ⟨utcTimeTag, digits 24 ++ leapDay.text, generalizedTimeTag, digits 20 ++ (digits 50 ++ nextHalf.text)⟩

theorem times_exact_sample : timeToEpoch utcTimeTag (digits 24 ++ leapDay.text) = pure 1709251199 ∧
    withinValidity sampleCert 1709251199 = pure () ∧ withinValidity sampleCert 2524608001 ≠ pure () := by
  have hleap : Encodes leapDay utcTimeTag (digits 24 ++ leapDay.text) := .inr ⟨rfl, by decide, by decide, rfl⟩
  have hnext : Encodes nextHalf generalizedTimeTag (digits 20 ++ (digits 50 ++ nextHalf.text)) :=
    .inl ⟨rfl, rfl⟩
  have hepochs : leapDay.epoch = 1709251199 ∧ nextHalf.epoch = 2524608000 := by decide +kernel
  obtain ⟨hread, -, hvalid⟩ :=
    times_exact leapDay nextHalf utcTimeTag (digits 24 ++ leapDay.text) sampleCert 1709251199
  obtain ⟨-, -, hlate⟩ :=
    times_exact leapDay nextHalf utcTimeTag (digits 24 ++ leapDay.text) sampleCert 2524608001
  refine ⟨hepochs.1 ▸ hread hleap, (hvalid hleap hnext).mpr (by omega), fun h => ?_⟩
  have := (hlate hleap hnext).mp h
  omega

end AntsClient.Tee.Validity
