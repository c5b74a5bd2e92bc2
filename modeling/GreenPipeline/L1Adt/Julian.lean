import Mathlib.Algebra.Order.Group.Int
import Mathlib.Tactic.IntervalCases

/-!
# Julian day numbers (`date2j`, `j2date`)

The formulas count from 1 March of the year -4800, so that a leap day is the last day of its year.
They are translated from `src/backend/utils/adt/datetime.c` in 32-bit arithmetic. Years are
numbered as the source does: the year before 1 is 0.

Results:

* `dayNumber_next`: the next date of the calendar has the next number.
* `j2date_dayNumber`: `j2date` finds the date of a number.
* `j2date_calendar`: `j2date` gives the valid dates one after another, `date2j` gives the numbers
  back.
-/
namespace GreenPipeline.L1.Julian

def int32 (x : ℤ) : ℤ := (x + 2147483648) % 4294967296 - 2147483648

def uint32 (x : ℤ) : ℤ := x % 4294967296

structure Date where
  year : ℤ
  month : ℤ
  day : ℤ
  deriving DecidableEq, Repr

/-- mirrors datetime.c:291-314 -/
def date2j (y m d : ℤ) : ℤ :=
  let (m, y) :=
    if m > 2 then (int32 (m + 1), int32 (y + 4800)) else (int32 (m + 13), int32 (y + 4799))
  let century := y.tdiv 100
  let julian := int32 (int32 (y * 365) - 32167)
  let julian := int32 (julian + int32 (y.tdiv 4 - century + century.tdiv 4))
  int32 (julian + int32 ((int32 (7834 * m)).tdiv 256 + d))

/-- mirrors datetime.c:316-341 -/
def j2date (jd : ℤ) : Date :=
  let julian := uint32 jd
  let julian := uint32 (julian + 32044)
  let quad := julian / 146097
  let extra := uint32 (uint32 (julian - quad * 146097) * 4 + 3)
  let julian := uint32 (julian + uint32 (60 + quad * 3 + extra / 146097))
  let quad := julian / 1461
  let julian := uint32 (julian - quad * 1461)
  let y := int32 (uint32 (julian * 4) / 1461)
  let julian :=
    uint32 ((if y ≠ 0 then uint32 (julian + 305) % 365 else uint32 (julian + 306) % 366) + 123)
  let y := int32 (y + quad * 4)
  let quad := uint32 (julian * 2141) / 65536
  ⟨int32 (y - 4800), int32 (uint32 (quad + 10) % 12 + 1),
    int32 (julian - uint32 (7834 * quad) / 256)⟩

/-- mirrors datetime.h:273 -/
def isleap (y : ℤ) : Prop := y.tmod 4 = 0 ∧ (y.tmod 100 ≠ 0 ∨ y.tmod 400 = 0)

instance (y : ℤ) : Decidable (isleap y) := inferInstanceAs (Decidable (_ ∧ _))

/-- mirrors datetime.c:60-64 -/
def dayTab (leap : Prop) [Decidable leap] (m : ℤ) : ℤ :=
  if m = 2 then if leap then 29 else 28 else if m = 4 ∨ m = 6 ∨ m = 9 ∨ m = 11 then 30 else 31

structure Date.Valid (d : Date) : Prop where
  month : 1 ≤ d.month ∧ d.month ≤ 12
  day : 1 ≤ d.day ∧ d.day ≤ dayTab (isleap d.year) d.month

/-- The next day of the Gregorian calendar. -/
def Date.next (d : Date) : Date :=
  if d.day < dayTab (isleap d.year) d.month then ⟨d.year, d.month, d.day + 1⟩
  else if d.month < 12 then ⟨d.year, d.month + 1, 1⟩ else ⟨d.year + 1, 1, 1⟩

theorem isleap_iff (y : ℤ) : isleap y ↔ y % 4 = 0 ∧ (y % 100 ≠ 0 ∨ y % 400 = 0) := by
  simp only [isleap, ← Int.dvd_iff_emod_eq_zero, ← Int.dvd_iff_tmod_eq_zero, ne_eq]

/-- Leap days in the years 1 to `y`. -/
def leapDays (y : ℤ) : ℤ := y / 4 - y / 100 + y / 400

/-- `date2j` without limits, from the year that starts on 1 March and the month counted from 4 in
it. -/
def dayCount (y m d : ℤ) : ℤ := y * 365 + leapDays y + 7834 * m / 256 + d - 32167

def dayNumber (d : Date) : ℤ :=
  if d.month > 2 then dayCount (d.year + 4800) (d.month + 1) d.day
  else dayCount (d.year + 4799) (d.month + 13) d.day

/-- The period of the calendar divides the shift of the years. -/
theorem leapDays_eq (y : ℤ) :
    leapDays (y + 4800) = leapDays (y + 4799) + if isleap y then 1 else 0 := by
  have h4 : (y + 4800) / 4 = (y + 4799) / 4 + if y % 4 = 0 then 1 else 0 := by omega
  have h100 : (y + 4800) / 100 = (y + 4799) / 100 + if y % 100 = 0 then 1 else 0 := by omega
  have h400 : (y + 4800) / 400 = (y + 4799) / 400 + if y % 400 = 0 then 1 else 0 := by omega
  unfold leapDays
  simp only [isleap_iff, h4, h100, h400]
  split_ifs <;> omega

theorem int32_eq {x : ℤ} (h : -2147483648 ≤ x ∧ x ≤ 2147483647) : int32 x = x := by
  unfold int32
  omega

theorem uint32_eq {x : ℤ} (h : 0 ≤ x ∧ x ≤ 4294967295) : uint32 x = x :=
  Int.emod_eq_of_lt h.1 (by omega)

variable {d : Date}

theorem date2j_eq (h : d.Valid) (hrange : 0 ≤ dayNumber d ∧ dayNumber d ≤ 2147483647) :
    date2j d.year d.month d.day = dayNumber d := by
  obtain ⟨hmonth, hday⟩ := h
  have hlen : dayTab (isleap d.year) d.month ≤ 31 := by
    unfold dayTab
    omega
  unfold dayNumber at *
  unfold date2j
  split at hrange
  all_goals
    rename_i hmarch
    unfold dayCount leapDays at hrange
    simp only [hmarch, if_true, if_false, dayCount, leapDays]
    simp (disch := omega) only [int32_eq, Int.tdiv_eq_ediv_of_nonneg]
    omega

theorem next_valid (h : d.Valid) : d.next.Valid := by
  obtain ⟨hmonth, hday⟩ := h
  have hlen : ∀ m, 1 ≤ dayTab (isleap d.year) m ∧ 1 ≤ dayTab (isleap (d.year + 1)) m := by
    intro m
    unfold dayTab
    constructor <;> split_ifs <;> decide
  unfold Date.next
  split_ifs with hlt hdec
  · exact ⟨hmonth, by dsimp only; omega⟩
  · exact ⟨by dsimp only; omega, le_refl _, (hlen _).1⟩
  · exact ⟨⟨le_refl _, by dsimp only; omega⟩, le_refl _, (hlen _).2⟩

theorem dayNumber_next (h : d.Valid) : dayNumber d.next = dayNumber d + 1 := by
  obtain ⟨y, m, day⟩ := d
  obtain ⟨⟨hlow, hhigh⟩, hday⟩ := h
  have hleap := leapDays_eq y
  unfold Date.next
  dsimp only at *
  split_ifs with hlt hdec
  · simp only [dayNumber, dayCount]
    split <;> omega
  all_goals
    have hlast := hday.2.antisymm (not_lt.1 hlt)
    clear hlt hday
    have hyear : y + 1 + 4799 = y + 4800 := by omega
    interval_cases m
    all_goals
      simp [dayNumber, dayCount, dayTab, hyear] at *
      try split_ifs at hleap hlast <;> omega

/-- The year is split into periods of 400, 100, 4 and 1, `t` counts its days from 1 March. -/
theorem j2date_split {jd q c a b t : ℤ} (hq : 0 ≤ q) (hc : 0 ≤ c ∧ c ≤ 3) (ha : 0 ≤ a ∧ a ≤ 24)
    (hb0 : 0 ≤ b) (hb3 : b ≤ 3) (ht : 0 ≤ t ∧ t ≤ 364 + if b = 3 ∧ (a ≠ 24 ∨ c = 3) then 1 else 0)
    (hjd : jd + 32044 = 146097 * q + 36524 * c + 1461 * a + 365 * b + t)
    (h : 0 ≤ jd ∧ jd ≤ 2147483648) :
    j2date jd = ⟨400 * q + 100 * c + 4 * a + b - if t ≤ 305 then 4800 else 4799,
      ((t + 123) * 2141 / 65536 + 10) % 12 + 1,
      t + 123 - 7834 * ((t + 123) * 2141 / 65536) / 256⟩ := by
  unfold j2date
  simp (disch := omega) only [uint32_eq, int32_eq]
  have hquad : (jd + 32044) / 146097 = q := by omega
  rw [hquad]
  have hextra : ((jd + 32044 - q * 146097) * 4 + 3) / 146097 = c := by omega
  rw [hextra]
  -- January and February belong to the next year, and those after a leap day to the next four years
  obtain ⟨k, r, hsum, hr, hyear, hjulian⟩ : ∃ k r, jd + 32044 + (60 + q * 3 + c) = k * 1461 + r ∧
    (0 ≤ r ∧ r ≤ 1460) ∧
      r * 4 / 1461 + k * 4 - 4800 =
      (400 * q + 100 * c + 4 * a + b - if t ≤ 305 then 4800 else 4799) ∧
      (if r * 4 / 1461 ≠ 0 then (r + 305) % 365 else (r + 306) % 366) = t := by
    by_cases hover : 365 * b + t + 60 ≤ 1460
    · exact ⟨100 * q + 25 * c + a,
        365 * b + t + 60, by omega, by omega, by omega, by interval_cases b <;> split_ifs <;> omega⟩
    · exact ⟨100 * q + 25 * c + a + 1,
        365 * b + t + 60 -
        1461, by omega, by omega, by omega, by interval_cases b <;> split_ifs <;> omega⟩
  have hfour : (jd + 32044 + (60 + q * 3 + c)) / 1461 = k := by omega
  have hrest : jd + 32044 + (60 + q * 3 + c) - k * 1461 = r := by omega
  rw [hfour, hrest, hjulian, hyear]

/-- `m` is found again from the day of the year. -/
theorem j2date_dayCount {y m d t : ℤ} (ht : t = 7834 * m / 256 + d - 123)
    (hm : (t + 123) * 2141 / 65536 = m)
    (hlen : 0 ≤ t ∧ t ≤ 364 + if y % 4 = 3 ∧ (y % 100 ≠ 99 ∨ y % 400 = 399) then 1 else 0)
    (h : 0 ≤ dayCount y m d ∧ dayCount y m d ≤ 2147483648) :
    j2date (dayCount y m d) = ⟨y - if t ≤ 305 then 4800 else 4799, (m + 10) % 12 + 1, d⟩ := by
  have hyear : y = 400 * (y / 400) + 100 * (y % 400 / 100) + 4 * (y % 100 / 4) + y % 4 := by omega
  have hleap : leapDays y = 97 * (y / 400) + 24 * (y % 400 / 100) + y % 100 / 4 := by
    unfold leapDays
    omega
  have hsplit :=
    @j2date_split (dayCount y m d) (y / 400) (y % 400 / 100) (y % 100 / 4) (y % 4) t
      (by unfold dayCount at h; omega) (by omega) (by omega)
    (by omega) (by omega) (by omega) (by unfold dayCount; omega) h
  rw [hsplit, hm, ← hyear]
  congr 1
  omega

theorem j2date_dayNumber (h : d.Valid) (hrange : 0 ≤ dayNumber d ∧ dayNumber d ≤ 2147483648) :
    j2date (dayNumber d) = d := by
  obtain ⟨y, m, day⟩ := d
  obtain ⟨⟨hlow, hhigh⟩, hday⟩ := h
  unfold dayNumber at hrange ⊢
  dsimp only at *
  interval_cases m
  all_goals
    simp [dayTab, isleap_iff] at *
    rw [j2date_dayCount rfl (by omega) (by omega) hrange]
    congr 1
    omega

theorem exists_date (n : ℕ) : ∃ d : Date, d.Valid ∧ dayNumber d = n := by
  induction n with
  | zero => exact ⟨⟨-4713, 11, 24⟩, ⟨by decide, by decide⟩, by decide⟩
  | succ n ih =>
    obtain ⟨d, hd, hn⟩ := ih
    exact ⟨d.next, next_valid hd, by rw [dayNumber_next hd, hn, Nat.cast_succ]⟩

/-- Every day number that fits has a valid date, which is mapped back, and the next number has the
next date. -/
theorem j2date_calendar {jd : ℤ} (h : 0 ≤ jd ∧ jd ≤ 2147483647) :
    (j2date jd).Valid ∧ date2j (j2date jd).year (j2date jd).month (j2date jd).day = jd ∧
    j2date (jd + 1) = (j2date jd).next := by
  obtain ⟨n, rfl⟩ := Int.eq_ofNat_of_zero_le h.1
  obtain ⟨d, hvalid, hnumber⟩ := exists_date n
  rw [← hnumber] at h ⊢
  have hnext := dayNumber_next hvalid
  rw [← hnext, j2date_dayNumber hvalid (by omega), j2date_dayNumber (next_valid hvalid) (by omega)]
  exact ⟨hvalid, date2j_eq hvalid h, rfl⟩

theorem j2date_calendar_last : (j2date 2147483647).Valid ∧ date2j 5874898 6 3 = 2147483647 ∧
    j2date 2147483648 = ⟨5874898, 6, 4⟩ :=
  @j2date_calendar 2147483647 (by decide)

end GreenPipeline.L1.Julian
