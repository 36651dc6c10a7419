/-
# `PBase.Logger.Date` — the time in front of a log line

`LogDateImpl` keeps the formatted time of the last log line.  `update_date` writes the digits
below the minute into it, and hour and minute if the minute is another one; on another day it
formats all of it anew, as the constructor does (`format_to_string`).

As long as the day stays the same, `update_date` makes of the format of one time the format
of another (`updateDate_same`).  On another day it calls `format_to_string` with the variable
it took the time from, which by then holds minutes (`updateDate_other`): it formats a time
in the first minutes of 1970, and keeps day 0.  So the clock agrees with full formatting until
the first change of the day (`update_agrees_iff`).

Times are in microseconds since 1970-01-01; `localtime_r` is taken to be UTC.
-/
import PBase.Lib.Decimal

namespace PBase.Logger

open PBase.Lib

def kMinOneDay : Nat := 60 * 24
def kUSOneMin : Nat := 1000000 * 60

/-- `struct tm`, with the year from 0 on. -/
structure Tm where
  year : Nat
  mon : Nat
  mday : Nat
  hour : Nat
  min : Nat
  sec : Nat

/-- `localtime_r`, for a time in seconds -/
def localtime (sec : Nat) : Tm :=
  let (year, mon, mday) := civil (sec / 86400)
  { year := year, mon := mon, mday := mday
    hour := sec % 86400 / 3600, min := sec % 3600 / 60, sec := sec % 60 }

structure LogDateImpl where
  timeDay : Nat
  timeMin : Nat
  timeUs : Nat
  /-- `formatted_`, up to the first NUL -/
  formatted : List Char

/-- `'0' + n` -/
def digit (n : Nat) : Char := Char.ofNat ('0'.toNat + n)

namespace LogDateImpl

/-- `snprintf(formatted_, sizeof(formatted_), "%04d%02d%02d-%02d:%02d:%02d:%06lu ", …)` -/
def format (timestamp : Nat) : List Char :=
  let tm := localtime (timestamp / 1000000)
  (zeroPad 4 tm.year ++ zeroPad 2 (tm.mon + 1) ++ zeroPad 2 tm.mday ++ '-' ::
    zeroPad 2 tm.hour ++ ':' :: zeroPad 2 tm.min ++ ':' :: zeroPad 2 tm.sec ++ ':' ::
    zeroPad 6 (timestamp % 1000000) ++ [' ']).take 27

/-- `format_to_string(timestamp)` -/
def formatToString (timestamp : Nat) : LogDateImpl :=
  { formatted := format timestamp
    timeUs := timestamp % kUSOneMin
    timeMin := timestamp / kUSOneMin % kMinOneDay
    timeDay := timestamp / kUSOneMin / kMinOneDay % 2 ^ 32 }

/-- The digits of the seconds and below. -/
def setUs (f : List Char) (us : Nat) : List Char :=
  let f := f.set 23 (digit (us % 10))
  let us := us / 10
  let f := f.set 22 (digit (us % 10))
  let us := us / 10
  let f := f.set 21 (digit (us % 10))
  let us := us / 10
  let f := f.set 20 (digit (us % 10))
  let us := us / 10
  let f := f.set 19 (digit (us % 10))
  let us := us / 10
  let f := f.set 18 (digit (us % 10))
  let us := us / 10
  let f := f.set 16 (digit (us % 10))
  f.set 15 (digit (us / 10))

/-- The digits of the hour and the minute. -/
def setMin (f : List Char) (min : Nat) : List Char :=
  let f := f.set 13 (digit (min % 60 % 10))
  let f := f.set 12 (digit (min % 60 / 10))
  let f := f.set 10 (digit (min / 60 % 10))
  f.set 9 (digit (min / 60 / 10))

/-- `update_date()`, at the time `timestamp`; it returns `formatted_`. -/
def updateDate (d : LogDateImpl) (timestamp : Nat) : LogDateImpl :=
  let d := { d with timeUs := timestamp % kUSOneMin }
  let timestamp := timestamp / kUSOneMin
  let timeMin := timestamp % kMinOneDay
  let timeDay := timestamp / kMinOneDay % 2 ^ 32
  if timeDay ≠ d.timeDay then
    formatToString timestamp
  else
    let d := { d with formatted := setUs d.formatted d.timeUs }
    if timeMin ≠ d.timeMin then
      { d with timeMin := timeMin, formatted := setMin d.formatted timeMin }
    else d

end LogDateImpl

/-! ## The format, character by character -/

/-- The day of a time. -/
def day (timestamp : Nat) : Nat := timestamp / 86400000000

/-- The minute of the day, and the microsecond of the minute. -/
def minOf (timestamp : Nat) : Nat := timestamp / kUSOneMin % kMinOneDay
def usOf (timestamp : Nat) : Nat := timestamp % kUSOneMin

theorem digit_eq : ∀ n < 10, digit n = n.digitChar := by decide

namespace LogDateImpl

/-- The 25 characters for a date, a minute of the day and a microsecond of the minute. -/
def layout (year mon mday min us : Nat) : List Char :=
  [(year / 10 / 10 / 10).digitChar, (year / 10 / 10 % 10).digitChar, (year / 10 % 10).digitChar,
    (year % 10).digitChar, (mon / 10).digitChar, (mon % 10).digitChar, (mday / 10).digitChar,
    (mday % 10).digitChar, '-', digit (min / 60 / 10), digit (min / 60 % 10), ':',
    digit (min % 60 / 10), digit (min % 60 % 10), ':',
    digit (us / 10 / 10 / 10 / 10 / 10 / 10 / 10), digit (us / 10 / 10 / 10 / 10 / 10 / 10 % 10),
    ':', digit (us / 10 / 10 / 10 / 10 / 10 % 10), digit (us / 10 / 10 / 10 / 10 % 10),
    digit (us / 10 / 10 / 10 % 10), digit (us / 10 / 10 % 10), digit (us / 10 % 10),
    digit (us % 10), ' ']

theorem setUs_layout (y m d min us us' : Nat) :
    setUs (layout y m d min us) us' = layout y m d min us' := rfl

theorem setMin_layout (y m d min us min' : Nat) :
    setMin (layout y m d min us) min' = layout y m d min' us := rfl

/-- The 17 characters from the '-' on. -/
def clock (min us : Nat) : List Char :=
  ['-', digit (min / 60 / 10), digit (min / 60 % 10), ':',
    digit (min % 60 / 10), digit (min % 60 % 10), ':',
    digit (us / 10 / 10 / 10 / 10 / 10 / 10 / 10), digit (us / 10 / 10 / 10 / 10 / 10 / 10 % 10),
    ':', digit (us / 10 / 10 / 10 / 10 / 10 % 10), digit (us / 10 / 10 / 10 / 10 % 10),
    digit (us / 10 / 10 / 10 % 10), digit (us / 10 / 10 % 10), digit (us / 10 % 10),
    digit (us % 10), ' ']

/-- The seconds and the microseconds of a second, in the microseconds of a minute. -/
theorem clock_eq (date : List Char) {min us : Nat} (hus : us < kUSOneMin)
    (hmin : min < kMinOneDay) :
    date ++ '-' :: zeroPad 2 (min / 60) ++ ':' :: zeroPad 2 (min % 60) ++
      ':' :: zeroPad 2 (us / 1000000) ++ ':' :: zeroPad 6 (us % 1000000) ++ [' '] =
      date ++ clock min us := by
  unfold kUSOneMin at hus
  unfold kMinOneDay at hmin
  have hdigits : us % 1000000 / 10 / 10 / 10 / 10 / 10 = us / 10 / 10 / 10 / 10 / 10 % 10 ∧
      us % 1000000 / 10 / 10 / 10 / 10 % 10 = us / 10 / 10 / 10 / 10 % 10 ∧
      us % 1000000 / 10 / 10 / 10 % 10 = us / 10 / 10 / 10 % 10 ∧
      us % 1000000 / 10 / 10 % 10 = us / 10 / 10 % 10 ∧
      us % 1000000 / 10 % 10 = us / 10 % 10 ∧ us % 1000000 % 10 = us % 10 := by omega
  have hsec : us / 1000000 / 10 = us / 10 / 10 / 10 / 10 / 10 / 10 / 10 ∧
      us / 1000000 % 10 = us / 10 / 10 / 10 / 10 / 10 / 10 % 10 := by omega
  obtain ⟨h₁, h₂, h₃, h₄, h₅, h₆⟩ := hdigits
  rw [zeroPad_two (by omega), zeroPad_two (by omega), zeroPad_two (by omega),
    zeroPad_six (by omega), h₁, h₂, h₃, h₄, h₅, h₆, hsec.1, hsec.2]
  simp only [clock, List.append_assoc, List.cons_append, List.nil_append]
  rw [digit_eq _ (by omega), digit_eq _ (by omega), digit_eq _ (by omega), digit_eq _ (by omega),
    digit_eq _ (by omega), digit_eq _ (by omega), digit_eq _ (by omega), digit_eq _ (by omega),
    digit_eq _ (by omega), digit_eq _ (by omega), digit_eq _ (by omega), digit_eq _ (by omega)]

theorem layout_eq (y m d min : Nat) {us : Nat} (hus : us < kUSOneMin) (hmin : min < kMinOneDay)
    (hy : y < 10000) (hm : m < 100) (hd : d < 100) :
    zeroPad 4 y ++ zeroPad 2 m ++ zeroPad 2 d ++ '-' :: zeroPad 2 (min / 60) ++
      ':' :: zeroPad 2 (min % 60) ++ ':' :: zeroPad 2 (us / 1000000) ++
      ':' :: zeroPad 6 (us % 1000000) ++ [' '] = layout y m d min us := by
  rw [clock_eq _ hus hmin, zeroPad_four hy, zeroPad_two hm, zeroPad_two hd]
  rfl

/-- Up to the year 9999. -/
theorem format_eq {t : Nat} (h : (civil (day t)).1 < 10000) : format t =
    layout (civil (day t)).1 ((civil (day t)).2.1 + 1) (civil (day t)).2.2 (minOf t) (usOf t) := by
  obtain ⟨hmon, hmday⟩ := civil_lt (day t)
  have hus : usOf t < kUSOneMin := Nat.mod_lt _ (by decide)
  have hmin : minOf t < kMinOneDay := Nat.mod_lt _ (by decide)
  have hlayout := layout_eq _ _ _ _ hus hmin h (by omega : (civil (day t)).2.1 + 1 < 100)
    (by omega : (civil (day t)).2.2 < 100)
  have hday : t / 1000000 / 86400 = day t := by
    rw [day]
    omega
  have htime : t / 1000000 % 86400 / 3600 = minOf t / 60 ∧
      t / 1000000 % 3600 / 60 = minOf t % 60 ∧ t / 1000000 % 60 = usOf t / 1000000 ∧
      t % 1000000 = usOf t % 1000000 := by
    simp only [minOf, usOf, kUSOneMin, kMinOneDay]
    omega
  obtain ⟨hhour, hm, hsec, hmicro⟩ := htime
  simp only [format, localtime, hday, hhour, hm, hsec, hmicro]
  rw [hlayout]
  rfl

/-! ## One update -/

/-- Another minute, of the same day. -/
theorem updateDate_min {d : LogDateImpl} {t : Nat}
    (hday : t / kUSOneMin / kMinOneDay % 2 ^ 32 = d.timeDay) (hmin : minOf t ≠ d.timeMin) :
    d.updateDate t = ⟨d.timeDay, minOf t, usOf t, setMin (setUs d.formatted (usOf t)) (minOf t)⟩ :=
  (if_neg (not_not.mpr hday)).trans (if_pos hmin)

/-- The same minute. -/
theorem updateDate_us {d : LogDateImpl} {t : Nat}
    (hday : t / kUSOneMin / kMinOneDay % 2 ^ 32 = d.timeDay) (hmin : minOf t = d.timeMin) :
    d.updateDate t = ⟨d.timeDay, d.timeMin, usOf t, setUs d.formatted (usOf t)⟩ :=
  (if_neg (not_not.mpr hday)).trans (if_neg (not_not.mpr hmin))

/-- On the same day, the format of one time becomes the format of the other. -/
theorem updateDate_same {t t' : Nat} (hday : day t' = day t) (h : (civil (day t)).1 < 10000) :
    (formatToString t).updateDate t' = formatToString t' := by
  have hfield : t' / kUSOneMin / kMinOneDay % 2 ^ 32 = t / kUSOneMin / kMinOneDay % 2 ^ 32 := by
    simp only [day, kUSOneMin, kMinOneDay] at hday ⊢
    omega
  have hformat := format_eq (t := t') (by rw [hday]; exact h)
  rw [hday] at hformat
  have hnew : formatToString t' =
      ⟨t / kUSOneMin / kMinOneDay % 2 ^ 32, minOf t', usOf t', format t'⟩ := by
    rw [← hfield]
    rfl
  rw [hnew, hformat]
  rcases eq_or_ne (minOf t') (minOf t) with hmin | hmin
  · rw [updateDate_us hfield hmin]
    simp only [formatToString, format_eq h, setUs_layout, hmin]
    rfl
  · rw [updateDate_min hfield hmin]
    simp only [formatToString, format_eq h, setUs_layout, setMin_layout]

/-- On another day, the minutes since 1970 are formatted, as if they were microseconds. -/
theorem updateDate_other {d : LogDateImpl} {t : Nat}
    (h : t / kUSOneMin / kMinOneDay % 2 ^ 32 ≠ d.timeDay) :
    d.updateDate t = formatToString (t / kUSOneMin) := if_pos h

end LogDateImpl

/-! ## All updates -/

/-- What the clock shows and keeps is the time `t`. -/
structure Agrees (d : LogDateImpl) (t : Nat) : Prop where
  formatted : d.formatted = (LogDateImpl.formatToString t).formatted
  timeDay : d.timeDay = day t
  timeMin : d.timeMin = minOf t
  timeUs : d.timeUs = usOf t

/-- The clock after each update agrees with the time read. -/
def Agreeing : LogDateImpl → List Nat → Prop
  | _, [] => True
  | d, t :: ts => Agrees (d.updateDate t) t ∧ Agreeing (d.updateDate t) ts

/-- A time that fits in 64 bits, with a year of four digits. -/
def FourDigits (t : Nat) : Prop := t < 2 ^ 64 ∧ (civil (day t)).1 < 10000

theorem day_field {t : Nat} (h : t < 2 ^ 64) : t / kUSOneMin / kMinOneDay % 2 ^ 32 = day t := by
  simp only [day, kUSOneMin, kMinOneDay]
  omega

theorem agrees_formatToString {t : Nat} (h : t < 2 ^ 64) : Agrees (.formatToString t) t :=
  ⟨rfl, day_field h, rfl, rfl⟩

/-- The day of the minutes, taken as microseconds, is an earlier one. -/
theorem day_minutes_lt {t : Nat} (h : 0 < day t) :
    t / kUSOneMin / kUSOneMin / kMinOneDay % 2 ^ 32 < day t := by
  refine (Nat.mod_le _ _).trans_lt ?_
  simp only [day, kUSOneMin, kMinOneDay] at h ⊢
  omega

/-- The clock agrees at every update until the day changes: if and only if it never does. -/
theorem update_agrees_iff (t₀ : Nat) (ts : List Nat) (hmono : (t₀ :: ts).Pairwise (· ≤ ·))
    (hfour : ∀ t ∈ t₀ :: ts, FourDigits t) :
    Agreeing (.formatToString t₀) ts ↔ ∀ t ∈ ts, day t = day t₀ := by
  induction ts generalizing t₀ with
  | nil => exact ⟨fun _ t ht => absurd ht List.not_mem_nil, fun _ => trivial⟩
  | cons t ts ih =>
      obtain ⟨hle, hrest⟩ := List.pairwise_cons.mp hmono
      have ht₀ := hfour t₀ List.mem_cons_self
      have ht := hfour t (List.mem_cons_of_mem _ List.mem_cons_self)
      have htail := ih t hrest fun t' ht' => hfour t' (List.mem_cons_of_mem _ ht')
      rw [Agreeing]
      by_cases hday : day t = day t₀
      · rw [LogDateImpl.updateDate_same hday ht₀.2, htail]
        constructor
        · rintro ⟨-, hsame⟩ t' ht'
          rcases List.mem_cons.mp ht' with rfl | ht'
          · exact hday
          · exact (hsame t' ht').trans hday
        · intro hsame
          exact ⟨agrees_formatToString ht.1, fun t' ht' =>
            (hsame t' (List.mem_cons_of_mem _ ht')).trans hday.symm⟩
      · refine ⟨fun hagree => ?_, fun hsame => absurd (hsame t List.mem_cons_self) hday⟩
        -- the day kept is that of the minutes, which is an earlier one
        have hother : t / kUSOneMin / kMinOneDay % 2 ^ 32 ≠
            (LogDateImpl.formatToString t₀).timeDay := by
          show _ ≠ t₀ / kUSOneMin / kMinOneDay % 2 ^ 32
          rwa [day_field ht.1, day_field ht₀.1]
        have hkept := hagree.1.timeDay
        rw [LogDateImpl.updateDate_other hother] at hkept
        have hlt : day t₀ ≤ day t := Nat.div_le_div_right (hle t List.mem_cons_self)
        exact absurd hkept (day_minutes_lt (by omega)).ne

theorem update_agrees_iff_day :
    Agreeing (.formatToString 1500000000000000) [1500000000000001, 1500000061000000] ↔
      ∀ t ∈ [1500000000000001, 1500000061000000], day t = day 1500000000000000 :=
  update_agrees_iff _ _ (by simp) (by simp [FourDigits]; decide)

/-- One microsecond before midnight and at midnight. -/
theorem update_disagrees : ¬ ∀ (t₀ : Nat) (ts : List Nat), (t₀ :: ts).Pairwise (· ≤ ·) →
    (∀ t ∈ t₀ :: ts, FourDigits t) → Agreeing (.formatToString t₀) ts := by
  intro h
  have hagree := h 1499990399999999 [1499990400000000] (by simp) (by simp [FourDigits]; decide)
  exact absurd hagree.1.timeDay (by decide)

end PBase.Logger
