/-
# `PBase.Logger.Zone` — the log clock in a zone that is not UTC

In a zone with a constant offset `localtime_r` adds it to the time.  `format_to_string` writes
local time.  The digits `update_date` writes into the string are those of UTC: the seconds at
every call, hour and minute when the minute changes.  On one UTC day the string therefore stays
right exactly if the offset has no seconds, and either it is a whole number of days or the minute
never changes (`update_local_iff`).  It also takes a year of four characters, since the digits are
written at fixed places.

The model is that of `LogDateImpl` with the offset as a parameter; times are in microseconds.
-/
import PBase.Logger.Date

namespace PBase.Logger

open PBase.Lib

/-! ## Local time -/

/-- The date of a day, also before 1970.  The calendar repeats after 146097 days, 400 years. -/
def civilInt (d : Int) : Int × Nat × Nat :=
  let cycles := max 0 ((146096 - d) / 146097)
  let date := civil (d + 146097 * cycles).toNat
  (date.1 - 400 * cycles, date.2.1, date.2.2)

/-- `struct tm`; the year, from 0 on, may be a negative one. -/
structure LocalTm where
  year : Int
  mon : Nat
  mday : Nat
  hour : Nat
  min : Nat
  sec : Nat

/-- `localtime_r`, in a zone `off` seconds ahead of UTC, for a time in seconds -/
def localtimeIn (off : Int) (sec : Nat) : LocalTm :=
  let date := civilInt ((sec + off) / 86400)
  let time := ((sec + off) % 86400).toNat
  { year := date.1, mon := date.2.1, mday := date.2.2
    hour := time / 3600, min := time % 3600 / 60, sec := time % 60 }

/-- `%04d` -/
def yearText (year : Int) : List Char :=
  if year < 0 then '-' :: zeroPad 3 year.natAbs else zeroPad 4 year.toNat

namespace LogDateImpl

def formatIn (off : Int) (timestamp : Nat) : List Char :=
  let tm := localtimeIn off (timestamp / 1000000)
  (yearText tm.year ++ zeroPad 2 (tm.mon + 1) ++ zeroPad 2 tm.mday ++ '-' ::
    zeroPad 2 tm.hour ++ ':' :: zeroPad 2 tm.min ++ ':' :: zeroPad 2 tm.sec ++ ':' ::
    zeroPad 6 (timestamp % 1000000) ++ [' ']).take 27

/-- `format_to_string(timestamp)` -/
def formatToStringIn (off : Int) (timestamp : Nat) : LogDateImpl :=
  { formatToString timestamp with formatted := formatIn off timestamp }

/-- `update_date()`, at the time `timestamp` -/
def updateDateIn (off : Int) (d : LogDateImpl) (timestamp : Nat) : LogDateImpl :=
  let d := { d with timeUs := timestamp % kUSOneMin }
  let timestamp := timestamp / kUSOneMin
  let timeMin := timestamp % kMinOneDay
  let timeDay := timestamp / kMinOneDay % 2 ^ 32
  if timeDay ≠ d.timeDay then
    formatToStringIn off timestamp
  else
    let d := { d with formatted := setUs d.formatted d.timeUs }
    if timeMin ≠ d.timeMin then
      { d with timeMin := timeMin, formatted := setMin d.formatted timeMin }
    else d

end LogDateImpl

theorem civilInt_natCast (d : Nat) :
    civilInt d = (((civil d).1 : Int), (civil d).2.1, (civil d).2.2) := by
  have hcycles : max 0 ((146096 - (d : Int)) / 146097) = 0 := by omega
  simp only [civilInt, hcycles, Int.mul_zero, Int.add_zero, Int.sub_zero, Int.toNat_natCast]

/-- Without an offset it is the clock of UTC. -/
theorem formatIn_zero (t : Nat) : LogDateImpl.formatIn 0 t = LogDateImpl.format t := by
  have hday : ((t / 1000000 : Nat) + 0 : Int) / 86400 = (t / 1000000 / 86400 : Nat) := by omega
  have htime : (((t / 1000000 : Nat) + 0 : Int) % 86400).toNat = t / 1000000 % 86400 := by omega
  have hmin : t / 1000000 % 86400 % 3600 = t / 1000000 % 3600 ∧
      t / 1000000 % 86400 % 60 = t / 1000000 % 60 := by omega
  simp only [LogDateImpl.formatIn, LogDateImpl.format, localtimeIn, localtime, hday, htime,
    civilInt_natCast, hmin.1, hmin.2]
  rw [yearText, if_neg (by omega), Int.toNat_natCast]

theorem updateDateIn_zero (d : LogDateImpl) (t : Nat) : d.updateDateIn 0 t = d.updateDate t := by
  simp only [LogDateImpl.updateDateIn, LogDateImpl.updateDate, LogDateImpl.formatToStringIn,
    formatIn_zero]
  rfl

theorem LogDateImpl.length_clock (min us : Nat) : (LogDateImpl.clock min us).length = 17 := rfl

/-! ## The text of a day and of a time -/

/-- The local day, minute of the day and microsecond of the minute. -/
def localDay (off : Int) (t : Nat) : Int := (t / 1000000 + off) / 86400
def localSec (off : Int) (t : Nat) : Nat := ((t / 1000000 + off) % 86400).toNat
def localMin (off : Int) (t : Nat) : Nat := localSec off t / 60
def localUs (off : Int) (t : Nat) : Nat := localSec off t % 60 * 1000000 + t % 1000000

/-- The year of a local day. -/
def localYear (off : Int) (t : Nat) : Int := (civilInt (localDay off t)).1

/-- Year, month and day. -/
def dateText (d : Int) : List Char :=
  yearText (civilInt d).1 ++ zeroPad 2 ((civilInt d).2.1 + 1) ++ zeroPad 2 (civilInt d).2.2

theorem localMin_lt (off : Int) (t : Nat) : localMin off t < kMinOneDay := by
  unfold localMin localSec kMinOneDay
  omega

theorem localUs_lt (off : Int) (t : Nat) : localUs off t < kUSOneMin := by
  unfold localUs kUSOneMin
  omega

theorem formatIn_eq (off : Int) (t : Nat) : LogDateImpl.formatIn off t =
    (dateText (localDay off t) ++ LogDateImpl.clock (localMin off t) (localUs off t)).take 27 := by
  have hhour : localSec off t / 3600 = localMin off t / 60 := by unfold localMin; omega
  have hmin : localSec off t % 3600 / 60 = localMin off t % 60 := by unfold localMin; omega
  have hsec : localSec off t % 60 = localUs off t / 1000000 := by unfold localUs; omega
  have hus : t % 1000000 = localUs off t % 1000000 := by unfold localUs; omega
  rw [← LogDateImpl.clock_eq _ (localUs_lt off t) (localMin_lt off t), ← hhour, ← hmin, ← hsec,
    ← hus]
  rfl

/-- `tm_year` is an `int`. -/
def YearFits (off : Int) (t : Nat) : Prop :=
  -2 ^ 31 ≤ localYear off t - 1900 ∧ localYear off t - 1900 < 2 ^ 31

theorem length_zeroPad_two {n : Nat} (h : n < 100) : (zeroPad 2 n).length = 2 := by
  rw [zeroPad_two h]
  rfl

theorem length_zeroPad (w n : Nat) : (zeroPad w n).length = max w (Nat.toDigits 10 n).length :=
  List.length_leftpad

/-- Four characters are the years from -999 to 9999. -/
theorem length_yearText (y : Int) : 4 ≤ (yearText y).length ∧
    ((yearText y).length = 4 ↔ -1000 < y ∧ y < 10000) := by
  rw [yearText]
  split
  · have hdigits : (Nat.toDigits 10 y.natAbs).length ≤ 3 ↔ y.natAbs < 10 ^ 3 :=
      Nat.length_toDigits_le_iff (by decide) (by decide)
    rw [List.length_cons, length_zeroPad]
    omega
  · have hdigits : (Nat.toDigits 10 y.toNat).length ≤ 4 ↔ y.toNat < 10 ^ 4 :=
      Nat.length_toDigits_le_iff (by decide) (by decide)
    rw [length_zeroPad]
    omega

theorem length_yearText_le {y : Int} (h : -2 ^ 31 ≤ y - 1900 ∧ y - 1900 < 2 ^ 31) :
    (yearText y).length ≤ 11 := by
  rw [yearText]
  split
  · have hdigits : (Nat.toDigits 10 y.natAbs).length ≤ 10 :=
      (Nat.length_toDigits_le_iff (by decide) (by decide)).mpr (by omega)
    rw [List.length_cons, length_zeroPad]
    omega
  · have hdigits : (Nat.toDigits 10 y.toNat).length ≤ 10 :=
      (Nat.length_toDigits_le_iff (by decide) (by decide)).mpr (by omega)
    rw [length_zeroPad]
    omega

theorem length_dateText (d : Int) :
    (dateText d).length = (yearText (civilInt d).1).length + 4 := by
  have hlt : (civilInt d).2.1 + 1 < 100 ∧ (civilInt d).2.2 < 100 := by
    obtain ⟨hmon, hmday⟩ := civil_lt (d + 146097 * max 0 ((146096 - d) / 146097)).toNat
    exact ⟨by simp only [civilInt]; omega, by simp only [civilInt]; omega⟩
  rw [dateText, List.length_append, List.length_append, length_zeroPad_two hlt.1,
    length_zeroPad_two hlt.2]

theorem formatIn_four {off : Int} {t : Nat} (h : (dateText (localDay off t)).length = 8) :
    LogDateImpl.formatIn off t =
      dateText (localDay off t) ++ LogDateImpl.clock (localMin off t) (localUs off t) := by
  rw [formatIn_eq, List.take_of_length_le]
  rw [List.length_append, h, LogDateImpl.length_clock]
  decide

theorem digit_inj : ∀ m < 10, ∀ n < 10, digit m = digit n → m = n := by decide

namespace LogDateImpl

variable {date date' f : List Char} {min min' us us' : Nat}

/-- Behind a date of eight characters the digits are where they are written. -/
theorem setUs_clock (h : date.length = 8) (us' : Nat) :
    setUs (date ++ clock min us) us' = date ++ clock min us' := by
  match date, h with
  | [_, _, _, _, _, _, _, _], _ => rfl

theorem setMin_clock (h : date.length = 8) (min' : Nat) :
    setMin (date ++ clock min us) min' = date ++ clock min' us := by
  match date, h with
  | [_, _, _, _, _, _, _, _], _ => rfl

/-- The digits determine the time. -/
theorem clock_inj (hmin : min < kMinOneDay) (hmin' : min' < kMinOneDay) (hus : us < kUSOneMin)
    (hus' : us' < kUSOneMin) (h : clock min us = clock min' us') : min = min' ∧ us = us' := by
  unfold kMinOneDay at hmin hmin'
  unfold kUSOneMin at hus hus'
  simp only [clock, List.cons.injEq, true_and, and_true] at h
  obtain ⟨h₁, h₂, h₃, h₄, h₅, h₆, h₇, h₈, h₉, h₁₀, h₁₁, h₁₂⟩ := h
  have k₁ := digit_inj _ (by omega) _ (by omega) h₁
  have k₂ := digit_inj _ (by omega) _ (by omega) h₂
  have k₃ := digit_inj _ (by omega) _ (by omega) h₃
  have k₄ := digit_inj _ (by omega) _ (by omega) h₄
  have k₅ := digit_inj _ (by omega) _ (by omega) h₅
  have k₆ := digit_inj _ (by omega) _ (by omega) h₆
  have k₇ := digit_inj _ (by omega) _ (by omega) h₇
  have k₈ := digit_inj _ (by omega) _ (by omega) h₈
  have k₉ := digit_inj _ (by omega) _ (by omega) h₉
  have k₁₀ := digit_inj _ (by omega) _ (by omega) h₁₀
  have k₁₁ := digit_inj _ (by omega) _ (by omega) h₁₁
  have k₁₂ := digit_inj _ (by omega) _ (by omega) h₁₂
  constructor
  · omega
  · omega

/-! ## The places of the digits -/

/-- The places `update_date` writes to at every call. -/
def places : List Nat := [15, 16, 18, 19, 20, 21, 22, 23]

theorem isDigit_digit : ∀ n < 10, (digit n).isDigit = true := by decide

theorem isDigit_setUs {i : Nat} {c : Char} (hus : us < kUSOneMin) (hi : i ∈ places)
    (hc : (setUs f us)[i]? = some c) : c.isDigit = true := by
  unfold kUSOneMin at hus
  have hsome : ∃ n < 10, c = digit n := by
    simp only [places, List.mem_cons, List.not_mem_nil, or_false] at hi
    rcases hi with rfl | rfl | rfl | rfl | rfl | rfl | rfl | rfl
    all_goals
      simp [setUs, List.getElem?_set] at hc
      obtain ⟨-, rfl⟩ := hc
      exact ⟨_, by omega, rfl⟩
  obtain ⟨n, hn, rfl⟩ := hsome
  exact isDigit_digit n hn

theorem getElem?_setMin {i : Nat} (hi : 14 ≤ i) : (setMin f min)[i]? = f[i]? := by
  simp only [setMin]
  rw [List.getElem?_set_ne (by omega), List.getElem?_set_ne (by omega),
    List.getElem?_set_ne (by omega), List.getElem?_set_ne (by omega)]

/-- Behind a longer date there is no digit at one of them. -/
theorem clock_separator (min us : Nat) (h : 9 ≤ date.length) (h' : date.length ≤ 15) :
    ∃ i ∈ places, ∃ c, ((date ++ clock min us).take 27)[i]? = some c ∧ c.isDigit = false := by
  have hat : ∀ j < 17, date.length + j < 27 →
      ((date ++ clock min us).take 27)[date.length + j]? = (clock min us)[j]? := by
    intro j _ hlt
    rw [List.getElem?_take_of_lt hlt, List.getElem?_append_right (Nat.le_add_right _ _),
      Nat.add_sub_cancel_left]
  have hplace : ∀ j i, date.length + j = i → i ∈ places → j < 17 → i < 27 →
      ∀ c, (clock min us)[j]? = some c → c.isDigit = false →
      ∃ i ∈ places, ∃ c, ((date ++ clock min us).take 27)[i]? = some c ∧ c.isDigit = false := by
    rintro j i rfl hi hj hlt c hc hdigit
    exact ⟨_, hi, c, (hat j hj hlt).trans hc, hdigit⟩
  obtain h | h | h | h | h | h | h : date.length = 9 ∨ date.length = 10 ∨ date.length = 11 ∨
      date.length = 12 ∨ date.length = 13 ∨ date.length = 14 ∨ date.length = 15 := by omega
  · exact hplace 6 15 (by omega) (by decide) (by decide) (by decide) ':' rfl (by decide)
  · exact hplace 6 16 (by omega) (by decide) (by decide) (by decide) ':' rfl (by decide)
  · exact hplace 9 20 (by omega) (by decide) (by decide) (by decide) ':' rfl (by decide)
  · exact hplace 3 15 (by omega) (by decide) (by decide) (by decide) ':' rfl (by decide)
  · exact hplace 3 16 (by omega) (by decide) (by decide) (by decide) ':' rfl (by decide)
  · exact hplace 6 20 (by omega) (by decide) (by decide) (by decide) ':' rfl (by decide)
  · exact hplace 0 15 (by omega) (by decide) (by decide) (by decide) '-' rfl (by decide)

end LogDateImpl

/-! ## One update -/

section Update
variable {off : Int} {t t₀ : Nat}

theorem field_eq (h : day t = day t₀) :
    t / kUSOneMin / kMinOneDay % 2 ^ 32 = t₀ / kUSOneMin / kMinOneDay % 2 ^ 32 := by
  simp only [day, kUSOneMin, kMinOneDay] at h ⊢
  omega

theorem local_of_days (h : off % 86400 = 0) : localMin off t = minOf t ∧ localUs off t = usOf t ∧
    localDay off t = day t + off / 86400 := by
  simp only [localMin, localUs, localDay, localSec, minOf, usOf, day, kUSOneMin, kMinOneDay]
  omega

theorem local_of_minute (h : off % 60 = 0) (hday : day t = day t₀) (hmin : minOf t = minOf t₀) :
    localMin off t = localMin off t₀ ∧ localUs off t = usOf t ∧
      localDay off t = localDay off t₀ := by
  simp only [localMin, localUs, localDay, localSec, minOf, usOf, day, kUSOneMin, kMinOneDay] at *
  omega

/-- The seconds agree only without seconds in the offset. -/
theorem seconds_of_us (h : localUs off t = usOf t) : off % 60 = 0 := by
  simp only [localUs, localSec, usOf, kUSOneMin] at h
  omega

/-- The minutes agree only for whole days. -/
theorem days_of_min (h : localMin off t = minOf t) (hoff : off % 60 = 0) : off % 86400 = 0 := by
  simp only [localMin, localSec, minOf, kUSOneMin, kMinOneDay] at h
  omega

/-- On the day of `t₀` the string shows the date `date` and the minute `shown`; the minute kept is
`min`. -/
structure Keeps (t₀ : Nat) (date : List Char) (min shown : Nat) (d : LogDateImpl) : Prop where
  timeDay : t₀ / kUSOneMin / kMinOneDay % 2 ^ 32 = d.timeDay
  timeMin : d.timeMin = min
  formatted : ∃ us, d.formatted = date ++ LogDateImpl.clock shown us

variable {d : LogDateImpl} {date : List Char} {min shown : Nat}

theorem updateDateIn_us (hday : t / kUSOneMin / kMinOneDay % 2 ^ 32 = d.timeDay)
    (hmin : minOf t = d.timeMin) : d.updateDateIn off t =
      ⟨d.timeDay, d.timeMin, usOf t, LogDateImpl.setUs d.formatted (usOf t)⟩ :=
  (if_neg (not_not.mpr hday)).trans (if_neg (not_not.mpr hmin))

theorem updateDateIn_min (hday : t / kUSOneMin / kMinOneDay % 2 ^ 32 = d.timeDay)
    (hmin : minOf t ≠ d.timeMin) : d.updateDateIn off t = ⟨d.timeDay, minOf t, usOf t,
      LogDateImpl.setMin (LogDateImpl.setUs d.formatted (usOf t)) (minOf t)⟩ :=
  (if_neg (not_not.mpr hday)).trans (if_pos hmin)

/-- In the minute kept, the digits of the seconds change. -/
theorem Keeps.same (h : Keeps t₀ date min shown d) (hdate : date.length = 8) (off : Int)
    (hday : day t = day t₀) (hmin : minOf t = min) :
    Keeps t₀ date min shown (d.updateDateIn off t) ∧
      (d.updateDateIn off t).formatted = date ++ LogDateImpl.clock shown (usOf t) := by
  obtain ⟨us, hus⟩ := h.formatted
  have hformatted : LogDateImpl.setUs d.formatted (usOf t) =
      date ++ LogDateImpl.clock shown (usOf t) := by
    rw [hus, LogDateImpl.setUs_clock hdate]
  rw [updateDateIn_us ((field_eq hday).trans h.timeDay) (hmin.trans h.timeMin.symm)]
  exact ⟨⟨h.timeDay, h.timeMin, _, hformatted⟩, hformatted⟩

/-- In another minute, the string shows the minute of UTC. -/
theorem Keeps.other (h : Keeps t₀ date min shown d) (hdate : date.length = 8) (off : Int)
    (hday : day t = day t₀) (hmin : minOf t ≠ min) :
    Keeps t₀ date (minOf t) (minOf t) (d.updateDateIn off t) ∧
      (d.updateDateIn off t).formatted = date ++ LogDateImpl.clock (minOf t) (usOf t) := by
  obtain ⟨us, hus⟩ := h.formatted
  have hformatted : LogDateImpl.setMin (LogDateImpl.setUs d.formatted (usOf t)) (minOf t) =
      date ++ LogDateImpl.clock (minOf t) (usOf t) := by
    rw [hus, LogDateImpl.setUs_clock hdate, LogDateImpl.setMin_clock hdate]
  rw [updateDateIn_min ((field_eq hday).trans h.timeDay) fun heq => hmin (heq.trans h.timeMin)]
  exact ⟨⟨h.timeDay, rfl, _, hformatted⟩, hformatted⟩

theorem keeps_formatToStringIn (h : (dateText (localDay off t₀)).length = 8) :
    Keeps t₀ (dateText (localDay off t₀)) (minOf t₀) (localMin off t₀)
      (.formatToStringIn off t₀) :=
  ⟨rfl, rfl, _, formatIn_four h⟩

end Update

/-! ## The year -/

section Year
variable {off : Int} {t t₀ : Nat} {d : LogDateImpl}

theorem length_dateText_iff : (dateText (localDay off t)).length = 8 ↔
    -1000 < localYear off t ∧ localYear off t < 10000 := by
  rw [length_dateText, ← (length_yearText (localYear off t)).2, localYear]
  omega

theorem length_dateText_le (h : YearFits off t) :
    8 ≤ (dateText (localDay off t)).length ∧ (dateText (localDay off t)).length ≤ 15 := by
  have hle := length_yearText_le h
  have hge := (length_yearText (localYear off t)).1
  rw [localYear] at hle hge
  rw [length_dateText]
  omega

/-- What an update on the same day leaves at the places it always writes to is a digit. -/
theorem isDigit_updateDateIn {i : Nat} {c : Char}
    (hday : t / kUSOneMin / kMinOneDay % 2 ^ 32 = d.timeDay) (hi : i ∈ LogDateImpl.places)
    (hc : (d.updateDateIn off t).formatted[i]? = some c) : c.isDigit = true := by
  have hus : usOf t < kUSOneMin := Nat.mod_lt t (by decide)
  rcases eq_or_ne (minOf t) d.timeMin with hsame | hother
  · rw [updateDateIn_us hday hsame] at hc
    exact LogDateImpl.isDigit_setUs hus hi hc
  · have hge : ∀ i ∈ LogDateImpl.places, 14 ≤ i := by decide
    rw [updateDateIn_min hday hother, LogDateImpl.getElem?_setMin (hge i hi)] at hc
    exact LogDateImpl.isDigit_setUs hus hi hc

theorem length_updateDateIn (hday : t / kUSOneMin / kMinOneDay % 2 ^ 32 = d.timeDay) :
    (d.updateDateIn off t).formatted.length = d.formatted.length := by
  rcases eq_or_ne (minOf t) d.timeMin with hsame | hother
  · rw [updateDateIn_us hday hsame]
    simp only [LogDateImpl.setUs, List.length_set]
  · rw [updateDateIn_min hday hother]
    simp only [LogDateImpl.setUs, LogDateImpl.setMin, List.length_set]

/-- A local time that an update shows has a year of four characters. -/
theorem four_of_shown (h : YearFits off t)
    (hday : t / kUSOneMin / kMinOneDay % 2 ^ 32 = d.timeDay)
    (hshown : (d.updateDateIn off t).formatted = LogDateImpl.formatIn off t) :
    (dateText (localDay off t)).length = 8 := by
  obtain ⟨hge, hle⟩ := length_dateText_le h
  by_contra hne
  obtain ⟨i, hi, c, hc, hdigit⟩ :=
    LogDateImpl.clock_separator (localMin off t) (localUs off t) (by omega) hle
  rw [← formatIn_eq, ← hshown] at hc
  rw [isDigit_updateDateIn hday hi hc] at hdigit
  cases hdigit

end Year

/-! ## All updates of a day -/

/-- Every update shows the local time of its reading. -/
def ShowsLocal (off : Int) : LogDateImpl → List Nat → Prop
  | _, [] => True
  | d, t :: ts =>
      (d.updateDateIn off t).formatted = LogDateImpl.formatIn off t ∧
        ShowsLocal off (d.updateDateIn off t) ts

section Updates
variable {off : Int} {t₀ : Nat} {ts : List Nat} {d : LogDateImpl}

/-- An offset of whole days: the minute kept is the local one. -/
theorem showsLocal_of_days {min : Nat} (hoff : off % 86400 = 0)
    (hdate : (dateText (localDay off t₀)).length = 8) (hday : ∀ t ∈ ts, day t = day t₀)
    (h : Keeps t₀ (dateText (localDay off t₀)) min min d) : ShowsLocal off d ts := by
  induction ts generalizing d min with
  | nil => trivial
  | cons t ts ih =>
      have ht := hday t List.mem_cons_self
      have hts := fun t' ht' => hday t' (List.mem_cons_of_mem t ht')
      obtain ⟨hmin, hus, hlocal⟩ := local_of_days (t := t) hoff
      have hlocal₀ := (local_of_days (t := t₀) hoff).2.2
      rw [← ht, ← hlocal] at hlocal₀
      have hdate' : (dateText (localDay off t)).length = 8 := hlocal₀ ▸ hdate
      have hformat := formatIn_four hdate'
      rw [← hlocal₀, hmin, hus] at hformat
      rcases eq_or_ne (minOf t) min with hsame | hother
      · obtain ⟨hkeeps, hshown⟩ := h.same hdate off ht hsame
        exact ⟨by rw [hshown, hformat, hsame], ih hts hkeeps⟩
      · obtain ⟨hkeeps, hshown⟩ := h.other hdate off ht hother
        exact ⟨hshown.trans hformat.symm, ih hts hkeeps⟩

/-- Readings in one minute. -/
theorem showsLocal_of_minute (hoff : off % 60 = 0)
    (hdate : (dateText (localDay off t₀)).length = 8) (hday : ∀ t ∈ ts, day t = day t₀)
    (hmin : ∀ t ∈ ts, minOf t = minOf t₀)
    (h : Keeps t₀ (dateText (localDay off t₀)) (minOf t₀) (localMin off t₀) d) :
    ShowsLocal off d ts := by
  induction ts generalizing d with
  | nil => trivial
  | cons t ts ih =>
      have ht := hday t List.mem_cons_self
      have hsame := hmin t List.mem_cons_self
      have hts := fun t' ht' => hday t' (List.mem_cons_of_mem t ht')
      have hmins := fun t' ht' => hmin t' (List.mem_cons_of_mem t ht')
      obtain ⟨hlocal, hus, hlocalDay⟩ := local_of_minute hoff ht hsame
      have hdate' : (dateText (localDay off t)).length = 8 := hlocalDay.symm ▸ hdate
      have hformat := formatIn_four hdate'
      rw [hlocal, hus, hlocalDay] at hformat
      obtain ⟨hkeeps, hshown⟩ := h.same hdate off ht hsame
      exact ⟨hshown.trans hformat.symm, ih hts hmins hkeeps⟩

/-- A string that is right shows the local minute, and the seconds of the offset are none. -/
theorem eq_of_shown {t shown : Nat} {date : List Char} (hdate : date.length = 8)
    (hdate' : (dateText (localDay off t)).length = 8) (hshown : shown < kMinOneDay)
    (h : date ++ LogDateImpl.clock shown (usOf t) = LogDateImpl.formatIn off t) :
    localMin off t = shown ∧ off % 60 = 0 := by
  rw [formatIn_four hdate'] at h
  obtain ⟨-, hclock⟩ := List.append_inj h (hdate.trans hdate'.symm)
  obtain ⟨hmin, hus⟩ := LogDateImpl.clock_inj hshown (localMin_lt off t) (Nat.mod_lt t (by decide))
    (localUs_lt off t) hclock
  exact ⟨hmin.symm, seconds_of_us hus.symm⟩

/-- The first reading of another minute shows the minute of UTC. -/
theorem days_of_showsLocal (hdate : (dateText (localDay off t₀)).length = 8)
    (hyear : ∀ t ∈ ts, YearFits off t) (hday : ∀ t ∈ ts, day t = day t₀)
    (h : Keeps t₀ (dateText (localDay off t₀)) (minOf t₀) (localMin off t₀) d)
    (hshows : ShowsLocal off d ts) (hmin : ∃ t ∈ ts, minOf t ≠ minOf t₀) : off % 86400 = 0 := by
  induction ts generalizing d with
  | nil =>
      obtain ⟨t, ht, -⟩ := hmin
      exact absurd ht List.not_mem_nil
  | cons t ts ih =>
      obtain ⟨hfirst, hrest⟩ := hshows
      have ht := hday t List.mem_cons_self
      rcases eq_or_ne (minOf t) (minOf t₀) with hsame | hother
      · have hkeeps := (h.same hdate off ht hsame).1
        refine ih (fun t' ht' => hyear t' (List.mem_cons_of_mem t ht'))
          (fun t' ht' => hday t' (List.mem_cons_of_mem t ht')) hkeeps hrest ?_
        obtain ⟨t', ht', hne⟩ := hmin
        rcases List.mem_cons.mp ht' with rfl | ht'
        · exact absurd hsame hne
        · exact ⟨t', ht', hne⟩
      · have hdate' := four_of_shown (hyear t List.mem_cons_self)
          ((field_eq ht).trans h.timeDay) hfirst
        rw [(h.other hdate off ht hother).2] at hfirst
        obtain ⟨hlocal, hoff⟩ := eq_of_shown hdate hdate' (Nat.mod_lt _ (by decide)) hfirst
        exact days_of_min hlocal hoff

end Updates

/-- On one UTC day all updates show local time exactly if there are none, or the year has four
characters, the offset no seconds, and the minute never changes or the offset is whole days. -/
theorem update_local_iff (off : Int) (t₀ : Nat) (ts : List Nat) (hday : ∀ t ∈ ts, day t = day t₀)
    (hyear : ∀ t ∈ t₀ :: ts, YearFits off t) :
    ShowsLocal off (.formatToStringIn off t₀) ts ↔
      ts = [] ∨ (-1000 < localYear off t₀ ∧ localYear off t₀ < 10000) ∧ off % 60 = 0 ∧
        ((∀ t ∈ ts, minOf t = minOf t₀) ∨ off % 86400 = 0) := by
  have hyears := fun t ht => hyear t (List.mem_cons_of_mem t₀ ht)
  constructor
  · intro hshows
    cases ts with
    | nil => exact .inl rfl
    | cons t ts =>
        have ht := hday t List.mem_cons_self
        have hfirst := hshows.1
        have hdate' := four_of_shown (hyears t List.mem_cons_self) (field_eq ht) hfirst
        -- the update keeps the length of the string
        have hdate : (dateText (localDay off t₀)).length = 8 := by
          have hge := (length_dateText_le (hyear t₀ List.mem_cons_self)).1
          have hlength := congrArg List.length hfirst
          rw [length_updateDateIn (field_eq ht), formatIn_four hdate'] at hlength
          simp only [LogDateImpl.formatToStringIn, formatIn_eq, List.length_take,
            List.length_append, LogDateImpl.length_clock, hdate'] at hlength
          omega
        have hkeeps := keeps_formatToStringIn hdate
        have hoff : off % 60 = 0 := by
          rcases eq_or_ne (minOf t) (minOf t₀) with hsame | hother
          · rw [(hkeeps.same hdate off ht hsame).2] at hfirst
            exact (eq_of_shown hdate hdate' (localMin_lt off t₀) hfirst).2
          · rw [(hkeeps.other hdate off ht hother).2] at hfirst
            exact (eq_of_shown hdate hdate' (Nat.mod_lt _ (by decide)) hfirst).2
        refine .inr ⟨length_dateText_iff.mp hdate, hoff, ?_⟩
        by_contra hneither
        rw [not_or, not_forall] at hneither
        obtain ⟨⟨t', hmin⟩, hdays⟩ := hneither
        rw [Classical.not_imp] at hmin
        exact hdays (days_of_showsLocal hdate hyears hday hkeeps hshows ⟨t', hmin⟩)
  · rintro (rfl | ⟨hfour, hoff, hmin | hdays⟩)
    · trivial
    · have hdate := length_dateText_iff.mpr hfour
      exact showsLocal_of_minute hoff hdate hday hmin (keeps_formatToStringIn hdate)
    · have hdate := length_dateText_iff.mpr hfour
      have hkeeps := keeps_formatToStringIn hdate
      rw [(local_of_days hdays).1] at hkeeps
      exact showsLocal_of_days hdays hdate hday hkeeps

theorem update_local_iff_minute :
    ShowsLocal 28800 (.formatToStringIn 28800 1500000000000000) [1500000000000001] ↔
      [1500000000000001] = [] ∨
        (-1000 < localYear 28800 1500000000000000 ∧ localYear 28800 1500000000000000 < 10000) ∧
          (28800 : Int) % 60 = 0 ∧
          ((∀ t ∈ [1500000000000001], minOf t = minOf 1500000000000000) ∨
            (28800 : Int) % 86400 = 0) :=
  update_local_iff _ _ _ (by decide) (by simp [YearFits]; decide)

/-- Eight hours ahead of UTC, one minute later. -/
theorem update_shows_utc : ¬ ∀ (off : Int) (t₀ : Nat) (ts : List Nat), (∀ t ∈ ts, day t = day t₀) →
    (∀ t ∈ t₀ :: ts, YearFits off t) → ShowsLocal off (.formatToStringIn off t₀) ts := by
  intro h
  have hday : ∀ t ∈ [1500000060000000], day t = day 1500000000000000 := by decide
  have hyear : ∀ t ∈ [1500000000000000, 1500000060000000], YearFits 28800 t := by
    simp [YearFits]
    decide
  have hdate : (dateText (localDay 28800 1500000000000000)).length = 8 :=
    length_dateText_iff.mpr (by decide)
  have hdays := days_of_showsLocal hdate (fun t ht => hyear t (List.mem_cons_of_mem _ ht)) hday
    (keeps_formatToStringIn hdate) (h 28800 1500000000000000 [1500000060000000] hday hyear)
    ⟨_, List.mem_cons_self, by decide⟩
  exact absurd hdays (by decide)

end PBase.Logger
