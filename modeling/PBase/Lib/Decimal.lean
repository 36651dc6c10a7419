/-
# `PBase.Lib.Decimal` — numbers in decimal, and dates

`zeroPad w n` is what `%0wu` prints.  It is built digit by digit from the right
(`zeroPad_succ`), whatever the number; a number below `10 ^ w` takes exactly `w` characters.

`civil` is the Gregorian date of a day, counted from 1970-01-01: the year is found by
subtracting the lengths of the years before it, the month likewise.
-/
import Mathlib.Tactic

namespace PBase.Lib

/-! ## Digits -/

/-- `n` in decimal, with zeros before it up to `w` characters. -/
def zeroPad (w n : Nat) : List Char := (Nat.toDigits 10 n).leftpad w '0'

theorem zeroPad_one {n : Nat} (h : n < 10) : zeroPad 1 n = [n.digitChar] := by
  rw [zeroPad, Nat.toDigits_of_lt_base h]
  rfl

/-- The last digit, after the number without it. -/
theorem zeroPad_succ {w : Nat} (hw : 0 < w) (n : Nat) :
    zeroPad (w + 1) n = zeroPad w (n / 10) ++ [(n % 10).digitChar] := by
  unfold zeroPad
  rcases Nat.lt_or_ge n 10 with h | h
  · obtain ⟨v, rfl⟩ := Nat.exists_eq_succ_of_ne_zero (Nat.pos_iff_ne_zero.mp hw)
    rw [Nat.toDigits_of_lt_base h, Nat.div_eq_of_lt h, Nat.mod_eq_of_lt h, Nat.toDigits_zero]
    simp [List.leftpad, ← List.replicate_succ']
  · rw [Nat.toDigits_of_base_le (by decide) h]
    simp [List.leftpad]

theorem zeroPad_two {n : Nat} (h : n < 100) :
    zeroPad 2 n = [(n / 10).digitChar, (n % 10).digitChar] := by
  rw [zeroPad_succ (by decide), zeroPad_one (by omega)]
  rfl

theorem zeroPad_four {n : Nat} (h : n < 10000) :
    zeroPad 4 n = [(n / 10 / 10 / 10).digitChar, (n / 10 / 10 % 10).digitChar,
      (n / 10 % 10).digitChar, (n % 10).digitChar] := by
  rw [zeroPad_succ (by decide), zeroPad_succ (by decide), zeroPad_two (by omega)]
  rfl

theorem zeroPad_six {n : Nat} (h : n < 1000000) :
    zeroPad 6 n = [(n / 10 / 10 / 10 / 10 / 10).digitChar, (n / 10 / 10 / 10 / 10 % 10).digitChar,
      (n / 10 / 10 / 10 % 10).digitChar, (n / 10 / 10 % 10).digitChar, (n / 10 % 10).digitChar,
      (n % 10).digitChar] := by
  rw [zeroPad_succ (by decide), zeroPad_succ (by decide), zeroPad_four (by omega)]
  rfl

/-! ## Dates -/

def isLeap (year : Nat) : Bool := year % 4 = 0 ∧ (year % 100 ≠ 0 ∨ year % 400 = 0)

def monthLengths (year : Nat) : List Nat :=
  [31, if isLeap year then 29 else 28, 31, 30, 31, 30, 31, 31, 30, 31, 30, 31]

def daysInYear (year : Nat) : Nat := if isLeap year then 366 else 365

/-- The year of the day `d`, counted from the first of the year `y`, and the day in it. -/
def yearOf : Nat → Nat → Nat → Nat × Nat
  | 0, y, d => (y, d)
  | fuel + 1, y, d =>
      if d < daysInYear y then (y, d) else yearOf fuel (y + 1) (d - daysInYear y)

/-- The month of the day `d`, counted from the first of the month `m`, and the day in it. -/
def monthOf : List Nat → Nat → Nat → Nat × Nat
  | [], m, d => (m, d)
  | len :: rest, m, d => if d < len then (m, d) else monthOf rest (m + 1) (d - len)

/-- Year, month from 0 and day of the month from 1 of the day `d` after 1970-01-01. -/
def civil (d : Nat) : Nat × Nat × Nat :=
  let (y, yday) := yearOf d 1970 d
  let (m, mday) := monthOf (monthLengths y) 0 yday
  (y, m, mday + 1)

theorem yearOf_lt {fuel y d : Nat} (h : d ≤ fuel) :
    (yearOf fuel y d).2 < daysInYear (yearOf fuel y d).1 := by
  have hpos : ∀ y, 0 < daysInYear y := fun y => by
    unfold daysInYear
    split <;> decide
  induction fuel generalizing y d with
  | zero =>
      rw [Nat.le_zero.mp h]
      exact hpos y
  | succ fuel ih =>
      unfold yearOf
      split
      · assumption
      · have := hpos y
        exact ih (by omega)

theorem monthOf_lt {lens : List Nat} {m d : Nat} (h : d < lens.sum) :
    (monthOf lens m d).1 < m + lens.length ∧ ∃ len ∈ lens, (monthOf lens m d).2 < len := by
  induction lens generalizing m d with
  | nil => exact absurd h (Nat.not_lt_zero d)
  | cons len rest ih =>
      rw [List.sum_cons] at h
      rw [List.length_cons]
      unfold monthOf
      split
      · exact ⟨by simp only; omega, len, List.mem_cons_self, by assumption⟩
      · obtain ⟨hm, len', hlen, hd⟩ := ih (m := m + 1) (d := d - len) (by omega)
        exact ⟨by omega, len', List.mem_cons_of_mem _ hlen, hd⟩

/-- A month has at most 31 days, and a year 12 months. -/
theorem civil_lt (d : Nat) : (civil d).2.1 < 12 ∧ (civil d).2.2 ≤ 31 := by
  have hsum : ∀ y, daysInYear y = (monthLengths y).sum := fun y => by
    unfold daysInYear monthLengths
    split <;> rfl
  have hyear := yearOf_lt (y := 1970) (Nat.le_refl d)
  rw [hsum] at hyear
  obtain ⟨hm, len, hlen, hd⟩ := monthOf_lt (m := 0) hyear
  have hle : len ≤ 31 := by
    simp only [monthLengths, List.mem_cons, List.not_mem_nil, or_false] at hlen
    rcases hlen with h | h | h | h | h | h | h | h | h | h | h | h <;> (try split at h) <;> omega
  refine ⟨?_, ?_⟩
  · simpa [civil, monthLengths] using hm
  · show (monthOf (monthLengths (yearOf d 1970 d).1) 0 (yearOf d 1970 d).2).2 + 1 ≤ 31
    omega

end PBase.Lib
