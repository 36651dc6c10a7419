/-
# `PBase.Lib.CString` — C strings and `strtol`

A C string is the list of its characters, without the NUL.  `strtol s` is the value and the rest
of the string from `endptr` on, for base 10; the rest is all of `s` if there is no number.

`Numeral s n` is the syntax: whitespace, perhaps a sign, digits.  `strtol` takes the longest
numeral `s` starts with (`strtol_numeral`, `numeral_of_strtol`), and clips its value to a
`long`.
-/
import Mathlib.Tactic
import Mathlib.Data.List.TakeWhile

namespace PBase.Lib

/-- `isspace`, in the C locale -/
def isspace (c : Char) : Bool := c = ' ' ∨ 9 ≤ c.toNat ∧ c.toNat ≤ 13

theorem isspace_of_isDigit {c : Char} (h : c.isDigit) : isspace c = false := by
  obtain ⟨hge, -⟩ := Char.isDigit_iff_toNat.mp h
  have hspace : c ≠ ' ' := by
    rintro rfl
    exact absurd hge (by decide)
  have hzero : '0'.toNat = 48 := rfl
  simp [isspace, hspace]
  omega

/-! ## Stretches of characters -/

/-- The string does not start with a character that satisfies `p`. -/
def Stops (p : Char → Bool) (s : List Char) : Prop := ∀ c ∈ s.head?, p c = false

section Stretch
variable {p : Char → Bool} {s t rest : List Char}

theorem Stops.nil : Stops p [] := by
  intro c hc
  cases hc

theorem Stops.cons {c : Char} (h : p c = false) : Stops p (c :: s) := by
  intro d hd
  cases hd
  exact h

theorem Stops.dropWhile (p : Char → Bool) (s : List Char) : Stops p (s.dropWhile p) := by
  intro c hc
  have hhead := List.head?_dropWhile_not p s
  rw [Option.mem_def.mp hc] at hhead
  simpa using hhead

theorem takeWhile_append_stops (ht : ∀ c ∈ t, p c) (h : Stops p rest) :
    (t ++ rest).takeWhile p = t := by
  rw [List.takeWhile_append_of_pos ht]
  cases rest with
  | nil => simp
  | cons c rest => rw [List.takeWhile_cons_of_neg (by simp [h c rfl]), List.append_nil]

theorem dropWhile_append_stops (ht : ∀ c ∈ t, p c) (h : Stops p rest) :
    (t ++ rest).dropWhile p = rest := by
  rw [List.dropWhile_append_of_pos ht]
  cases rest with
  | nil => rfl
  | cons c rest => rw [List.dropWhile_cons_of_neg (by simp [h c rfl])]

end Stretch

/-- The first separator splits a string in one way. -/
theorem append_sep_inj {c : Char} {s s' t t' : List Char} (hs : c ∉ s) (hs' : c ∉ s')
    (h : s ++ c :: t = s' ++ c :: t') : s = s' ∧ t = t' := by
  have hstops : ∀ t, Stops (· ≠ c) (c :: t) := fun t => .cons (by simp)
  have hall : ∀ {s : List Char}, c ∉ s → ∀ d ∈ s, decide (d ≠ c) = true := fun hs d hd =>
    decide_eq_true (ne_of_mem_of_not_mem hd hs)
  have htake := congrArg (List.takeWhile (· ≠ c)) h
  have hdrop := congrArg (List.dropWhile (· ≠ c)) h
  rw [takeWhile_append_stops (hall hs) (hstops t), takeWhile_append_stops (hall hs') (hstops t')]
    at htake
  rw [dropWhile_append_stops (hall hs) (hstops t), dropWhile_append_stops (hall hs') (hstops t')]
    at hdrop
  exact ⟨htake, (List.cons.inj hdrop).2⟩

/-! ## `strtol` -/

/-- The range of a `long`. -/
def clip (n : Int) : Int := max (-2 ^ 63) (min (2 ^ 63 - 1) n)

/-- The sign of a number, and what follows it. -/
def sign : List Char → Int × List Char
  | [] => (1, [])
  | c :: s => if c = '-' then (-1, s) else if c = '+' then (1, s) else (1, c :: s)

/-- The characters of a sign, and what it stands for. -/
inductive IsSign : List Char → Int → Prop
  | none : IsSign [] 1
  | plus : IsSign ['+'] 1
  | minus : IsSign ['-'] (-1)

/-- `strtol(s, &endptr, 10)` -/
def strtol (s : List Char) : Int × List Char :=
  let r := sign (s.dropWhile isspace)
  let digits := r.2.takeWhile Char.isDigit
  if digits = [] then (0, s)
  else (clip (r.1 * Nat.ofDigitChars 10 digits 0), r.2.dropWhile Char.isDigit)

/-- An integer, as `strtol` reads it. -/
inductive Numeral : List Char → Int → Prop
  | mk {space sgn digits : List Char} {k : Int} : (∀ c ∈ space, isspace c) → IsSign sgn k →
      digits ≠ [] → (∀ c ∈ digits, c.isDigit) →
      Numeral (space ++ sgn ++ digits) (k * Nat.ofDigitChars 10 digits 0)

theorem Numeral.ne_nil {s : List Char} {n : Int} (h : Numeral s n) : s ≠ [] := by
  cases h with
  | mk _ _ hne _ => simp [hne]

/-- A sign in front of a digit is found. -/
theorem sign_append {sgn rest : List Char} {k : Int} {c : Char} (h : IsSign sgn k)
    (hc : c.isDigit) : sign (sgn ++ c :: rest) = (k, c :: rest) := by
  cases h with
  | none =>
      have hminus : c ≠ '-' := by
        rintro rfl
        exact absurd hc (by decide)
      have hplus : c ≠ '+' := by
        rintro rfl
        exact absurd hc (by decide)
      rw [List.nil_append, sign, if_neg hminus, if_neg hplus]
  | plus => rfl
  | minus => rfl

theorem IsSign.stops {sgn rest : List Char} {k : Int} {c : Char} (h : IsSign sgn k)
    (hc : c.isDigit) : Stops isspace (sgn ++ c :: rest) := by
  cases h with
  | none => exact .cons (isspace_of_isDigit hc)
  | plus => exact .cons (by decide)
  | minus => exact .cons (by decide)

/-- What is found is a sign. -/
theorem isSign_sign (s : List Char) : ∃ sgn, s = sgn ++ (sign s).2 ∧ IsSign sgn (sign s).1 := by
  cases s with
  | nil => exact ⟨[], rfl, .none⟩
  | cons c s =>
      rw [sign]
      split
      · rename_i hminus
        exact ⟨['-'], by rw [hminus]; rfl, .minus⟩
      · split
        · rename_i hplus
          exact ⟨['+'], by rw [hplus]; rfl, .plus⟩
        · exact ⟨[], rfl, .none⟩

/-- A numeral is read to its end. -/
theorem strtol_numeral {t rest : List Char} {n : Int} (h : Numeral t n)
    (hrest : Stops Char.isDigit rest) : strtol (t ++ rest) = (clip n, rest) := by
  cases h with
  | @mk space sgn digits k hspace hsgn hne hdigits =>
      obtain ⟨c, cs, rfl⟩ := List.exists_cons_of_ne_nil hne
      have hc := hdigits c List.mem_cons_self
      have hassoc : space ++ sgn ++ c :: cs ++ rest = space ++ (sgn ++ c :: (cs ++ rest)) := by
        simp
      have htake := takeWhile_append_stops hdigits hrest
      have hdrop := dropWhile_append_stops hdigits hrest
      rw [List.cons_append] at htake hdrop
      rw [hassoc, strtol, dropWhile_append_stops hspace (hsgn.stops hc), sign_append hsgn hc]
      simp only [htake, hdrop, if_neg hne]

/-- What is read is a numeral. -/
theorem numeral_of_strtol {s rest : List Char} {v : Int} (h : strtol s = (v, rest))
    (hne : rest.length ≠ s.length) :
    ∃ t n, s = t ++ rest ∧ Numeral t n ∧ Stops Char.isDigit rest ∧ v = clip n := by
  obtain ⟨sgn, hsplit, hsgn⟩ := isSign_sign (s.dropWhile isspace)
  rw [strtol] at h
  split at h
  · cases h
    exact absurd rfl hne
  · rename_i hdigits
    cases h
    refine ⟨s.takeWhile isspace ++ sgn ++ _, _, ?_, .mk ?_ hsgn hdigits ?_, .dropWhile _ _, rfl⟩
    · rw [List.append_assoc, List.takeWhile_append_dropWhile, List.append_assoc, ← hsplit,
        List.takeWhile_append_dropWhile]
    · exact fun c hc => List.mem_takeWhile_imp hc
    · exact fun c hc => List.mem_takeWhile_imp hc

/-- A number as it is printed is a numeral. -/
theorem numeral_toDigits (n : Nat) : Numeral (Nat.toDigits 10 n) n := by
  have hnum : Numeral ([] ++ [] ++ Nat.toDigits 10 n)
      (1 * Nat.ofDigitChars 10 (Nat.toDigits 10 n) 0) :=
    .mk (fun c hc => absurd hc List.not_mem_nil) .none Nat.toDigits_ne_nil fun c hc =>
      Nat.isDigit_of_mem_toDigits (by decide) (by decide) hc
  rwa [Nat.ofDigitChars_ten_toDigits, Int.one_mul] at hnum

end PBase.Lib
