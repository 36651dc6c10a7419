/-
# `PBase.Lib.Numeral` — integers written out, and read back

`decimal v` and `hexadecimal n` are the numerals as they are usually written: no zero in front,
`-` before a negative number, `0x` and capital letters for base 16.  `readInteger` and `readHex`
read them back (`read_decimal`, `read_hexadecimal`), from the left: a digit more makes `b` times
the number and the digit.
-/
import Mathlib.Tactic

namespace PBase.Lib

/-! ## Writing -/

/-- The digits of `n` in base `b`, at most 16, with capital letters. -/
def numeral (b n : Nat) : List Char := (Nat.toDigits b n).map Char.toUpper

def decimal (v : Int) : List Char :=
  if v < 0 then '-' :: numeral 10 v.natAbs else numeral 10 v.natAbs

def hexadecimal (n : Nat) : List Char := '0' :: 'x' :: numeral 16 n

/-! ## Reading -/

/-- The value of a digit. -/
def digitValue (c : Char) : Option Nat :=
  if 48 ≤ c.toNat ∧ c.toNat ≤ 57 then some (c.toNat - 48)
  else if 65 ≤ c.toNat ∧ c.toNat ≤ 70 then some (c.toNat - 55)
  else none

/-- A digit more. -/
def readDigit (b n : Nat) (c : Char) : Option Nat :=
  (digitValue c).bind fun d => if d < b then some (n * b + d) else none

/-- The number the digits stand for, if all of them are digits of base `b`. -/
def readDigits (b : Nat) (s : List Char) : Option Nat := s.foldlM (readDigit b) 0

def readInteger : List Char → Option Int
  | [] => none
  | c :: s =>
      if c = '-' then (readDigits 10 s).map fun n : Nat => -(n : Int)
      else (readDigits 10 (c :: s)).map Nat.cast

def readHex : List Char → Option Nat
  | c :: d :: s => if c = '0' ∧ d = 'x' then readDigits 16 s else none
  | _ => none

/-! ## A digit less -/

section Division
variable {v : Int} {b k : Nat}

theorem natAbs_tdiv_natCast : (v.tdiv b).natAbs = v.natAbs / b := by
  rw [Int.natAbs_tdiv, Int.natAbs_natCast]
  rfl

theorem natAbs_tmod_natCast : (v.tmod b).natAbs = v.natAbs % b := by
  rw [Int.natAbs_tmod]
  rfl

/-- The last digit. -/
theorem tdiv_eq_zero_of_lt (h : v.natAbs < b) : v.tdiv b = 0 := by
  rw [← Int.natAbs_eq_zero, natAbs_tdiv_natCast, Nat.div_eq_of_lt h]

theorem tdiv_ne_zero_of_le (hb : 0 < b) (h : b ≤ v.natAbs) : v.tdiv b ≠ 0 := by
  rw [← Int.natAbs_ne_zero, natAbs_tdiv_natCast]
  exact Nat.ne_of_gt (Nat.div_pos h hb)

theorem natAbs_tdiv_lt_pow (h : v.natAbs < b ^ (k + 1)) : (v.tdiv b).natAbs < b ^ k := by
  rw [natAbs_tdiv_natCast]
  exact Nat.div_lt_of_lt_mul (by rwa [← Nat.pow_succ'])

end Division

section Digits
variable {b n k : Nat}

/-- The characters of the digits. -/
theorem digitValue_digitChar {d : Nat} (h : d < 16) :
    digitValue d.digitChar.toUpper = some d := by
  interval_cases d <;> decide

theorem numeral_of_lt (h : n < b) : numeral b n = [n.digitChar.toUpper] := by
  rw [numeral, Nat.toDigits_of_lt_base h]
  rfl

/-- The last digit, after the number without it. -/
theorem numeral_of_le (hb : 1 < b) (h : b ≤ n) :
    numeral b n = numeral b (n / b) ++ [(n % b).digitChar.toUpper] := by
  rw [numeral, Nat.toDigits_of_base_le hb h, List.map_append]
  rfl

theorem length_numeral_le (hb : 1 < b) (hk : 0 < k) (h : n < b ^ k) :
    (numeral b n).length ≤ k := by
  rw [numeral, List.length_map]
  exact (Nat.length_toDigits_le_iff hb hk).mpr h

theorem readDigit_digitChar (hb : b ≤ 16) {d : Nat} (h : d < b) :
    readDigit b n d.digitChar.toUpper = some (n * b + d) := by
  rw [readDigit, digitValue_digitChar (h.trans_le hb), Option.bind_some, if_pos h]

/-- A numeral stands for the number it was made from. -/
theorem readDigits_numeral (hb : 1 < b) (hb' : b ≤ 16) (n : Nat) :
    readDigits b (numeral b n) = some n := by
  induction n using Nat.strong_induction_on with
  | _ n ih =>
      rcases Nat.lt_or_ge n b with hlt | hge
      · rw [numeral_of_lt hlt]
        show (readDigit b 0 _).bind _ = _
        rw [readDigit_digitChar hb' hlt]
        simp
      · have hdiv : n / b < n := Nat.div_lt_self (by omega) hb
        have hprefix := ih (n / b) hdiv
        rw [readDigits] at hprefix
        rw [readDigits, numeral_of_le hb hge, List.foldlM_append, hprefix]
        show (readDigit b (n / b) _).bind _ = _
        rw [readDigit_digitChar hb' (Nat.mod_lt n (by omega)), Nat.div_add_mod']
        rfl

end Digits

theorem numeral_ne_nil (b n : Nat) : numeral b n ≠ [] := by
  simp [numeral, Nat.toDigits_ne_nil]

/-- No digit is a minus sign. -/
theorem minus_notMem_numeral (n : Nat) : '-' ∉ numeral 10 n := by
  induction n using Nat.strong_induction_on with
  | _ n ih =>
      have hdigit : ∀ d < 10, '-' ∉ [d.digitChar.toUpper] := by decide
      rcases Nat.lt_or_ge n 10 with hlt | hge
      · rw [numeral_of_lt hlt]
        exact hdigit n hlt
      · rw [numeral_of_le (by decide) hge]
        intro hmem
        rcases List.mem_append.mp hmem with hmem | hmem
        · exact ih (n / 10) (by omega) hmem
        · exact hdigit (n % 10) (by omega) hmem

theorem read_decimal (v : Int) : readInteger (decimal v) = some v := by
  have hread := readDigits_numeral (b := 10) (by decide) (by decide) v.natAbs
  unfold decimal
  split
  · rename_i hneg
    rw [readInteger, if_pos rfl, hread, Option.map_some]
    congr 1
    omega
  · rename_i hpos
    obtain ⟨c, s, hs⟩ := List.exists_cons_of_ne_nil (numeral_ne_nil 10 v.natAbs)
    have hminus := minus_notMem_numeral v.natAbs
    rw [hs] at hminus hread ⊢
    rw [readInteger, if_neg (List.ne_of_not_mem_cons hminus).symm, hread, Option.map_some]
    congr 1
    omega

theorem read_hexadecimal (n : Nat) : readHex (hexadecimal n) = some n := by
  rw [hexadecimal, readHex, if_pos ⟨rfl, rfl⟩, readDigits_numeral (by decide) (by decide)]

end PBase.Lib
