/-
# `PBase.Utils.Convert` — `ConvertInteger` and `ConvertHexInteger`

Both store the digits of a number in memory, the last one first, and reverse what they stored:

    7 0 2 -           after the loop and the sign
    - 2 0 7 NUL       after `std::reverse`

`ConvertInteger` divides a negative number as it is, so that the smallest one needs no negation:
the remainders are negative, and count to the left from the middle of the table of digits.

Memory is a function from addresses to bytes.  A conversion does not return if it reads a table
outside its characters, or if the loop does not end.
-/
import PBase.Lib.Bytes
import PBase.Lib.Format
import PBase.Lib.Numeral

namespace PBase.Utils

open PBase.Lib

def kMaxNumericSize : Nat := 24

/-- An integer type: its width, and whether it has a sign. -/
structure IntType where
  signed : Bool
  bits : Nat
  pos : 0 < bits
  le : bits ≤ 64

namespace IntType

def Holds (T : IntType) (v : Int) : Prop :=
  if T.signed then -2 ^ (T.bits - 1) ≤ v ∧ v < 2 ^ (T.bits - 1) else 0 ≤ v ∧ v < 2 ^ T.bits

/-- `static_cast<T>(x)` -/
def cast (T : IntType) (x : Int) : Int :=
  if T.signed then (x + 2 ^ (T.bits - 1)) % 2 ^ T.bits - 2 ^ (T.bits - 1) else x % 2 ^ T.bits

end IntType

/-- `uint64_t` -/
def uint64 : IntType := ⟨false, 64, by decide, le_rfl⟩

/-- The bytes of ASCII characters. -/
def ascii (s : List Char) : List UInt8 := s.map fun c => c.toNat.toUInt8

/-- `table[k]` -/
def index (table : List UInt8) (k : Int) : Option UInt8 := if 0 ≤ k then table[k.toNat]? else none

/-- `s_zero[lsd]`, where `s_zero` is in the middle of the table; `lsd` is an `int32_t`. -/
def sZero (lsd : Int) : Option UInt8 := index (ascii "9876543210123456789".toList) (9 + castInt lsd)

/-- `s_digits[lsd]` of `ConvertHexInteger`; `lsd` is a `uint32_t`. -/
def sDigits (lsd : Int) : Option UInt8 := index (ascii "0123456789ABCDEFGHIGK".toList)
    (lsd % 2 ^ 32)

/-- `do { lsd = i % base; i /= base; *p++ = …[lsd]; } while (i != 0);` for an `i` of the type
`T`, in at most so many turns. -/
def digitLoop (T : IntType) (digit : Int → Option UInt8) (base : Int) :
    Nat → Int → Nat → (Nat → UInt8) → Option (Nat × (Nat → UInt8))
  | 0, _, _, _ => none
  | turns + 1, i, p, m => do
      let lsd := i.tmod base
      let i := T.cast (i.tdiv base)
      let m := Function.update m p (← digit lsd)
      if i ≠ 0 then digitLoop T digit base turns i (p + 1) m else pure (p + 1, m)

/-- `ConvertInteger(buf, value)` -/
def convertInteger (T : IntType) (buf : Nat) (value : Int) (m : Nat → UInt8) :
    Option (Nat × (Nat → UInt8)) := do
  let (p, m) ← digitLoop T sZero 10 64 value buf m
  let (p, m) := if value < 0 then (p + 1, Function.update m p 45) else (p, m)
  let m := Function.update m p 0
  let m := reverseBytes m buf p
  pure (p - buf, m)

/-- `ConvertHexInteger(buf, value)` -/
def convertHexInteger (buf : Nat) (value : Int) (m : Nat → UInt8) :
    Option (Nat × (Nat → UInt8)) := do
  let v := uint64.cast value
  let (p, m) ← digitLoop uint64 sDigits 16 64 v buf m
  let m := Function.update m p 120
  let p := p + 1
  let m := Function.update m p 48
  let p := p + 1
  let m := Function.update m p 0
  let m := reverseBytes m buf p
  pure (p - buf, m)

/-! ## Types -/

namespace IntType

variable {T : IntType} {v : Int}

/-- A value is converted to its own type unchanged. -/
theorem Holds.cast_eq (h : T.Holds v) : T.cast v = v := by
  unfold Holds at h
  unfold cast
  split at h
  · rename_i hs
    obtain ⟨k, hk⟩ : ∃ k, T.bits = k + 1 :=
        Nat.exists_eq_succ_of_ne_zero (Nat.pos_iff_ne_zero.mp T.pos)
    rw [hk, Nat.add_sub_cancel] at h
    rw [if_pos hs, hk, Nat.add_sub_cancel, pow_succ, Int.emod_eq_of_lt] <;> omega
  · rename_i hs
    rw [if_neg hs]
    exact Int.emod_eq_of_lt h.1 h.2

/-- Division takes a number towards zero. -/
theorem Holds.tdiv (h : T.Holds v) (base : Nat) : T.Holds (v.tdiv base) := by
  have hbetween : 0 ≤ v ∧ 0 ≤ v.tdiv base ∧ v.tdiv base ≤ v ∨
      v ≤ 0 ∧ v ≤ v.tdiv base ∧ v.tdiv base ≤ 0 := by
    obtain ⟨n, rfl | rfl⟩ := v.eq_nat_or_neg
    · have hle : n / base ≤ n := Nat.div_le_self n base
      rw [← Int.ofNat_tdiv]
      generalize n / base = q at hle ⊢
      omega
    · have hle : n / base ≤ n := Nat.div_le_self n base
      rw [Int.neg_tdiv, ← Int.ofNat_tdiv]
      generalize n / base = q at hle ⊢
      omega
  unfold Holds at h ⊢
  have hpow : (0 : Int) < 2 ^ (T.bits - 1) := by positivity
  split at h
  · rename_i hs
    rw [if_pos hs]
    omega
  · rename_i hs
    rw [if_neg hs]
    omega

/-- The sizes of the numbers that fit. -/
theorem Holds.natAbs_lt (h : T.Holds v) : v.natAbs < 2 ^ 64 ∧ (v < 0 → v.natAbs ≤ 2 ^ 63) := by
  have hle := T.le
  unfold Holds at h
  split at h
  · have hpow : (2 : Int) ^ (T.bits - 1) ≤ 2 ^ 63 := pow_le_pow_right₀ (by decide) (by omega)
    omega
  · have hpow : (2 : Int) ^ T.bits ≤ 2 ^ 64 := pow_le_pow_right₀ (by decide) hle
    omega

end IntType

/-! ## The loop -/

/-- The table is symmetric: a remainder and its negative are the same digit. -/
theorem sZero_eq {r : Int} (h : r.natAbs < 10) :
    sZero r = some r.natAbs.digitChar.toUpper.toNat.toUInt8 := by
  have hall : ∀ k < 19, sZero ((k : Nat) - 9 : Int)
      = some ((k : Nat) - 9 : Int).natAbs.digitChar.toUpper.toNat.toUInt8 := by decide
  have hr : (((r + 9).toNat : Nat) - 9 : Int) = r := by omega
  have hk := hall (r + 9).toNat (by omega)
  rwa [hr] at hk

theorem sDigits_eq {r : Int} (hpos : 0 ≤ r) (h : r.natAbs < 16) :
    sDigits r = some r.natAbs.digitChar.toUpper.toNat.toUInt8 := by
  have hall : ∀ k < 16, sDigits (k : Nat) = some (k : Nat).digitChar.toUpper.toNat.toUInt8 := by
    decide
  have hr : (r.natAbs : Int) = r := by omega
  have hk := hall r.natAbs h
  rwa [hr] at hk

section Loop
variable {T : IntType} {digit : Int → Option UInt8} {base turns p : Nat} {v : Int}
  {m : Nat → UInt8}

/-- The loop stores the numeral, the last digit first, if it finds each digit in the table. -/
theorem digitLoop_eq (hbase : 1 < base)
    (hdigit : ∀ i, T.Holds i →
      digit (i.tmod base) = some (i.natAbs % base).digitChar.toUpper.toNat.toUInt8)
    (hv : T.Holds v) (hlt : v.natAbs < base ^ (turns + 1)) :
    digitLoop T digit base (turns + 1) v p m
      = some (p + (ascii (numeral base v.natAbs)).reverse.length,
        writeBytes m p (ascii (numeral base v.natAbs)).reverse) := by
  have hlast : ∀ {v : Int} {turns p : Nat} {m : Nat → UInt8}, T.Holds v → v.natAbs < base →
      digitLoop T digit base (turns + 1) v p m
        = some (p + (ascii (numeral base v.natAbs)).reverse.length,
          writeBytes m p (ascii (numeral base v.natAbs)).reverse) := fun {v turns p m} hv hlt => by
    have hzero : T.cast (v.tdiv base) = 0 := by
      rw [(hv.tdiv base).cast_eq, tdiv_eq_zero_of_lt hlt]
    simp only [digitLoop, hdigit v hv, hzero, Nat.mod_eq_of_lt hlt, numeral_of_lt hlt]
    exact congrArg (fun m => some (p + 1, m)) update_eq_writeBytes
  induction turns generalizing v p m with
  | zero =>
      rw [Nat.zero_add, pow_one] at hlt
      exact hlast hv hlt
  | succ turns ih =>
      rcases Nat.lt_or_ge v.natAbs base with hsmall | hge
      · exact hlast hv hsmall
      · have hv' := hv.tdiv base
        have hne : T.cast (v.tdiv base) ≠ 0 := by
          rw [hv'.cast_eq]
          exact tdiv_ne_zero_of_le (by omega) hge
        have hrest := natAbs_tdiv_lt_pow hlt
        have hnumeral : (ascii (numeral base v.natAbs)).reverse
            = (v.natAbs % base).digitChar.toUpper.toNat.toUInt8 ::
              (ascii (numeral base (v.tdiv base).natAbs)).reverse := by
          rw [numeral_of_le hbase hge, natAbs_tdiv_natCast, ascii, List.map_append,
              List.reverse_append]
          rfl
        rw [digitLoop]
        simp only [hdigit v hv, Option.bind_eq_bind, Option.bind_some, if_pos hne]
        rw [hv'.cast_eq, ih hv' hrest, hnumeral, writeBytes_cons, List.length_cons, Nat.add_assoc,
          Nat.add_comm 1]

end Loop

/-! ## The conversions -/

section Conversions
variable {T : IntType} {v : Int} {m : Nat → UInt8} {buf : Nat}

/-- The NUL, and `std::reverse`. -/
theorem reverse_stored (q : List UInt8) :
    reverseBytes (Function.update (writeBytes m buf q) (buf + q.length) 0) buf (buf + q.length)
      = writeBytes m buf (q.reverse ++ [0]) := by
  rw [update_eq_writeBytes, ← writeBytes_append, reverse_write_append]

/-- A character more. -/
theorem update_stored (q : List UInt8) (c : UInt8) :
    Function.update (writeBytes m buf q) (buf + q.length) c = writeBytes m buf (q ++ [c]) := by
  rw [update_eq_writeBytes, ← writeBytes_append]

theorem next_stored (q : List UInt8) (c : UInt8) :
    buf + q.length + 1 = buf + (q ++ [c]).length := by
  rw [List.length_append, List.length_singleton, Nat.add_assoc]

theorem length_ascii (s : List Char) : (ascii s).length = s.length := List.length_map _

theorem convertInteger_eq (hv : T.Holds v) : convertInteger T buf v m
    = some ((decimal v).length, writeBytes m buf (ascii (decimal v) ++ [0])) := by
  have hlt : v.natAbs < 10 ^ (63 + 1) := hv.natAbs_lt.1.trans (by decide)
  have hdigit : ∀ i, T.Holds i →
      sZero (i.tmod (10 : Nat)) = some (i.natAbs % 10).digitChar.toUpper.toNat.toUInt8 := by
    intro i _
    have habs : (i.tmod (10 : Nat)).natAbs = i.natAbs % 10 := natAbs_tmod_natCast
    rw [← habs]
    exact sZero_eq (by rw [habs]; omega)
  have hloop := digitLoop_eq (p := buf) (m := m) (by decide : 1 < 10) hdigit hv hlt
  have hsign : (if v < 0
      then (buf + (ascii (numeral 10 v.natAbs)).reverse.length + 1,
        Function.update (writeBytes m buf (ascii (numeral 10 v.natAbs)).reverse)
          (buf + (ascii (numeral 10 v.natAbs)).reverse.length) 45)
      else (buf + (ascii (numeral 10 v.natAbs)).reverse.length,
        writeBytes m buf (ascii (numeral 10 v.natAbs)).reverse))
      = (buf + (ascii (decimal v)).reverse.length,
        writeBytes m buf (ascii (decimal v)).reverse) := by
    unfold decimal
    split
    · rw [update_stored]
      have hcons : (ascii ('-' :: numeral 10 v.natAbs)).reverse
          = (ascii (numeral 10 v.natAbs)).reverse ++ [45] := List.reverse_cons
      rw [hcons, next_stored]
    · rfl
  rw [convertInteger]
  simp only [Nat.cast_ofNat] at hloop
  simp only [hloop, Option.bind_eq_bind, Option.bind_some, hsign, reverse_stored,
    List.reverse_reverse]
  rw [Nat.add_sub_cancel_left, List.length_reverse, length_ascii]
  rfl

theorem convertHexInteger_eq (hv : uint64.Holds v) : convertHexInteger buf v m
    = some ((hexadecimal v.toNat).length,
      writeBytes m buf (ascii (hexadecimal v.toNat) ++ [0])) := by
  have hlt : v.natAbs < 16 ^ (63 + 1) := hv.natAbs_lt.1.trans (by decide)
  have hdigit : ∀ i, uint64.Holds i →
      sDigits (i.tmod (16 : Nat)) = some (i.natAbs % 16).digitChar.toUpper.toNat.toUInt8 := by
    intro i hi
    have habs : (i.tmod (16 : Nat)).natAbs = i.natAbs % 16 := natAbs_tmod_natCast
    rw [← habs]
    exact sDigits_eq (Int.tmod_nonneg _ hi.1) (by rw [habs]; omega)
  have hloop := digitLoop_eq (p := buf) (m := m) (by decide : 1 < 16) hdigit hv hlt
  have habs : v.natAbs = v.toNat := by
    have hpos : 0 ≤ v := hv.1
    omega
  have hhead : (ascii (hexadecimal v.toNat)).reverse
      = (ascii (numeral 16 v.toNat)).reverse ++ [120] ++ [48] := by
    rw [hexadecimal, ascii, List.map_cons, List.map_cons, List.reverse_cons, List.reverse_cons]
    rfl
  rw [convertHexInteger, hv.cast_eq]
  rw [habs] at hloop
  simp only [Nat.cast_ofNat] at hloop
  simp only [hloop, Option.bind_eq_bind, Option.bind_some, update_stored]
  rw [next_stored _ 120, update_stored, next_stored _ 48, ← hhead, reverse_stored,
    List.reverse_reverse, Nat.add_sub_cancel_left, List.length_reverse, length_ascii]
  rfl

/-- The text and its NUL: 19 digits and the sign, or 20 digits. -/
theorem length_decimal (hv : T.Holds v) : (decimal v).length + 1 ≤ kMaxNumericSize := by
  obtain ⟨hall, hneg⟩ := hv.natAbs_lt
  have hmax : kMaxNumericSize = 24 := rfl
  unfold decimal
  split
  · rename_i hlt
    have hle : (numeral 10 v.natAbs).length ≤ 19 :=
      length_numeral_le (by decide) (by decide) ((hneg hlt).trans_lt (by decide))
    rw [List.length_cons]
    omega
  · have hle : (numeral 10 v.natAbs).length ≤ 20 :=
      length_numeral_le (by decide) (by decide) (hall.trans (by decide))
    omega

theorem length_hexadecimal {n : Nat} (h : n < 2 ^ 64) :
    (hexadecimal n).length + 1 ≤ kMaxNumericSize := by
  have hle : (numeral 16 n).length ≤ 16 := length_numeral_le (by decide) (by decide) h
  have hmax : kMaxNumericSize = 24 := rfl
  rw [hexadecimal, List.length_cons, List.length_cons]
  omega

end Conversions

end PBase.Utils
