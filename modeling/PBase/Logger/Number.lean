/-
# `PBase.Logger.Number` — the numbers of a `LogStream`

`_AppendInteger` and `HexLogger` let a converter store at `cur_`, if `kMaxNumericSize` bytes are
left, and move `cur_` behind the text.  The stream has the text of a number as a list; it is
what the converter leaves in memory, and with its NUL it takes no more than the bytes left.
-/
import PBase.Logger.Stream
import PBase.Utils.Convert

namespace PBase.Logger

open PBase.Lib PBase.Utils

/-! ## The list, and what is in memory -/

section Lists
variable {T : IntType} {v : Int}

/-- The digits of the list are those of the numeral. -/
theorem digitLoop_numeral {digit : Int → UInt8} {base fuel : Nat} (hbase : 1 < base)
    (hdigit : ∀ i, T.Holds i →
      digit (i.tmod base) = (i.natAbs % base).digitChar.toUpper.toNat.toUInt8)
    (hv : T.Holds v) (hlt : v.natAbs < base ^ (fuel + 1)) :
    digitLoop digit base (fuel + 1) v = (Utils.ascii (numeral base v.natAbs)).reverse := by
  have hlast : ∀ {v : Int} {fuel : Nat}, T.Holds v → v.natAbs < base →
      digitLoop digit base (fuel + 1) v = (Utils.ascii (numeral base v.natAbs)).reverse :=
    fun {v fuel} hv hlt => by
      rw [digitLoop, if_pos (tdiv_eq_zero_of_lt hlt), hdigit v hv, Nat.mod_eq_of_lt hlt,
          numeral_of_lt hlt]
      rfl
  induction fuel generalizing v with
  | zero =>
      rw [Nat.zero_add, pow_one] at hlt
      exact hlast hv hlt
  | succ fuel ih =>
      rcases Nat.lt_or_ge v.natAbs base with hsmall | hge
      · exact hlast hv hsmall
      · have hne : v.tdiv base ≠ 0 := tdiv_ne_zero_of_le (by omega) hge
        have hrest := natAbs_tdiv_lt_pow hlt
        rw [digitLoop, if_neg hne, hdigit v hv, ih (hv.tdiv base) hrest, natAbs_tdiv_natCast,
          numeral_of_le hbase hge, Utils.ascii, Utils.ascii, List.map_append, List.reverse_append]
        rfl

theorem convertInteger_decimal (hv : T.Holds v) :
    convertInteger v = Utils.ascii (decimal v) := by
  have hdigit : ∀ i, T.Holds i →
      sZero (i.tmod (10 : Nat)) = (i.natAbs % 10).digitChar.toUpper.toNat.toUInt8 := by
    intro i _
    have hall : ∀ k < 19, sZero ((k : Nat) - 9 : Int)
        = ((k : Nat) - 9 : Int).natAbs.digitChar.toUpper.toNat.toUInt8 := by decide
    have habs : (i.tmod (10 : Nat)).natAbs = i.natAbs % 10 := natAbs_tmod_natCast
    rw [← habs]
    generalize i.tmod (10 : Nat) = r at habs
    have hr : (((r + 9).toNat : Nat) - 9 : Int) = r := by omega
    have hk := hall (r + 9).toNat (by omega)
    rwa [hr] at hk
  have hloop := digitLoop_numeral (by decide : 1 < 10) hdigit hv
    (hv.natAbs_lt.1.trans (by decide) : v.natAbs < 10 ^ (63 + 1))
  rw [Nat.cast_ofNat] at hloop
  unfold convertInteger decimal
  rw [hloop, List.reverse_append, List.reverse_reverse]
  split <;> rfl

theorem convertHexInteger_hexadecimal (v : BitVec 64) :
    convertHexInteger v = Utils.ascii (hexadecimal v.toNat) := by
  have hdigit : ∀ i, uint64.Holds i →
      sDigits (i.tmod (16 : Nat)) = (i.natAbs % 16).digitChar.toUpper.toNat.toUInt8 := by
    intro i hi
    have hall : ∀ k < 16, sDigits (k : Nat) = (k : Nat).digitChar.toUpper.toNat.toUInt8 := by decide
    have hmod : i.tmod (16 : Nat) = (i.natAbs % 16 : Nat) := by
      obtain ⟨n, rfl⟩ := Int.eq_ofNat_of_zero_le hi.1
      rfl
    rw [hmod]
    exact hall _ (Nat.mod_lt _ (by decide))
  have hv : uint64.Holds v.toNat := ⟨Int.natCast_nonneg _, by exact_mod_cast v.isLt⟩
  have hloop := digitLoop_numeral (by decide : 1 < 16) hdigit hv
    (hv.natAbs_lt.1.trans (by decide) : (v.toNat : Int).natAbs < 16 ^ (63 + 1))
  rw [Nat.cast_ofNat, Int.natAbs_natCast] at hloop
  unfold convertHexInteger
  rw [hloop, List.reverse_append, List.reverse_reverse]
  rfl

end Lists

/-! ## The stream -/

/-- A converter stored a number at `cur_`, with its NUL inside the buffer. -/
structure Converted (s : LogStream) (r : Option (Nat × (Nat → UInt8))) (s' : LogStream) : Prop where
  mem : r = some (s'.cur - s.cur, s'.mem)
  le : s.cur ≤ s'.cur
  fits : s'.cur + 1 ≤ s.endPtr

/-- A text that takes no more than the bytes left. -/
theorem converted {s : LogStream} {text : List Char} (hroom : kMaxNumericSize ≤ s.avial)
    (hlen : text.length + 1 ≤ Utils.kMaxNumericSize) :
    Converted s (some (text.length, writeBytes s.mem s.cur (Utils.ascii text ++ [0])))
      (s.convert (Utils.ascii text)) := by
  have hlength := length_ascii text
  have hmax : kMaxNumericSize = Utils.kMaxNumericSize := rfl
  have hcur : (s.convert (Utils.ascii text)).cur = s.cur + text.length := congrArg _ hlength
  refine ⟨?_, ?_, ?_⟩
  · rw [hcur, Nat.add_sub_cancel_left]
    rfl
  · rw [hcur]
    exact Nat.le_add_right _ _
  · rw [hcur]
    rw [LogStream.avial, hmax] at hroom
    omega

/-- **The text of an integer is exact, and fits.**  `ConvertInteger` stores the decimal numeral
of any value of any type, and `ConvertHexInteger` the hexadecimal one of any unsigned value, with
a NUL behind it; they return its length, and it reads back as the value.  A table is only read at
a digit.  Text and NUL take at most `kMaxNumericSize` bytes, so in a `LogStream` with as many
left they are inside the buffer. -/
theorem conversions_exact :
    (∀ (T : IntType) (v : Int), T.Holds v →
      (∀ buf m, Utils.convertInteger T buf v m
        = some ((decimal v).length, writeBytes m buf (Utils.ascii (decimal v) ++ [0]))) ∧
      readInteger (decimal v) = some v ∧ (decimal v).length + 1 ≤ Utils.kMaxNumericSize) ∧
    (∀ (T : IntType) (v : Int), T.signed = false → T.Holds v →
      (∀ buf m, Utils.convertHexInteger buf v m = some ((hexadecimal v.toNat).length,
        writeBytes m buf (Utils.ascii (hexadecimal v.toNat) ++ [0]))) ∧
      readHex (hexadecimal v.toNat) = some v.toNat ∧
      (hexadecimal v.toNat).length + 1 ≤ Utils.kMaxNumericSize) ∧
    ∀ s : LogStream, kMaxNumericSize ≤ s.avial →
      (∀ (T : IntType) (v : Integer64), T.Holds v.val →
        Converted s (Utils.convertInteger T s.cur v.val s.mem) (s.insert (.integer v))) ∧
      ∀ v : BitVec 64,
        Converted s (Utils.convertHexInteger s.cur v.toNat s.mem) (s.insert (.hex v)) := by
  have hunsigned : ∀ (T : IntType) (v : Int), T.signed = false → T.Holds v → uint64.Holds v := by
    intro T v hs hv
    have hlt := hv.natAbs_lt.1
    rw [IntType.Holds, hs] at hv
    have hpos : 0 ≤ v := hv.1
    exact ⟨hpos, by show v < 2 ^ 64; omega⟩
  refine ⟨fun T v hv => ⟨fun buf m => convertInteger_eq hv, read_decimal v, length_decimal hv⟩,
    fun T v hs hv => ⟨fun buf m => convertHexInteger_eq (hunsigned T v hs hv),
      read_hexadecimal _, length_hexadecimal ?_⟩,
    fun s hroom => ⟨fun T v hv => ?_, fun v => ?_⟩⟩
  · have hlt := (hunsigned T v hs hv).2
    have hlt : v < 2 ^ 64 := hlt
    omega
  · have hinsert : s.insert (.integer v) = s.convert (convertInteger v.val) := if_pos hroom
    rw [hinsert, convertInteger_decimal hv, convertInteger_eq hv]
    exact converted hroom (length_decimal hv)
  · have hv : uint64.Holds v.toNat := ⟨Int.natCast_nonneg _, by exact_mod_cast v.isLt⟩
    have hinsert : s.insert (.hex v) = s.convert (convertHexInteger v) := if_pos hroom
    rw [hinsert, convertHexInteger_hexadecimal, convertHexInteger_eq hv, Int.toNat_natCast]
    exact converted hroom (length_hexadecimal v.isLt)

/-- The smallest `int64_t`. -/
theorem conversions_exact_min :
    (∀ buf m, Utils.convertInteger ⟨true, 64, by decide, le_rfl⟩ buf (-2 ^ 63) m
      = some ((decimal (-2 ^ 63)).length,
        writeBytes m buf (Utils.ascii (decimal (-2 ^ 63)) ++ [0]))) ∧
    readInteger (decimal (-2 ^ 63)) = some (-2 ^ 63) ∧
    (decimal (-2 ^ 63)).length + 1 ≤ Utils.kMaxNumericSize :=
  conversions_exact.1 _ _ ⟨by decide, by decide⟩

end PBase.Logger
