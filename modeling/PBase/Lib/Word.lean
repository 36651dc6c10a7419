/-
# `PBase.Lib.Word` — a 64-bit word as two 32-bit halves

A tagged pointer packs an index in its low half and a version in its high half.
Adding a multiple of 2^32, with 64-bit wrap-around, moves the version (modulo 2^32)
and leaves the index alone; the two halves determine the word.  Words are natural
numbers below 2^64, and the wrap-around is written out.
-/
import Mathlib.Tactic

namespace PBase.Lib

/-- The low 32 bits. -/
def low (w : Nat) : Nat := w % 2 ^ 32

/-- The high 32 bits, of a word below 2^64. -/
def high (w : Nat) : Nat := w / 2 ^ 32

/-- `w + (k << 32)` in 64-bit arithmetic. -/
def bump (k w : Nat) : Nat := (w + k * 2 ^ 32) % 2 ^ 64

theorem low_bump (k w : Nat) : low (bump k w) = low w := by
  unfold low bump
  omega

theorem high_bump (k w : Nat) : high (bump k w) = (high w + k) % 2 ^ 32 := by
  unfold high bump
  omega

theorem bump_lt (k w : Nat) : bump k w < 2 ^ 64 := Nat.mod_lt _ (by decide)

theorem low_of_lt {w : Nat} (h : w < 2 ^ 32) : low w = w := Nat.mod_eq_of_lt h

theorem high_of_lt {w : Nat} (h : w < 2 ^ 32) : high w = 0 := Nat.div_eq_of_lt h

theorem ne_zero_of_low {w : Nat} (h : low w ≠ 0) : w ≠ 0 := by
  rintro rfl
  exact h rfl

end PBase.Lib
