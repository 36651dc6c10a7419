/-
# `PBase.Lib.Format` — `vsnprintf`, and C integers

`vsnprintf(p, n, …)` formats a text.  It stores as many characters of it at `p` as `n` bytes
hold, with a NUL behind them, and returns the length of the whole text.  It may also fail, and
return a negative number; what it stored is there all the same.

`castInt` and `castSize` are the values of an integer as `int` and as `size_t`.
-/
import Mathlib.Tactic

namespace PBase.Lib

def castInt (x : Int) : Int := (x + 2 ^ 31) % 2 ^ 32 - 2 ^ 31

def castSize (x : Int) : Nat := (x % 2 ^ 64).toNat

theorem castInt_eq {x : Int} (hlo : -2 ^ 31 ≤ x) (hhi : x < 2 ^ 31) : castInt x = x := by
  unfold castInt
  omega

/-- An `int` that is one too large turns into a `size_t` that is large enough. -/
theorem le_castSize_succ {n : Nat} (h : n < 2 ^ 31) : n + 1 ≤ castSize (castInt (n + 1)) := by
  unfold castSize castInt
  omega

/-- A format and its arguments, as `vsnprintf` sees them. -/
structure Formatted where
  text : List UInt8
  ret : Int
  length_lt : text.length < 2 ^ 31
  ret_eq : ret < 0 ∨ ret = text.length

namespace Formatted

variable {f : Formatted} {n : Nat}

/-- What `vsnprintf(p, n, …)` stores at `p`. -/
def stored (f : Formatted) (n : Nat) : List UInt8 :=
  if n = 0 then [] else f.text.take (n - 1) ++ [0]

theorem length_stored (h : 0 < n) : (f.stored n).length = min (n - 1) f.text.length + 1 := by
  rw [stored, if_neg (Nat.pos_iff_ne_zero.mp h), List.length_append, List.length_take,
    List.length_singleton]

theorem length_stored_le : (f.stored n).length ≤ n := by
  rcases Nat.eq_zero_or_pos n with rfl | hpos
  · exact le_rfl
  · rw [length_stored hpos]
    omega

/-- A text that fits is stored whole. -/
theorem stored_all (h : f.text.length < n) : f.stored n = f.text ++ [0] := by
  rw [stored, if_neg (by omega), List.take_of_length_le (by omega)]

/-- With one byte more than an `int` says, which may be one too large. -/
theorem stored_succ (h : n < 2 ^ 31) :
    f.stored (castSize (castInt (n + 1))) = f.text.take n ++ [0] := by
  have hpos := le_castSize_succ h
  rw [stored, if_neg (by omega)]
  rcases Nat.lt_or_ge f.text.length (n + 1) with hlt | hge
  · rw [List.take_of_length_le (by omega), List.take_of_length_le (by omega)]
  · have hlength := f.length_lt
    have hcast : castSize (castInt (n + 1)) = n + 1 := by
      unfold castSize castInt
      omega
    rw [hcast, Nat.add_sub_cancel]

theorem ret_of_pos (h : 0 < f.ret) : f.ret = f.text.length := by
  rcases f.ret_eq with hneg | heq
  · omega
  · exact heq

end Formatted

end PBase.Lib
