/-
# `PBase.Lib.Bytes` — reading and writing a stretch of memory

The memory of a buffer is a function from offsets to bytes.  `readBytes m o n` is the
stretch of `n` bytes from `o` on, `writeBytes m o p` is `memcpy` of the string `p` to `o`.
A read sees a write it covers exactly (`read_write`), and does not see one above it
(`read_write_below`).  One write after another is one write (`writeBytes_append`).
-/
import Mathlib.Tactic

namespace PBase.Lib

/-- The `n` bytes from offset `o` on. -/
def readBytes (m : Nat → UInt8) (o n : Nat) : List UInt8 := (List.range n).map fun i => m (o + i)

/-- `memcpy(m + o, p, length of p)` -/
def writeBytes (m : Nat → UInt8) (o : Nat) (p : List UInt8) : Nat → UInt8 := fun a =>
  if o ≤ a then p.getD (a - o) (m a) else m a

variable {m m' : Nat → UInt8} {o n k : Nat} {p : List UInt8}

@[simp] theorem length_readBytes : (readBytes m o n).length = n := by simp [readBytes]

@[simp] theorem readBytes_zero : readBytes m o 0 = [] := rfl

theorem readBytes_add : readBytes m o (n + k) = readBytes m o n ++ readBytes m (o + n) k := by
  simp [readBytes, List.range_add, Nat.add_assoc]

theorem readBytes_congr (h : ∀ a, o ≤ a → a < o + n → m a = m' a) :
    readBytes m o n = readBytes m' o n := by
  refine List.map_congr_left fun i hi => h _ (Nat.le_add_right _ _) ?_
  have := List.mem_range.mp hi
  omega

/-- A read of what was written. -/
theorem read_write : readBytes (writeBytes m o p) o p.length = p := by
  refine List.ext_getElem (by simp) fun i hi hi' => ?_
  simp [readBytes, writeBytes, List.getD_eq_getElem?_getD, hi']

/-- A read of the beginning. -/
theorem read_write_start (h : n ≤ p.length) : readBytes (writeBytes m o p) o n = p.take n := by
  have hread := read_write (m := m) (o := o) (p := p)
  rw [← Nat.add_sub_of_le h, readBytes_add] at hread
  have htake := congrArg (List.take n) hread
  rwa [List.take_left' length_readBytes] at htake

/-- A read below the write. -/
theorem read_write_below (h : o + n ≤ k) :
    readBytes (writeBytes m k p) o n = readBytes m o n := by
  refine readBytes_congr fun a _ ha => ?_
  rw [writeBytes, if_neg (by omega)]

theorem writeBytes_nil : writeBytes m o [] = m := by
  funext a
  simp [writeBytes]

/-- One byte, then the others. -/
theorem writeBytes_cons {c : UInt8} :
    writeBytes m o (c :: p) = writeBytes (Function.update m o c) (o + 1) p := by
  funext a
  unfold writeBytes
  rcases Nat.lt_trichotomy a o with hlt | rfl | hgt
  · rw [if_neg (by omega), if_neg (by omega), Function.update_of_ne (by omega)]
  · rw [if_pos le_rfl, if_neg (by omega), Function.update_self, Nat.sub_self]
    rfl
  · rw [if_pos hgt.le, if_pos (Nat.succ_le_of_lt hgt), Function.update_of_ne (by omega),
      show a - o = a - (o + 1) + 1 by omega]
    rfl

theorem writeBytes_append {q : List UInt8} :
    writeBytes m o (p ++ q) = writeBytes (writeBytes m o p) (o + p.length) q := by
  induction p generalizing m o with
  | nil => rw [writeBytes_nil, List.nil_append, List.length_nil, Nat.add_zero]
  | cons c p ih =>
      rw [List.cons_append, writeBytes_cons, ih, writeBytes_cons, List.length_cons,
        Nat.add_assoc, Nat.add_comm 1]

theorem update_eq_writeBytes {c : UInt8} : Function.update m o c = writeBytes m o [c] := by
  rw [writeBytes_cons, writeBytes_nil]

/-- `std::reverse(m + first, m + last)` -/
def reverseBytes (m : Nat → UInt8) (first last : Nat) : Nat → UInt8 := fun a =>
  if first ≤ a ∧ a < last then m (first + last - 1 - a) else m a

/-- What was written before is there backwards. -/
theorem reverse_write : reverseBytes (writeBytes m o p) o (o + p.length)
    = writeBytes m o p.reverse := by
  funext a
  unfold reverseBytes writeBytes
  rcases Nat.lt_or_ge a o with hlt | hge
  · rw [if_neg (by omega), if_neg (by omega), if_neg (by omega)]
  · rw [if_pos hge, if_pos hge]
    rcases Nat.lt_or_ge a (o + p.length) with hin | hout
    · have hidx : p.length - 1 - (a - o) = o + (o + p.length) - 1 - a - o := by omega
      rw [if_pos ⟨hge, hin⟩, if_pos (by omega), List.getD_eq_getElem?_getD,
        List.getD_eq_getElem?_getD, List.getElem?_reverse (by omega), hidx,
        List.getElem?_eq_getElem (by omega), Option.getD_some, Option.getD_some]
    · rw [if_neg (by omega), List.getD_eq_getElem?_getD, List.getD_eq_getElem?_getD,
        List.getElem?_eq_none (by omega),
        List.getElem?_eq_none (by rw [List.length_reverse]; omega)]

/-- What is behind it stays. -/
theorem reverse_write_above (h : n ≤ k) :
    reverseBytes (writeBytes m k p) o n = writeBytes (reverseBytes m o n) k p := by
  funext a
  rcases Nat.lt_or_ge a k with hlt | hge
  · have hbelow : ∀ {m : Nat → UInt8} {x}, x < k → writeBytes m k p x = m x := fun hx =>
      if_neg (by omega)
    rw [hbelow hlt, reverseBytes, reverseBytes]
    split
    · exact hbelow (by omega)
    · exact hbelow hlt
  · rw [reverseBytes, if_neg (by omega), writeBytes, writeBytes, if_pos hge, if_pos hge,
      reverseBytes, if_neg (by omega)]

theorem reverse_write_append {q : List UInt8} :
    reverseBytes (writeBytes m o (p ++ q)) o (o + p.length) = writeBytes m o (p.reverse ++ q) := by
  rw [writeBytes_append, reverse_write_above le_rfl, reverse_write, writeBytes_append,
    List.length_reverse]

end PBase.Lib
