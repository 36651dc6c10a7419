/-
# `PBase.Text.Fixed` — `FixedBuffer`, a string in place

A `FixedBuffer<N>` has the bytes and behind them, aligned like a pointer, the cursor:

    data_                cur_            data_ + N
      ├── length() ────────┼─── avial() ──┬──┬──▶ &cur_
                                          └ for a NUL

`avial()` measures up to the member `cur_`, and not up to `N`.  `cur` is the offset of the
cursor.  A call does not return if it stores a byte at or behind `&cur_`.

The four ways to append clip in their own ways, and are one on the bytes: as many as fit, and one
byte stays free (`Adds`).  So the text is the beginning of what was appended.
-/
import PBase.Lib.System
import PBase.Lib.Bytes
import PBase.Lib.Format

namespace PBase.Text

open PBase.Lib

/-- `template <int N> class FixedBuffer` -/
structure FixedBuffer (N : Nat) where
  mem : Nat → UInt8
  cur : Nat

/-- Where the member `cur_` is, from `data_` on. -/
def curOffset (N : Nat) : Nat := (N + 7) / 8 * 8

namespace FixedBuffer

variable {N : Nat}

def text (b : FixedBuffer N) : List UInt8 := readBytes b.mem 0 b.cur

def length (b : FixedBuffer N) : Int := castInt b.cur

def avial (b : FixedBuffer N) : Int := castInt (curOffset N - b.cur - 1)

def reset (b : FixedBuffer N) : FixedBuffer N := { b with cur := 0 }

/-- Bytes are stored from `cur_` on. -/
def put (bytes : List UInt8) (b : FixedBuffer N) : Option (FixedBuffer N) :=
  if b.cur + bytes.length ≤ curOffset N then some { b with mem := writeBytes b.mem b.cur bytes }
  else none

/-- `cur_ += n` -/
def advance (n : Nat) (b : FixedBuffer N) : FixedBuffer N := { b with cur := b.cur + n }

/-- `append(buf, len)` -/
def append (buf : List UInt8) (len : Int) (b : FixedBuffer N) : Option (Int × FixedBuffer N) :=
  let len := if len > b.avial then b.avial else len
  if len ≤ 0 then some (0, b)
  else do
    let b ← b.put (buf.take len.toNat)
    pure (len, b.advance len.toNat)

/-- `append(ch)` -/
def appendChar (ch : UInt8) (b : FixedBuffer N) : Option (Int × FixedBuffer N) :=
  if b.avial > 0 then do
    let b ← b.put [ch]
    pure (1, b.advance 1)
  else some (0, b)

/-- `append(str)` -/
def appendStr (str : List UInt8) (b : FixedBuffer N) : Option (Int × FixedBuffer N) :=
  b.append str (castInt str.length)

/-- `appendf(fmt, …)`.  `n + 1` is an `int`. -/
def appendf (f : Formatted) (b : FixedBuffer N) : Option (Int × FixedBuffer N) :=
  let n := b.avial
  if n ≤ 0 then some (0, b)
  else do
    let b ← b.put (f.stored (castSize (castInt (n + 1))))
    if f.ret < 0 then pure (0, b)
    else
      let ret := if f.ret > n then n else f.ret
      pure (ret, b.advance ret.toNat)

/-- `*cur_ = 0` -/
def cStr (b : FixedBuffer N) : Option (FixedBuffer N) := b.put [0]

end FixedBuffer

/-- What is appended. -/
inductive Piece where
  | bytes (buf : List UInt8) (len : Int)
  | char (ch : UInt8)
  /-- A C string, without its NUL. -/
  | cstr (str : List UInt8)
  | format (f : Formatted)

namespace Piece

def text : Piece → List UInt8
  | bytes buf len => buf.take len.toNat
  | char ch => [ch]
  | cstr str => str
  | format f => if f.ret < 0 then [] else f.text

/-- `len` is an `int`, and `buf` has that many bytes; so has a string. -/
def Short : Piece → Prop
  | bytes buf len => len ≤ buf.length ∧ -2 ^ 31 ≤ len ∧ len < 2 ^ 31
  | cstr str => str.length < 2 ^ 31
  | _ => True

end Piece

/-- The call that appends the piece. -/
def FixedBuffer.add {N : Nat} (b : FixedBuffer N) : Piece → Option (Int × FixedBuffer N)
  | .bytes buf len => b.append buf len
  | .char ch => b.appendChar ch
  | .cstr str => b.appendStr str
  | .format f => b.appendf f

inductive FixedCall where
  | reset
  | add (p : Piece)
  | cStr

structure FixedState (N : Nat) where
  buffer : FixedBuffer N
  /-- The pieces appended since the last `reset`. -/
  appended : List UInt8

inductive FixedStep {N : Nat} (s : FixedState N) : FixedCall → FixedState N → Prop
  | reset : FixedStep s .reset ⟨s.buffer.reset, []⟩
  | add {p : Piece} {ret : Int} {b : FixedBuffer N} : p.Short → s.buffer.add p = some (ret, b) →
      FixedStep s (.add p) ⟨b, s.appended ++ p.text⟩
  | cStr {b : FixedBuffer N} : s.buffer.cStr = some b → FixedStep s .cStr ⟨b, s.appended⟩

/-- A buffer from its construction on. -/
def fixedCalls (N : Nat) : System (FixedState N) FixedCall where
  init s := s.buffer.cur = 0 ∧ s.appended = []
  step := FixedStep

namespace FixedBuffer

variable {N : Nat} {b b' : FixedBuffer N} {p : List UInt8} {k : Nat}

theorem length_text (b : FixedBuffer N) : b.text.length = b.cur := length_readBytes

/-! ## One call -/

/-- The reserved byte is free. -/
structure Roomy (b : FixedBuffer N) : Prop where
  cur : b.cur < curOffset N
  int : curOffset N ≤ 2 ^ 31

theorem avial_eq (h : b.Roomy) : b.avial = curOffset N - 1 - b.cur := by
  obtain ⟨hcur, hint⟩ := h
  unfold avial
  rw [castInt_eq] <;> omega

theorem length_eq (h : b.Roomy) : b.length = b.cur := by
  obtain ⟨hcur, hint⟩ := h
  exact castInt_eq (by omega) (by omega)

/-- As many of the characters `p` as fit are behind the text, and that is what is returned. -/
def Adds (b : FixedBuffer N) (p : List UInt8) (r : Option (Int × FixedBuffer N)) : Prop :=
  ∃ k b', r = some (Nat.cast k, b') ∧ k = min p.length (curOffset N - 1 - b.cur) ∧
    b'.text = b.text ++ p.take k

theorem put_eq {bytes : List UInt8} (h : b.cur + bytes.length ≤ curOffset N) :
    b.put bytes = some { b with mem := writeBytes b.mem b.cur bytes } := if_pos h

/-- The first `k` bytes that are stored join the text. -/
theorem text_advance (b : FixedBuffer N) {bytes : List UInt8} (h : k ≤ bytes.length) :
    (advance k (⟨writeBytes b.mem b.cur bytes, b.cur⟩ : FixedBuffer N)).text
      = b.text ++ bytes.take k := by
  rw [text, advance, readBytes_add, Nat.zero_add, read_write_below (Nat.zero_add b.cur).le,
    read_write_start h]
  rfl

theorem adds_none (h : min p.length (curOffset N - 1 - b.cur) = 0) : Adds b p (some (0, b)) := by
  refine ⟨0, b, rfl, h.symm, ?_⟩
  rw [List.take_zero, List.append_nil]

theorem adds_append (h : b.Roomy) (buf : List UInt8) (len : Int) (hlen : len ≤ buf.length) :
    Adds b (buf.take len.toNat) (b.append buf len) := by
  have hcur := h.cur
  have havial := avial_eq h
  have hlength : (buf.take len.toNat).length = len.toNat := by
    rw [List.length_take]
    omega
  have hclip : (if len > b.avial then b.avial else len).toNat
      = min (buf.take len.toNat).length (curOffset N - 1 - b.cur) := by
    rw [hlength]
    split <;> omega
  rw [append]
  generalize (if len > b.avial then b.avial else len) = n at hclip
  split
  · exact adds_none (by omega)
  · have htake : buf.take n.toNat = (buf.take len.toNat).take n.toNat := by
      rw [List.take_take]
      congr 1
      omega
    have hfit : b.cur + (buf.take n.toNat).length ≤ curOffset N := by
      rw [htake, List.length_take]
      omega
    have hle : n.toNat ≤ (buf.take n.toNat).length := by
      rw [htake, List.length_take]
      omega
    refine ⟨n.toNat, _, ?_, hclip, (text_advance b hle).trans ?_⟩
    · rw [put_eq hfit, Int.toNat_of_nonneg (by omega)]
      rfl
    · rw [List.take_take, Nat.min_self, htake]

theorem adds_appendChar (h : b.Roomy) (ch : UInt8) : Adds b [ch] (b.appendChar ch) := by
  have hcur := h.cur
  have havial := avial_eq h
  rw [appendChar]
  split
  · have hone : [ch].length = 1 := rfl
    refine ⟨1, _, ?_, by omega, text_advance b hone.ge⟩
    rw [put_eq (by omega)]
    rfl
  · exact adds_none (by omega)

theorem adds_appendf (h : b.Roomy) (f : Formatted) :
    Adds b (Piece.format f).text (b.appendf f) := by
  have hcur := h.cur
  have hint := h.int
  have havial := avial_eq h
  obtain ⟨n, hn⟩ : ∃ n : Nat, b.avial = n := ⟨_, (Int.toNat_of_nonneg (by omega)).symm⟩
  have hstored : (f.text.take n ++ [0]).length = min n f.text.length + 1 := by
    rw [List.length_append, List.length_take, List.length_singleton]
  have hput : b.put (f.text.take n ++ [0]) = _ := put_eq (by omega)
  have hfull : min (Piece.format f).text.length n = min (Piece.format f).text.length
      (curOffset N - 1 - b.cur) := by
    congr 1
    omega
  rw [appendf, hn, Formatted.stored_succ (by omega)]
  split
  · exact adds_none (by omega)
  · simp only [hput, Option.bind_eq_bind, Option.bind_some]
    split
    · -- what it stored is not part of the text
      rename_i hneg
      have hnil : (Piece.format f).text = [] := if_pos hneg
      refine ⟨0, _, rfl, by rw [hnil, List.length_nil, Nat.zero_min], ?_⟩
      rw [List.take_zero, List.append_nil]
      exact read_write_below (Nat.zero_add b.cur).le
    · rename_i hpos
      have htext : (Piece.format f).text = f.text := if_neg hpos
      have hret : f.ret = f.text.length := f.ret_eq.resolve_left hpos
      have hclip : (if f.ret > n then (n : Int) else f.ret) = (min f.text.length n : Nat) := by
        rw [hret]
        split <;> omega
      rw [hclip, Int.toNat_natCast]
      refine ⟨min f.text.length n, _, rfl, by rw [← hfull, htext], (text_advance b ?_).trans ?_⟩
      · omega
      · rw [List.take_append_of_le_length (by rw [List.length_take]; omega), List.take_take,
          Nat.min_eq_left (Nat.min_le_right ..), htext]

/-- Every way to append. -/
theorem adds_add (h : b.Roomy) {p : Piece} (hp : p.Short) : Adds b p.text (b.add p) := by
  cases p with
  | bytes buf len => exact adds_append h buf len hp.1
  | char ch => exact adds_appendChar h ch
  | cstr str =>
      have hlen : castInt str.length = str.length :=
          castInt_eq (by omega) (by exact Int.ofNat_lt.mpr hp)
      have happ := adds_append h str (castInt str.length) (by rw [hlen])
      rwa [hlen, Int.toNat_natCast, List.take_length, ← hlen] at happ
  | format f => exact adds_appendf h f

/-- `c_str` stores a NUL behind the text. -/
theorem cStr_eq (h : b.Roomy) : ∃ b' : FixedBuffer N, b.cStr = some b' ∧ b'.text = b.text ∧
    b'.cur = b.cur ∧ b'.mem b'.cur = 0 := by
  have hput : b.put [0] = _ := put_eq (Nat.succ_le_of_lt h.cur)
  refine ⟨_, hput, read_write_below (Nat.zero_add b.cur).le, rfl, ?_⟩
  show writeBytes b.mem b.cur [0] b.cur = 0
  simp [writeBytes]

end FixedBuffer

/-! ## Runs -/

section Runs
variable {N : Nat} {s t : FixedState N} {e : FixedCall} {es : List FixedCall}

/-- The text is what fits of what was appended. -/
def Fitted (s : FixedState N) : Prop := s.buffer.text = s.appended.take (curOffset N - 1)

theorem curOffset_bounds (hpos : 0 < N) (hint : N < 2 ^ 31) :
    0 < curOffset N ∧ curOffset N ≤ 2 ^ 31 := by
  unfold curOffset
  omega

theorem Fitted.cur (h : Fitted s) :
    s.buffer.cur = min (curOffset N - 1) s.appended.length := by
  rw [← s.buffer.length_text, h, List.length_take]

theorem Fitted.roomy (h : Fitted s) (hpos : 0 < N) (hint : N < 2 ^ 31) : s.buffer.Roomy := by
  obtain ⟨hlow, hhigh⟩ := curOffset_bounds hpos hint
  refine ⟨?_, hhigh⟩
  rw [h.cur]
  omega

/-- More is appended. -/
theorem Fitted.adds (h : Fitted s) {p : List UInt8} {ret : Int} {b : FixedBuffer N}
    (hadds : s.buffer.Adds p (some (ret, b))) : Fitted ⟨b, s.appended ++ p⟩ := by
  obtain ⟨k, b', heq, hk, htext⟩ := hadds
  cases heq
  show b.text = (s.appended ++ p).take (curOffset N - 1)
  have hcur := h.cur
  have hle : k = min p.length (curOffset N - 1 - s.appended.length) := by omega
  rw [htext, h, List.take_append, hle, Nat.min_comm, ← List.take_take, List.take_length]

theorem Fitted.step (hpos : 0 < N) (hint : N < 2 ^ 31) (h : Fitted s) (hs : FixedStep s e t) :
    Fitted t := by
  have hroomy := h.roomy hpos hint
  cases hs with
  | reset => exact List.take_nil.symm
  | @add p ret b hp hadd =>
      have hadds := FixedBuffer.adds_add hroomy hp
      rw [hadd] at hadds
      exact h.adds hadds
  | cStr hstr =>
      obtain ⟨b', heq, htext, -, -⟩ := FixedBuffer.cStr_eq hroomy
      cases heq.symm.trans hstr
      exact htext.trans h

theorem run_fitted (hpos : 0 < N) (hint : N < 2 ^ 31) (h : (fixedCalls N).Run es s) :
    Fitted s := by
  refine h.invariant (fun s hs => ?_) fun s e t hs ht => hs.step hpos hint ht
  obtain ⟨hcur, hnil⟩ := hs
  rw [Fitted, FixedBuffer.text, hcur, hnil, List.take_nil]
  rfl

/-- **A `FixedBuffer` keeps the prefix that fits.**  After any calls the text is the first
`M - 1` characters of what was appended since the last `reset`, where `M` is the offset of the
member `cur_`.  Every call returns: no byte is stored at or behind it.  What it returns is the
number of characters it added, and `c_str` returns a C string. -/
theorem keeps_prefix (hpos : 0 < N) (hint : N < 2 ^ 31) (h : (fixedCalls N).Run es s) :
    s.buffer.text = s.appended.take (curOffset N - 1) ∧
    s.buffer.length = s.buffer.text.length ∧
    (∀ p : Piece, p.Short → ∃ k b, s.buffer.add p = some (Nat.cast k, b) ∧
      b.text = s.buffer.text ++ p.text.take k ∧ b.text.length = s.buffer.text.length + k) ∧
    ∃ b, s.buffer.cStr = some b ∧ b.text = s.buffer.text ∧ b.length = s.buffer.length ∧
      b.mem b.length.toNat = 0 := by
  have hfit := run_fitted hpos hint h
  have hroomy := hfit.roomy hpos hint
  refine ⟨hfit, ?_, fun p hp => ?_, ?_⟩
  · rw [FixedBuffer.length_eq hroomy, FixedBuffer.length_text]
  · obtain ⟨k, b, hadd, hk, htext⟩ := FixedBuffer.adds_add hroomy hp
    refine ⟨k, b, hadd, htext, ?_⟩
    rw [htext, List.length_append, List.length_take]
    omega
  · obtain ⟨b, hstr, htext, hcur, hnul⟩ := FixedBuffer.cStr_eq hroomy
    have hlength : b.length = b.cur := by
      rw [FixedBuffer.length, hcur, ← FixedBuffer.length, FixedBuffer.length_eq hroomy]
    refine ⟨b, hstr, htext, ?_, ?_⟩
    · rw [FixedBuffer.length, FixedBuffer.length, hcur]
    · rw [hlength, Int.toNat_natCast]
      exact hnul

end Runs

/-- `FixedBuffer<1>` after `append("abcdefghij", 10)`. -/
theorem keeps_prefix_one : ∃ s : FixedState 1, s.buffer.text = [97, 98, 99, 100, 101, 102, 103] ∧
    s.buffer.text = s.appended.take (curOffset 1 - 1) ∧
    s.buffer.length = s.buffer.text.length ∧
    (∀ p : Piece, p.Short → ∃ k b, s.buffer.add p = some (Nat.cast k, b) ∧
      b.text = s.buffer.text ++ p.text.take k ∧ b.text.length = s.buffer.text.length + k) ∧
    ∃ b, s.buffer.cStr = some b ∧ b.text = s.buffer.text ∧ b.length = s.buffer.length ∧
      b.mem b.length.toNat = 0 := by
  have start : (fixedCalls 1).Run [] ⟨⟨fun _ => 0, 0⟩, []⟩ := .start ⟨rfl, rfl⟩
  have run := start.next (.add (p := .bytes [97, 98, 99, 100, 101, 102, 103, 104, 105, 106] 10)
    ⟨by decide, by decide, by decide⟩ rfl)
  exact ⟨_, by decide, keeps_prefix (by decide) (by decide) run⟩

end PBase.Text
