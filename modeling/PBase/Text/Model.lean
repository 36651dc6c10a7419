/-
# `PBase.Text.Model` — `Buffer`, a string that grows

A `Buffer` is a stretch of malloc'ed memory, written from its start on:

    buffer_           cur_            end_
      ├── size() ───────┼── avial() ─┬──┤
                                     └ one byte append leaves free

`cur_` and `end_` are offsets from `buffer_`; all three pointers are null at first and after
`reset`.  `size_t` has 64 bits.  A call does not return when its loop does not end or when it
stores a byte at or behind `end_`.  What `malloc` returns has any bytes in it.

`calls` is a buffer with what is appended to it since the last `clear` or `reset`.
-/
import PBase.Lib.System
import PBase.Lib.Bytes

namespace PBase.Text

open PBase.Lib

inductive Buffer where
  | null
  | alloc (mem : Nat → UInt8) (cur endp : Nat)

namespace Buffer

def size : Buffer → Nat
  | null => 0
  | alloc _ cur _ => cur

/-- `end_ - cur_ - 1` -/
def avial : Buffer → Nat
  | null => 0
  | alloc _ cur endp => (endp + 2 ^ 64 - cur - 1) % 2 ^ 64

def capacity : Buffer → Nat
  | null => 0
  | alloc _ _ endp => endp

/-- The first `size()` bytes. -/
def text : Buffer → List UInt8
  | null => []
  | alloc mem cur _ => readBytes mem 0 cur

def clear : Buffer → Buffer
  | null => null
  | alloc mem _ endp => alloc mem 0 endp

def reset (_ : Buffer) : Buffer := null

/-- `memcpy(cur_, buf, len); cur_ += len;` -/
def copy (buf : List UInt8) : Buffer → Option Buffer
  | null => if buf.length = 0 then some null else none
  | alloc mem cur endp =>
      if cur + buf.length ≤ endp then some (alloc (writeBytes mem cur buf) (cur + buf.length) endp)
      else none

/-- `_resize(new_size)`, with the memory `malloc` returns. -/
def resize (fresh : Nat → UInt8) (newSize : Nat) (b : Buffer) : Option Buffer :=
  (alloc fresh 0 newSize).copy b.text

/-- `buffer_ ? (end_ - buffer_) : 64` -/
def firstSize : Buffer → Nat
  | null => 64
  | alloc _ _ endp => endp

/-- `while (tmp_size < new_size) { tmp_size = tmp_size << 1; }`.  After 64 turns nothing is left
to shift, so a loop that takes longer does not end. -/
def grow (newSize : Nat) : Nat → Nat → Option Nat
  | 0, _ => none
  | turns + 1, tmpSize =>
      if tmpSize < newSize then grow newSize turns (tmpSize * 2 % 2 ^ 64) else some tmpSize

def append (fresh : Nat → UInt8) (buf : List UInt8) (b : Buffer) : Option Buffer :=
  if buf.length ≤ b.avial then
    b.copy buf
  else do
    let newSize := (b.size + buf.length + 1) % 2 ^ 64
    let tmpSize ← grow newSize 65 b.firstSize
    let b ← b.resize fresh tmpSize
    b.copy buf

/-- `*(cur_ + 1) = '\0'` -/
def cStr : Buffer → Option Buffer
  | null => some null
  | alloc mem cur endp =>
      if cur + 1 < endp then some (alloc (Function.update mem (cur + 1) 0) cur endp) else none

end Buffer

inductive Call where
  | append (buf : List UInt8)
  | clear
  | reset
  | cStr

structure State where
  buffer : Buffer
  /-- The bytes appended since the last `clear` or `reset`. -/
  appended : List UInt8

inductive Step (s : State) : Call → State → Prop
  | append {fresh : Nat → UInt8} {buf : List UInt8} {b : Buffer} :
      s.buffer.append fresh buf = some b → Step s (.append buf) ⟨b, s.appended ++ buf⟩
  | clear : Step s .clear ⟨s.buffer.clear, []⟩
  | reset : Step s .reset ⟨s.buffer.reset, []⟩
  | cStr {b : Buffer} : s.buffer.cStr = some b → Step s .cStr ⟨b, s.appended⟩

/-- A buffer from its construction on. -/
def calls : System State Call where
  init s := s = ⟨.null, []⟩
  step := Step

end PBase.Text
