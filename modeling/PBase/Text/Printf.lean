/-
# `PBase.Text.Printf` — `StringAppendV`

A `std::string` has storage for `capacity()` characters and a terminator:

    0          size()        capacity()
    ├── content ──┼─ NUL, unused ─┤ + 1

`StringAppendV` makes the string as long as its storage, lets `vsnprintf` write behind the old
content, and cuts the string to what was written.  If that does not fit, it makes the string as
long as the whole text, in other storage, and formats once more.

A call does not return if `vsnprintf` stores behind the terminator the string has at that moment.
-/
import PBase.Lib.Bytes
import PBase.Lib.Format

namespace PBase.Text

open PBase.Lib

/-- The storage a string of `n` characters moves to, and what is in it. -/
structure Allocator where
  capacity : Nat → Nat
  le : ∀ n, n ≤ capacity n
  memory : Nat → Nat → UInt8

structure StdString where
  mem : Nat → UInt8
  size : Nat
  capacity : Nat
  fits : size ≤ capacity

namespace StdString

def content (s : StdString) : List UInt8 := readBytes s.mem 0 s.size

/-- `s[s.size()]` -/
def Terminated (s : StdString) : Prop := s.mem s.size = 0

/-- `resize(n)`: the characters that are new are NUL, and so is the terminator. -/
def resize (a : Allocator) (n : Nat) (s : StdString) : StdString :=
  if h : n ≤ s.capacity then
    { mem := writeBytes s.mem (min s.size n) (List.replicate (n - s.size + 1) 0), size := n
      capacity := s.capacity, fits := h }
  else
    { mem := writeBytes (writeBytes (a.memory n) 0 s.content) s.size
        (List.replicate (n - s.size + 1) 0)
      size := n, capacity := a.capacity n, fits := a.le n }

/-- `vsnprintf(&(*this)[pos], n, …)` -/
def vsnprintf (f : Formatted) (pos n : Nat) (s : StdString) : Option StdString :=
  if pos + (f.stored n).length ≤ s.size + 1 then
    some { s with mem := writeBytes s.mem pos (f.stored n) }
  else none

end StdString

/-- `StringAppendV(dst, format, argptr)`: the value returned, and the string.  `ret + 1` is an
`int`. -/
def stringAppendV (a : Allocator) (f : Formatted) (dst : StdString) :
    Option (Int × StdString) := do
  let len := dst.size
  let capacity := dst.capacity
  let dst := dst.resize a capacity
  let capacity := capacity - len
  let dst ← dst.vsnprintf f len (capacity + 1)
  let ret := f.ret
  if ret > 0 then
    let dst := dst.resize a (len + ret.toNat)
    if ret.toNat > capacity then
      let dst ← dst.vsnprintf f len (castSize (castInt (ret + 1)))
      pure (ret, dst)
    else pure (ret, dst)
  else pure (ret, dst.resize a len)

namespace StdString

variable {a : Allocator} {s : StdString} {n k pos : Nat} {f : Formatted}

/-! ## The two operations -/

@[simp] theorem size_resize : (s.resize a n).size = n := by
  unfold resize
  split <;> rfl

theorem capacity_resize (h : n ≤ s.capacity) : (s.resize a n).capacity = s.capacity := by
  rw [resize, dif_pos h]

/-- What the string keeps stays where it is. -/
theorem read_resize (hk : k ≤ s.size) (hn : k ≤ n) :
    readBytes (s.resize a n).mem 0 k = readBytes s.mem 0 k := by
  unfold resize
  split
  · exact read_write_below (by omega)
  · -- the content is copied
    have hcopy : readBytes (writeBytes (a.memory n) 0 s.content) 0 s.size = s.content := by
      have hread := read_write (m := a.memory n) (o := 0) (p := s.content)
      rwa [content, length_readBytes] at hread
    have hsplit : s.size = k + (s.size - k) := (Nat.add_sub_of_le hk).symm
    rw [content, hsplit, readBytes_add, readBytes_add] at hcopy
    rw [read_write_below (by omega), content, hsplit, readBytes_add]
    exact (List.append_inj hcopy (by rw [length_readBytes, length_readBytes])).1

theorem terminated_resize : (s.resize a n).Terminated := by
  have hlast : ∀ {m : Nat → UInt8} {o : Nat}, o ≤ n → n - s.size = n - o →
      writeBytes m o (List.replicate (n - s.size + 1) 0) n = 0 := fun {m o} ho heq => by
    rw [writeBytes, if_pos ho, heq]
    simp
  unfold resize Terminated
  split
  · exact hlast (Nat.min_le_right ..) (by omega)
  · rename_i hlt
    have hfits := s.fits
    exact hlast (by omega) rfl

/-- `vsnprintf` in front of the terminator. -/
theorem vsnprintf_of_le (h : pos + (f.stored n).length ≤ s.size + 1) :
    s.vsnprintf f pos n = some { s with mem := writeBytes s.mem pos (f.stored n) } := if_pos h

/-- A text that is stored whole, behind what was there. -/
theorem read_text (h : f.text.length < n) (m : Nat → UInt8) :
    readBytes (writeBytes m pos (f.stored n)) 0 (pos + f.text.length)
      = readBytes m 0 pos ++ f.text := by
  rw [Formatted.stored_all h, readBytes_add, Nat.zero_add, read_write_below (Nat.zero_add pos).le,
    read_write_start (by simp), List.take_left']
  rfl

/-- The terminator behind it. -/
theorem mem_text (h : f.text.length < n) (m : Nat → UInt8) :
    writeBytes m pos (f.stored n) (pos + f.text.length) = 0 := by
  rw [Formatted.stored_all h, writeBytes, if_pos (Nat.le_add_right ..), Nat.add_sub_cancel_left]
  simp

end StdString

/-! ## `StringAppendV` -/

section AppendV
variable (a : Allocator) (f : Formatted) (dst : StdString)

/-- The string after the first `vsnprintf`. -/
def StdString.blown : StdString :=
  { dst.resize a dst.capacity with
    mem := writeBytes (dst.resize a dst.capacity).mem dst.size
      (f.stored (dst.capacity - dst.size + 1)) }

theorem size_blown : (dst.blown a f).size = dst.capacity := StdString.size_resize

theorem capacity_blown : (dst.blown a f).capacity = dst.capacity :=
  StdString.capacity_resize le_rfl

/-- It stays inside the storage. -/
theorem vsnprintf_first :
    (dst.resize a dst.capacity).vsnprintf f dst.size (dst.capacity - dst.size + 1)
      = some (dst.blown a f) := by
  refine StdString.vsnprintf_of_le ?_
  have hfits := dst.fits
  have hle := f.length_stored_le (n := dst.capacity - dst.size + 1)
  rw [StdString.size_resize]
  omega

/-- The old content is still there. -/
theorem read_blown : readBytes (dst.blown a f).mem 0 dst.size = dst.content := by
  show readBytes (writeBytes _ dst.size _) 0 dst.size = _
  rw [read_write_below (Nat.zero_add dst.size).le, StdString.read_resize le_rfl dst.fits]
  rfl

variable {f}

theorem stringAppendV_failed (h : f.ret ≤ 0) :
    stringAppendV a f dst = some (f.ret, (dst.blown a f).resize a dst.size) := by
  simp only [stringAppendV, vsnprintf_first, Option.bind_eq_bind, Option.bind_some,
    if_neg (not_lt.mpr h)]
  rfl

theorem stringAppendV_room (h : 0 < f.ret) (hroom : f.text.length ≤ dst.capacity - dst.size) :
    stringAppendV a f dst
      = some (f.ret, (dst.blown a f).resize a (dst.size + f.text.length)) := by
  have hlen : f.ret.toNat = f.text.length := by rw [f.ret_of_pos h, Int.toNat_natCast]
  simp only [stringAppendV, vsnprintf_first, Option.bind_eq_bind, Option.bind_some, if_pos h, hlen,
    if_neg (not_lt.mpr hroom)]
  rfl

/-- The second `vsnprintf` has room for all of the text. -/
theorem stringAppendV_moved (h : 0 < f.ret) (hfull : dst.capacity - dst.size < f.text.length) :
    ∃ n, f.text.length < n ∧ stringAppendV a f dst
      = some (f.ret, { (dst.blown a f).resize a (dst.size + f.text.length) with
          mem := writeBytes ((dst.blown a f).resize a (dst.size + f.text.length)).mem dst.size
            (f.stored n) }) := by
  have hret := f.ret_of_pos h
  have hlen : f.ret.toNat = f.text.length := by rw [hret, Int.toNat_natCast]
  have hn : f.text.length < castSize (castInt (f.ret + 1)) := by
    rw [hret]
    exact le_castSize_succ f.length_lt
  refine ⟨_, hn, ?_⟩
  have hfit : dst.size + (f.stored (castSize (castInt (f.ret + 1)))).length
      ≤ ((dst.blown a f).resize a (dst.size + f.text.length)).size + 1 := by
    rw [StdString.size_resize, Formatted.stored_all hn, List.length_append, List.length_singleton]
    omega
  have hsecond := StdString.vsnprintf_of_le hfit
  simp only [stringAppendV, vsnprintf_first, Option.bind_eq_bind, Option.bind_some, if_pos h, hlen,
    if_pos hfull, hsecond]
  rfl

/-- **`StringAppendV` appends.**  It returns: what `vsnprintf` stores is in front of the
terminator.  If what it returns is positive, that is the length of the text, and the whole text
is behind the old content; otherwise the string is what it was. -/
theorem stringAppendV_appends (f : Formatted) :
    ∃ ret dst', stringAppendV a f dst = some (ret, dst') ∧ ret = f.ret ∧ dst'.Terminated ∧
      (0 < ret → ret = f.text.length ∧ dst'.content = dst.content ++ f.text) ∧
      (ret ≤ 0 → dst'.content = dst.content ∧ dst'.capacity = dst.capacity) := by
  have hfits := dst.fits
  have hread := read_blown a f dst
  rcases lt_or_ge 0 f.ret with hpos | hneg
  · have hret := f.ret_of_pos hpos
    rcases Nat.lt_or_ge (dst.capacity - dst.size) f.text.length with hfull | hroom
    · obtain ⟨n, hn, happ⟩ := stringAppendV_moved a dst hpos hfull
      refine ⟨_, _, happ, rfl, ?_, fun _ => ⟨hret, ?_⟩, fun hle => by omega⟩
      · show writeBytes _ dst.size (f.stored n) (StdString.size _) = 0
        rw [StdString.size_resize]
        exact StdString.mem_text hn _
      · show readBytes (writeBytes _ dst.size (f.stored n)) 0 (StdString.size _) = _
        rw [StdString.size_resize, StdString.read_text hn, ← hread]
        congr 1
        exact StdString.read_resize (by rw [size_blown]; exact hfits) (Nat.le_add_right ..)
    · have hn : f.text.length < dst.capacity - dst.size + 1 := Nat.lt_succ_of_le hroom
      refine ⟨_, _, stringAppendV_room a dst hpos hroom, rfl, StdString.terminated_resize,
        fun _ => ⟨hret, ?_⟩, fun hle => by omega⟩
      rw [StdString.content, StdString.size_resize,
        StdString.read_resize (by rw [size_blown]; omega) le_rfl, ← hread]
      show readBytes (writeBytes _ dst.size _) 0 _ = readBytes (writeBytes _ dst.size _) 0 _ ++ _
      rw [StdString.read_text hn, read_write_below (Nat.zero_add dst.size).le]
  · refine ⟨_, _, stringAppendV_failed a dst hneg, rfl, StdString.terminated_resize,
      fun hpos => by omega, fun _ => ⟨?_, ?_⟩⟩
    · rw [StdString.content, StdString.size_resize,
        StdString.read_resize (by rw [size_blown]; exact hfits) le_rfl, hread]
    · rw [StdString.capacity_resize (by rw [capacity_blown]; exact hfits), capacity_blown]

end AppendV

end PBase.Text
