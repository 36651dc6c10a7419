/-
# `PBase.Logger.Stream` — `LogStream`, where a record is put together

A thread's `LogStream` has a buffer of `g_max_length_per_log` bytes.  `log_stream` puts the
head of a record into it (date, thread name, level), the `<<` operators append, and `Sink` adds
the source file, ends the line and hands the record on, unless `do_noflush` asked for more to
come.  Each operator looks at `avial()`, the space left, in its own way.

Pointers into the buffer are offsets from `buffer_`.  `stores` is a history no function reads:
every stretch of memory stored to, also beyond the string that stays (the NULs of the
converters and of `vsnprintf`).  `out` are the records handed on, the last one first.
-/
import PBase.Lib.System
import PBase.Lib.Bytes
import PBase.Lib.Decimal

namespace PBase.Logger

open PBase.Lib

def kMaxNumericSize : Int := 24
def kMaxPointerSize : Int := 2 * 8 + 2
def kLogDateStrLen : Nat := 25
def sizeOfLogLevelName : Nat := 7

/-- The bytes of an ASCII string. -/
def ascii (s : String) : List UInt8 := s.toList.map fun c => c.toNat.toUInt8

/-! ## Converters -/

/-- The digits a converter stores, the last one first, in at most `fuel` turns. -/
def digitLoop (digit : Int → UInt8) (base : Int) : Nat → Int → List UInt8
  | 0, _ => []
  | fuel + 1, i =>
      digit (i.tmod base) :: if i.tdiv base = 0 then [] else digitLoop digit base fuel (i.tdiv base)

/-- `s_zero[lsd]` -/
def sZero (lsd : Int) : UInt8 := (ascii "9876543210123456789").getD (lsd + 9).toNat 0

/-- `s_digits[lsd]` of `ConvertHexInteger`, and `s_digitsHex[lsd]` -/
def sDigits (lsd : Int) : UInt8 := (ascii "0123456789ABCDEFGHIGK").getD lsd.toNat 0
def sDigitsHex (lsd : Int) : UInt8 := (ascii "0123456789abcdef").getD lsd.toNat 0

/-- `ConvertInteger(buf, value)`: the string; a NUL is stored after it. -/
def convertInteger (value : Int) : List UInt8 :=
  (digitLoop sZero 10 64 value ++ if value < 0 then ascii "-" else []).reverse

/-- `ConvertHexInteger(buf, value)` -/
def convertHexInteger (value : BitVec 64) : List UInt8 :=
  (digitLoop sDigits 16 64 value.toNat ++ ascii "x0").reverse

/-- `ConvertPointer(buf, value)` -/
def convertPointer (value : BitVec 64) : List UInt8 :=
  (digitLoop sDigitsHex 16 64 value.toNat).reverse

/-! ## `LogStream` -/

inductive LogLevel where
  | kTrace | kDebug | kInfo | kWarn | kError | kFatal

/-- `LogLevelName[level]` -/
def LogLevel.name : LogLevel → List UInt8
  | kTrace => ascii " TRACE "
  | kDebug => ascii " DEBUG "
  | kInfo => ascii "  INFO "
  | kWarn => ascii "  WARN "
  | kError => ascii " ERROR "
  | kFatal => ascii " FATAL "

/-- `ThisThread::thread_name()`, its first `thread_name_len()` bytes: `"T%05d"` -/
def threadName (tid : Nat) : List UInt8 :=
  ascii "T" ++ (zeroPad 5 tid).map fun c => c.toNat.toUInt8

structure SourceFile where
  fileName : List UInt8
  fileLine : Int

structure LogStream where
  /-- `buffer_ != nullptr` -/
  buffer : Bool
  cur : Nat
  endPtr : Nat
  autoFlush : Bool
  sourceFile : SourceFile
  mem : Nat → UInt8
  stores : List (Nat × Nat)
  out : List (List UInt8)

/-- The value of a `size_t` as `int`. -/
def int32 (n : Nat) : Int := ((n : Int) + 2 ^ 31) % 2 ^ 32 - 2 ^ 31

/-- A 64-bit integer, signed or not. -/
def Integer64 : Type := { v : Int // -2 ^ 63 ≤ v ∧ v < 2 ^ 64 }

/-- What is inserted by `<<`, or by the manipulators. -/
inductive Insertion where
  /-- `std::string`, `const char *` and char arrays, and `(data, len)`. -/
  | bytes (buf : List UInt8)
  /-- A null `const char *`. -/
  | nullStr
  | char (ch : UInt8)
  | bool (v : Bool)
  | integer (v : Integer64)
  | hex (v : BitVec 64)
  /-- `const void *` -/
  | voidPointer (v : BitVec 64)
  /-- `const T *` -/
  | pointer (v : BitVec 64)
  /-- Floating-point numbers, as `vsnprintf` formats them. -/
  | float (text : List UInt8)
  | noflush

namespace LogStream

/-- Bytes are stored from `cur_` on. -/
def put (s : LogStream) (bytes : List UInt8) : LogStream :=
  { s with
    mem := writeBytes s.mem s.cur bytes, stores := (s.cur, bytes.length) :: s.stores }

def advance (s : LogStream) (n : Nat) : LogStream := { s with cur := s.cur + n }

def avial (s : LogStream) : Int := (s.endPtr : Int) - s.cur

/-- `just_append(buf, len)`; also `*cur_++ = ch`. -/
def justAppend (s : LogStream) (buf : List UInt8) : LogStream := (s.put buf).advance buf.length

/-- `cur_ += Convert…(cur_, v)` -/
def convert (s : LogStream) (str : List UInt8) :
    LogStream := (s.put (str ++ [0])).advance str.length

/-- `append(buf, len)` -/
def append (s : LogStream) (buf : List UInt8) (len : Int) : LogStream :=
  let len := if len > s.avial then s.avial else len
  if len ≤ 0 then s else s.justAppend (buf.take len.toNat)

/-- `append(ch)` -/
def appendChar (s : LogStream) (ch : UInt8) : LogStream :=
  if s.avial > 0 then s.justAppend [ch] else s

/-- `appendf(fmt, …)`, if the formatted text is `text`. -/
def appendf (s : LogStream) (text : List UInt8) : LogStream :=
  let n := s.avial
  if n ≤ 0 then s
  else
    let ret := min (text.length : Int) n
    (s.put (text.take n.toNat ++ [0])).advance ret.toNat

def insert (s : LogStream) : Insertion → LogStream
  | .bytes buf => s.append buf (int32 buf.length)
  | .nullStr => s.append (ascii "null") 4
  | .char ch => s.appendChar ch
  | .bool v => s.appendChar (if v then 49 else 48)
  | .integer v => if s.avial ≥ kMaxNumericSize then s.convert (convertInteger v.val) else s
  | .hex v => if s.avial ≥ kMaxNumericSize then s.convert (convertHexInteger v) else s
  | .voidPointer v =>
      if s.avial ≥ kMaxPointerSize then
        ((s.justAppend (ascii "0")).justAppend (ascii "x")).convert (convertPointer v)
      else s
  | .pointer v => if s.avial ≥ kMaxPointerSize then s.convert (convertPointer v) else s
  | .float text => s.appendf text
  | .noflush => { s with autoFlush := false }

/-- `check_buffer()`, up to its result. -/
def checkBuffer (s : LogStream) (maxLengthPerLog : Nat) : LogStream :=
  if s.buffer then s else { s with buffer := true, cur := 0, endPtr := maxLengthPerLog }

/-- `log_stream(log_level, source_file)` -/
def logStream (s : LogStream) (maxLengthPerLog : Nat) (date : List UInt8) (tid : Nat)
    (level : LogLevel) (src : SourceFile) : LogStream :=
  let s := s.checkBuffer maxLengthPerLog
  if s.cur = 0 then
    { ((s.justAppend date).justAppend (threadName tid)).justAppend level.name with
      sourceFile := src }
  else s

/-- The source file at the end of a record. -/
def sourceMark (s : LogStream) : LogStream :=
  if s.avial ≥ s.sourceFile.fileName.length + 32 then
    (((s.justAppend (ascii " - ")).justAppend s.sourceFile.fileName).justAppend (ascii ":")).convert
      (convertInteger s.sourceFile.fileLine)
  else s

/-- `Sink()` -/
def sink (s : LogStream) : LogStream :=
  if s.autoFlush then
    let s := s.sourceMark.justAppend (ascii "\n")
    { s with out := readBytes s.mem 0 s.cur :: s.out, cur := 0 }
  else { s with autoFlush := true }

end LogStream

/-! ## Runs -/

inductive StreamOp where
  | start (date : Fin kLogDateStrLen → UInt8) (tid : Fin (2 ^ 31)) (level : LogLevel)
      (src : SourceFile)
  | insert (x : Insertion)
  | sink

/-- A line number is an `int`. -/
def SourceFile.Valid (src : SourceFile) : Prop := -2 ^ 31 ≤ src.fileLine ∧ src.fileLine < 2 ^ 31

inductive StreamStep (maxLengthPerLog : Nat) (s : LogStream) : StreamOp → LogStream → Prop
  | start (date : Fin kLogDateStrLen → UInt8) (tid : Fin (2 ^ 31)) (level : LogLevel)
      {src : SourceFile} : src.Valid → StreamStep maxLengthPerLog s (.start date tid level src)
        (s.logStream maxLengthPerLog (List.ofFn date) tid level src)
  | insert (x : Insertion) : s.buffer = true →
      StreamStep maxLengthPerLog s (.insert x) (s.insert x)
  | sink : s.buffer = true → StreamStep maxLengthPerLog s .sink s.sink

/-- `set_max_length_per_log` accepts it. -/
def Admitted (maxLen : Nat) : Prop := ¬ (maxLen < 1024 ∨ maxLen > 16 * 1024 * 1024)

/-- The stream of a thread. -/
def stream (maxLengthPerLog : Nat) : System LogStream StreamOp where
  init s := s.buffer = false ∧ s.cur = 0 ∧ s.endPtr = 0 ∧ s.autoFlush = true ∧
    s.sourceFile.Valid ∧ s.stores = [] ∧ s.out = []
  step := StreamStep maxLengthPerLog

end PBase.Logger
