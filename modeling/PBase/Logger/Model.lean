/-
# `PBase.Logger.Model` — `LogSinkThread`: front buffer, ref list and output

Producers copy messages into the front buffer under `mutex_front_`.  The sink thread queues
what is there as a `BufferRef` (`sync_with_front`), pops the queue and hands each ref to
`g_output_func` (`flush`), which reads the bytes at the time of the call.  A message that
does not fit queues the rest of the buffer and a ref of length 0, which makes `flush` put
the buffer on the free list, and goes to another buffer (`new_buffer`).

    producers        cur_buffer_ [ptr_, cur_ptr_)  ──new_buffer──┐
                              │                                  ▼
    sink    work: sync_with_front ──────────────────────▶  ref_list_
                  flush: pop, g_output_func  ◀───────────────────┘
                  at the end: a last message, new_buffer, flush

Each section under a mutex, and each call of `g_output_func`, is one step.  A pointer is a
buffer and an offset; `ptr_`, `cur_ptr_` and `end_` always point into `cur_buffer_` (all four
are null at first), so they are offsets.  `malloc` returns buffers nobody has, numbered in
the order of allocation.
-/
import PBase.Lib.System
import PBase.Lib.Bytes

namespace PBase.Logger

open PBase.Lib

def kFlushBufferSize : Nat := 32 * 1024

/-- A stretch of a buffer, or with length 0 the whole buffer, to be freed. -/
structure BufferRef where
  buf : Nat
  off : Nat
  length : Nat

/-- Where the sink thread is. -/
inductive Pc where
  /-- About to test `finished_`. -/
  | loop
  | sync
  /-- `flush`: about to pop; `last` in the flush after the loop. -/
  | flush (last : Bool)
  | output (ref : BufferRef) (last : Bool)
  /-- About to log the last message. -/
  | fatal
  | newBuffer
  | done

structure State where
  mem : Nat → Nat → UInt8
  /-- Buffers allocated so far. -/
  mallocs : Nat
  freeBufferList : List Nat
  refList : List BufferRef
  curBuffer : Option Nat
  ptr : Nat
  curPtr : Nat
  endPtr : Nat
  finished : Bool
  pc : Pc

inductive Event where
  | tau
  | appended (msg : List UInt8)
  | output (bytes : List UInt8)

namespace State

/-- `g_log_sinker` as constructed. -/
def initial : State :=
  { mem := fun _ _ => 0, mallocs := 0, freeBufferList := [], refList := [], curBuffer := none,
    ptr := 0, curPtr := 0, endPtr := 0, finished := false, pc := .loop }

/-- `if (cur_ptr_ > ptr_) { ref_list_.push_back({ptr_, cur_ptr_ - ptr_}); cur_ptr_ = ptr_; }` -/
def pushFront (s : State) : State :=
  match s.curBuffer with
  | some b =>
      if s.curPtr > s.ptr then
        { s with
          refList := s.refList ++ [BufferRef.mk b s.ptr (s.curPtr - s.ptr)]
          curPtr := s.ptr }
      else s
  | none => s

/-- The buffer `new_buffer` takes: a free one, or a new one. -/
def takeBuffer (s : State) : Nat × State :=
  match s.freeBufferList with
  | [] => (s.mallocs, { s with mallocs := s.mallocs + 1 })
  | b :: rest => (b, { s with freeBufferList := rest })

/-- `new_buffer()` -/
def newBuffer (s : State) : State :=
  let s := s.pushFront
  let s := match s.curBuffer with
    | some b => { s with refList := s.refList ++ [BufferRef.mk b 0 0] }
    | none => s
  let (b, s) := s.takeBuffer
  { s with curBuffer := some b, ptr := 0, endPtr := kFlushBufferSize, curPtr := 0 }

/-- `memcpy(cur_ptr_, p, length); cur_ptr_ += length;` -/
def copy (s : State) (msg : List UInt8) : State :=
  match s.curBuffer with
  | some b =>
      { s with
        mem := Function.update s.mem b (writeBytes (s.mem b) s.curPtr msg)
        curPtr := s.curPtr + msg.length }
  | none => s

/-- `append_buf(p, length)` -/
def appendBuf (s : State) (msg : List UInt8) : State :=
  let s := if s.curBuffer.isNone then s.newBuffer else s
  let s := if s.curPtr + msg.length > s.endPtr then s.newBuffer else s
  s.copy msg

end State

/-- The section of `flush` under the mutex: refs of length 0 free their buffer, up to the
first other one. -/
def popRef (free : List Nat) : List BufferRef → List Nat × Option BufferRef × List BufferRef
  | [] => (free, none, [])
  | ref :: rest =>
      if ref.length ≤ 0 then popRef (free ++ [ref.buf]) rest else (free, some ref, rest)

/-- The bytes a ref denotes now. -/
def BufferRef.bytes (mem : Nat → Nat → UInt8) (ref : BufferRef) : List UInt8 :=
  readBytes (mem ref.buf) ref.off ref.length

/-- `flush` returns to the loop, or the thread ends. -/
def afterFlush (last : Bool) : Pc := if last then .done else .loop

inductive Step (s : State) : Event → State → Prop
  /-- `append_buf` by any thread. -/
  | append (msg : List UInt8) : Step s (.appended msg) (s.appendBuf msg)
  /-- `stop()` -/
  | stop : Step s .tau { s with finished := true }
  | loop : s.pc = .loop → Step s .tau { s with pc := if s.finished then .fatal else .sync }
  | sync : s.pc = .sync → Step s .tau { s.pushFront with pc := .flush false }
  | pop {last : Bool} {free : List Nat} {ref : BufferRef} {rest : List BufferRef} :
      s.pc = .flush last → popRef s.freeBufferList s.refList = (free, some ref, rest) →
      Step s .tau
        { s with freeBufferList := free, refList := rest, pc := .output ref last }
  | popEmpty {last : Bool} {free : List Nat} {rest : List BufferRef} :
      s.pc = .flush last → popRef s.freeBufferList s.refList = (free, none, rest) →
      Step s .tau
        { s with freeBufferList := free, refList := rest, pc := afterFlush last }
  | output {ref : BufferRef} {last : Bool} : s.pc = .output ref last →
      Step s (.output (ref.bytes s.mem)) { s with pc := .flush last }
  | fatal (msg : List UInt8) : s.pc = .fatal →
      Step s (.appended msg) { s.appendBuf msg with pc := .newBuffer }
  | newBuffer : s.pc = .newBuffer → Step s .tau { s.newBuffer with pc := .flush true }

/-- The logger before the first message. -/
def logger : System State Event where
  init s := s.mallocs = 0 ∧ s.freeBufferList = [] ∧ s.refList = [] ∧ s.curBuffer = none ∧
    s.ptr = 0 ∧ s.curPtr = 0 ∧ s.endPtr = 0 ∧ s.pc = .loop
  step := Step

theorem init_initial : logger.init .initial := ⟨rfl, rfl, rfl, rfl, rfl, rfl, rfl, rfl⟩

end PBase.Logger
