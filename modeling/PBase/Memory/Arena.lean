/-
# `PBase.Memory.Arena` — `Arena`

An arena hands out memory, and frees all of it in the end.  Small requests are cut from a block
of 4096 bytes, one after the other; `alloc_ptr_` and `alloc_bytes_remaining_` are what is left of
it.  A request that does not fit gets a block of its own if it is large, and otherwise starts a
new block:

    blocks_   ├─ 4096: given up ─┤   ├─ a large request ─┤   ├─ 4096 ──┬─ remaining ─┤
                                                                  alloc_ptr_

The heap is not part of the program.  What it returns is an argument: an address that is a
multiple of 16, of an area behind address 0 that overlaps nothing the arena has from it.  That is
the blocks, and the array in which the vector `blocks_` keeps their addresses.  `size_t` has 64
bits.  A call does not return if an `assert` fails.
-/
import PBase.Lib.System
import PBase.Lib.Carving

namespace PBase.Memory

open PBase.Lib

def kBlockSize : Nat := 4096

def sizeofPtr : Nat := 8

/-- What the heap returns in a call: from `malloc`, and for `blocks_` should it be full. -/
structure Heap where
  malloc : Nat
  array : Area

structure Arena where
  allocPtr : Nat
  allocBytesRemaining : Nat
  /-- The last one first; with the size `malloc` was asked for. -/
  blocks : List Area
  /-- The array of `blocks_`. -/
  array : Area
  memoryUsage : Nat

namespace Arena

/-- `Arena()` -/
def new : Arena :=
  { allocPtr := 0, allocBytesRemaining := 0, blocks := [], array := .null, memoryUsage := 0 }

/-- `blocks_.push_back(result)` -/
def pushBack (result grown : Area) (a : Arena) : Arena :=
  { a with
    blocks := result :: a.blocks
    array := if sizeofPtr * (a.blocks.length + 1) ≤ a.array.size then a.array else grown }

/-- `AllocateNewBlock(block_bytes)` -/
def allocateNewBlock (heap : Heap) (blockBytes : Nat) (a : Arena) : Arena :=
  { a.pushBack ⟨heap.malloc, blockBytes⟩ heap.array with
    memoryUsage := (a.memoryUsage + blockBytes + sizeofPtr) % 2 ^ 64 }

/-- `alloc_ptr_ += n; alloc_bytes_remaining_ -= n;` -/
def advance (n : Nat) (a : Arena) : Arena :=
  { a with allocPtr := a.allocPtr + n, allocBytesRemaining := a.allocBytesRemaining - n }

/-- `AllocateFallback(bytes)` -/
def allocateFallback (heap : Heap) (bytes : Nat) (a : Arena) : Nat × Arena :=
  if bytes > kBlockSize / 4 then
    (heap.malloc, a.allocateNewBlock heap bytes)
  else
    let a := { a.allocateNewBlock heap kBlockSize with
      allocPtr := heap.malloc, allocBytesRemaining := kBlockSize }
    (a.allocPtr, a.advance bytes)

/-- `Allocate(bytes)` -/
def allocate (heap : Heap) (bytes : Nat) (a : Arena) : Option (Nat × Arena) :=
  if bytes > 0 then
    if bytes ≤ a.allocBytesRemaining then some (a.allocPtr, a.advance bytes)
    else some (a.allocateFallback heap bytes)
  else none

/-- `AllocateAligned(bytes)` -/
def allocateAligned (heap : Heap) (bytes : Nat) (a : Arena) : Option (Nat × Arena) :=
  let align := 8
  let currentMod := a.allocPtr &&& (align - 1)
  let slop := if currentMod = 0 then 0 else align - currentMod
  let needed := (bytes + slop) % 2 ^ 64
  let r :=
    if needed ≤ a.allocBytesRemaining then (a.allocPtr + slop, a.advance needed)
    else a.allocateFallback heap bytes
  if r.1 &&& (align - 1) = 0 then some r else none

end Arena

/-! ## Runs -/

/-- What the heap returns, if these areas are in use. -/
structure Fresh (used : List Area) (b : Area) : Prop where
  aligned : 16 ∣ b.ptr
  pos : 0 < b.ptr
  lt : b.ptr + b.size < 2 ^ 64
  apart : ∀ c ∈ used, b.Apart c

/-- A request and its answer. -/
inductive Call where
  | allocate (area : Area)
  | allocateAligned (area : Area)

def Call.area : Call → Area
  | allocate area => area
  | allocateAligned area => area

/-- A size that is not 0, and to which the arena can add what it needs. -/
def Admitted (bytes : Nat) : Prop := 0 < bytes ∧ bytes ≤ 2 ^ 64 - 8

/-- The heap returned what is new of the arena: a block first, then an array for `blocks_`.  A
vector has space for what is in it. -/
structure Malloced (a a' : Arena) : Prop where
  block : ∀ b, a'.blocks = b :: a.blocks → Fresh (a.array :: a.blocks) b
  array : a'.array = a.array ∨ Fresh (a.array :: a'.blocks) a'.array
  space : sizeofPtr * a'.blocks.length ≤ a'.array.size

inductive Step (a : Arena) : Call → Arena → Prop
  | allocate {heap : Heap} {bytes ptr : Nat} {a' : Arena} : Admitted bytes →
      a.allocate heap bytes = some (ptr, a') → Malloced a a' →
      Step a (.allocate ⟨ptr, bytes⟩) a'
  | allocateAligned {heap : Heap} {bytes ptr : Nat} {a' : Arena} : Admitted bytes →
      a.allocateAligned heap bytes = some (ptr, a') → Malloced a a' →
      Step a (.allocateAligned ⟨ptr, bytes⟩) a'

/-- An arena from its construction on. -/
def arena : System Arena Call where
  init a := a = .new
  step := Step

end PBase.Memory
