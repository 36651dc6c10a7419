/-
# `PBase.Buffer.Model` — blocks, the thread's block cache and `ZBuffer`

A `Block` is malloc'ed memory with a reference count; a `BlockRef` is a stretch of one.  The
thread keeps blocks that are not full on a list (`tls_block_cache`), which holds one reference
on each.  A `ZBuffer` is a sequence of refs: two of them in place, or more in a ring
(`BlockRefArray`) whose storage is itself a stretch of a block.

    append ──acquire_block──▶ head_ ──next──▶ …        full: dec_ref, off the list
       │                        ▲
       ▼ inc_ref                │ release_block, when ref_num reaches 0
    first_ second_ / refs_array ┘ dec_ref

The source's functions are programs on a `World`: the heap of blocks, the cache and the
global counter.  A pointer is the number of the `malloc` that returned it, from 1 on; 0 is
`nullptr`.  A program does not return when it follows a pointer to no block, when an `assert`
fails or when a loop does not end.  What the memory behind a pointer is, and where, is up to
`Env`.  `notes` is a history no function reads: the blocks `acquire_block` drops, the blocks
that are released, the rings that grow and the storage they get.
-/
import PBase.Lib.Program
import PBase.Lib.Bytes

namespace PBase.Buffer

open PBase.Lib

def kNormalBlockSize : Nat := 8 * 1024
def kInitBlockRefArraySize : Nat := 32
def kBlockCachedPerThread : Nat := 32

def sizeofBlock : Nat := 24
def sizeofBlockRef : Nat := 16
def sizeofBlockRefArray : Nat := 16

def kNormalBlockPayloadSize : Nat := kNormalBlockSize - sizeofBlock

/-! ## Data -/

structure Block where
  next : Nat
  refNum : Int
  offset : Nat
  capacity : Nat
  data : Nat → UInt8
  /-- Where `malloc` put the block, and how many bytes it returned. -/
  address : Nat
  size : Nat

structure BlockRef where
  offset : Nat
  length : Nat
  block : Nat
  deriving DecidableEq

/-- After `reset()`. -/
def BlockRef.null : BlockRef := ⟨0, 0, 0⟩

structure BlockRefArray where
  nbytes : Nat
  begin : Nat
  capMask : Nat
  refs : Nat → BlockRef

/-- The union of the two forms; `array()` says which. -/
inductive ZBuffer where
  | two (first second : BlockRef)
  | array (refsNum : Nat) (refsArray : BlockRefArray) (firstRef : BlockRef)

/-- What is outside the program. -/
structure Env where
  /-- The address the `p`-th `malloc` returns. -/
  address : Nat → Nat
  aligned : ∀ p, 16 ∣ address p
  /-- The bytes in it, and the refs a new ring finds in its storage. -/
  memory : Nat → Nat → UInt8
  refs : Nat → Nat → BlockRef

/-- Every block at another address, and nothing in it. -/
def Env.plain : Env :=
  { address := fun p => p * 2 ^ 20, aligned := fun p => ⟨p * 2 ^ 16, by omega⟩
    memory := fun _ _ => 0, refs := fun _ _ => .null }

inductive Note where
  /-- `acquire_block` drops a full head, with this `ref_num` and `block_number_`. -/
  | drop (refNum : Int) (blockNumber : Nat)
  /-- `release_block`, for the block at `p`. -/
  | release (p : Nat)
  /-- A ring grows to the capacity `cap`. -/
  | resize (begin cap : Nat)
  /-- Storage for a ring of `n` refs; whether it lies inside the block. -/
  | request (n : Nat) (inside : Bool)

structure World where
  env : Env
  mallocs : Nat
  arrays : Nat
  block : Nat → Option Block
  /-- `tls_block_cache.head_` and `tls_block_cache.block_number_` -/
  head : Nat
  blockNumber : Nat
  gBlockNumber : Nat
  notes : List Note

/-- Before the first call. -/
def World.initial (env : Env) : World :=
  { env := env, mallocs := 0, arrays := 0, block := fun _ => none, head := 0, blockNumber := 0,
    gBlockNumber := 0, notes := [] }

abbrev Program := StateT World Option

/-! ## Blocks -/

/-- `block->…`, of a block that is there. -/
def load (p : Nat) : Program Block := do
  match (← get).block p with
  | some b => pure b
  | none => failure

def World.setBlock (w : World) (p : Nat) (b : Block) : World :=
  { w with block := Function.update w.block p (some b) }

def store (p : Nat) (b : Block) : Program Unit := modify (·.setBlock p b)

def note (n : Note) : Program Unit := modify fun w => { w with notes := n :: w.notes }

/-- `++block_number_` -/
def incBlockNumber : Program Unit :=
  modify fun w => { w with blockNumber := (w.blockNumber + 1) % 2 ^ 32 }

/-- `--block_number_` -/
def decBlockNumber : Program Unit :=
  modify fun w => { w with blockNumber := (w.blockNumber + (2 ^ 32 - 1)) % 2 ^ 32 }

def setHead (p : Nat) : Program Unit := modify fun w => { w with head := p }

namespace Block

def full (b : Block) : Bool := decide ((b.offset + 7) % 2 ^ 32 ≥ b.capacity)

def leftSpace (b : Block) : Nat := (b.capacity + 2 ^ 32 - b.offset) % 2 ^ 32

/-- What `create_block(size)` builds at the pointer `p`.  `Block(uint16_t cap)` truncates the
size. -/
def create (env : Env) (p size : Nat) : Block :=
  { next := 0, refNum := 1, offset := 0
    capacity := (size % 2 ^ 16 + (2 ^ 32 - sizeofBlock)) % 2 ^ 32
    data := env.memory p, address := env.address p, size := (size + 7) % 2 ^ 32 / 8 * 8 }

end Block

/-- `create_block(uint32_t size)` -/
def createBlock (size : Nat) : Program Nat := do
  let w ← get
  let p := w.mallocs + 1
  set { w.setBlock p (.create w.env p (size % 2 ^ 32)) with
    mallocs := p, gBlockNumber := w.gBlockNumber + 1 }
  pure p

def freeBlock (p : Nat) : Program Unit :=
  modify fun w =>
    { w with block := Function.update w.block p none, gBlockNumber := w.gBlockNumber - 1 }

def incRef (p : Nat) : Program Unit := do
  let b ← load p
  store p { b with refNum := b.refNum + 1 }

/-- `release_block(block)` -/
def releaseBlock (p : Nat) : Program Unit := do
  note (.release p)
  let w ← get
  if w.blockNumber < kBlockCachedPerThread then do
    incBlockNumber
    incRef p
    let b ← load p
    store p { b with next := w.head }
    setHead p
  else
    freeBlock p

def decRef (p : Nat) : Program Unit := do
  let b ← load p
  if b.refNum ≤ 1 then do
    store p { b with refNum := b.refNum - 1, next := 0, offset := 0 }
    releaseBlock p
  else
    store p { b with refNum := b.refNum - 1 }

/-! ## The cache -/

/-- A turn of `while (head_)` in `acquire_block`, or what follows it. -/
def acquireBlockBody (_ : Unit) : Program (Unit ⊕ Nat) := do
  let w ← get
  if w.head = 0 then do
    let p ← createBlock kNormalBlockSize
    incBlockNumber
    setHead p
    pure (.inr p)
  else do
    let b ← load w.head
    if b.full then do
      note (.drop b.refNum w.blockNumber)
      decRef w.head
      setHead b.next
      decBlockNumber
      pure (.inl ())
    else
      pure (.inr w.head)

/-- `acquire_block()` -/
def acquireBlock : Program Nat := do
  let w ← get
  loop acquireBlockBody (w.mallocs + 1) ()

/-- A turn of `while (head_)` in `pop_front`, or what follows it. -/
def popFrontBody (_ : Unit) : Program (Unit ⊕ Nat) := do
  let w ← get
  if w.head = 0 then do
    let p ← createBlock kNormalBlockSize
    incBlockNumber
    pure (.inr p)
  else do
    let b ← load w.head
    setHead b.next
    if b.full then do
      decRef w.head
      decBlockNumber
      pure (.inl ())
    else
      pure (.inr w.head)

/-- `pop_front()` -/
def popFront : Program Nat := do
  let w ← get
  loop popFrontBody (w.mallocs + 1) ()

/-- `push_front(block)` -/
def pushFront (p : Nat) : Program Unit := do
  let b ← load p
  if b.full then
    decRef p
  else do
    let w ← get
    store p { b with next := w.head }
    setHead p
    incBlockNumber

/-- A turn of `while (head_)` in `~ThreadLocalBlockCache`, or what follows it. -/
def destroyBody (_ : Unit) : Program (Unit ⊕ Unit) := do
  let w ← get
  if w.head = 0 then
    pure (.inr ())
  else do
    let b ← load w.head
    setHead b.next
    decRef w.head
    pure (.inl ())

/-- `~ThreadLocalBlockCache()`, for at most `fuel` turns. -/
def destroyCache (fuel : Nat) : Program Unit := loop destroyBody fuel ()

/-- `sizeof(BlockRefArray) + n * sizeof(BlockRef)`, and one ref more for the alignment. -/
def arrayBytes (n : Nat) : Nat := n * sizeofBlockRef + (sizeofBlockRefArray + sizeofBlockRef)

/-- A turn of `while (block)` in `acquire_block_ref_array`. -/
def findSpaceBody (bytes p : Nat) : Program (Nat ⊕ Nat) :=
  if p = 0 then
    pure (.inr 0)
  else do
    let b ← load p
    if b.leftSpace ≥ bytes then pure (.inr p) else pure (.inl b.next)

/-- A new block at the front of the list. -/
def pushNewBlock (size : Nat) : Program Nat := do
  let p ← createBlock size
  let b ← load p
  let w ← get
  store p { b with next := w.head }
  setHead p
  incBlockNumber
  pure p

/-- The address for the array: `block->data + block->offset`, rounded up to 16. -/
def Block.arrayAddress (b : Block) : Nat := (b.address + sizeofBlock + b.offset + 15) / 16 * 16

/-- A ring of `n` refs at that address is inside the memory of the block. -/
def Block.holdsArray (b : Block) (n : Nat) : Bool :=
  decide (b.address ≤ b.arrayAddress ∧
    b.arrayAddress + (sizeofBlockRefArray + n * sizeofBlockRef) ≤ b.address + b.size)

/-- The block for a ring of `n` refs: the first of the list with enough space, or a new one. -/
def chooseBlock (n : Nat) : Program Nat := do
  let w ← get
  if arrayBytes n < kNormalBlockPayloadSize then do
    let p ← loop (findSpaceBody (arrayBytes n)) (w.mallocs + 1) w.head
    if p = 0 then pushNewBlock kNormalBlockSize else pure p
  else
    pushNewBlock (arrayBytes n + sizeofBlock)

/-- `acquire_block_ref_array(ref, n)`: the address and the ref. -/
def acquireBlockRefArray (n : Nat) : Program (Nat × BlockRef) := do
  let p ← chooseBlock n
  let b ← load p
  note (.request n (b.holdsArray n))
  store p { b with refNum := b.refNum + 1, offset := (b.offset + arrayBytes n) % 2 ^ 32 }
  pure (b.arrayAddress, ⟨b.offset, arrayBytes n % 2 ^ 32, p⟩)

/-- `acquire_block_ref(ref)` -/
def acquireBlockRef : Program BlockRef := do
  let p ← popFront
  let b ← load p
  pure ⟨b.offset, b.leftSpace, p⟩

/-- `return_block_ref(ref)` -/
def returnBlockRef (ref : BlockRef) : Program Unit := do
  let b ← load ref.block
  store ref.block { b with offset := (b.offset + ref.length) % 2 ^ 32 }
  incRef ref.block
  pushFront ref.block

/-! ## `read_from_fd`, up to `append_ref` -/

def kMaxIov : Nat := 64

/-- `iov[i]`: some bytes of a block, from an offset on. -/
structure Iovec where
  block : Nat
  offset : Nat
  len : Nat

/-- `assert(c)` -/
def check (c : Prop) [Decidable c] : Program Unit := if c then pure () else failure

/-- The next block of the list, or a new one at its end. -/
def nextBlock (p prev : Nat) : Program Nat :=
  if p = 0 then do
    let p ← createBlock kNormalBlockSize
    let b ← load prev
    store prev { b with next := p }
    incBlockNumber
    pure p
  else pure p

/-- A turn of the loop that offers blocks to the kernel; `space` bytes are offered so far. -/
def offerBody (count : Nat) : Nat × Nat × Nat × List Iovec →
    Program ((Nat × Nat × Nat × List Iovec) ⊕ List Iovec)
  | (p, prev, space, iov) => do
      let p ← nextBlock p prev
      let b ← load p
      let len := min b.leftSpace (count - space)
      let iov := iov ++ [⟨p, b.offset, len⟩]
      let space := space + len
      if space ≥ count ∨ iov.length ≥ kMaxIov then pure (.inr iov)
      else pure (.inl (b.next, p, space, iov))

/-- `readv`: the bytes read are written to the blocks offered, in order. -/
def readv : List Iovec → List UInt8 → Program Unit
  | [], _ => pure ()
  | v :: iov, bytes => do
      let b ← load v.block
      store v.block { b with data := writeBytes b.data v.offset (bytes.take v.len) }
      readv iov (bytes.drop v.len)

/-- A turn of `while (total)`: the next block written to becomes a ref, and leaves the list if
it is full. -/
def takeBody (iov : List Iovec) : Nat × Nat × List BlockRef →
    Program ((Nat × Nat × List BlockRef) ⊕ (Nat × List BlockRef))
  | (p, total, saved) => do
      let b ← load p
      let len := min total b.leftSpace
      match iov[saved.length]? with
      | none => failure
      | some v => do
          check (total ≠ len → v.len = len)
          check (v.block = p ∧ v.offset = b.offset)
          let total := total - len
          let saved := saved ++ [⟨b.offset, len, p⟩]
          let b := { b with offset := (b.offset + len) % 2 ^ 32 }
          if b.full then do
            store p b
            decBlockNumber
            if total = 0 then pure (.inr (b.next, saved)) else pure (.inl (b.next, total, saved))
          else do
            store p
              { b with offset := (b.offset + 7) % 2 ^ 32 / 8 * 8, refNum := b.refNum + 1 }
            check (total = 0)
            pure (.inr (p, saved))

/-- The blocks offered to the kernel: the first one, and the iovecs. -/
def offerBlocks (count : Nat) : Program (Nat × List Iovec) := do
  let p ← acquireBlock
  let w ← get
  check (p ≠ 0 ∧ p = w.head)
  let iov ← loop (offerBody count) (kMaxIov + 1) (p, 0, 0, [])
  pure (p, iov)

/-- What is done with the bytes read: they are in the blocks offered, from `p` on. -/
def takeBytes (p : Nat) (iov : List Iovec) (bytes : List UInt8) : Program (List BlockRef) :=
  if bytes = [] then
    pure []
  else do
    check (bytes.length ≤ (iov.map Iovec.len).sum)
    readv iov bytes
    let w ← get
    check (p = w.head)
    let (head, saved) ← loop (takeBody iov) (kMaxIov + 1) (p, bytes.length, [])
    check (iov.length ≥ saved.length)
    setHead head
    pure saved

/-- `read_from_fd(fd, offset, count)` up to `append_ref`: the refs on the bytes read.  `bytes`
is what the kernel reads, of what is offered to it; none, if it returns 0 or an error. -/
def readRefs (count : Nat) (bytes : List UInt8) : Program (List BlockRef) := do
  let (p, iov) ← offerBlocks count
  takeBytes p iov bytes

/-! ## Refs and rings -/

namespace BlockRef

/-- `merge(rhs)`: this ref extended by the other, if that starts where this one ends. -/
def merge (ref rhs : BlockRef) : Option BlockRef :=
  if ref.block = rhs.block ∧ (ref.offset + ref.length) % 2 ^ 32 = rhs.offset then
    some { ref with length := (ref.length + rhs.length) % 2 ^ 32 }
  else none

/-- `release()`; the ref is null afterwards. -/
def release (ref : BlockRef) : Program Unit :=
  if ref.block = 0 then pure () else decRef ref.block

/-- The `n` bytes `memcpy` finds at `ref.begin()`. -/
def read (ref : BlockRef) (n : Nat) : Program (List UInt8) :=
  if n = 0 then
    pure []
  else do
    let b ← load ref.block
    pure (readBytes b.data ref.offset n)

/-- The ref without its first `n` bytes. -/
def drop (ref : BlockRef) (n : Nat) : BlockRef :=
  { ref with
    offset := (ref.offset + n) % 2 ^ 32
    length := (ref.length + (2 ^ 32 - n % 2 ^ 32)) % 2 ^ 32 }

end BlockRef

namespace BlockRefArray

/-- The slot of the logical index `i`. -/
def slot (a : BlockRefArray) (i : Nat) : Nat := (a.begin + i) % 2 ^ 32 &&& a.capMask

/-- `ref_at(i)` -/
def refAt (a : BlockRefArray) (i : Nat) : BlockRef := a.refs (a.slot i)

/-- `ref_at(i) = ref` -/
def setRefAt (a : BlockRefArray) (i : Nat) (ref : BlockRef) : BlockRefArray :=
  { a with refs := Function.update a.refs (a.slot i) ref }

/-- `BlockRefArray(cap)` in memory that holds `memory`. -/
def new (memory : Nat → BlockRef) (cap : Nat) : BlockRefArray :=
  { nbytes := 0, begin := 0, capMask := (cap + (2 ^ 32 - 1)) % 2 ^ 32, refs := memory }

/-- `BlockRefArray(old, cap)` in memory that holds `memory`. -/
def grow (a : BlockRefArray) (memory : Nat → BlockRef) (cap : Nat) : BlockRefArray :=
  { nbytes := a.nbytes, begin := a.begin, capMask := (cap + (2 ^ 32 - 1)) % 2 ^ 32
    refs := fun i => if i ≤ a.capMask then a.refs i else memory i }

/-- `reset()` -/
def reset (a : BlockRefArray) : BlockRefArray := { a with nbytes := 0, begin := 0 }

end BlockRefArray

/-- The refs in the memory of the next ring. -/
def arrayMemory : Program (Nat → BlockRef) := do
  let w ← get
  set { w with arrays := w.arrays + 1 }
  pure (w.env.refs w.arrays)

/-! ## `ZBuffer` -/

/-- How a ref is passed: as `const BlockRef &`, or as `BlockRef &&`. -/
inductive Pass where
  | copy
  | move

/-- After a merge the moved ref is released. -/
def Pass.merged (pass : Pass) (ref : BlockRef) : Program Unit :=
  match pass with
  | .copy => pure ()
  | .move => ref.release

/-- A ref that is stored is counted, if it was copied. -/
def Pass.stored (pass : Pass) (ref : BlockRef) : Program Unit :=
  match pass with
  | .copy => incRef ref.block
  | .move => pure ()

/-- `array_resize()` -/
def arrayResize (a : BlockRefArray) (firstRef : BlockRef) :
    Program (BlockRefArray × BlockRef) := do
  let cap := (a.capMask + 1) * 2 % 2 ^ 32
  note (.resize a.begin cap)
  let (_, tmp) ← acquireBlockRefArray cap
  let memory ← arrayMemory
  decRef firstRef.block
  pure (a.grow memory cap, tmp)

/-- `array_append_ref(ref)` -/
def arrayAppendRef (pass : Pass) (refsNum : Nat) (a : BlockRefArray) (firstRef ref : BlockRef) :
    Program ZBuffer :=
  let a' := { a with nbytes := (a.nbytes + ref.length) % 2 ^ 64 }
  let last := (refsNum + (2 ^ 32 - 1)) % 2 ^ 32
  match (a'.refAt last).merge ref with
  | some merged => do
      pass.merged ref
      pure (.array refsNum (a'.setRefAt last merged) firstRef)
  | none => do
      let (a', firstRef) ←
        if refsNum > a'.capMask then arrayResize a' firstRef else pure (a', firstRef)
      pass.stored ref
      pure (.array ((refsNum + 1) % 2 ^ 32) (a'.setRefAt refsNum ref) firstRef)

/-- A ref is put in the next slot. -/
def put (ref : BlockRef) : Nat × BlockRefArray → Nat × BlockRefArray
  | (refsNum, a) =>
      if ref.block = 0 then (refsNum, a)
      else (refsNum + 1,
        { a.setRefAt refsNum ref with nbytes := (a.nbytes + ref.length) % 2 ^ 64 })

/-- `transfor_to_array()` -/
def transforToArray (first second : BlockRef) : Program (Nat × BlockRefArray × BlockRef) := do
  let (_, firstRef) ← acquireBlockRefArray kInitBlockRefArraySize
  let memory ← arrayMemory
  let (refsNum, a) := put second (put first (0, .new memory kInitBlockRefArraySize))
  pure (refsNum, a, firstRef)

namespace ZBuffer

/-- `ZBuffer()` -/
def empty : ZBuffer := .two .null .null

/-- `size()` -/
def size : ZBuffer → Nat
  | two first second => (first.length + second.length) % 2 ^ 32
  | array _ a _ => a.nbytes

/-- `append_ref(ref)` -/
def appendRef (pass : Pass) (z : ZBuffer) (ref : BlockRef) : Program ZBuffer :=
  match z with
  | two first second =>
      if first.block = 0 then do
        pass.stored ref
        pure (two ref second)
      else if second.block = 0 then
        match first.merge ref with
        | some merged => do
            pass.merged ref
            pure (two merged second)
        | none => do
            pass.stored ref
            pure (two first ref)
      else
        match second.merge ref with
        | some merged => do
            pass.merged ref
            pure (two first merged)
        | none => do
            let (refsNum, a, firstRef) ← transforToArray first second
            arrayAppendRef pass refsNum a firstRef ref
  | array refsNum a firstRef => arrayAppendRef pass refsNum a firstRef ref

end ZBuffer

/-- A turn of `append`, up to `append_ref`: as much of the string as fits into a block. -/
def copyIn (buf : List UInt8) : Program BlockRef := do
  let p ← acquireBlock
  let b ← load p
  let left := min (buf.length % 2 ^ 32) b.leftSpace
  store p
    { b with
      data := writeBytes b.data b.offset (buf.take left)
      offset := (b.offset + left + 7) % 2 ^ 32 / 8 * 8 }
  pure ⟨b.offset, left, p⟩

/-- A turn of `while (copied < count)`; `buf` is what is not copied yet. -/
def appendBody : ZBuffer × List UInt8 → Program ((ZBuffer × List UInt8) ⊕ ZBuffer)
  | (z, buf) =>
      if buf = [] then
        pure (.inr z)
      else do
        let ref ← copyIn buf
        let z ← z.appendRef .copy ref
        pure (.inl (z, buf.drop ref.length))

/-- How often `for (int i = 0; i < ct; ++i)` turns, for `int ct` of the `uint32_t` value `n`. -/
def intTurns (n : Nat) : Nat := if n < 2 ^ 31 then n else 0

/-- The value of a `size_t` as `int64_t`. -/
def int64 (n : Nat) : Int := if n < 2 ^ 63 then n else (n : Int) - 2 ^ 64

/-- `simple_popn(buf, count)`: what is written to `buf`. -/
def simplePopn (first second : BlockRef) (count : Nat) : Program (List UInt8 × ZBuffer) :=
  if first.length = 0 then
    pure ([], .two first second)
  else if (first.length : Int) > int64 count then do
    let bytes ← first.read count
    pure (bytes, .two (first.drop count) second)
  else do
    let bytes ← first.read first.length
    let count := count - first.length
    first.release
    if second.block = 0 then
      pure (bytes, .two .null second)
    else if int64 count ≥ (second.length : Int) then do
      let rest ← second.read second.length
      second.release
      pure (bytes ++ rest, .two .null .null)
    else do
      let rest ← second.read count
      pure (bytes ++ rest, .two (second.drop count) .null)

/-- The loop of `array_popn` from the index `i` on, `n` refs at most: what is written, the
ring, and where the loop stops. -/
def arrayPopnFrom (a : BlockRefArray) (i count : Nat) :
    Nat → Program (List UInt8 × BlockRefArray × Nat)
  | 0 => pure ([], a, i)
  | n + 1 =>
      let ref := a.refAt i
      if ref.length > count then do
        let bytes ← ref.read count
        pure (bytes, a.setRefAt i (ref.drop count), i)
      else do
        let bytes ← ref.read ref.length
        ref.release
        let (rest, a, i) ← arrayPopnFrom (a.setRefAt i .null) (i + 1) (count - ref.length) n
        pure (bytes ++ rest, a, i)

/-- `array_popn(buf, count)` -/
def arrayPopn (refsNum : Nat) (a : BlockRefArray) (firstRef : BlockRef) (count : Nat) :
    Program (List UInt8 × ZBuffer) := do
  let (bytes, a, i) ← arrayPopnFrom a 0 count refsNum
  let a :=
    { a with
      nbytes := (a.nbytes + (2 ^ 64 - bytes.length)) % 2 ^ 64
      begin := (a.begin + i) % 2 ^ 32 }
  pure (bytes, .array (refsNum - i) a firstRef)

/-- The loop of `copy_front` over a ring, from the index `i` on, `n` refs at most. -/
def copyFrontFrom (a : BlockRefArray) (i count : Nat) : Nat → Program (List UInt8)
  | 0 => pure []
  | n + 1 =>
      let ref := a.refAt i
      if ref.length ≥ count then
        ref.read count
      else do
        let bytes ← ref.read ref.length
        let rest ← copyFrontFrom a (i + 1) (count - ref.length) n
        pure (bytes ++ rest)

/-- The calls of `map` for a ring, from the index `i` on. -/
def mapFrom (a : BlockRefArray) (i : Nat) : Nat → Program (List (List UInt8))
  | 0 => pure []
  | n + 1 => do
      let bytes ← (a.refAt i).read (a.refAt i).length
      let rest ← mapFrom a (i + 1) n
      pure (bytes :: rest)

/-- `append_ref` for each ref of a ring, from the index `i` on, copied. -/
def copyRefs (z : ZBuffer) (a : BlockRefArray) (i : Nat) : Nat → Program ZBuffer
  | 0 => pure z
  | n + 1 => do
      let z ← z.appendRef .copy (a.refAt i)
      copyRefs z a (i + 1) n

/-- `append_ref` for each ref of a ring, from the index `i` on, moved. -/
def moveRefs (z : ZBuffer) (a : BlockRefArray) (i : Nat) : Nat → Program (ZBuffer × BlockRefArray)
  | 0 => pure (z, a)
  | n + 1 => do
      let z ← z.appendRef .move (a.refAt i)
      moveRefs z (a.setRefAt i .null) (i + 1) n

/-- The refs of a ring are dumped to a queue, from the index `i` on; empty ones are released. -/
def dumpRefs (a : BlockRefArray) (i : Nat) : Nat → Program (List BlockRef)
  | 0 => pure []
  | n + 1 =>
      let ref := a.refAt i
      if ref.length = 0 then do
        ref.release
        dumpRefs a (i + 1) n
      else do
        let queue ← dumpRefs a (i + 1) n
        pure (ref :: queue)

/-- The refs of a ring are released, from the index `i` on. -/
def releaseRefs (a : BlockRefArray) (i : Nat) : Nat → Program Unit
  | 0 => pure ()
  | n + 1 => do
      (a.refAt i).release
      releaseRefs a (i + 1) n

namespace ZBuffer

/-- `append(buf, count)`, which returns 0 -/
def append (z : ZBuffer) (buf : List UInt8) : Program ZBuffer :=
  loop appendBody (buf.length + 1) (z, buf)

/-- `popn(buf, count)` -/
def popn (z : ZBuffer) (count : Nat) : Program (List UInt8 × ZBuffer) :=
  match z with
  | two first second => simplePopn first second count
  | array refsNum a firstRef => arrayPopn refsNum a firstRef count

/-- `copy_front(buf, count)`: what is written to `buf`. -/
def copyFront (z : ZBuffer) (count : Nat) : Program (List UInt8) :=
  match z with
  | two first second =>
      if first.length ≥ count then
        first.read count
      else do
        let bytes ← first.read first.length
        let count := count - first.length
        let rest ← second.read (if second.length ≥ count then count else second.length)
        pure (bytes ++ rest)
  | array refsNum a _ => copyFrontFrom a 0 count refsNum

/-- One call of `map` for the two-ref form, if the ref is not null. -/
def mapIfAny (ref : BlockRef) : Program (List (List UInt8)) :=
  if ref.block = 0 then pure [] else do
    let bytes ← ref.read ref.length
    pure [bytes]

/-- `map(f, arg)`: the bytes `f` is called with, call by call. -/
def map (z : ZBuffer) : Program (List (List UInt8)) :=
  match z with
  | two first second => do
      let calls ← mapIfAny first
      let rest ← mapIfAny second
      pure (calls ++ rest)
  | array refsNum a _ => mapFrom a 0 (intTurns refsNum)

/-- One ref of the two-ref form: `append_ref` if it is not empty. -/
def appendIfAny (pass : Pass) (z : ZBuffer) (ref : BlockRef) : Program ZBuffer :=
  if ref.length = 0 then do
    match pass with
    | .copy => pure ()
    | .move => ref.release
    pure z
  else z.appendRef pass ref

/-- `append(const ZBuffer& rh)`, of another buffer, and the number it returns. -/
def appendCopy (z rh : ZBuffer) : Program (ZBuffer × Nat) :=
  match rh with
  | two first second => do
      let z ← z.appendIfAny .copy first
      let z ← z.appendIfAny .copy second
      pure (z, 0)
  | array refsNum a _ => do
      let z ← copyRefs z a 0 (intTurns refsNum)
      pure (z, intTurns refsNum)

/-! ### A buffer appended to itself

`append(const ZBuffer&)` passes refs of `rh` on by reference.  If `rh` is the buffer itself, the
ref is read from it whenever it is used, whatever is there by then. -/

/-- Where the ref is: in one of the two places, or in a slot of the ring. -/
inductive Place where
  | first
  | second
  | slot (i : Nat)

/-- What is read there.  `second_` and `first_ref` are the same memory.  `first_` is that of
`magic_num`, `refs_num` and `refs_array`: read as a ref, its block is a pointer to the ring and
not to a block. -/
def refAt (z : ZBuffer) : Place → Program BlockRef
  | .first =>
      match z with
      | two first _ => pure first
      | array _ _ _ => failure
  | .second =>
      match z with
      | two _ second => pure second
      | array _ _ firstRef => pure firstRef
  | .slot i =>
      match z with
      | two _ _ => failure
      | array _ a _ => pure (a.refs i)

/-- `array_append_ref(const BlockRef&)`, of a ref of the buffer itself. -/
def arrayAppendRefAt (place : Place) (refsNum : Nat) (a : BlockRefArray) (firstRef : BlockRef) :
    Program ZBuffer := do
  let ref ← (array refsNum a firstRef).refAt place
  let a' := { a with nbytes := (a.nbytes + ref.length) % 2 ^ 64 }
  let last := (refsNum + (2 ^ 32 - 1)) % 2 ^ 32
  match (a'.refAt last).merge ref with
  | some merged => pure (.array refsNum (a'.setRefAt last merged) firstRef)
  | none => do
      let (a', firstRef) ←
        if refsNum > a'.capMask then arrayResize a' firstRef else pure (a', firstRef)
      let ref ← (array refsNum a' firstRef).refAt place
      incRef ref.block
      pure (.array ((refsNum + 1) % 2 ^ 32) (a'.setRefAt refsNum ref) firstRef)

/-- `append_ref(const BlockRef&)`, of a ref of the buffer itself. -/
def appendRefAt (z : ZBuffer) (place : Place) : Program ZBuffer :=
  match z with
  | two first second => do
      let ref ← (two first second).refAt place
      if first.block = 0 then do
        incRef ref.block
        pure (two ref second)
      else if second.block = 0 then
        match first.merge ref with
        | some merged => pure (two merged second)
        | none => do
            incRef ref.block
            pure (two first ref)
      else
        match second.merge ref with
        | some merged => pure (two first merged)
        | none => do
            let (refsNum, a, firstRef) ← transforToArray first second
            arrayAppendRefAt place refsNum a firstRef
  | array refsNum a firstRef => arrayAppendRefAt place refsNum a firstRef

/-- `append_ref` for each ref of the ring, from the index `i` on. -/
def copySelf (z : ZBuffer) (i : Nat) : Nat → Program ZBuffer
  | 0 => pure z
  | n + 1 =>
      match z with
      | two _ _ => failure
      | array refsNum a firstRef => do
          let z ← (array refsNum a firstRef).appendRefAt (.slot (a.slot i))
          copySelf z (i + 1) n

/-- `append(const ZBuffer&)`, of the buffer itself. -/
def appendSelf (z : ZBuffer) : Program (ZBuffer × Nat) :=
  match z with
  | two first second => do
      let z ← if first.length = 0 then pure (two first second)
        else (two first second).appendRefAt .first
      let second ← z.refAt .second
      let z ← if second.length = 0 then pure z else z.appendRefAt .second
      pure (z, 0)
  | array refsNum a firstRef => do
      let z ← copySelf (array refsNum a firstRef) 0 (intTurns refsNum)
      pure (z, intTurns refsNum)

/-- `append(ZBuffer&& rh)`, of another buffer; what `rh` is afterwards, and the number it
returns. -/
def appendMove (z rh : ZBuffer) : Program (ZBuffer × ZBuffer × Nat) :=
  match rh with
  | two first second => do
      let z ← z.appendIfAny .move first
      let z ← z.appendIfAny .move second
      pure (z, empty, 0)
  | array refsNum a firstRef => do
      let (z, a) ← moveRefs z a 0 (intTurns refsNum)
      pure (z, .array 0 a.reset firstRef, intTurns refsNum)

/-- `read_from_fd(fd, offset, count)`; `bytes` as for `readRefs`. -/
def readFromFd (z : ZBuffer) (count : Nat) (bytes : List UInt8) : Program ZBuffer := do
  let refs ← readRefs count bytes
  refs.foldlM (appendRef .move) z

/-- One ref of the two-ref form: dumped if it is not empty.  The ref is null afterwards. -/
def dumpIfAny (ref : BlockRef) : Program (List BlockRef × BlockRef) :=
  if ref.length = 0 then do
    ref.release
    pure ([], .null)
  else pure ([ref], .null)

/-- `dump_refs_to(queue)`: what is appended to the queue, the buffer, and the number it
returns. -/
def dumpRefsTo (z : ZBuffer) : Program (List BlockRef × ZBuffer × Nat) :=
  match z with
  | two first second => do
      let (queue, first) ← dumpIfAny first
      let (rest, second) ← dumpIfAny second
      pure (queue ++ rest, two first second, queue.length + rest.length)
  | array refsNum a firstRef => do
      let queue ← dumpRefs a 0 (intTurns refsNum)
      firstRef.release
      pure (queue, two .null .null, queue.length)

/-- `~ZBuffer()` -/
def destroy (z : ZBuffer) : Program Unit :=
  match z with
  | two first second => do
      first.release
      second.release
  | array refsNum a firstRef => do
      releaseRefs a 0 refsNum
      firstRef.release

end ZBuffer

end PBase.Buffer
