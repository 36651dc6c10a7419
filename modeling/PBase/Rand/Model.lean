/-
# `PBase.Rand.Model` — `FastRand` and `fast_rand`

A thread has a generator of two words.  `fast_rand(rand_max)` cuts the 64-bit values into
`rand_max` stretches of one length, `range`, from 0 on, and returns the number of the stretch a
draw falls into; a draw behind the last stretch is thrown away.

    0        range      2 range            rand_max * range      2^64
    ├── 0 ────┼── 1 ─────┼── … ── rand_max-1 ┼──── again ─────────┤
-/
import PBase.Lib.Program

namespace PBase.Rand

open PBase.Lib

def rotl (x k : UInt64) : UInt64 := (x <<< k) ||| (x >>> (64 - k))

structure FastRand where
  s0 : UInt64
  s1 : UInt64

/-- `next()`: the value, and the generator after it. -/
def FastRand.next (r : FastRand) : UInt64 × FastRand :=
  let s1 := r.s1 ^^^ r.s0
  (r.s0 + r.s1, { s0 := rotl r.s0 55 ^^^ s1 ^^^ (s1 <<< 14), s1 := rotl s1 36 })

/-- `JUMP` -/
def jumpWords : List UInt64 := [0xbeac0467eba5facb, 0xd86b048b86aa9922]

/-- A turn of the inner loop of `jump`, for bit `b` of a word: the sums `s0` and `s1`, and the
generator. -/
def jumpBit (word : UInt64) (s : FastRand × FastRand) (b : Nat) : FastRand × FastRand :=
  (if word &&& ((1 : UInt64) <<< b.toUInt64) ≠ 0 then ⟨s.1.s0 ^^^ s.2.s0, s.1.s1 ^^^ s.2.s1⟩
    else s.1,
    s.2.next.2)

/-- A turn of the outer loop. -/
def jumpWord (s : FastRand × FastRand) (word : UInt64) : FastRand × FastRand :=
  (List.range 64).foldl (jumpBit word) s

/-- `jump()`: the generator after it. -/
def FastRand.jump (r : FastRand) : FastRand := (jumpWords.foldl jumpWord (⟨0, 0⟩, r)).1

abbrev Program := StateT FastRand Option

/-- `fast_rand()` on `tls_fast_rand` -/
def next : Program UInt64 := do
  let r ← get
  set r.next.2
  pure r.next.1

/-- `std::numeric_limits<uint64_t>::max() / rand_max` -/
def range (randMax : UInt64) : UInt64 := 0xffffffffffffffff / randMax

/-- What the draw `v` does in the loop: another turn, or the result. -/
def accept (randMax v : UInt64) : Unit ⊕ UInt64 :=
  let ret := v / range randMax
  if ret ≥ randMax then .inl () else .inr ret

/-- A turn of `do … while (ret >= rand_max)` -/
def fastRandBody (randMax : UInt64) (_ : Unit) : Program (Unit ⊕ UInt64) := do
  let v ← next
  pure (accept randMax v)

/-- `fast_rand(rand_max)`, for at most `fuel` draws. -/
def fastRand (randMax : UInt64) (fuel : Nat) : Program UInt64 :=
  if randMax = 0 then pure 0 else loop (fastRandBody randMax) fuel ()

end PBase.Rand
