/-
# `PBase.TimerControl.Clock` — microseconds and `timespec`

A delay reaches `Timer::run_time` as a `timespec`: `add_timer_us` multiplies microseconds by
1000, `ns_to_timespec` splits the product, and `timespec_to_us` puts it together again.  The
product is a `uint64_t`, so the way back is exact as long as it does not wrap
(`add_timer_us_iff`), which is short of the 2^63 microseconds the clock could still count.

The timer thread makes its own `timespec` for `futex_wait`.  It divides by 1000000 and puts the
rest, which is microseconds, into the nanoseconds.  So it waits for whole seconds and a
thousandth of the rest (`wait_iff`).
-/
import PBase.TimerControl.Model

namespace PBase.TimerControl

/-- `struct timespec` -/
structure Timespec where
  tvSec : Nat
  tvNsec : Nat
  deriving DecidableEq

/-- The nanoseconds it stands for. -/
def Timespec.ns (tp : Timespec) : Nat := tp.tvSec * 1000000000 + tp.tvNsec

/-- `x - y` of two `uint64_t`. -/
def sub64 (x y : Nat) : Nat := (x + (2 ^ 64 - y)) % 2 ^ 64

/-- `ns_to_timespec(ts)` -/
def nsToTimespec (ts : Nat) : Timespec :=
  let tvSec := ts / 1000000000
  ⟨tvSec, sub64 ts (1000000000 * tvSec % 2 ^ 64)⟩

/-- `us_to_timespec(ts)` -/
def usToTimespec (ts : Nat) : Timespec := nsToTimespec (ts * 1000 % 2 ^ 64)

/-- `timespec_to_us(tp)` -/
def timespecToUs (tp : Timespec) : Nat := (tp.tvSec * 1000000 % 2 ^ 64 + tp.tvNsec / 1000) % 2 ^ 64

/-- `run_time` after `add_timer_us(func, arg, delay_us)`, when the clock reads `now`. -/
def runTimeUs (now delayUs : Nat) : Nat := timespecToUs (usToTimespec ((now + delayUs) % 2 ^ 64))

/-- `abs_time`, which `Run` passes to `futex_wait`. -/
def absTime (minSleepPoint now : Nat) : Timespec :=
  let d := sub64 minSleepPoint now
  let tvSec := d / 1000000
  ⟨tvSec, sub64 d (tvSec * 1000000 % 2 ^ 64)⟩

theorem sub64_eq {x y : Nat} (hx : x < 2 ^ 64) (hle : y ≤ x) : sub64 x y = x - y := by
  unfold sub64
  omega

/-! ## Delays -/

section Delays
variable {ts now delayUs : Nat}

theorem nsToTimespec_eq (h : ts < 2 ^ 64) :
    nsToTimespec ts = ⟨ts / 1000000000, ts % 1000000000⟩ := by
  have hle : 1000000000 * (ts / 1000000000) ≤ ts := Nat.mul_div_le ts 1000000000
  have hmod : 1000000000 * (ts / 1000000000) % 2 ^ 64 = 1000000000 * (ts / 1000000000) :=
    Nat.mod_eq_of_lt (Nat.lt_of_le_of_lt hle h)
  rw [nsToTimespec, hmod, sub64_eq h hle]
  exact congrArg _ (by omega)

theorem timespecToUs_nsToTimespec (h : ts < 2 ^ 64) :
    timespecToUs (nsToTimespec ts) = ts / 1000 := by
  have hsum : ts / 1000000000 * 1000000 + ts % 1000000000 / 1000 = ts / 1000 := by omega
  have hdiv : ts / 1000 < 2 ^ 64 := Nat.lt_of_le_of_lt (Nat.div_le_self ..) h
  have hmod : ts / 1000000000 * 1000000 % 2 ^ 64 = ts / 1000000000 * 1000000 :=
    Nat.mod_eq_of_lt (Nat.lt_of_le_of_lt (hsum ▸ Nat.le_add_right ..) hdiv)
  rw [nsToTimespec_eq h, timespecToUs, hmod, hsum, Nat.mod_eq_of_lt hdiv]

/-- What comes back is the product with 1000, as far as 64 bits hold it, divided again. -/
theorem timespecToUs_usToTimespec (ts : Nat) :
    timespecToUs (usToTimespec ts) = ts * 1000 % 2 ^ 64 / 1000 :=
  timespecToUs_nsToTimespec (Nat.mod_lt _ (by decide))

theorem runTimeUs_eq (h : (now + delayUs) * 1000 < 2 ^ 64) :
    runTimeUs now delayUs = now + delayUs := by
  have hsum : (now + delayUs) % 2 ^ 64 = now + delayUs := Nat.mod_eq_of_lt (by omega)
  rw [runTimeUs, timespecToUs_usToTimespec, hsum, Nat.mod_eq_of_lt h]
  omega

/-- **A delay is kept if it fits.**  For a clock reading and a delay with a sum below 2^63:
`add_timer_us` stores the sum as `run_time`, and no shorter delay gives a later `run_time`, if and
only if the sum in nanoseconds is below 2^64. -/
theorem add_timer_us_iff (hlt : now + delayUs < 2 ^ 63) :
    (runTimeUs now delayUs = now + delayUs ∧ ∀ d ≤ delayUs,
      runTimeUs now d ≤ runTimeUs now delayUs) ↔
      (now + delayUs) * 1000 < 2 ^ 64 := by
  constructor
  · rintro ⟨heq, _⟩
    -- a run time is a thousandth of a 64-bit number
    have hsum : (now + delayUs) % 2 ^ 64 = now + delayUs := Nat.mod_eq_of_lt (by omega)
    rw [runTimeUs, timespecToUs_usToTimespec, hsum] at heq
    omega
  · intro hfits
    refine ⟨runTimeUs_eq hfits, fun d hd => ?_⟩
    have hd' : (now + d) * 1000 < 2 ^ 64 :=
      Nat.lt_of_le_of_lt (Nat.mul_le_mul_right 1000 (Nat.add_le_add_left hd now)) hfits
    rw [runTimeUs_eq hfits, runTimeUs_eq hd']
    exact Nat.add_le_add_left hd now

/-- A timer in one second. -/
theorem add_timer_us_second : runTimeUs 5 1000000 = 1000005 :=
  ((add_timer_us_iff (show 5 + 1000000 < 2 ^ 63 by decide)).mpr (by decide)).1

/-- A delay of 18446744073709552 microseconds, 584 years, is over at once. -/
theorem add_timer_us_wraps : ¬ ∀ now delayUs : Nat, now + delayUs < 2 ^ 63 →
    runTimeUs now delayUs = now + delayUs ∧ ∀ d ≤ delayUs,
    runTimeUs now d ≤ runTimeUs now delayUs := by
  intro hall
  have heq := (hall 0 18446744073709552 (by decide)).1
  have hzero : runTimeUs 0 18446744073709552 = 0 := by decide
  omega

end Delays

/-! ## Waits -/

section Waits
variable {ι : Type} {s : State ι} {msp now : Nat}

/-- A wait from the clock reading `now` on that ends by this timeout, no earlier, ends with the
clock at or past the sleep point.  The clock runs in nanoseconds, and is read in microseconds. -/
def EndsDue (tp : Timespec) (now minSleepPoint : Nat) : Prop :=
  ∀ start stop, start / 1000 = now → start + tp.ns ≤ stop → minSleepPoint ≤ stop / 1000

theorem absTime_eq (hlt : msp < 2 ^ 64) (h : now < msp) :
    absTime msp now = ⟨(msp - now) / 1000000, (msp - now) % 1000000⟩ := by
  have hd := sub64_eq hlt h.le
  have hle : (msp - now) / 1000000 * 1000000 ≤ msp - now := Nat.div_mul_le_self ..
  have hmod : (msp - now) / 1000000 * 1000000 % 2 ^ 64 = (msp - now) / 1000000 * 1000000 :=
    Nat.mod_eq_of_lt (by omega)
  rw [absTime, hd, hmod, sub64_eq (by omega) hle]
  exact congrArg _ (by omega)

theorem minSleepPoint_lt (hmin : s.minTimestamp < 2 ^ 64)
    (hheap : ∀ x ∈ s.tmHeap, (s.mem x).runTime < 2 ^ 64) : minSleepPoint s < 2 ^ 64 := by
  unfold minSleepPoint
  cases hl : s.tmHeap with
  | nil => exact hmin
  | cons tmp rest =>
      simp only
      split
      · exact hheap tmp (hl ▸ List.mem_cons_self)
      · exact hmin

/-- **A wait is long enough for whole seconds.**  In any state, with any clock reading before the
sleep point: the `timespec` is one, denotes the microseconds from the reading to the sleep point
and makes a wait end when the timer is due, if and only if these are whole seconds. -/
theorem wait_iff (hmin : s.minTimestamp < 2 ^ 64)
    (hheap : ∀ x ∈ s.tmHeap, (s.mem x).runTime < 2 ^ 64) (hnow : now < minSleepPoint s) :
    ((absTime (minSleepPoint s) now).tvNsec < 1000000000 ∧
      (absTime (minSleepPoint s) now).ns = (minSleepPoint s - now) * 1000 ∧
      EndsDue (absTime (minSleepPoint s) now) now (minSleepPoint s)) ↔
    1000000 ∣ minSleepPoint s - now := by
  rw [absTime_eq (minSleepPoint_lt hmin hheap) hnow]
  simp only [Timespec.ns, EndsDue]
  constructor
  · rintro ⟨_, heq, _⟩
    omega
  · intro hdvd
    have hns : (minSleepPoint s - now) / 1000000 * 1000000000 + (minSleepPoint s - now) % 1000000
        = (minSleepPoint s - now) * 1000 := by omega
    refine ⟨by omega, hns, fun start stop hstart hstop => ?_⟩
    rw [hns] at hstop
    omega

/-- An empty heap, and a timer in a bucket that is due at 5000000. -/
def oneTimer : State Unit := { State.zeroed Unit with minTimestamp := 5000000 }

/-- One second before the timer is due. -/
theorem wait_second : (absTime (minSleepPoint oneTimer) 4000000).ns = 1000000000 :=
  ((wait_iff (s := oneTimer) (by decide) (fun _ hx => absurd hx List.not_mem_nil)
    (show 4000000 < minSleepPoint oneTimer by decide)).mpr (by decide)).2.1

/-- One and a half seconds before, the wait is for 1.0005 seconds. -/
theorem wait_early : ¬ ∀ (s : State Unit) (now : Nat), s.minTimestamp < 2 ^ 64 →
    (∀ x ∈ s.tmHeap, (s.mem x).runTime < 2 ^ 64) → now < minSleepPoint s →
    (absTime (minSleepPoint s) now).tvNsec < 1000000000 ∧
      (absTime (minSleepPoint s) now).ns = (minSleepPoint s - now) * 1000 ∧
      EndsDue (absTime (minSleepPoint s) now) now (minSleepPoint s) := by
  intro hall
  have heq := (hall oneTimer 3500000 (by decide) (fun _ hx => absurd hx List.not_mem_nil)
    (by decide)).2.1
  revert heq
  decide

end Waits

end PBase.TimerControl
