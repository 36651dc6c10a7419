/-
# `PBase.TimerControl.Model` — `TimerControl`: the timer thread and its clients

A timer lives in a slot of an `ArenaObjectPool`.  Its id is the slot's id in the pool
with 3 added to the version: `base` in the upper half.  `Timer::version` is `base` while
the timer is pending, `base + 1` while its `func` runs and `base + 2` afterwards, or once
it was cancelled; the next timer in the slot starts at `base + 3`.

    add_timer     acquire a slot, write the timer, version.store(base), push it on a
                  bucket; if it is the earliest there lower min_timestamp_, and if it is
                  the earliest of all wake the timer thread
    cancel_timer  compare the id, then CAS version from base to base + 2
    Run           until stop_: reset min_timestamp_, drain the buckets into a heap
                  (`try_delete` drops what was cancelled), run what is due
                  (`run_and_delete`: CAS version to base + 1, func, store base + 2), load
                  signal_pending_, load min_timestamp_, futex_wait
    stop_and_join store stop_, wake the timer thread, join

Every access to an atomic, a mutex-protected bucket operation, the comparison of a
timer id, `acquire` and `release` of the pool, `futex_wait`, `futex_wake` and the call of
`func` are one step each.  The pool is what `PBase.Pool` proves it to be: it gives out a
free slot, under the id it was released with, or a new one with version 0.

Steps of one party are one relation: `RunStep` the timer thread, `AddStep`, `CancelStep`
and `StopStep` a client.  The label of a step says what it did to which timer; timers are
told apart by slot and use of the slot (`Key`).  `uses`, `stored` and `TimerId.gen` keep
track of the use and are read by no step.
-/
import PBase.Lib.System
import PBase.Lib.Word
import PBase.Lib.Placement
import PBase.Lib.Heap

namespace PBase.TimerControl

open PBase.Lib

/-! ## Timers and ids -/

/-- `std::numeric_limits<int64_t>::max()` -/
def maxTimestamp : Nat := 2 ^ 63 - 1

/-- The memory of a slot.  `func` and `arg` are what the label of a call stands for. -/
structure Timer where
  runTime : Nat
  timerId : Nat
  version : Nat
  /-- How often the slot was acquired. -/
  uses : Nat
  /-- The use whose `version.store` came last. -/
  stored : Nat

/-- A timer: its slot and which use of the slot it is. -/
abbrev Key := Nat × Nat

/-- A `TimerId` in the hands of a client. -/
structure TimerId where
  raw : Nat
  gen : Nat

def TimerId.key (id : TimerId) : Key := (low id.raw, id.gen)

/-- `base_version = timer_id >> 32` -/
def baseVersion (timerId : Nat) : Nat := high timerId

/-- `base_version + k` in `uint32_t` arithmetic. -/
def addVersion (v k : Nat) : Nat := (v + k) % 2 ^ 32

/-- `timer_id += 0x300000000` -/
def nextId (poolId : Nat) : Nat := bump 3 poolId

/-- The id of the `gen`-th timer in a slot. -/
def mkId (slot gen : Nat) : Nat := slot + 2 ^ 32 * (3 * gen % 2 ^ 32)

structure TimerBucket where
  list : List Nat
  minTimestamp : Nat

def TimerBucket.empty : TimerBucket := ⟨[], maxTimestamp⟩

/-- What `head_ = tm` and the test of `min_timestamp_` do; the result of `add_timer` is
whether the timer is not the earliest. -/
def TimerBucket.addTimer (b : TimerBucket) (tm runTime : Nat) : Bool × TimerBucket :=
  if runTime < b.minTimestamp then (false, ⟨tm :: b.list, runTime⟩)
  else (true, { b with list := tm :: b.list })

/-! ## States -/

/-- Where `Run` is, with the locals it holds there. -/
inductive RunPc where
  /-- About to load `stop_`. -/
  | top
  | resetMin
  /-- About to reset bucket `i`. -/
  | drain (i : Nat)
  /-- The list taken from bucket `i`: what is left of it. -/
  | scan (i : Nat) (tmList : List Nat)
  /-- `try_delete` of a drained timer: the `assert`, then the release. -/
  | scanAssert (i : Nat) (tmList : List Nat) (tmp : Nat)
  | scanRelease (i : Nat) (tmList : List Nat) (tmp : Nat)
  /-- About to test the heap and to `try_delete` its first timer. -/
  | heapTop
  | topAssert (tmp : Nat)
  | topRelease (tmp : Nat)
  | clock (tmp : Nat)
  /-- `run_and_delete`: the CAS. -/
  | runCas (tmp : Nat)
  | calling (tmp base : Nat)
  | runStore (tmp base : Nat)
  | runRelease (tmp : Nat)
  /-- The CAS failed and wrote the version it found to `base_version`. -/
  | runAssert (tmp base : Nat)
  | loadSignal
  | loadMin (signalPending : Nat)
  | decide (signalPending minSleepPoint : Nat)
  | wait (signalPending minSleepPoint : Nat)
  | blocked (signalPending minSleepPoint : Nat)
  /-- Releasing what is left in the heap. -/
  | exit (tmHeap : List Nat)
  | exited
  /-- An `assert` failed, with these timers in hand. -/
  | aborted (tmList : List Nat)

/-- Where a client is. -/
inductive ClientPc where
  | idle
  | addAcquire (runTime : Nat)
  | addWrite (id : TimerId) (runTime : Nat)
  | addStore (id : TimerId) (runTime : Nat)
  | addBucket (id : TimerId) (runTime : Nat)
  | addLoadMin (id : TimerId) (runTime : Nat)
  | addCas (id : TimerId) (runTime minTimestamp : Nat)
  | addSignal (id : TimerId) (runTime : Nat)
  | addWake (id : TimerId) (runTime : Nat)
  | addReturn (id : TimerId) (runTime : Nat)
  | cancelCompare (id : TimerId)
  | cancelCas (id : TimerId)
  /-- The CAS failed and wrote the version it found to `base_version`. -/
  | cancelLoad (id : TimerId) (base : Nat)
  | stopStore
  | stopSignal
  | stopWake
  | stopJoin

structure State (ι : Type) where
  mem : Nat → Timer
  /-- Ids of the released slots. -/
  pool : List Nat
  /-- Slots created so far. -/
  created : List Nat
  bucket : Nat → TimerBucket
  minTimestamp : Nat
  stop : Nat
  /-- Increments of `signal_pending_`, which holds this number modulo 2^32. -/
  signalPending : Nat
  tmHeap : List Nat
  run : RunPc
  client : ι → ClientPc
  joinable : Bool
  /-- Ids `add_timer` returned so far. -/
  returned : List TimerId
  /-- A `stop_and_join` has incremented `signal_pending_`, and has called `futex_wake`. -/
  stopSignalled : Bool
  stopWoken : Bool

inductive Event where
  | tau
  | added (k : Key) (runTime : Nat)
  /-- A `cancel_timer` for `k` that returned 0, and the timer whose version it changed. -/
  | cancelled (k hit : Key)
  /-- A `cancel_timer` that returned another value than 0. -/
  | notCancelled (k : Key) (result : Int)
  | called (k : Key)
  /-- `func` returned. -/
  | finished (k : Key)
  /-- The timer's slot went back to the pool. -/
  | released (k : Key)
  /-- `stop_and_join` incremented `signal_pending_`. -/
  | stopSignalled
  deriving DecidableEq

namespace State

variable {ι : Type} (s : State ι)

def goto (p : RunPc) : State ι := { s with run := p }

variable [DecidableEq ι]

def clientGoto (t : ι) (p : ClientPc) : State ι :=
  { s with client := Function.update s.client t p }

end State

/-- `pool.release(timer_id)` by the timer thread, which goes on at `p`. -/
def State.release {ι : Type} (s : State ι) (tmp : Nat) (p : RunPc) : State ι :=
  { s with pool := (s.mem tmp).timerId :: s.pool, run := p }

/-- The timer at a slot, as its current use. -/
def State.keyOf {ι : Type} (s : State ι) (tmp : Nat) : Key := (tmp, (s.mem tmp).uses)

/-- `version` of the timer at `tmp` becomes `v`. -/
def State.setVersion {ι : Type} (s : State ι) (tmp v : Nat) : State ι :=
  { s with mem := Function.update s.mem tmp { s.mem tmp with version := v } }

/-- `timer_compare` puts the earliest timer first. -/
def State.isHeap {ι : Type} (s : State ι) (l : List Nat) : Prop :=
  IsHeap (fun a b => (s.mem a).runTime ≤ (s.mem b).runTime) l

/-- `min_sleep_point` before the clock is read. -/
def minSleepPoint {ι : Type} (s : State ι) : Nat :=
  match s.tmHeap with
  | [] => s.minTimestamp
  | tmp :: _ => if s.minTimestamp > (s.mem tmp).runTime then (s.mem tmp).runTime
      else s.minTimestamp

/-! ## The timer thread -/

section Steps
variable {ι : Type}

/-- `Run`, with `bucketNumber` buckets. -/
inductive RunStep (bucketNumber : Nat) (s : State ι) : Event → State ι → Prop
  | stopNotSet : s.run = .top → s.stop = 0 → RunStep bucketNumber s .tau (s.goto .resetMin)
  | stopSet : s.run = .top → s.stop ≠ 0 →
      RunStep bucketNumber s .tau { s with tmHeap := [], run := .exit s.tmHeap }
  | resetMin : s.run = .resetMin →
      RunStep bucketNumber s .tau { s with minTimestamp := maxTimestamp, run := .drain 0 }
  | drain {i : Nat} : s.run = .drain i → i < bucketNumber →
      RunStep bucketNumber s .tau
        { s with
          bucket := Function.update s.bucket i TimerBucket.empty
          run := .scan i (s.bucket i).list }
  | drainEnd {i : Nat} : s.run = .drain i → ¬ i < bucketNumber →
      RunStep bucketNumber s .tau (s.goto .heapTop)
  | scanEnd {i : Nat} : s.run = .scan i [] →
      RunStep bucketNumber s .tau (s.goto (.drain (i + 1)))
  | scanPush {i tmp : Nat} {tmList tmHeap : List Nat} : s.run = .scan i (tmp :: tmList) →
      (s.mem tmp).version = baseVersion (s.mem tmp).timerId →
      tmHeap.Perm (tmp :: s.tmHeap) → (s.isHeap s.tmHeap → s.isHeap tmHeap) →
      RunStep bucketNumber s .tau { s with tmHeap := tmHeap, run := .scan i tmList }
  | scanMismatch {i tmp : Nat} {tmList : List Nat} : s.run = .scan i (tmp :: tmList) →
      (s.mem tmp).version ≠ baseVersion (s.mem tmp).timerId →
      RunStep bucketNumber s .tau (s.goto (.scanAssert i tmList tmp))
  | scanAssert {i tmp : Nat} {tmList : List Nat} : s.run = .scanAssert i tmList tmp →
      RunStep bucketNumber s .tau (s.goto
        (if (s.mem tmp).version = addVersion (baseVersion (s.mem tmp).timerId) 2
          then .scanRelease i tmList tmp else .aborted (tmp :: tmList)))
  | scanRelease {i tmp : Nat} {tmList : List Nat} : s.run = .scanRelease i tmList tmp →
      RunStep bucketNumber s (.released (s.keyOf tmp)) (s.release tmp (.scan i tmList))
  | heapEmpty : s.run = .heapTop → s.tmHeap = [] →
      RunStep bucketNumber s .tau (s.goto .loadSignal)
  | topMatch {tmp : Nat} {rest : List Nat} : s.run = .heapTop → s.tmHeap = tmp :: rest →
      (s.mem tmp).version = baseVersion (s.mem tmp).timerId →
      RunStep bucketNumber s .tau (s.goto (.clock tmp))
  | topMismatch {tmp : Nat} {rest : List Nat} : s.run = .heapTop → s.tmHeap = tmp :: rest →
      (s.mem tmp).version ≠ baseVersion (s.mem tmp).timerId →
      RunStep bucketNumber s .tau (s.goto (.topAssert tmp))
  | topAssert {tmp : Nat} : s.run = .topAssert tmp →
      RunStep bucketNumber s .tau (s.goto
        (if (s.mem tmp).version = addVersion (baseVersion (s.mem tmp).timerId) 2
          then .topRelease tmp else .aborted []))
  /-- The release in `try_delete`, then `pop_heap`, which does not look at the timer it
  takes out. -/
  | topRelease {tmp : Nat} {rest tmHeap : List Nat} : s.run = .topRelease tmp →
      s.tmHeap = tmp :: rest → tmHeap.Perm rest → (s.isHeap s.tmHeap → s.isHeap tmHeap) →
      RunStep bucketNumber s (.released (s.keyOf tmp))
        { s.release tmp .heapTop with tmHeap := tmHeap }
  | clockEarly {tmp now : Nat} : s.run = .clock tmp → (s.mem tmp).runTime > now →
      RunStep bucketNumber s .tau (s.goto .loadSignal)
  | clockDue {tmp now : Nat} {rest tmHeap : List Nat} : s.run = .clock tmp →
      ¬ (s.mem tmp).runTime > now → s.tmHeap = tmp :: rest → tmHeap.Perm rest →
      (s.isHeap s.tmHeap → s.isHeap tmHeap) →
      RunStep bucketNumber s .tau { s with tmHeap := tmHeap, run := .runCas tmp }
  | runCas {tmp : Nat} : s.run = .runCas tmp →
      (s.mem tmp).version = baseVersion (s.mem tmp).timerId →
      RunStep bucketNumber s (.called (s.keyOf tmp))
        ((s.setVersion tmp (addVersion (baseVersion (s.mem tmp).timerId) 1)).goto
          (.calling tmp (baseVersion (s.mem tmp).timerId)))
  | runCasFail {tmp : Nat} : s.run = .runCas tmp →
      (s.mem tmp).version ≠ baseVersion (s.mem tmp).timerId →
      RunStep bucketNumber s .tau (s.goto (.runAssert tmp (s.mem tmp).version))
  | callReturn {tmp base : Nat} : s.run = .calling tmp base →
      RunStep bucketNumber s (.finished (s.keyOf tmp)) (s.goto (.runStore tmp base))
  | runStore {tmp base : Nat} : s.run = .runStore tmp base →
      RunStep bucketNumber s .tau
        ((s.setVersion tmp (addVersion base 2)).goto (.runRelease tmp))
  | runAssert {tmp base : Nat} : s.run = .runAssert tmp base →
      RunStep bucketNumber s .tau (s.goto
        (if (s.mem tmp).version = addVersion base 2 then .runRelease tmp else .aborted [tmp]))
  | runRelease {tmp : Nat} : s.run = .runRelease tmp →
      RunStep bucketNumber s (.released (s.keyOf tmp)) (s.release tmp .heapTop)
  | loadSignal : s.run = .loadSignal →
      RunStep bucketNumber s .tau (s.goto (.loadMin s.signalPending))
  | loadMin {signalPending : Nat} : s.run = .loadMin signalPending →
      RunStep bucketNumber s .tau (s.goto (.decide signalPending (minSleepPoint s)))
  | decideWait {signalPending minSleepPoint now : Nat} :
      s.run = .decide signalPending minSleepPoint → minSleepPoint > now →
      RunStep bucketNumber s .tau (s.goto (.wait signalPending minSleepPoint))
  | decideNoWait {signalPending minSleepPoint now : Nat} :
      s.run = .decide signalPending minSleepPoint → ¬ minSleepPoint > now →
      RunStep bucketNumber s .tau (s.goto .top)
  | waitBlock {signalPending minSleepPoint : Nat} : s.run = .wait signalPending minSleepPoint →
      s.signalPending % 2 ^ 32 = signalPending % 2 ^ 32 →
      RunStep bucketNumber s .tau (s.goto (.blocked signalPending minSleepPoint))
  | waitReturn {signalPending minSleepPoint : Nat} : s.run = .wait signalPending minSleepPoint →
      s.signalPending % 2 ^ 32 ≠ signalPending % 2 ^ 32 →
      RunStep bucketNumber s .tau (s.goto .top)
  /-- The timeout, or a return of `futex_wait` for no reason. -/
  | timeout {signalPending minSleepPoint : Nat} :
      s.run = .blocked signalPending minSleepPoint →
      RunStep bucketNumber s .tau (s.goto .top)
  | exitRelease {tmp : Nat} {rest : List Nat} : s.run = .exit (tmp :: rest) →
      RunStep bucketNumber s (.released (s.keyOf tmp)) (s.release tmp (.exit rest))
  | exitEnd : s.run = .exit [] →
      RunStep bucketNumber s .tau (s.goto (if s.stop ≠ 0 then .exited else .aborted []))

/-! ## The clients -/

/-- `futex_wake` on `signal_pending_`: the timer thread, if it waits, goes on. -/
def RunPc.wake : RunPc → RunPc
  | .blocked _ _ => .top
  | p => p

variable [DecidableEq ι]

/-- `add_timer` of a client, into any bucket. -/
inductive AddStep (bucketNumber : Nat) (s : State ι) (t : ι) : Event → State ι → Prop
  | call (runTime : Nat) : s.client t = .idle →
      AddStep bucketNumber s t .tau (s.clientGoto t (.addAcquire runTime))
  | acquire {runTime poolId : Nat} : s.client t = .addAcquire runTime → poolId ∈ s.pool →
      AddStep bucketNumber s t .tau
        { s with
          pool := s.pool.erase poolId
          mem := Function.update s.mem (low poolId)
            { s.mem (low poolId) with uses := (s.mem (low poolId)).uses + 1 }
          client := Function.update s.client t
            (.addWrite ⟨nextId poolId, (s.mem (low poolId)).uses + 1⟩ runTime) }
  | acquireNew {runTime slot : Nat} : s.client t = .addAcquire runTime →
      0 < slot → slot < 2 ^ 32 → slot ∉ s.created →
      AddStep bucketNumber s t .tau
        { s with
          created := slot :: s.created
          mem := Function.update s.mem slot
            { s.mem slot with uses := (s.mem slot).uses + 1 }
          client := Function.update s.client t
            (.addWrite ⟨nextId slot, (s.mem slot).uses + 1⟩ runTime) }
  | write {id : TimerId} {runTime : Nat} : s.client t = .addWrite id runTime →
      AddStep bucketNumber s t .tau
        { s with
          mem := Function.update s.mem (low id.raw)
            { s.mem (low id.raw) with timerId := id.raw, runTime := runTime }
          client := Function.update s.client t (.addStore id runTime) }
  | store {id : TimerId} {runTime : Nat} : s.client t = .addStore id runTime →
      AddStep bucketNumber s t .tau
        { s with
          mem := Function.update s.mem (low id.raw)
            { s.mem (low id.raw) with version := high id.raw, stored := id.gen }
          client := Function.update s.client t (.addBucket id runTime) }
  | bucket {id : TimerId} {runTime i : Nat} : s.client t = .addBucket id runTime →
      i < bucketNumber →
      AddStep bucketNumber s t .tau
        { s with
          bucket := Function.update s.bucket i ((s.bucket i).addTimer (low id.raw) runTime).2
          client := Function.update s.client t
            (if ((s.bucket i).addTimer (low id.raw) runTime).1 then .addReturn id runTime
              else .addLoadMin id runTime) }
  | loadMin {id : TimerId} {runTime : Nat} : s.client t = .addLoadMin id runTime →
      AddStep bucketNumber s t .tau (s.clientGoto t
        (if s.minTimestamp ≤ runTime then .addReturn id runTime
          else .addCas id runTime s.minTimestamp))
  | cas {id : TimerId} {runTime minTimestamp : Nat} :
      s.client t = .addCas id runTime minTimestamp → s.minTimestamp = minTimestamp →
      AddStep bucketNumber s t .tau
        { s with
          minTimestamp := runTime
          client := Function.update s.client t (.addSignal id runTime) }
  | casFail {id : TimerId} {runTime minTimestamp : Nat} :
      s.client t = .addCas id runTime minTimestamp →
      AddStep bucketNumber s t .tau (s.clientGoto t (.addLoadMin id runTime))
  | signal {id : TimerId} {runTime : Nat} : s.client t = .addSignal id runTime →
      AddStep bucketNumber s t .tau
        { s with
          signalPending := s.signalPending + 1
          client := Function.update s.client t (.addWake id runTime) }
  | wake {id : TimerId} {runTime : Nat} : s.client t = .addWake id runTime →
      AddStep bucketNumber s t .tau
        { s with
          run := s.run.wake
          client := Function.update s.client t (.addReturn id runTime) }
  | ret {id : TimerId} {runTime : Nat} : s.client t = .addReturn id runTime →
      AddStep bucketNumber s t (.added id.key runTime)
        { s with
          returned := id :: s.returned
          client := Function.update s.client t .idle }

/-- `cancel_timer` of a client, on an id `add_timer` returned. -/
inductive CancelStep (s : State ι) (t : ι) : Event → State ι → Prop
  | call {id : TimerId} : s.client t = .idle → id ∈ s.returned →
      CancelStep s t .tau (s.clientGoto t (.cancelCompare id))
  | mismatch {id : TimerId} : s.client t = .cancelCompare id →
      id.raw ≠ (s.mem (low id.raw)).timerId →
      CancelStep s t (.notCancelled id.key (-1)) (s.clientGoto t .idle)
  | match {id : TimerId} : s.client t = .cancelCompare id →
      id.raw = (s.mem (low id.raw)).timerId →
      CancelStep s t .tau (s.clientGoto t (.cancelCas id))
  | cas {id : TimerId} : s.client t = .cancelCas id →
      (s.mem (low id.raw)).version = baseVersion id.raw →
      CancelStep s t (.cancelled id.key (low id.raw, (s.mem (low id.raw)).stored))
        ((s.setVersion (low id.raw) (addVersion (baseVersion id.raw) 2)).clientGoto t .idle)
  | casFail {id : TimerId} : s.client t = .cancelCas id →
      (s.mem (low id.raw)).version ≠ baseVersion id.raw →
      CancelStep s t .tau (s.clientGoto t (.cancelLoad id (s.mem (low id.raw)).version))
  | load {id : TimerId} {base : Nat} : s.client t = .cancelLoad id base →
      CancelStep s t
        (.notCancelled id.key (if (s.mem (low id.raw)).version = addVersion base 1 then 1 else -1))
        (s.clientGoto t .idle)

/-- `stop_and_join` of a client. -/
inductive StopStep (s : State ι) (t : ι) : Event → State ι → Prop
  | call : s.client t = .idle → s.joinable = true →
      StopStep s t .tau (s.clientGoto t .stopStore)
  | store : s.client t = .stopStore →
      StopStep s t .tau
        { s with stop := 1, client := Function.update s.client t .stopSignal }
  | signal : s.client t = .stopSignal →
      StopStep s t .stopSignalled
        { s with
          signalPending := s.signalPending + 1
          stopSignalled := true
          client := Function.update s.client t .stopWake }
  | wake : s.client t = .stopWake →
      StopStep s t .tau
        { s with
          run := s.run.wake
          stopWoken := true
          client := Function.update s.client t .stopJoin }
  | join : s.client t = .stopJoin → s.run = .exited →
      StopStep s t .tau
        { s with joinable := false, client := Function.update s.client t .idle }

/-- A step of the timer thread or of a client. -/
inductive Step (bucketNumber : Nat) (s : State ι) (e : Event) (s' : State ι) : Prop
  | run : RunStep bucketNumber s e s' → Step bucketNumber s e s'
  | add (t : ι) : AddStep bucketNumber s t e s' → Step bucketNumber s e s'
  | cancel (t : ι) : CancelStep s t e s' → Step bucketNumber s e s'
  | stop (t : ι) : StopStep s t e s' → Step bucketNumber s e s'

end Steps

/-- A `TimerControl` used by the threads `ι`, right after its constructor.  `signal_pending_`
and the memory of the slots are not initialised. -/
def timerSystem (bucketNumber : Nat) (ι : Type) [DecidableEq ι] : System (State ι) Event where
  init s := (∀ x, (s.mem x).uses = 0 ∧ (s.mem x).stored = 0) ∧ s.pool = [] ∧ s.created = [] ∧
    s.bucket = (fun _ => TimerBucket.empty) ∧ s.minTimestamp = maxTimestamp ∧ s.stop = 0 ∧
    s.tmHeap = [] ∧ s.run = .top ∧ s.client = (fun _ => .idle) ∧ s.returned = [] ∧
    s.stopSignalled = false ∧ s.stopWoken = false
  -- a failed `assert` has ended the run
  step s e s' := (∀ tmList, s.run ≠ .aborted tmList) ∧ Step bucketNumber s e s'

/-- The state right after the constructor, in zeroed memory. -/
def State.zeroed (ι : Type) : State ι :=
  { mem := fun _ => ⟨0, 0, 0, 0, 0⟩, pool := [], created := [],
    bucket := fun _ => TimerBucket.empty, minTimestamp := maxTimestamp, stop := 0,
    signalPending := 0, tmHeap := [], run := .top, client := fun _ => .idle, joinable := true,
    returned := [], stopSignalled := false, stopWoken := false }

theorem init_zeroed (bucketNumber : Nat) (ι : Type) [DecidableEq ι] :
    (timerSystem bucketNumber ι).init (.zeroed ι) :=
  ⟨fun _ => ⟨rfl, rfl⟩, rfl, rfl, rfl, rfl, rfl, rfl, rfl, rfl, rfl, rfl, rfl⟩

end PBase.TimerControl
