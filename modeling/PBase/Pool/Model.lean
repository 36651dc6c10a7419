/-
# `PBase.Pool.Model` — `ObjectPool` and `ArenaObjectPool`: the calls as steps

Each thread keeps a local group of free objects, `object_group_ptr_`.  A full group goes to
`global_object_group_stack_` and an empty one to `global_free_object_group_stack_`; a
thread without a group takes one from there, and from the arena when both are empty.

The two pools run the same code and differ in what is an object and where a fresh one
comes from:

    pool              items                    kObjectGroupItemSize   fresh objects
    ArenaObjectPool   ids; the slot is the     N                      a block of N slots of the
                      low half of the id                              arena, one to the caller
    ObjectPool        pointers                 a parameter            `T::NewThis`, one to the
                                                                      caller, no group needed

A `push` and a `pop` of a `LockFreeStack` and an `ObjectArena::acquire` are one step each,
with the effect that `PBase.Stack` and `PBase.Arena` prove for them: the stacks are lists of
ids, and a block of the arena is `N` consecutive ids above 0 that were never handed out.
What a call does to its own group between two of these is a step too.

`new ObjectBlock` does not initialise a group, so the memory of a group is an `Option`:
`none` until its `size` is first written.  A step that would read `size` there, and a
step whose `assert` is false, go to `failed`.
-/
import PBase.Arena.Model
import PBase.Lib.Word
import PBase.Lib.Placement

namespace PBase.Pool

open PBase.Lib
open PBase.Arena (N)

/-! ## The two pools -/

inductive Kind where
  | objectPool
  | arenaObjectPool

/-- A pool and its `kObjectGroupItemSize`. -/
structure Config where
  kind : Kind
  kObjectGroupItemSize : Nat
  arena : kind = .arenaObjectPool → kObjectGroupItemSize = N
  pos : 0 < kObjectGroupItemSize

/-- The object an item stands for: an id names its slot by its low half, a pointer is
the object. -/
def Config.slot (C : Config) (item : Nat) : Nat :=
  match C.kind with
  | .objectPool => item
  | .arenaObjectPool => low item

/-! ## States -/

/-- What `new_free_object_group` returns to. -/
inductive Caller where
  | acquire
  | release (item : Nat)

/-- Where a thread is, with the locals it holds there. -/
inductive Pc where
  | idle
  /-- `acquire`: no item in the local group, about to pop `global_object_group_stack_`. -/
  | acquirePop
  /-- `acquire`: a group was popped; the `assert` and the take come next. -/
  | acquireTake
  /-- `ObjectPool::acquire`: about to call `T::NewThis`. -/
  | newThis
  /-- `ArenaObjectPool::acquire`: a free group was found, about to acquire a block. -/
  | acquireBlock
  | acquireFill (base : Nat)
  | acquireReturn (item : Nat)
  | release (item : Nat)
  | releaseFill (item : Nat)
  /-- `new_free_object_group`: about to pop `global_free_object_group_stack_`. -/
  | freePop (k : Caller)
  | freeArena (k : Caller)
  | freeAssign (k : Caller) (base : Nat)
  /-- The loop: `free_id` and `i`. -/
  | freePush (k : Caller) (freeId i : Nat)
  | dead
  | failed

/-- Where `new_free_object_group` returns to in its caller. -/
def Caller.resume : Caller → Pc
  | .acquire => .acquireBlock
  | .release item => .releaseFill item

structure Thread where
  /-- `object_group_ptr_`, by the node it points to. -/
  ptr : Option Nat
  /-- `object_group_id_` -/
  id : Nat
  pc : Pc

/-- The code that last pushed a group on the free stack. -/
inductive Pusher where
  | newFreeObjectGroup
  | acquire
  | exit

structure State (ι : Type) where
  thread : ι → Thread
  /-- `items[0..size)` of each `ObjectGroup` by node. -/
  group : Nat → Option (List Nat)
  /-- `global_object_group_stack_`, top first. -/
  global : List Nat
  /-- `global_free_object_group_stack_`, top first. -/
  free : List Nat
  /-- Nodes of `ObjectArena<ObjectGroup>` handed out so far. -/
  groups : List Nat
  /-- Objects created so far. -/
  slots : List Nat
  /-- The objects the callers hold. -/
  acquired : List Nat
  /-- Read by no step. -/
  pushedBy : Nat → Pusher

inductive Event (ι : Type) where
  | tau
  | acquired (t : ι) (item : Nat)
  | released (t : ι) (item : Nat)
  | exited (t : ι)

/-- `LockFreeStack::push` -/
def push (stack : List Nat) (value : Nat) : List Nat := bump 1 value :: stack

/-- `LockFreeStack::pop`: the id it returns, 0 for an empty stack, and the rest. -/
def pop : List Nat → Nat × List Nat
  | [] => (0, [])
  | value :: rest => (value, rest)

/-- The ids of a block of the arena. -/
def block (base : Nat) : List Nat := List.range' base N

/-- What `ObjectArena::acquire` promises about the id it returns. -/
structure Fresh (base : Nat) (used : List Nat) : Prop where
  pos : 0 < base
  lt : base + N ≤ 2 ^ 32
  unused : ∀ x ∈ block base, x ∉ used

variable {ι : Type}

/-- What the callers of a pool see. -/
def Event.shown : Event ι → Bool
  | .tau => false
  | _ => true

/-- The step is one of `t`. -/
def Moves (t : ι) (s s' : State ι) : Prop := (s'.thread t).pc ≠ (s.thread t).pc

variable [DecidableEq ι]

def State.goto (s : State ι) (t : ι) (p : Pc) : State ι :=
  { s with thread := Function.update s.thread t { s.thread t with pc := p } }

/-! ## Steps -/

section Steps
variable (C : Config)

inductive Step : State ι → Event ι → State ι → Prop
  /-- `return object_group_ptr_->items[--object_group_ptr_->size]` -/
  | acquireLocal {s : State ι} (t : ι) {g item : Nat} {items : List Nat} :
      (s.thread t).pc = .idle → (s.thread t).ptr = some g → s.group g = some (items ++ [item]) →
      Step s .tau
        { s with
          group := Function.update s.group g (some items)
          thread := Function.update s.thread t { s.thread t with pc := .acquireReturn item } }
  | acquireEmpty {s : State ι} (t : ι) {g : Nat} :
      (s.thread t).pc = .idle → (s.thread t).ptr = some g → s.group g = some [] →
      Step s .tau
        { s with
          free := push s.free (s.thread t).id
          pushedBy := Function.update s.pushedBy (low (s.thread t).id) .acquire
          thread := Function.update s.thread t { s.thread t with pc := .acquirePop } }
  | acquireNull {s : State ι} (t : ι) :
      (s.thread t).pc = .idle → (s.thread t).ptr = none →
      Step s .tau (s.goto t .acquirePop)
  | acquirePop {s : State ι} (t : ι) {id : Nat} {rest : List Nat} :
      (s.thread t).pc = .acquirePop → pop s.global = (id, rest) → id ≠ 0 →
      Step s .tau
        { s with
          global := rest
          thread := Function.update s.thread t ⟨some (low id), id, .acquireTake⟩ }
  /-- Nothing on the global stack: `ArenaObjectPool` goes for a free group and a block,
  `ObjectPool` drops its group pointer and goes for a new object. -/
  | acquirePopEmpty {s : State ι} (t : ι) {rest : List Nat} :
      (s.thread t).pc = .acquirePop → pop s.global = (0, rest) →
      Step s .tau
        { s with
          global := rest
          thread := Function.update s.thread t
            (match C.kind with
            | .arenaObjectPool => ⟨(s.thread t).ptr, 0, .freePop .acquire⟩
            | .objectPool => ⟨none, 0, .newThis⟩) }
  | acquireTake {s : State ι} (t : ι) {g item : Nat} {items : List Nat} :
      (s.thread t).pc = .acquireTake → (s.thread t).ptr = some g →
      s.group g = some (items ++ [item]) → items.length + 1 ≤ C.kObjectGroupItemSize →
      Step s .tau
        { s with
          group := Function.update s.group g (some items)
          thread := Function.update s.thread t { s.thread t with pc := .acquireReturn item } }
  /-- `assert(size > 0 && size <= kObjectGroupItemSize)` is false. -/
  | acquireAssert {s : State ι} (t : ι) {g : Nat} {items : List Nat} :
      (s.thread t).pc = .acquireTake → (s.thread t).ptr = some g → s.group g = some items →
      ¬(0 < items.length ∧ items.length ≤ C.kObjectGroupItemSize) →
      Step s .tau (s.goto t .failed)
  | newThis {s : State ι} (t : ι) {obj : Nat} :
      (s.thread t).pc = .newThis → obj ∉ s.slots →
      Step s .tau
        { s with
          slots := obj :: s.slots
          thread := Function.update s.thread t { s.thread t with pc := .acquireReturn obj } }
  | acquireBlock {s : State ι} (t : ι) {base : Nat} :
      (s.thread t).pc = .acquireBlock → Fresh base s.slots →
      Step s .tau
        { s with
          slots := block base ++ s.slots
          thread := Function.update s.thread t { s.thread t with pc := .acquireFill base } }
  /-- The block but its first item goes to the group; the loop writes private memory. -/
  | acquireFill {s : State ι} (t : ι) {g base : Nat} :
      (s.thread t).pc = .acquireFill base → (s.thread t).ptr = some g →
      Step s .tau
        { s with
          group := Function.update s.group g (some
            (List.range' (base + 1) (C.kObjectGroupItemSize - 1)))
          thread := Function.update s.thread t { s.thread t with pc := .acquireReturn base } }
  | acquireReturn {s : State ι} (t : ι) {item : Nat} :
      (s.thread t).pc = .acquireReturn item →
      Step s (.acquired t item)
        { s with
          acquired := C.slot item :: s.acquired
          thread := Function.update s.thread t { s.thread t with pc := .idle } }
  /-- A caller releases an object it holds, under whatever version. -/
  | release {s : State ι} (t : ι) {item : Nat} :
      (s.thread t).pc = .idle → C.slot item ∈ s.acquired →
      Step s (.released t item)
        { s with
          acquired := s.acquired.erase (C.slot item)
          thread := Function.update s.thread t { s.thread t with pc := .release item } }
  | releaseLocal {s : State ι} (t : ι) {g item : Nat} {items : List Nat} :
      (s.thread t).pc = .release item → (s.thread t).ptr = some g → s.group g = some items →
      items.length < C.kObjectGroupItemSize →
      Step s .tau
        { s with
          group := Function.update s.group g (some (items ++ [item]))
          thread := Function.update s.thread t { s.thread t with pc := .idle } }
  | releaseFull {s : State ι} (t : ι) {g item : Nat} {items : List Nat} :
      (s.thread t).pc = .release item → (s.thread t).ptr = some g → s.group g = some items →
      C.kObjectGroupItemSize ≤ items.length →
      Step s .tau
        { s with
          global := push s.global (s.thread t).id
          thread := Function.update s.thread t
            { s.thread t with pc := .freePop (.release item) } }
  | releaseNull {s : State ι} (t : ι) {item : Nat} :
      (s.thread t).pc = .release item → (s.thread t).ptr = none →
      Step s .tau (s.goto t (.freePop (.release item)))
  | releaseFill {s : State ι} (t : ι) {g item : Nat} :
      (s.thread t).pc = .releaseFill item → (s.thread t).ptr = some g →
      Step s .tau
        { s with
          group := Function.update s.group g (some [item])
          thread := Function.update s.thread t { s.thread t with pc := .idle } }
  | freePop {s : State ι} (t : ι) {k : Caller} {id : Nat} {rest : List Nat} :
      (s.thread t).pc = .freePop k → pop s.free = (id, rest) → id ≠ 0 →
      Step s .tau
        { s with
          free := rest
          thread := Function.update s.thread t ⟨some (low id), id, k.resume⟩ }
  | freePopEmpty {s : State ι} (t : ι) {k : Caller} {rest : List Nat} :
      (s.thread t).pc = .freePop k → pop s.free = (0, rest) →
      Step s .tau
        { s with
          free := rest
          thread := Function.update s.thread t { s.thread t with id := 0, pc := .freeArena k } }
  | freeArena {s : State ι} (t : ι) {k : Caller} {base : Nat} :
      (s.thread t).pc = .freeArena k → Fresh base s.groups →
      Step s .tau
        { s with
          groups := block base ++ s.groups
          thread := Function.update s.thread t { s.thread t with pc := .freeAssign k base } }
  | freeAssign {s : State ι} (t : ι) {k : Caller} {base : Nat} :
      (s.thread t).pc = .freeAssign k base →
      Step s .tau
        { s with
          thread := Function.update s.thread t ⟨some (low base), base, .freePush k base 1⟩ }
  | freePush {s : State ι} (t : ι) {k : Caller} {freeId i : Nat} :
      (s.thread t).pc = .freePush k freeId i → i < N →
      Step s .tau
        { s with
          free := push s.free (freeId + 1)
          pushedBy := Function.update s.pushedBy (low (freeId + 1)) .newFreeObjectGroup
          thread := Function.update s.thread t
            { s.thread t with pc := .freePush k (freeId + 1) (i + 1) } }
  | freePushEnd {s : State ι} (t : ι) {k : Caller} {freeId i : Nat} :
      (s.thread t).pc = .freePush k freeId i → ¬ i < N →
      Step s .tau (s.goto t k.resume)
  /-- `~LocalObjectGroup`, with a local group that holds items. -/
  | exitLoaded {s : State ι} (t : ι) {g : Nat} {items : List Nat} :
      (s.thread t).pc = .idle → (s.thread t).ptr = some g → s.group g = some items →
      0 < items.length →
      Step s (.exited t)
        { s with
          global := push s.global (s.thread t).id
          thread := Function.update s.thread t { s.thread t with pc := .dead } }
  | exitEmpty {s : State ι} (t : ι) {g : Nat} :
      (s.thread t).pc = .idle → (s.thread t).ptr = some g → s.group g = some [] →
      Step s (.exited t)
        { s with
          free := push s.free (s.thread t).id
          pushedBy := Function.update s.pushedBy (low (s.thread t).id) .exit
          thread := Function.update s.thread t { s.thread t with pc := .dead } }
  | exitNull {s : State ι} (t : ι) :
      (s.thread t).pc = .idle → (s.thread t).ptr = none →
      Step s (.exited t) (s.goto t .dead)
  /-- A read of the `size` of the local group before it was ever written. -/
  | uninitialised {s : State ι} (t : ι) {g : Nat} :
      ((s.thread t).pc = .idle ∨ (s.thread t).pc = .acquireTake ∨
        ∃ item, (s.thread t).pc = .release item) →
      (s.thread t).ptr = some g → s.group g = none →
      Step s .tau (s.goto t .failed)

/-- A pool used by the threads `ι`, none of which has a group yet. -/
def poolSystem (ι : Type) [DecidableEq ι] : System (State ι) (Event ι) where
  init s := s.thread = (fun _ => ⟨none, 0, .idle⟩) ∧ s.group = (fun _ => none) ∧
    s.global = [] ∧ s.free = [] ∧ s.groups = [] ∧ s.slots = [] ∧ s.acquired = []
  step := Step C

end Steps

end PBase.Pool
