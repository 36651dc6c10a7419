/-
# `PBase.Stack.Model` — `LockFreeStack`: its atomic steps and its clients

A `LockFreeStack<T>` keeps one word, `head_`: 0, or the id of the top node, whose
low 32 bits name the node in the arena and whose high 32 bits are the version of its
last push.  `node->next` is the word below it.  The two stacks of an object pool
share an arena, so a node moves between them with its version.

    push(value)   value += 1 << 32;  do { p = head; node->next = p } while (!CAS(p, value))
    pop()         do { p = head; if (!p) return 0; next = find(p)->next } while (!CAS(p, next))

Every load, every access to `node->next` and every CAS is one step.
`compare_exchange_weak` may fail without a reason, so a retry has no guard.

The clients own nodes: a thread creates a node (it gets the id from the arena, with
version 0), pushes an id it holds, and holds what its pops return.  `pushes` counts
the successful pushes of each node; it is a history variable that no step reads, and
`popNext` and `popCas` keep its value from the load of `head_` (`seen`).
-/
import PBase.Lib.System
import PBase.Lib.Word
import PBase.Lib.Chain
import PBase.Lib.Placement

namespace PBase.Stack

open PBase.Lib

/-- The two stacks of an object pool. -/
inductive StackId where
  | globalObjectGroupStack
  | globalFreeObjectGroupStack
  deriving DecidableEq

/-- The node a word names: `find` reads the low 32 bits only. -/
abbrev node (value : Nat) : Nat := low value

/-- `value += 0x100000000ULL` -/
def nextVersion (value : Nat) : Nat := bump 1 value

/-- Where a thread is in `push` or `pop`, with the locals it holds there. -/
inductive Pc where
  | idle
  | pushLoad (st : StackId) (value : Nat)
  | pushWrite (st : StackId) (value p : Nat)
  | pushCas (st : StackId) (value p : Nat)
  | popLoad (st : StackId)
  | popNext (st : StackId) (p seen : Nat)
  | popCas (st : StackId) (p next seen : Nat)

structure State (ι : Type) where
  head : StackId → Nat
  next : Nat → Nat
  /-- The nodes created so far. -/
  created : List Nat
  /-- The ids each thread holds between its calls. -/
  held : ι → List Nat
  pc : ι → Pc
  /-- Successful pushes of each node so far. -/
  pushes : Nat → Nat

inductive Event (ι : Type) where
  | tau
  | pushed (t : ι) (st : StackId) (value : Nat)
  | popped (t : ι) (st : StackId) (value : Nat)
  /-- A pop that returned 0, at its load. -/
  | empty (t : ι) (st : StackId)

variable {ι : Type} [DecidableEq ι]

def State.goto (s : State ι) (t : ι) (p : Pc) : State ι :=
  { s with pc := Function.update s.pc t p }

inductive Step : State ι → Event ι → State ι → Prop
  /-- A thread gets a node that was never used from the arena. -/
  | create {s : State ι} (t : ι) {id : Nat} : 0 < id → id < 2 ^ 32 → id ∉ s.created →
      Step s .tau
        { s with
          created := id :: s.created
          held := Function.update s.held t (id :: s.held t) }
  | push {s : State ι} (t : ι) (st : StackId) {value : Nat} :
      s.pc t = .idle → value ∈ s.held t →
      Step s .tau
        { s with
          held := Function.update s.held t ((s.held t).erase value)
          pc := Function.update s.pc t (.pushLoad st (nextVersion value)) }
  | pushLoad {s : State ι} (t : ι) {st : StackId} {value : Nat} :
      s.pc t = .pushLoad st value → Step s .tau (s.goto t (.pushWrite st value (s.head st)))
  | pushWrite {s : State ι} (t : ι) {st : StackId} {value p : Nat} :
      s.pc t = .pushWrite st value p →
      Step s .tau
        { s with
          next := Function.update s.next (node value) p
          pc := Function.update s.pc t (.pushCas st value p) }
  | pushCas {s : State ι} (t : ι) {st : StackId} {value p : Nat} :
      s.pc t = .pushCas st value p → s.head st = p →
      Step s (.pushed t st value)
        { s with
          head := Function.update s.head st value
          pc := Function.update s.pc t .idle
          pushes := Function.update s.pushes (node value) (s.pushes (node value) + 1) }
  | pushRetry {s : State ι} (t : ι) {st : StackId} {value p : Nat} :
      s.pc t = .pushCas st value p → Step s .tau (s.goto t (.pushLoad st value))
  | pop {s : State ι} (t : ι) (st : StackId) :
      s.pc t = .idle → Step s .tau (s.goto t (.popLoad st))
  | popEmpty {s : State ι} (t : ι) {st : StackId} :
      s.pc t = .popLoad st → s.head st = 0 → Step s (.empty t st) (s.goto t .idle)
  | popLoad {s : State ι} (t : ι) {st : StackId} :
      s.pc t = .popLoad st → s.head st ≠ 0 →
      Step s .tau (s.goto t (.popNext st (s.head st) (s.pushes (node (s.head st)))))
  | popNext {s : State ι} (t : ι) {st : StackId} {p seen : Nat} :
      s.pc t = .popNext st p seen →
      Step s .tau (s.goto t (.popCas st p (s.next (node p)) seen))
  | popCas {s : State ι} (t : ι) {st : StackId} {p next seen : Nat} :
      s.pc t = .popCas st p next seen → s.head st = p →
      Step s (.popped t st p)
        { s with
          head := Function.update s.head st next
          held := Function.update s.held t (p :: s.held t)
          pc := Function.update s.pc t .idle }
  | popRetry {s : State ι} (t : ι) {st : StackId} {p next seen : Nat} :
      s.pc t = .popCas st p next seen → Step s .tau (s.goto t (.popLoad st))

/-- Two empty stacks over one arena, used by the threads `ι`. -/
def stackSystem (ι : Type) [DecidableEq ι] : System (State ι) (Event ι) where
  init s := s.head = (fun _ => 0) ∧ s.created = [] ∧ s.held = (fun _ => []) ∧
    s.pc = (fun _ => .idle) ∧ s.pushes = fun _ => 0
  step := Step

/-- Fewer than 2^32 pushes of a node happened between the load of `head_` by a pop
that read it and the pop's successful CAS. -/
def FewPushes (s : State ι) : Event ι → Prop
  | .popped t _ _ => ∀ st p next seen, s.pc t = .popCas st p next seen →
      s.pushes (node p) < seen + 2 ^ 32
  | _ => True

end PBase.Stack
