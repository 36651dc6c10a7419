/-
# `PBase.Queue.Model` — `LinkedQueue`: its atomic steps

A queue of nodes linked by `next`, with any number of producers and one consumer.  The queue
starts with `dummy_`, which is returned like any other node.

    push_back(node)   node->next = nullptr;  p = tail_.exchange(node);  p->next = node
    pop_front()       do { p = head_; if (!p->next) return nullptr }
                      while (!head_.CAS(p, p->next));  return p

Every access to `head_`, to `tail_` and to a node's `next` is one step.
`compare_exchange_weak` may fail without a reason, so a retry has no guard.

A producer pushes a node that is not in the queue and that nobody else is pushing.  Whoever
has such a node may write to it (`recycle`).  `queued` is a history variable that only this
condition reads: `dummy_` and the nodes pushed, in the order of their exchanges, without those
returned.
-/
import PBase.Lib.System

namespace PBase.Queue

open PBase.Lib

/-- Where a producer is in `push_back`, with its locals. -/
inductive Producer (α : Type) where
  | idle
  | reset (node : α)
  | exchange (node : α)
  | link (p node : α)

/-- Where the consumer is in `pop_front`. -/
inductive Consumer (α : Type) where
  | idle
  | load
  /-- About to test `p->next`. -/
  | test (p : α)
  /-- About to read the new value for the CAS. -/
  | read (p : α)
  | cas (p : α) (next : Option α)

structure State (ι α : Type) where
  head : Option α
  tail : α
  next : α → Option α
  producer : ι → Producer α
  consumer : Consumer α
  queued : List α

inductive Event (α : Type) where
  /-- A step that reads or writes these nodes. -/
  | tau (nodes : List α)
  | exchanged (node : α)
  | popped (node : α)
  /-- `pop_front` returns `nullptr`, as `p->next` is unset. -/
  | empty (p : α)

/-- The nodes a step reads or writes. -/
def Event.touched {α : Type} : Event α → List α
  | .tau nodes => nodes
  | .empty p => [p]
  | _ => []

/-- The producer is pushing `n`, which is not in the queue yet. -/
def Producer.Pushing {α : Type} (n : α) : Producer α → Prop
  | .reset node | .exchange node => node = n
  | _ => False

variable {ι α : Type} [DecidableEq ι] [DecidableEq α]

/-- Neither in the queue nor about to be. -/
def Free (s : State ι α) (n : α) : Prop := n ∉ s.queued ∧ ∀ t, ¬ (s.producer t).Pushing n

def State.goto (s : State ι α) (t : ι) (p : Producer α) : State ι α :=
  { s with producer := Function.update s.producer t p }

inductive Step (s : State ι α) : Event α → State ι α → Prop
  | push (t : ι) {node : α} : s.producer t = .idle → Free s node →
      Step s (.tau []) (s.goto t (.reset node))
  | reset (t : ι) {node : α} : s.producer t = .reset node →
      Step s (.tau [node])
        { s with
          next := Function.update s.next node none
          producer := Function.update s.producer t (.exchange node) }
  | exchange (t : ι) {node : α} : s.producer t = .exchange node →
      Step s (.exchanged node)
        { s with
          tail := node
          producer := Function.update s.producer t (.link s.tail node)
          queued := s.queued ++ [node] }
  | link (t : ι) {p node : α} : s.producer t = .link p node →
      Step s (.tau [p])
        { s with
          next := Function.update s.next p (some node)
          producer := Function.update s.producer t .idle }
  | pop : s.consumer = .idle → Step s (.tau []) { s with consumer := .load }
  | load {p : α} : s.consumer = .load → s.head = some p →
      Step s (.tau []) { s with consumer := .test p }
  | empty {p : α} : s.consumer = .test p → s.next p = none →
      Step s (.empty p) { s with consumer := .idle }
  | test {p : α} : s.consumer = .test p → s.next p ≠ none →
      Step s (.tau [p]) { s with consumer := .read p }
  | read {p : α} : s.consumer = .read p →
      Step s (.tau [p]) { s with consumer := .cas p (s.next p) }
  | cas {p : α} {next : Option α} : s.consumer = .cas p next → s.head = some p →
      Step s (.popped p)
        { s with head := next, consumer := .idle, queued := s.queued.erase p }
  | retry {p : α} {next : Option α} : s.consumer = .cas p next →
      Step s (.tau []) { s with consumer := .load }
  /-- The owner of a node writes to it. -/
  | recycle {node : α} (next : Option α) : Free s node →
      Step s (.tau []) { s with next := Function.update s.next node next }

/-- A queue as constructed, with the producers `ι`. -/
def linkedQueue (ι : Type) {α : Type} [DecidableEq ι] [DecidableEq α] (dummy : α) :
    System (State ι α) (Event α) where
  init s := s.head = some dummy ∧ s.tail = dummy ∧ s.next dummy = none ∧
    s.producer = (fun _ => .idle) ∧ s.consumer = .idle ∧ s.queued = [dummy]
  step := Step

end PBase.Queue
