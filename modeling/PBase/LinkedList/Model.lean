/-
# `PBase.LinkedList.Model` — `LinkNode` and `LinkedList`

A node has two pointers, and belongs to whoever made it; a list is a node, its root.  In a list the
root and the nodes are a circle, so that no function asks whether there is a neighbour.

    root_ ──next_──▶ n₁ ──next_──▶ n₂ ──next_──▶ root_
    root_ ◀─previous_── n₁ ◀─previous_── n₂ ◀─previous_── root_

The memory is a function from addresses to nodes.  A null pointer that is followed has no result.
-/
import PBase.Lib.Program

namespace PBase.LinkedList

open PBase.Lib

structure LinkNode (α : Type) where
  previous : Option α
  next : Option α

abbrev Memory (α : Type) := α → LinkNode α

abbrev Program (α β : Type) := StateT (Memory α) Option β

section
variable {α : Type} [DecidableEq α]

def Memory.setNext (m : Memory α) (a : α) (p : Option α) :
    Memory α := Function.update m a { m a with next := p }

def Memory.setPrevious (m : Memory α) (a : α) (p : Option α) : Memory α :=
  Function.update m a { m a with previous := p }

/-- `a->next_` and `a->previous_` -/
def next (a : α) : Program α (Option α) := do pure ((← get) a).next

def previous (a : α) : Program α (Option α) := do pure ((← get) a).previous

def setNext (a : α) (p : Option α) : Program α Unit := modify (·.setNext a p)

def setPrevious (a : α) (p : Option α) : Program α Unit := modify (·.setPrevious a p)

/-- `p->` -/
def follow : Option α → Program α α
  | none => failure
  | some a => pure a

/-- `LinkNode()` -/
def construct (this : α) : Program α Unit := do
  setPrevious this none
  setNext this none

/-- `this->InsertBefore(e)` -/
def insertBefore (this e : α) : Program α Unit := do
  setNext this (some e)
  setPrevious this (← previous e)
  setNext (← follow (← previous e)) (some this)
  setPrevious e (some this)

/-- `this->InsertAfter(e)` -/
def insertAfter (this e : α) : Program α Unit := do
  setNext this (← next e)
  setPrevious this (some e)
  setPrevious (← follow (← next e)) (some this)
  setNext e (some this)

/-- `this->RemoveFromList()` -/
def removeFromList (this : α) : Program α Unit := do
  setNext (← follow (← previous this)) (← next this)
  setPrevious (← follow (← next this)) (← previous this)

/-- `LinkedList()`, by `root_.set(&root_, &root_)` -/
def constructList (root : α) : Program α Unit := do
  setPrevious root (some root)
  setNext root (some root)

/-- `Append(e)` -/
def append (root e : α) : Program α Unit := insertBefore e root

def head (root : α) : Program α (Option α) := next root

def tail (root : α) : Program α (Option α) := previous root

/-- A turn of a loop to the end of a list: `node`, and what it has visited. -/
def walkBody (go : α → Program α (Option α)) (root : α) :
    Option α × List α → Program α ((Option α × List α) ⊕ List α)
  | (node, visited) =>
      if node = some root then pure (.inr visited)
      else do
        let a ← follow node
        pure (.inl (← go a, visited ++ [a]))

/-- `for (node = list.head(); node != list.end(); node = node->next())` -/
def forward (root : α) (fuel : Nat) : Program α (List α) := do
  loop (walkBody next root) fuel (← head root, [])

/-- `for (node = list.tail(); node != list.end(); node = node->previous())` -/
def backward (root : α) (fuel : Nat) : Program α (List α) := do
  loop (walkBody previous root) fuel (← tail root, [])

inductive Call (α : Type) where
  | construct (n : α)
  | constructList (root : α)
  | append (root e : α)
  | insertBefore (n e : α)
  | insertAfter (n e : α)
  | removeFromList (n : α)
  /-- The list is gone; its nodes are as they were. -/
  | destroyList (root : α)

def perform : Call α → Program α Unit
  | .construct n => construct n
  | .constructList root => constructList root
  | .append root e => append root e
  | .insertBefore n e => insertBefore n e
  | .insertAfter n e => insertAfter n e
  | .removeFromList n => removeFromList n
  | .destroyList _ => pure ()

end

end PBase.LinkedList
