/-
# `PBase.Arena.Model` — `ObjectArena`: the group table and its atomic steps

`ObjectArena<T>` hands out blocks of `N` objects and names each object by a
32-bit id.  An id is three 10-bit fields, from the top: the group (stored off by
one, so that no id is 0), the block within the group, the item within the block.

    id of item k in block b of group g  =  ((g + 1) << BASE | b) << BASE | k

The table is a `GlobalGroup`.  `new BlockGroup` and `new ObjectBlock` return
fresh addresses, numbered here in the order of allocation; `groups` is the heap
of `BlockGroup`s by address.  An entry that was never stored is `none`: the
arrays of `std::atomic` pointers are not initialised by the code.

`Step` is `add_block` with each atomic access one step: the load of
`group_size_`, the load of the group pointer, the `fetch_add` and the
`fetch_sub` on `block_size`, the store of the block pointer, and the
mutex-protected `add_group`.  A thread between two of its accesses is at a `Pc`,
which carries the locals it has read so far.
-/
import PBase.Lib.System

namespace PBase.Arena

open PBase.Lib

/-! ## The constants and the table -/

def BASE : Nat := 10
def BASE_MARK : Nat := 0x3FF
/-- Objects in a block, and blocks in a group. -/
def N : Nat := 1 <<< BASE
/-- Groups in the arena. -/
def NG : Nat := 1 <<< (31 - BASE - BASE)

theorem N_eq : N = 1024 := rfl
theorem NG_eq : NG = 2048 := rfl

/-- The address of an `ObjectBlock`. -/
abbrev BlockPtr := Nat

structure BlockGroup where
  blockList : Nat → Option BlockPtr
  blockSize : Nat

/-- What `new BlockGroup` holds: `block_size` is 0, `block_list` is not initialised. -/
def BlockGroup.new : BlockGroup := ⟨fun _ => none, 0⟩

structure GlobalGroup where
  groupList : Nat → Option Nat
  groupSize : Nat
  /-- The `BlockGroup`s by address, and the address of the next one; an address is a number. -/
  groups : Nat → BlockGroup
  newGroup : Nat
  /-- The address of the next `ObjectBlock`. -/
  newBlock : BlockPtr

namespace GlobalGroup

/-- `find(id)`: the block and the item index; `none` where the code would follow
a pointer that was never stored.  The `- 1` is `uint64_t` arithmetic. -/
def find (g : GlobalGroup) (id : Nat) : Option (BlockPtr × Nat) := do
  let objId := id &&& 0xFFFFFFFF
  let blockId := objId >>> BASE
  let groupId := ((blockId >>> BASE) + (2 ^ 64 - 1)) % 2 ^ 64
  let group ← g.groupList groupId
  let block ← (g.groups group).blockList (blockId &&& BASE_MARK)
  pure (block, objId &&& BASE_MARK)

/-- `add_group(old_group_size)`, the section under `group_mutex_`. -/
def addGroup (g : GlobalGroup) (oldGroupSize : Nat) : Bool × GlobalGroup :=
  if g.groupSize ≠ oldGroupSize then (true, g)
  else if g.groupSize < NG then
    (true,
      { g with
        groupList := Function.update g.groupList g.groupSize (some g.newGroup)
        groupSize := g.groupSize + 1
        groups := Function.update g.groups g.newGroup BlockGroup.new
        newGroup := g.newGroup + 1 })
  else (false, g)

/-- The static object before its constructor ran: zeroed memory. -/
def zeroed : GlobalGroup := ⟨fun _ => none, 0, fun _ => BlockGroup.new, 0, 0⟩

/-- `GlobalGroup() : group_size_(0) { add_group(0); }` -/
def new : GlobalGroup := (zeroed.addGroup 0).2

/-- The counter of the group at `p` becomes `n`. -/
def setBlockSize (g : GlobalGroup) (p : Nat) (n : Nat) : GlobalGroup :=
  { g with groups := Function.update g.groups p { g.groups p with blockSize := n } }

/-- `block_list[b].store(block)` in the group at `p`. -/
def setEntry (g : GlobalGroup) (p : Nat) (b : Nat) (block : BlockPtr) : GlobalGroup :=
  { g with
    groups := Function.update g.groups p
      { g.groups p with blockList := Function.update (g.groups p).blockList b (some block) } }

section Accesses
variable (g : GlobalGroup) (p i : Nat) (n b : Nat) (block : BlockPtr)

@[simp] theorem setBlockSize_groupSize : (g.setBlockSize p n).groupSize = g.groupSize := rfl
@[simp] theorem setBlockSize_groupList : (g.setBlockSize p n).groupList = g.groupList := rfl
@[simp] theorem setBlockSize_newGroup : (g.setBlockSize p n).newGroup = g.newGroup := rfl
@[simp] theorem setEntry_groupSize : (g.setEntry p b block).groupSize = g.groupSize := rfl
@[simp] theorem setEntry_groupList : (g.setEntry p b block).groupList = g.groupList := rfl
@[simp] theorem setEntry_newGroup : (g.setEntry p b block).newGroup = g.newGroup := rfl

theorem setBlockSize_blockSize : ((g.setBlockSize p n).groups i).blockSize
    = if i = p then n else (g.groups i).blockSize := by
  by_cases h : i = p <;> simp [setBlockSize, h]

@[simp] theorem setBlockSize_blockList :
    ((g.setBlockSize p n).groups i).blockList = (g.groups i).blockList := by
  by_cases h : i = p
  · subst h; simp [setBlockSize]
  · simp [setBlockSize, Function.update_of_ne h]

@[simp] theorem setEntry_blockSize :
    ((g.setEntry p b block).groups i).blockSize = (g.groups i).blockSize := by
  by_cases h : i = p
  · subst h; simp [setEntry]
  · simp [setEntry, Function.update_of_ne h]

theorem setEntry_blockList (c : Nat) : ((g.setEntry p b block).groups i).blockList c
    = if (i, c) = (p, b) then some block else (g.groups i).blockList c := by
  by_cases h : i = p
  · subst h
    by_cases hc : c = b <;> simp [setEntry, hc]
  · simp [setEntry, h]

end Accesses

end GlobalGroup

/-- The id of the first item of a block: `((group_size << BASE) + block_size) << BASE`. -/
def baseId (groupSize blockSize : Nat) : Nat := ((groupSize <<< BASE) + blockSize) <<< BASE

/-! ## `add_block`, one atomic access a step -/

/-- Where a thread is in `add_block`, with the locals it holds there. -/
inductive Pc where
  | idle
  | loadSize (ret : BlockPtr)
  | loadGroup (ret : BlockPtr) (groupSize : Nat)
  | fetchAdd (ret : BlockPtr) (groupSize : Nat) (group : Nat)
  | store (ret : BlockPtr) (groupSize : Nat) (group : Nat) (blockSize : Nat)
  | fetchSub (ret : BlockPtr) (groupSize : Nat) (group : Nat)
  | addGroup (ret : BlockPtr) (groupSize : Nat)
  /-- Past `assert(0)`: the arena refused the block. -/
  | refused
  deriving DecidableEq

/-- What an `acquire` that succeeds returns, and the entry it wrote for it. -/
structure Ret where
  base : Nat
  block : BlockPtr
  group : Nat
  entry : Nat

inductive Event where
  | tau
  | acquired (r : Ret)
  | refused

structure State (ι : Type) where
  g : GlobalGroup
  pc : ι → Pc

variable {ι : Type} [DecidableEq ι]

def State.goto (s : State ι) (t : ι) (p : Pc) : State ι :=
  { s with pc := Function.update s.pc t p }

inductive Step : State ι → Event → State ι → Prop
  /-- `acquire(id)` is called: `ret = new ObjectBlock`. -/
  | call {s : State ι} (t : ι) : s.pc t = .idle →
      Step s .tau
        { g := { s.g with newBlock := s.g.newBlock + 1 }
          pc := Function.update s.pc t (.loadSize s.g.newBlock) }
  | loadSize {s : State ι} (t : ι) {ret : BlockPtr} : s.pc t = .loadSize ret →
      Step s .tau (s.goto t (.loadGroup ret s.g.groupSize))
  /-- `group_list_[group_size - 1].load()`; a null entry has no step. -/
  | loadGroup {s : State ι} (t : ι) {ret : BlockPtr} {gs : Nat} {p : Nat} :
      s.pc t = .loadGroup ret gs → s.g.groupList (gs - 1) = some p →
      Step s .tau (s.goto t (.fetchAdd ret gs p))
  /-- `fetch_add` returned an index below `N`. -/
  | fetchAdd {s : State ι} (t : ι) {ret : BlockPtr} {gs : Nat} {p : Nat} :
      s.pc t = .fetchAdd ret gs p → (s.g.groups p).blockSize < N →
      Step s .tau
        { g := s.g.setBlockSize p ((s.g.groups p).blockSize + 1)
          pc := Function.update s.pc t (.store ret gs p (s.g.groups p).blockSize) }
  /-- `fetch_add` overshot: the group is full. -/
  | overshoot {s : State ι} (t : ι) {ret : BlockPtr} {gs : Nat} {p : Nat} :
      s.pc t = .fetchAdd ret gs p → ¬ (s.g.groups p).blockSize < N →
      Step s .tau
        { g := s.g.setBlockSize p ((s.g.groups p).blockSize + 1)
          pc := Function.update s.pc t (.fetchSub ret gs p) }
  /-- `block_list[block_size].store(ret)`, then `*block_id = …; return ret`. -/
  | store {s : State ι} (t : ι) {ret : BlockPtr} {gs : Nat} {p : Nat} {bs : Nat} :
      s.pc t = .store ret gs p bs →
      Step s (.acquired ⟨baseId gs bs, ret, p, bs⟩)
        { g := s.g.setEntry p bs ret, pc := Function.update s.pc t .idle }
  | fetchSub {s : State ι} (t : ι) {ret : BlockPtr} {gs : Nat} {p : Nat} :
      s.pc t = .fetchSub ret gs p →
      Step s .tau
        { g := s.g.setBlockSize p ((s.g.groups p).blockSize - 1)
          pc := Function.update s.pc t (.addGroup ret gs) }
  /-- `while (add_group(group_size))`: once more round the loop. -/
  | addGroup {s : State ι} (t : ι) {ret : BlockPtr} {gs : Nat} :
      s.pc t = .addGroup ret gs → (s.g.addGroup gs).1 = true →
      Step s .tau
        { g := (s.g.addGroup gs).2, pc := Function.update s.pc t (.loadSize ret) }
  /-- `add_group` returned false: `assert(0)`. -/
  | refuse {s : State ι} (t : ι) {ret : BlockPtr} {gs : Nat} :
      s.pc t = .addGroup ret gs → (s.g.addGroup gs).1 = false →
      Step s .refused (s.goto t .refused)

/-- The arena of a program with the threads `ι`. -/
def arena (ι : Type) [DecidableEq ι] : System (State ι) Event where
  init s := s = ⟨GlobalGroup.new, fun _ => .idle⟩
  step := Step

/-- What the `acquire`s of a run returned, in the order of their stores. -/
def returns : List Event → List Ret
  | [] => []
  | .acquired r :: es => r :: returns es
  | _ :: es => returns es

theorem returns_append (es es' : List Event) :
    returns (es ++ es') = returns es ++ returns es' := by
  induction es with
  | nil => rfl
  | cons e es ih => cases e <;> simp [returns, ih]

end PBase.Arena
