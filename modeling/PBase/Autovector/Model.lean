/-
# `PBase.Autovector.Model` — `autovector`

The first `kSize` items are in an array of the object, the others in a `std::vector`:

    values_  ├──── num_stack_items_ ────┤ … kSize        vect_  ├── items from kSize on ──┤

`vect_` is used only when the array is full, which the structure says of itself.  Of the capacity of
`vect_` the program asks only whether it is 0; it is so until `vect_` first holds something.

The iterators are indices, so a loop over them calls `operator[]` of one index after the other.
A call does not return if an `assert` fails.
-/
import PBase.Lib.System

namespace PBase.Autovector

open PBase.Lib

/-- `autovector<T, kSize>` -/
structure AutoVector (α : Type*) (kSize : Nat) where
  numStackItems : Nat
  values : Vector α kSize
  vect : List α
  /-- `vect_.capacity() != 0` -/
  grown : Bool
  le : numStackItems ≤ kSize
  full : vect ≠ [] → numStackItems = kSize
  room : vect ≠ [] → grown = true

namespace AutoVector

variable {α : Type*} {kSize : Nat}

/-- The constructor leaves the array as its items' constructors do. -/
def new (values : Vector α kSize) : AutoVector α kSize where
  numStackItems := 0
  values := values
  vect := []
  grown := false
  le := Nat.zero_le _
  full h := absurd rfl h
  room h := absurd rfl h

variable (v : AutoVector α kSize)

def onlyInStack : Bool := !v.grown

def size : Nat := v.numStackItems + v.vect.length

def empty : Bool := v.size == 0

/-- `resize(n)`; `vect_.resize` value-initialises what it adds. -/
def resize [Inhabited α] (n : Nat) : AutoVector α kSize :=
  if h : n > kSize then
    { v with
      numStackItems := kSize
      vect := v.vect.take (n - kSize) ++ List.replicate (n - kSize - v.vect.length) default
      grown := true
      le := Nat.le_refl _
      full := fun _ => rfl
      room := fun _ => rfl }
  else
    { v with
      numStackItems := n
      vect := []
      le := Nat.le_of_not_lt h
      full := fun h => absurd rfl h
      room := fun h => absurd rfl h }

/-- `operator[]` and `at` -/
def get (n : Nat) : Option α :=
  if n < v.size then
    if h : n < kSize then some v.values[n] else v.vect[n - kSize]?
  else none

/-- `(*this)[n] = item` -/
def set (n : Nat) (item : α) : Option (AutoVector α kSize) :=
  if n < v.size then
    if h : n < kSize then some { v with values := v.values.set n item }
    else some
      { v with
        vect := v.vect.set (n - kSize) item
        full := fun hne => v.full fun hnil => hne (by rw [hnil]; rfl)
        room := fun hne => v.room fun hnil => hne (by rw [hnil]; rfl) }
  else none

/-- `*it`, at the index of the iterator -/
def deref (index : Nat) : Option α := if v.size ≥ index then v.get index else none

/-- `*begin()` -/
def front : Option α := if !v.empty then v.deref 0 else none

/-- `*(end() - 1)` -/
def back : Option α := if !v.empty then v.deref (v.size - 1) else none

/-- `for (auto it = begin(); it != end(); ++it)`, with what is visited. -/
def forward : Option (List α) := (List.range v.size).mapM v.deref

/-- `for (auto it = rbegin(); it != rend(); ++it)`; a reverse iterator refers to what is in front of
it. -/
def backward : Option (List α) := ((List.range v.size).map (v.size - ·)).mapM fun base =>
    v.deref (base - 1)

/-- `push_back` and `emplace_back` -/
def pushBack (item : α) : AutoVector α kSize :=
  if h : v.numStackItems < kSize then
    { v with
      numStackItems := v.numStackItems + 1
      values := v.values.set v.numStackItems item
      le := h
      full := fun hne => absurd (v.full hne) (Nat.ne_of_lt h) }
  else
    { v with
      vect := v.vect ++ [item]
      grown := true
      full := fun _ => Nat.le_antisymm v.le (Nat.le_of_not_lt h)
      room := fun _ => rfl }

def popBack : Option (AutoVector α kSize) :=
  if !v.empty then
    if h : v.vect ≠ [] then
      some { v with
        vect := v.vect.dropLast
        full := fun _ => v.full h
        room := fun _ => v.room h }
    else
      some { v with
        numStackItems := v.numStackItems - 1
        le := Nat.le_trans (Nat.sub_le _ _) v.le
        full := fun hne => absurd hne h }
  else none

def clear : AutoVector α kSize :=
  { v with
    numStackItems := 0
    vect := []
    le := Nat.zero_le _
    full := fun h => absurd rfl h
    room := fun h => absurd rfl h }

/-- `assign(other)`, of another vector; only the items in use are copied from its array. -/
def assign (other : AutoVector α kSize) : AutoVector α kSize where
  numStackItems := other.numStackItems
  values := Vector.ofFn fun i => if i < other.numStackItems then other.values[i] else v.values[i]
  vect := other.vect
  grown := v.grown || !other.vect.isEmpty
  le := other.le
  full := other.full
  room h := by simp [h]

end AutoVector

/-! ## Runs -/

section
variable {ι : Type*} {α : Type*}

/-- A call on the vector `i`, with what it returns. -/
inductive Event (ι α : Type*) where
  /-- There is a new vector in the place of the old one. -/
  | construct (i : ι)
  | copy (i j : ι)
  | assign (i j : ι)
  | pushBack (i : ι) (item : α)
  | popBack (i : ι)
  | resize (i : ι) (n : Nat)
  | clear (i : ι)
  | set (i : ι) (n : Nat) (item : α)
  | get (i : ι) (n : Nat) (item : α)
  | front (i : ι) (item : α)
  | back (i : ι) (item : α)
  | size (i : ι) (n : Nat)
  | empty (i : ι) (result : Bool)
  | onlyInStack (i : ι) (result : Bool)
  | forward (i : ι) (items : List α)
  | backward (i : ι) (items : List α)

variable {kSize : Nat} [DecidableEq ι] [Inhabited α]

inductive Step (s : ι → AutoVector α kSize) : Event ι α → (ι → AutoVector α kSize) → Prop
  | construct {i : ι} (values : Vector α kSize) :
      Step s (.construct i) (Function.update s i (.new values))
  | copy {i j : ι} (values : Vector α kSize) : i ≠ j →
      Step s (.copy i j) (Function.update s i ((AutoVector.new values).assign (s j)))
  | assign {i j : ι} : i ≠ j → Step s (.assign i j) (Function.update s i ((s i).assign (s j)))
  | pushBack {i : ι} {item : α} : Step s (.pushBack i item)
      (Function.update s i ((s i).pushBack item))
  | popBack {i : ι} {v : AutoVector α kSize} : (s i).popBack = some v →
      Step s (.popBack i) (Function.update s i v)
  | resize {i : ι} {n : Nat} : Step s (.resize i n) (Function.update s i ((s i).resize n))
  | clear {i : ι} : Step s (.clear i) (Function.update s i (s i).clear)
  | set {i : ι} {n : Nat} {item : α} {v : AutoVector α kSize} : (s i).set n item = some v →
      Step s (.set i n item) (Function.update s i v)
  | get {i : ι} {n : Nat} {item : α} : (s i).get n = some item → Step s (.get i n item) s
  | front {i : ι} {item : α} : (s i).front = some item → Step s (.front i item) s
  | back {i : ι} {item : α} : (s i).back = some item → Step s (.back i item) s
  | size {i : ι} : Step s (.size i (s i).size) s
  | empty {i : ι} : Step s (.empty i (s i).empty) s
  | onlyInStack {i : ι} : Step s (.onlyInStack i (s i).onlyInStack) s
  | forward {i : ι} {items : List α} : (s i).forward = some items → Step s (.forward i items) s
  | backward {i : ι} {items : List α} : (s i).backward = some items → Step s (.backward i items) s

/-- Any number of vectors, new at first. -/
def vectors (ι α : Type*) (kSize : Nat) [DecidableEq ι] [Inhabited α] :
    System (ι → AutoVector α kSize) (Event ι α) where
  init s := ∀ i, ∃ values, s i = .new values
  step := Step

end

end PBase.Autovector
