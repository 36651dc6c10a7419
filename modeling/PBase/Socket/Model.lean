/-
# `PBase.Socket.Model` — `SocketFd`

A `SocketFd` has a descriptor `fd_`, or none (a negative number).  The functions are written
as what they do to `fd_`, what they return and what happens to descriptors, in order: one is
obtained from the kernel, closed, released to the caller or taken from it.  What the kernel
answers is an argument: a descriptor or an `errno`.

A run is any sequence of calls on any number of objects.  The kernel returns any descriptor
that is not open; the caller has descriptors of its own, hands over only such as no object
owns, and closes only its own.  `Fate` is what became of a descriptor number so far, and so of
the last descriptor with that number: it was obtained and not heard of since, or it is in the
hands of the caller, or it was closed, or something was done that needs an open descriptor of
one's own.
-/
import PBase.Lib.System

namespace PBase.Socket

open PBase.Lib

inductive Event where
  /-- `socket` or `accept4` returned it. -/
  | obtained (fd : Int)
  | closed (fd : Int)
  | released (fd : Int)
  /-- By a constructor or by `reset`. -/
  | taken (fd : Int)
  /-- The caller gets a descriptor elsewhere, and closes one of its own. -/
  | callerOpened (fd : Int)
  | callerClosed (fd : Int)

/-! ## `SocketFd` -/

/-- What a kernel call returns: a value, or it sets `errno`. -/
abbrev Result := Except Int

def EINTR : Int := 4
def EAGAIN : Int := 11
def EADDRINUSE : Int := 98
def EADDRNOTAVAIL : Int := 99
def ENETUNREACH : Int := 101
def EISCONN : Int := 106
def ECONNREFUSED : Int := 111
def EINPROGRESS : Int := 115

/-- `fd_` afterwards, the value returned, and what happened to descriptors. -/
structure Outcome (α : Type) where
  fd : Int
  ret : α
  events : List Event

/-- A descriptor given by the caller, if it is one. -/
def given (fd : Int) : List Event := if fd ≥ 0 then [.taken fd] else []

/-- `reset(fd)` -/
def reset (fd_ fd : Int) : Outcome Bool :=
  if fd_ ≥ 0 then ⟨fd, true, .closed fd_ :: given fd⟩ else ⟨fd, false, given fd⟩

/-- `release()` -/
def release (fd_ : Int) : Outcome Int := ⟨-1, fd_, if fd_ ≥ 0 then [.released fd_] else []⟩

/-- `Shutdown()` -/
def shutdown (fd_ : Int) (shut : Result Unit) : Outcome Int :=
  match shut with
  | .ok _ => ⟨-1, 0, []⟩
  | .error errno => ⟨fd_, errno, []⟩

/-- The value `Connect` returns for the `errno` of `connect`. -/
def connectResult (err : Int) : Int :=
  if err ∈ [0, EINPROGRESS, EINTR, EISCONN] then 0
  else if err ∈ [EAGAIN, EADDRINUSE, EADDRNOTAVAIL, ECONNREFUSED, ENETUNREACH] then 1
  else -1

/-- `Connect(endpoint)` -/
def connect (fd_ : Int) (socket : Result Int) (conn : Result Unit) : Outcome Int :=
  let r := reset fd_ (-1)
  match socket with
  | .error errno => ⟨-1, errno, r.events⟩
  | .ok fd =>
      let err := match conn with
        | .ok _ => 0
        | .error errno => errno
      ⟨fd, connectResult err, r.events ++ [.obtained fd]⟩

/-- `Listen(endpoint)` -/
def listen (_fd_ : Int) (socket : Result Int) (bind list : Result Unit) : Outcome Int :=
  match socket with
  | .error errno => ⟨-1, errno, []⟩
  | .ok fd =>
      match bind with
      | .error _ => ⟨fd, 0, [.obtained fd]⟩
      | .ok _ =>
          match list with
          | .error errno => ⟨fd, errno, [.obtained fd]⟩
          | .ok _ => ⟨fd, 0, [.obtained fd]⟩

/-- `Accept(new_s)`; `fd` is the `fd_` of `new_s`, before and afterwards. -/
def accept (fd : Int) (accept4 : Result Int) : Outcome Int :=
  match accept4 with
  | .error errno => ⟨fd, errno, []⟩
  | .ok fd' => ⟨fd', 0, .obtained fd' :: if fd ≥ 0 then [.closed fd] else []⟩

/-! ## Descriptors -/

inductive Fate where
  | none
  /-- Obtained or taken. -/
  | held
  | caller
  | closed
  /-- Closed by an object that does not hold it. -/
  | bad
  deriving DecidableEq

def Fate.opened : Fate → Bool
  | held | caller => true
  | _ => false

def record (f : Int → Fate) : Event → Int → Fate
  | .obtained fd | .taken fd => Function.update f fd .held
  | .released fd | .callerOpened fd => Function.update f fd .caller
  | .closed fd => Function.update f fd (if f fd = .held then .closed else .bad)
  | .callerClosed fd => Function.update f fd .closed

/-- The kernel returns descriptors that are not open. -/
def Possible (f : Int → Fate) : Event → Prop
  | .obtained fd | .callerOpened fd => 0 ≤ fd ∧ (f fd).opened = false
  | _ => True

def Legal (f : Int → Fate) : List Event → Prop
  | [] => True
  | e :: es => Possible f e ∧ Legal (record f e) es

/-! ## Runs -/

/-- A call, with the answers of the kernel. -/
inductive Op (ι : Type) where
  | construct (i : ι) (fd : Int)
  | connect (i : ι) (socket : Result Int) (conn : Result Unit)
  | listen (i : ι) (socket : Result Int) (bind list : Result Unit)
  /-- `i.Accept(&j)` -/
  | accept (i j : ι) (accept4 : Result Int)
  | shutdown (i : ι) (shut : Result Unit)
  | reset (i : ι) (fd : Int)
  | release (i : ι)
  | destroy (i : ι)
  | callerOpen (fd : Int)
  | callerClose (fd : Int)

/-- The objects that are there, with their `fd_`, and the descriptors. -/
structure State (ι : Type) where
  fd : ι → Option Int
  fate : Int → Fate

variable {ι : Type} [DecidableEq ι]

/-- The object `i` changes its `fd_`, or is destroyed. -/
def State.set (s : State ι) (i : ι) (fd : Option Int) (es : List Event) : State ι :=
  { fd := Function.update s.fd i fd, fate := es.foldl record s.fate }

/-- The caller hands over descriptors that no object owns. -/
def Unowned (s : State ι) (fd : Int) : Prop :=
  0 ≤ fd → (s.fate fd).opened = true ∧ ∀ i, s.fd i ≠ some fd

inductive Step (s : State ι) : Op ι → State ι → Prop
  | construct (i : ι) (fd : Int) : s.fd i = none → Unowned s fd →
      Step s (.construct i fd) (s.set i (some fd) (given fd))
  | connect (i : ι) {fd : Int} (socket : Result Int) (conn : Result Unit) : s.fd i = some fd →
      Legal s.fate (connect fd socket conn).events →
      Step s (.connect i socket conn)
        (s.set i (some (connect fd socket conn).fd) (connect fd socket conn).events)
  | listen (i : ι) {fd : Int} (socket : Result Int) (bind list : Result Unit) : s.fd i = some fd →
      Legal s.fate (listen fd socket bind list).events →
      Step s (.listen i socket bind list)
        (s.set i (some (listen fd socket bind list).fd) (listen fd socket bind list).events)
  | accept (i j : ι) {fd : Int} (accept4 : Result Int) : (s.fd i).isSome → s.fd j = some fd →
      Legal s.fate (accept fd accept4).events →
      Step s (.accept i j accept4)
      (s.set j (some (accept fd accept4).fd) (accept fd accept4).events)
  | shutdown (i : ι) {fd : Int} (shut : Result Unit) : s.fd i = some fd →
      Step s (.shutdown i shut) (s.set i (some (shutdown fd shut).fd) (shutdown fd shut).events)
  | reset (i : ι) {fd : Int} (fd' : Int) : s.fd i = some fd → Unowned s fd' →
      Step s (.reset i fd') (s.set i (some (reset fd fd').fd) (reset fd fd').events)
  | release (i : ι) {fd : Int} : s.fd i = some fd →
      Step s (.release i) (s.set i (some (release fd).fd) (release fd).events)
  | destroy (i : ι) {fd : Int} : s.fd i = some fd →
      Step s (.destroy i) (s.set i none (reset fd (-1)).events)
  | callerOpen (fd : Int) : Possible s.fate (.callerOpened fd) →
      Step s (.callerOpen fd) { s with fate := record s.fate (.callerOpened fd) }
  | callerClose (fd : Int) : s.fate fd = .caller →
      Step s (.callerClose fd) { s with fate := record s.fate (.callerClosed fd) }

/-- Before the first object. -/
def sockets : System (State ι) (Op ι) where
  init s := (∀ i, s.fd i = none) ∧ ∀ fd, s.fate fd = .none
  step := Step

end PBase.Socket
