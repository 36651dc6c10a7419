/-
# `PBase.Socket.Promise` — what a successful `Listen` or `Connect` leaves

`Listen` and `Connect` make one system call after the other on a new descriptor.  Here they are
written with what the kernel knows of it: the two words of flags, the address it is bound to, and
whether it listens.  `Kernel` are the answers: to each call, and the words of the new descriptor.

A success does not always mean what it says:

* `Listen` returns `false` if `bind` fails, and that is 0;
* the flags are only added to a word that is positive, and the word of a new descriptor that
  `F_GETFD` returns is usually 0;
* a call that fails is believed to set `errno` to something else than 0.

`listen_iff` and `connect_iff` say when they keep the promise.
-/
import PBase.Socket.Model
import PBase.EndPoint.Model

namespace PBase.Socket

def AF_INET : Nat := 2
def O_NONBLOCK : BitVec 32 := 0x800
def FD_CLOEXEC : BitVec 32 := 1

/-- `struct sockaddr_in` -/
structure SockAddr where
  family : Nat
  port : BitVec 16
  addr : BitVec 32

/-- `servaddr`; `htons` swaps the bytes as `ntohs` does. -/
def servaddr (endpoint : EndPoint) : SockAddr :=
  { family := AF_INET, port := EndPoint.ntohs endpoint.port, addr := endpoint.ip }

/-- What the kernel knows of a descriptor. -/
structure Descriptor where
  /-- The words for `F_GETFL` and `F_GETFD`. -/
  status : BitVec 32
  flags : BitVec 32
  bound : Option SockAddr
  listening : Bool
  /-- A call of `fcntl` failed. -/
  fcntlFailed : Bool

/-- The answers. -/
structure Kernel where
  socket : Result Nat
  status : BitVec 32
  flags : BitVec 32
  getfl : Result Unit
  setfl : Result Unit
  getfd : Result Unit
  setfd : Result Unit
  bind : Result Unit
  list : Result Unit
  conn : Result Unit

/-- What a call returns, and `fd_` with its descriptor afterwards. -/
structure Reply where
  ret : Int
  fd : Int
  desc : Option Descriptor

namespace Kernel

variable (k : Kernel)

/-- The descriptor `socket` returns. -/
def created : Descriptor :=
  { status := k.status, flags := k.flags, bound := none, listening := false, fcntlFailed := false }

/-- `set_non_block()` and `set_close_on_exec()`: what is returned, the word afterwards, and
whether a call failed. -/
def addFlag (get set : Result Unit) (flag word : BitVec 32) : Int × BitVec 32 × Bool :=
  match get with
  | .error _ => (-1, word, true)
  | .ok _ =>
      if word.toInt > 0 then
        match set with
        | .error _ => (-1, word, true)
        | .ok _ => (0, word ||| flag, false)
      else (word.toInt, word, false)

/-- `set_non_block()` -/
def setNonBlock (d : Descriptor) : Int × Descriptor :=
  let (ret, status, failed) := addFlag k.getfl k.setfl O_NONBLOCK d.status
  (ret, { d with status := status, fcntlFailed := d.fcntlFailed || failed })

/-- `set_close_on_exec()` -/
def setCloseOnExec (d : Descriptor) : Int × Descriptor :=
  let (ret, flags, failed) := addFlag k.getfd k.setfd FD_CLOEXEC d.flags
  (ret, { d with flags := flags, fcntlFailed := d.fcntlFailed || failed })

/-- `Listen(endpoint)`.  What `set_defer_accpet` does is not seen. -/
def listen (endpoint : EndPoint) : Reply :=
  match k.socket with
  | .error errno => ⟨errno, -1, none⟩
  | .ok fd =>
      let d := k.created
      match k.bind with
      | .error _ => ⟨0, fd, some d⟩
      | .ok _ =>
          let d := { d with bound := some (servaddr endpoint) }
          let d := (k.setNonBlock d).2
          let d := (k.setCloseOnExec d).2
          match k.list with
          | .error errno => ⟨errno, fd, some d⟩
          | .ok _ => ⟨0, fd, some { d with listening := true }⟩

/-- `Connect(endpoint)`, after `reset(-1)`. -/
def connect : Reply :=
  match k.socket with
  | .error errno => ⟨errno, -1, none⟩
  | .ok fd =>
      let d := k.created
      let d := (k.setNonBlock d).2
      let d := (k.setCloseOnExec d).2
      let err := match k.conn with
        | .ok _ => 0
        | .error errno => errno
      ⟨connectResult err, fd, some d⟩

/-- `fd_` and what is returned are as without the descriptor. -/
theorem listen_eq (endpoint : EndPoint) (fd_ : Int) :
    (k.listen endpoint).fd = (Socket.listen fd_ (k.socket.map Nat.cast) k.bind k.list).fd ∧
    (k.listen endpoint).ret = (Socket.listen fd_ (k.socket.map Nat.cast) k.bind k.list).ret := by
  unfold listen Socket.listen
  cases k.socket with
  | error errno => exact ⟨rfl, rfl⟩
  | ok fd => cases k.bind <;> cases k.list <;> exact ⟨rfl, rfl⟩

theorem connect_eq (fd_ : Int) :
    k.connect.fd = (Socket.connect fd_ (k.socket.map Nat.cast) k.conn).fd ∧
    k.connect.ret = (Socket.connect fd_ (k.socket.map Nat.cast) k.conn).ret := by
  unfold connect Socket.connect
  cases k.socket <;> exact ⟨rfl, rfl⟩

/-! ## The promise -/

/-- A descriptor that is bound to the endpoint and listens. -/
def Listening (endpoint : EndPoint) (r : Reply) : Prop :=
  ∃ d, r.desc = some d ∧ d.bound = some (servaddr endpoint) ∧ d.listening = true

/-- A descriptor with the two flags more than it had. -/
def HasFlags (r : Reply) : Prop :=
  ∃ d, r.desc = some d ∧ d.status = k.status ||| O_NONBLOCK ∧ d.flags = k.flags ||| FD_CLOEXEC

/-- All calls of `fcntl` succeeded. -/
def FcntlSucceeded (r : Reply) : Prop := ∀ d, r.desc = some d → d.fcntlFailed = false

def ListenPromise (endpoint : EndPoint) : Prop :=
  (k.listen endpoint).ret = 0 → Listening endpoint (k.listen endpoint) ∧
    (FcntlSucceeded (k.listen endpoint) → k.HasFlags (k.listen endpoint))

def ConnectPromise : Prop :=
  k.connect.ret = 0 → FcntlSucceeded k.connect → k.HasFlags k.connect

/-! ## When it is kept -/

/-- A call on this word fails. -/
def Fails (get set : Result Unit) (word : BitVec 32) : Prop :=
  (∃ errno, get = .error errno) ∨ word.toInt > 0 ∧ ∃ errno, set = .error errno

/-- The flag is added, or was there. -/
def Takes (flag word : BitVec 32) : Prop := word.toInt > 0 ∨ word = word ||| flag

/-- A call of `fcntl` fails, or both words take their flag. -/
def FlagsKept : Prop :=
  Fails k.getfl k.setfl k.status ∨ Fails k.getfd k.setfd k.flags ∨
    Takes O_NONBLOCK k.status ∧ Takes FD_CLOEXEC k.flags

section Flags
variable {k} {get set : Result Unit} {flag word : BitVec 32} {d : Descriptor}

theorem addFlag_failed : (addFlag get set flag word).2.2 = true ↔ Fails get set word := by
  unfold addFlag Fails
  cases get with
  | error errno => exact ⟨fun _ => .inl ⟨errno, rfl⟩, fun _ => rfl⟩
  | ok _ =>
      by_cases hpos : word.toInt > 0
      · cases set with
        | error errno => simp [hpos]
        | ok _ => simp [hpos]
      · simp [hpos]

/-- A word that is 0 stays 0. -/
theorem addFlag_word (h : ¬ Fails get set word) :
    (addFlag get set flag word).2.1 = word ||| flag ↔ Takes flag word := by
  unfold addFlag Fails at *
  unfold Takes
  cases get with
  | error errno => exact absurd (.inl ⟨errno, rfl⟩) h
  | ok _ =>
      by_cases hpos : word.toInt > 0
      · cases set with
        | error errno => exact absurd (.inr ⟨hpos, errno, rfl⟩) h
        | ok _ => simp [hpos]
      · simp [hpos]

/-- Both functions, on a descriptor that is new. -/
theorem flags_iff (hfailed : d.fcntlFailed = false) (hstatus : d.status = k.status)
    (hflags : d.flags = k.flags) {d' : Descriptor}
    (hd' : d' = (k.setCloseOnExec (k.setNonBlock d).2).2) :
    (d'.fcntlFailed = false → d'.status = k.status ||| O_NONBLOCK ∧
      d'.flags = k.flags ||| FD_CLOEXEC) ↔ k.FlagsKept := by
  have hfails : d'.fcntlFailed = false ↔
      ¬ Fails k.getfl k.setfl k.status ∧ ¬ Fails k.getfd k.setfd k.flags := by
    rw [hd', ← @addFlag_failed _ _ O_NONBLOCK, ← @addFlag_failed _ _ FD_CLOEXEC]
    simp only [setCloseOnExec, setNonBlock, hfailed, hstatus, hflags, Bool.false_or,
      Bool.or_eq_false_iff, Bool.not_eq_true]
  have hword : d'.status = (addFlag k.getfl k.setfl O_NONBLOCK k.status).2.1 ∧
      d'.flags = (addFlag k.getfd k.setfd FD_CLOEXEC k.flags).2.1 := by
    rw [hd']
    simp only [setCloseOnExec, setNonBlock, hstatus, hflags, and_self]
  rw [hfails, hword.1, hword.2, FlagsKept]
  constructor
  · intro h
    by_cases hfl : Fails k.getfl k.setfl k.status
    · exact .inl hfl
    · by_cases hfd : Fails k.getfd k.setfd k.flags
      · exact .inr (.inl hfd)
      · obtain ⟨hst, hfg⟩ := h ⟨hfl, hfd⟩
        exact .inr (.inr ⟨(addFlag_word hfl).mp hst, (addFlag_word hfd).mp hfg⟩)
  · rintro (hfl | hfd | htakes) ⟨hfl', hfd'⟩
    · exact absurd hfl hfl'
    · exact absurd hfd hfd'
    · rwa [addFlag_word hfl', addFlag_word hfd']

/-- The promise about flags, of a reply with the descriptor `d`. -/
theorem flags_promise (h : (d.fcntlFailed = false → d.status = k.status ||| O_NONBLOCK ∧
      d.flags = k.flags ||| FD_CLOEXEC) ↔ k.FlagsKept) {r : Reply} (hr : r.desc = some d) :
    (FcntlSucceeded r → k.HasFlags r) ↔ k.FlagsKept := by
  rw [← h]
  have hone : ∀ {d'}, r.desc = some d' → d' = d := fun hd' => Option.some.inj (hd'.symm.trans hr)
  constructor
  · intro hpromise hf
    obtain ⟨d', hd', hwords⟩ := hpromise fun d' hd' => hone hd' ▸ hf
    rwa [hone hd'] at hwords
  · intro hwords hf
    exact ⟨d, hr, hwords (hf d hr)⟩

end Flags

/-- When `Listen` keeps its promise: no socket, and an `errno` that says so; or a socket that is
bound, and does not listen, with such an `errno`, or keeps its flags. -/
def ListenKeeps : Prop :=
  match k.socket with
  | .error errno => errno ≠ 0
  | .ok _ => (∃ u, k.bind = .ok u) ∧
      match k.list with
      | .error errno => errno ≠ 0
      | .ok _ => k.FlagsKept

/-- When `Connect` does. -/
def ConnectKeeps : Prop :=
  match k.socket with
  | .error errno => errno ≠ 0
  | .ok _ =>
      (∃ errno, k.conn = .error errno ∧ errno ∉ [0, EINPROGRESS, EINTR, EISCONN]) ∨ k.FlagsKept

theorem listen_iff (endpoint : EndPoint) : k.ListenPromise endpoint ↔ k.ListenKeeps := by
  unfold ListenPromise ListenKeeps listen
  cases k.socket with
  | error errno =>
      constructor
      · intro h h0
        obtain ⟨⟨d, hd, -⟩, -⟩ := h h0
        cases hd
      · intro hne h0
        exact absurd h0 hne
  | ok fd =>
      cases k.bind with
      | error errno =>
          constructor
          · intro h
            obtain ⟨⟨d, hd, hbound, -⟩, -⟩ := h rfl
            cases hd
            cases hbound
          · rintro ⟨⟨u, hu⟩, -⟩
            cases hu
      | ok _ =>
          cases k.list with
          | error errno =>
              constructor
              · intro h
                refine ⟨⟨_, rfl⟩, fun h0 => ?_⟩
                obtain ⟨⟨d, hd, -, hlist⟩, -⟩ := h h0
                cases hd
                cases hlist
              · rintro ⟨-, hne⟩ h0
                exact absurd h0 hne
          | ok _ =>
              have hflags := flags_iff (k := k)
                (d := { k.created with bound := some (servaddr endpoint) }) rfl rfl rfl rfl
              have hpromise := flags_promise (k := k) (d := { (k.setCloseOnExec (k.setNonBlock
                { k.created with bound := some (servaddr endpoint) }).2).2 with
                  listening := true }) hflags (r := ⟨0, fd, some _⟩) rfl
              constructor
              · intro h
                exact ⟨⟨_, rfl⟩, hpromise.mp (h rfl).2⟩
              · rintro ⟨-, hkept⟩ -
                exact ⟨⟨_, rfl, rfl, rfl⟩, hpromise.mpr hkept⟩

theorem connectResult_eq_zero (err : Int) :
    connectResult err = 0 ↔ err ∈ [0, EINPROGRESS, EINTR, EISCONN] := by
  unfold connectResult
  split
  · exact ⟨fun _ => by assumption, fun _ => rfl⟩
  · rename_i hnot
    refine ⟨fun h0 => ?_, fun hmem => absurd hmem hnot⟩
    split at h0 <;> cases h0

theorem connect_iff : k.ConnectPromise ↔ k.ConnectKeeps := by
  unfold ConnectPromise ConnectKeeps connect
  cases k.socket with
  | error errno =>
      constructor
      · intro h h0
        obtain ⟨d, hd, -⟩ := h h0 fun d hd => by cases hd
        cases hd
      · intro hne h0
        exact absurd h0 hne
  | ok fd =>
      have hflags := flags_iff (k := k) (d := k.created) rfl rfl rfl rfl
      cases k.conn with
      | error errno =>
          show (connectResult errno = 0 → _) ↔ _
          rw [connectResult_eq_zero, flags_promise hflags rfl]
          constructor
          · intro h
            by_cases hmem : errno ∈ [0, EINPROGRESS, EINTR, EISCONN]
            · exact .inr (h hmem)
            · exact .inl ⟨errno, rfl, hmem⟩
          · rintro (⟨_, heq, hnot⟩ | hkept) hmem
            · cases heq
              exact absurd hmem hnot
            · exact hkept
      | ok _ =>
          constructor
          · intro h
            exact .inr ((flags_promise hflags rfl).mp (h rfl))
          · rintro (⟨_, heq, -⟩ | hkept) -
            · cases heq
            · exact (flags_promise hflags rfl).mpr hkept

/-- **When a success means what it says.**  `Listen` returns 0 only for a descriptor that is bound
and listens, and with the flags if no `fcntl` failed, exactly if a `socket` or `listen` that fails
sets `errno`, `bind` does not fail, and the flags are kept; `Connect` exactly if a `socket` that
fails sets `errno`, and the flags are kept or `connect` fails for good. -/
theorem promises_iff (endpoint : EndPoint) :
    (k.ListenPromise endpoint ↔ k.ListenKeeps) ∧ (k.ConnectPromise ↔ k.ConnectKeeps) :=
  ⟨k.listen_iff endpoint, k.connect_iff⟩

/-- A socket as `socket` makes it: it can be read and written, and there is no flag for `F_GETFD`.
The address is in use. -/
def inUse : Kernel :=
  { socket := .ok 3, status := 2, flags := 0, getfl := .ok (), setfl := .ok (), getfd := .ok ()
    setfd := .ok (), bind := .error EADDRINUSE, list := .ok (), conn := .ok () }

/-- `Listen` returns 0, and the socket is not bound; `Connect` returns 0, and the descriptor stays
open in a program that is executed. -/
theorem promises_broken : (¬ ∀ (k : Kernel) endpoint, k.ListenPromise endpoint) ∧
    ¬ ∀ k : Kernel, k.ConnectPromise := by
  constructor
  · intro h
    obtain ⟨⟨d, hd, hbound, -⟩, -⟩ := h inUse ⟨0, 0, 0⟩ rfl
    cases hd
    cases hbound
  · intro h
    obtain ⟨d, hd, -, hflags⟩ := h inUse rfl fun d hd => by
      cases hd
      rfl
    cases hd
    exact absurd hflags (by decide)

end Kernel

end PBase.Socket
