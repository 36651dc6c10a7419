/-
# `PBase.Logger.Pipeline` — from the threads' statements to the output

Every thread has a stream of its own (`none` is the sink thread, which logs one record as it ends);
a record that is ended goes to `append_buf`, and before that to `g_ef_output_func` if its level is
at least `g_ef_log_level`.  Between two calls of a thread the others and the sink thread make any
number of steps.

    thread i   log_stream << … <<     Sink ── append_buf ──▶ LogSinkThread ──▶ g_output_func
    thread j      log_stream << …        Sink ──┘    └──▶ g_ef_output_func

The output is a sequence of whole records, and the records of a thread are in it as it made them
(`pipeline_in_order`), in the runs in which `LogSinkThread` keeps the order.
-/
import PBase.Logger.Record
import PBase.Logger.Order

namespace PBase.Logger

open PBase.Lib

/-! ## Threads -/

def LogLevel.toNat : LogLevel → Nat
  | kTrace => 0
  | kDebug => 1
  | kInfo => 2
  | kWarn => 3
  | kError => 4
  | kFatal => 5

structure Process (ι : Type) where
  stream : Option ι → LogStream
  /-- `log_level_` -/
  level : Option ι → LogLevel
  /-- The record a thread is about to give to `append_buf`. -/
  pending : Option ι → Option (List UInt8)
  sink : State
  /-- Given to `g_ef_output_func`. -/
  ef : List (List UInt8)

inductive Action (ι : Type) where
  /-- A call that ends no record. -/
  | call (i : Option ι) (op : StreamOp)
  /-- `Sink()` of a record, up to `append_buf`. -/
  | emit (i : Option ι) (level : LogLevel) (msg : List UInt8)
  | append (i : Option ι) (msg : List UInt8)
  /-- The sink thread, but for its record, and `stop()`. -/
  | sink (e : Event)

/-- `log_stream` sets the level, also where it does not begin a record. -/
def levelAfter (level : LogLevel) : StreamOp → LogLevel
  | .start _ _ level' _ => level'
  | _ => level

/-- What `append_buf` does for a thread.  The record of the sink thread is the last message. -/
inductive Handed {ι : Type} (s : State) (msg : List UInt8) : Option ι → State → Prop
  | thread (i : ι) : Handed s msg (some i) (s.appendBuf msg)
  | last : s.pc = .fatal → Handed s msg none { s.appendBuf msg with pc := .newBuffer }

section System
variable {ι : Type} [DecidableEq ι]

/-- Thread `i` can make a call. -/
def Process.Calls (p : Process ι) (i : Option ι) : Prop := p.pending i = none ∧
    (i = none → p.sink.pc = .fatal)

inductive ProcessStep (maxLengthPerLog : Nat) (efLogLevel : LogLevel) (p : Process ι) :
    Action ι → Process ι → Prop
  | call {i : Option ι} {op : StreamOp} {t : LogStream} : p.Calls i →
      StreamStep maxLengthPerLog (p.stream i) op t → t.out = (p.stream i).out →
      ProcessStep maxLengthPerLog efLogLevel p (.call i op)
        { p with
          stream := Function.update p.stream i t
          level := Function.update p.level i (levelAfter (p.level i) op) }
  | emit {i : Option ι} {t : LogStream} {msg : List UInt8} : p.Calls i →
      StreamStep maxLengthPerLog (p.stream i) .sink t → t.out = msg :: (p.stream i).out →
      ProcessStep maxLengthPerLog efLogLevel p (.emit i (p.level i) msg)
        { p with
          stream := Function.update p.stream i t
          pending := Function.update p.pending i (some msg)
          ef := p.ef ++ if efLogLevel.toNat ≤ (p.level i).toNat then [msg] else [] }
  | append {i : Option ι} {msg : List UInt8} {s : State} : p.pending i = some msg →
      Handed p.sink msg i s →
      ProcessStep maxLengthPerLog efLogLevel p (.append i msg)
        { p with pending := Function.update p.pending i none, sink := s }
  | sink {e : Event} {s : State} : Step p.sink e s → (∀ msg, e ≠ .appended msg) →
      ProcessStep maxLengthPerLog efLogLevel p (.sink e) { p with sink := s }

def process (maxLengthPerLog : Nat) (efLogLevel : LogLevel) : System (Process ι) (Action ι) where
  init p := (∀ i, (stream maxLengthPerLog).init (p.stream i)) ∧ (∀ i, p.pending i = none) ∧
      logger.init p.sink ∧ p.ef = []
  step := ProcessStep maxLengthPerLog efLogLevel

/-! ## What a run did -/

/-- As `LogSinkThread` sees it. -/
def Action.event : Action ι → Option Event
  | .append _ msg => some (.appended msg)
  | .sink e => some e
  | _ => none

/-- As the stream of thread `i` sees it. -/
def Action.callOf (i : Option ι) : Action ι → Option StreamOp
  | .call j op => if j = i then some op else none
  | .emit j _ _ => if j = i then some .sink else none
  | _ => none

def events (as : List (Action ι)) : List Event := as.filterMap Action.event

def callsOf (i : Option ι) (as : List (Action ι)) : List StreamOp := as.filterMap (Action.callOf i)

/-- The records, in the order of `append_buf`. -/
def records (as : List (Action ι)) : List (Option ι × List UInt8) := as.filterMap fun
  | .append i msg => some (i, msg)
  | _ => none

/-- The records and their levels, in the order in which they were ended. -/
def emitted (as : List (Action ι)) : List (Option ι × LogLevel × List UInt8) := as.filterMap fun
  | .emit i level msg => some (i, level, msg)
  | _ => none

/-- The records of thread `i`. -/
def recordsOf (i : Option ι) (as : List (Action ι)) : List (List UInt8) :=
  ((records as).filter fun r => r.1 = i).map Prod.snd

def emittedOf (i : Option ι) (as : List (Action ι)) : List (List UInt8) :=
  ((emitted as).filter fun r => r.1 = i).map fun r => r.2.2

/-- `c` holds of what `LogSinkThread` does. -/
def OnSink (c : State → Event → Prop) (p : Process ι) (a : Action ι) :
    Prop := ∀ e ∈ a.event, c p.sink e

variable {g : Nat} {ef : LogLevel} {as : List (Action ι)} {p q : Process ι} {a : Action ι}
  {c : State → Event → Prop}

omit [DecidableEq ι] in
theorem appended_events (as : List (Action ι))
    (h : ∀ e msg, Action.sink e ∈ as → e ≠ .appended msg) :
    appended (events as) = (records as).flatMap Prod.snd := by
  induction as with
  | nil => rfl
  | cons a as ih =>
      have ih := ih fun e msg he => h e msg (List.mem_cons_of_mem _ he)
      cases a with
      | call i op => exact ih
      | emit i level msg => exact ih
      | append i msg => exact congrArg (msg ++ ·) ih
      | sink e =>
          cases e with
          | tau => exact ih
          | appended msg => exact absurd rfl (h _ msg List.mem_cons_self)
          | output bytes => exact ih

theorem step_sink (h : ProcessStep g ef p a q) :
    a.event = none ∧ q.sink = p.sink ∨ ∃ e, a.event = some e ∧ Step p.sink e q.sink := by
  cases h with
  | call => exact .inl ⟨rfl, rfl⟩
  | emit => exact .inl ⟨rfl, rfl⟩
  | append _ hhanded =>
      refine .inr ⟨_, rfl, ?_⟩
      cases hhanded with
      | thread i => exact .append _
      | last hpc => exact .fatal _ hpc
  | sink hs _ => exact .inr ⟨_, rfl, hs⟩

/-- The sink thread's part of a run is a run of `LogSinkThread`. -/
theorem run_sink (h : ((process g ef).when (OnSink c)).Run as p) :
    (logger.when c).Run (events as) p.sink := by
  induction h with
  | start h₀ => exact .start h₀.2.2.1
  | @next as p q a h hs ih =>
      obtain ⟨hstep, hc⟩ := hs
      rw [events, List.filterMap_append]
      rcases step_sink hstep with ⟨hnone, hsame⟩ | ⟨e, hsome, hs⟩
      · have hnil : [a].filterMap Action.event = [] := by simp [hnone]
        rw [hnil, List.append_nil, hsame]
        exact ih
      · have hone : [a].filterMap Action.event = [e] := by simp [hsome]
        rw [hone]
        exact ih.next ⟨hs, hc e hsome⟩

/-- What an action does to the stream of thread `i`. -/
theorem step_stream (h : ProcessStep g ef p a q) (i : Option ι) :
    a.callOf i = none ∧ q.stream i = p.stream i ∨
      ∃ op, a.callOf i = some op ∧ StreamStep g (p.stream i) op (q.stream i) := by
  have hupdate : ∀ (j : Option ι) (op : StreamOp) (t : LogStream), StreamStep g (p.stream j) op t →
      (if j = i then some op else none) = none ∧ Function.update p.stream j t i = p.stream i ∨
        ∃ op', (if j = i then some op else none) = some op' ∧
          StreamStep g (p.stream i) op' (Function.update p.stream j t i) := fun j op t hs => by
    by_cases hji : j = i
    · subst hji
      rw [if_pos rfl, Function.update_self]
      exact .inr ⟨op, rfl, hs⟩
    · rw [if_neg hji, Function.update_of_ne (Ne.symm hji)]
      exact .inl ⟨rfl, rfl⟩
  cases h with
  | call _ hs _ => exact hupdate _ _ _ hs
  | emit _ hs _ => exact hupdate _ _ _ hs
  | append => exact .inl ⟨rfl, rfl⟩
  | sink => exact .inl ⟨rfl, rfl⟩

/-- A thread's part of a run is a run of its stream. -/
theorem run_stream (h : (process g ef).Run as p) (i : Option ι) :
    (stream g).Run (callsOf i as) (p.stream i) := by
  induction h with
  | start h₀ => exact .start (h₀.1 i)
  | @next as p q a h hs ih =>
      rw [callsOf, List.filterMap_append]
      rcases step_stream hs i with ⟨hnone, hsame⟩ | ⟨op, hsome, hs⟩
      · have hnil : [a].filterMap (Action.callOf i) = [] := by simp [hnone]
        rw [hnil, List.append_nil, hsame]
        exact ih
      · have hone : [a].filterMap (Action.callOf i) = [op] := by simp [hsome]
        rw [hone]
        exact ih.next hs

/-! ## The records of a thread -/

/-- What is known of the records, besides what is in the sink. -/
structure Kept (ef : LogLevel) (as : List (Action ι)) (p : Process ι) : Prop where
  out : ∀ i, emittedOf i as = (p.stream i).out.reverse
  pending : ∀ i, emittedOf i as = recordsOf i as ++ (p.pending i).toList
  ef : p.ef = ((emitted as).filter fun r => ef.toNat ≤ r.2.1.toNat).map fun r => r.2.2

/-- What one action adds. -/
structure Adds (ef : LogLevel) (p : Process ι) (a : Action ι) (q : Process ι) : Prop where
  out : ∀ k, (q.stream k).out.reverse = (p.stream k).out.reverse ++ emittedOf k [a]
  pending : ∀ k, recordsOf k [a] ++ (q.pending k).toList = (p.pending k).toList ++ emittedOf k [a]
  ef : q.ef = p.ef ++ ((emitted [a]).filter fun r => ef.toNat ≤ r.2.1.toNat).map fun r => r.2.2

theorem emittedOf_emit (i k : Option ι) (level : LogLevel) (msg : List UInt8) :
    emittedOf k [Action.emit i level msg] = if k = i then [msg] else [] := by
  rcases eq_or_ne k i with rfl | hne
  · simp [emittedOf, emitted]
  · simp [emittedOf, emitted, hne, hne.symm]

theorem recordsOf_append (i k : Option ι) (msg : List UInt8) :
    recordsOf k [Action.append i msg] = if k = i then [msg] else [] := by
  rcases eq_or_ne k i with rfl | hne
  · simp [recordsOf, records]
  · simp [recordsOf, records, hne, hne.symm]

theorem step_adds (hs : ProcessStep g ef p a q) : Adds ef p a q := by
  cases hs with
  | @call i op t _ _ hout =>
      refine ⟨fun k => ?_, fun k => (List.append_nil _).symm, (List.append_nil _).symm⟩
      show (Function.update p.stream i t k).out.reverse = _ ++ []
      rw [List.append_nil]
      rcases eq_or_ne k i with rfl | hne
      · rw [Function.update_self, hout]
      · rw [Function.update_of_ne hne]
  | @emit i t msg hcalls _ hout =>
      refine ⟨fun k => ?_, fun k => ?_, ?_⟩
      · show (Function.update p.stream i t k).out.reverse = _
        rw [emittedOf_emit]
        rcases eq_or_ne k i with rfl | hne
        · rw [Function.update_self, hout, if_pos rfl, List.reverse_cons]
        · rw [Function.update_of_ne hne, if_neg hne, List.append_nil]
      · show [] ++ (Function.update p.pending i (some msg) k).toList = _
        rw [emittedOf_emit]
        rcases eq_or_ne k i with rfl | hne
        · rw [Function.update_self, hcalls.1, if_pos rfl]
          rfl
        · rw [Function.update_of_ne hne, if_neg hne, List.append_nil, List.nil_append]
      · refine congrArg (p.ef ++ ·) ?_
        split
        · rename_i hle
          simp [emitted, hle]
        · rename_i hle
          simp [emitted, hle]
  | @append i msg s hpending _ =>
      refine ⟨fun k => (List.append_nil _).symm, fun k => ?_, (List.append_nil _).symm⟩
      show _ ++ (Function.update p.pending i none k).toList = _ ++ []
      rw [recordsOf_append]
      rcases eq_or_ne k i with rfl | hne
      · rw [Function.update_self, hpending, if_pos rfl]
        rfl
      · rw [Function.update_of_ne hne, if_neg hne, List.append_nil, List.nil_append]
  | sink _ _ =>
      exact ⟨fun k => (List.append_nil _).symm, fun k => (List.append_nil _).symm,
      (List.append_nil _).symm⟩

theorem Kept.step (h : Kept ef as p) (hs : ProcessStep g ef p a q) : Kept ef (as ++ [a]) q := by
  have hadds := step_adds hs
  have hemit : emitted (as ++ [a]) = emitted as ++ emitted [a] := List.filterMap_append
  have hemitted : ∀ k, emittedOf k (as ++ [a]) = emittedOf k as ++ emittedOf k [a] := fun k => by
    rw [emittedOf, hemit, List.filter_append, List.map_append]
    rfl
  have hrecords : ∀ k, recordsOf k (as ++ [a]) = recordsOf k as ++ recordsOf k [a] := fun k => by
    rw [recordsOf, records, List.filterMap_append, List.filter_append, List.map_append]
    rfl
  refine ⟨fun k => ?_, fun k => ?_, ?_⟩
  · rw [hemitted, hadds.out, h.out]
  · rw [hemitted, hrecords, List.append_assoc, hadds.pending, h.pending, List.append_assoc]
  · rw [hemit, List.filter_append, List.map_append, ← h.ef, hadds.ef]

theorem run_kept (h : (process g ef).Run as p) : Kept ef as p := by
  induction h with
  | start h₀ =>
      obtain ⟨hstreams, hpending, -, hef⟩ := h₀
      refine ⟨fun i => ?_, fun i => ?_, hef⟩
      · rw [(hstreams i).2.2.2.2.2.2]
        rfl
      · rw [hpending i]
        rfl
  | next _ hs ih => exact ih.step hs

/-- Only records are appended. -/
theorem ne_appended (h : (process g ef).Run as p) :
    ∀ e msg, Action.sink e ∈ as → e ≠ .appended msg := by
  induction h with
  | start _ => exact fun e msg he => absurd he List.not_mem_nil
  | @next as p q a h hs ih =>
      intro e msg he
      rcases List.mem_append.mp he with he | he
      · exact ih e msg he
      · obtain rfl := List.mem_singleton.mp he
        cases hs with
        | sink _ hne => exact hne msg

/-! ## A thread on its own -/

def Process.initial : Process Unit :=
  ⟨fun _ => .initial, fun _ => .kInfo, fun _ => none, .initial, []⟩

/-- The stream of a thread that begins a record. -/
def begun : LogStream := LogStream.initial.logStream 1024
    (List.ofFn fun _ : Fin kLogDateStrLen => 0) 1 .kInfo LogStream.initial.sourceFile

/-- A thread begins a record and ends it. -/
theorem run_record {c : State → Event → Prop} {as : List (Action Unit)} {p : Process Unit}
    {i : Option Unit} {msg : List UInt8} (h : ((process 1024 .kError).when (OnSink c)).Run as p)
    (hcalls : p.Calls i) (hstream : p.stream i = .initial)
    (hout : begun.sink.out = msg :: begun.out) :
    ∃ p', ((process 1024 .kError).when (OnSink c)).Run
        (as ++ [.call i (.start (fun _ => 0) 1 .kInfo LogStream.initial.sourceFile),
          .emit i .kInfo msg]) p' ∧
      p'.pending = Function.update p.pending i (some msg) ∧ p'.sink = p.sink ∧
      ∀ j ≠ i, p'.stream j = p.stream j := by
  have hnone : ∀ (s : State) (e : Event), e ∈ (none : Option Event) → c s e := fun _ _ h => by
    cases h
  obtain ⟨q, hbegun, hbegins, hlevel, hpending, hsink, hothers⟩ : ∃ q,
      ((process 1024 .kError).when (OnSink c)).Run
        (as ++ [.call i (.start (fun _ => 0) 1 .kInfo LogStream.initial.sourceFile)]) q ∧
      q.stream i = begun ∧ q.level i = .kInfo ∧ q.pending = p.pending ∧ q.sink = p.sink ∧
      ∀ j ≠ i, q.stream j = p.stream j := by
    refine ⟨_, h.next ⟨.call hcalls (.start (fun _ => 0) 1 .kInfo valid_initial)
      (by rw [hstream]; rfl), hnone _⟩, ?_, Function.update_self .., rfl, rfl,
      fun j hj => Function.update_of_ne hj ..⟩
    show Function.update p.stream i _ i = begun
    rw [Function.update_self, hstream]
    rfl
  rw [← hbegins] at hout
  have hends : StreamStep 1024 (q.stream i) .sink (q.stream i).sink :=
    .sink (by rw [hbegins]; rfl)
  have hemitted := hbegun.next ⟨.emit ⟨hpending ▸ hcalls.1, hsink ▸ hcalls.2⟩ hends hout, hnone _⟩
  rw [List.append_assoc, hlevel] at hemitted
  exact ⟨_, hemitted, congrArg (Function.update · i (some msg)) hpending, hsink,
    fun j hj => (Function.update_of_ne hj ..).trans (hothers j hj)⟩

/-- Steps of the sink thread, and `stop()`, from a state. -/
def quiet (s₀ : State) : System State Event where
  init := (· = s₀)
  step s e t := Step s e t ∧ ∀ msg, e ≠ .appended msg

theorem run_quiet {as : List (Action Unit)} {p : Process Unit} {es : List Event} {s : State}
    (h : ((process 1024 .kError).when (OnSink fun s e => Intact s e ∧ NotLate s e)).Run as p)
    (h' : (quiet p.sink).Run es s) :
    ((process 1024 .kError).when (OnSink fun s e => Intact s e ∧ NotLate s e)).Run
      (as ++ es.map .sink) { p with sink := s } := by
  induction h' with
  | start h₀ =>
      cases h₀
      exact (List.append_nil as).symm ▸ h
  | @next es s t e _ hs ih =>
      rw [List.map_append, ← List.append_assoc]
      refine ih.next ⟨.sink hs.1 hs.2, fun e' he => ?_⟩
      cases he
      cases e with
      | tau | output => exact ⟨trivial, trivial⟩
      | appended msg => exact absurd rfl (hs.2 msg)

/-- The message in front is flushed; then the sink thread is stopped. -/
theorem quiet_stopped (mem : Nat → Nat → UInt8) {n : Nat} (hn : 0 < n) : ∃ bytes,
    (quiet ⟨mem, 1, [], [], some 0, 0, n, kFlushBufferSize, false, .loop⟩).Run
      [.tau, .tau, .tau, .output bytes, .tau, .tau, .tau]
      ⟨mem, 1, [], [], some 0, 0, 0, kFlushBufferSize, true, .fatal⟩ := by
  have hpop : popRef [] [⟨0, 0, n⟩] = ([], some ⟨0, 0, n⟩, []) := if_neg (by simpa using hn.ne')
  have htau : ∀ msg, Event.tau ≠ .appended msg := fun _ h => by cases h
  have hsync : Step ⟨mem, 1, [], [], some 0, 0, n, kFlushBufferSize, false, .sync⟩ .tau
      ⟨mem, 1, [], [⟨0, 0, n⟩], some 0, 0, 0, kFlushBufferSize, false, .flush false⟩ := by
    have hs := Step.sync (s := ⟨mem, 1, [], [], some 0, 0, n, kFlushBufferSize, false, .sync⟩) rfl
    simpa [State.pushFront, hn] using hs
  have synced := ((System.Run.start rfl : (quiet ⟨mem, 1, [], [], some 0, 0, n, kFlushBufferSize,
    false, .loop⟩).Run [] _).next ⟨.loop rfl, htau⟩).next ⟨hsync, htau⟩
  have output := (synced.next ⟨.pop rfl hpop, htau⟩).next ⟨.output rfl, fun _ h => by cases h⟩
  have flushed := output.next ⟨.popEmpty rfl rfl, htau⟩
  exact ⟨_, (flushed.next ⟨.stop, htau⟩).next ⟨.loop rfl, htau⟩⟩

/-- The last message is flushed, and its buffer is freed. -/
theorem quiet_done (mem : Nat → Nat → UInt8) {n : Nat} (hn : 0 < n) : ∃ bytes,
    (quiet ⟨mem, 1, [], [], some 0, 0, n, kFlushBufferSize, true, .newBuffer⟩).Run
      [.tau, .tau, .output bytes, .tau]
      ⟨mem, 2, [0], [], some 1, 0, 0, kFlushBufferSize, true, .done⟩ := by
  have hpop : popRef [] [⟨0, 0, n⟩, ⟨0, 0, 0⟩] = ([], some ⟨0, 0, n⟩, [⟨0, 0, 0⟩]) :=
    if_neg (by simpa using hn.ne')
  have htau : ∀ msg, Event.tau ≠ .appended msg := fun _ h => by cases h
  have hnew : Step ⟨mem, 1, [], [], some 0, 0, n, kFlushBufferSize, true, .newBuffer⟩ .tau
      ⟨mem, 2, [], [⟨0, 0, n⟩, ⟨0, 0, 0⟩], some 1, 0, 0, kFlushBufferSize, true, .flush true⟩ := by
    have hs := Step.newBuffer
      (s := ⟨mem, 1, [], [], some 0, 0, n, kFlushBufferSize, true, .newBuffer⟩) rfl
    simpa [State.newBuffer, State.pushFront, State.takeBuffer, hn] using hs
  have taken := (System.Run.start rfl : (quiet ⟨mem, 1, [], [], some 0, 0, n, kFlushBufferSize,
    true, .newBuffer⟩).Run [] _).next ⟨hnew, htau⟩
  have output := (taken.next ⟨.pop rfl hpop, htau⟩).next ⟨.output rfl, fun _ h => by cases h⟩
  have freed := output.next
    ⟨.popEmpty rfl (show popRef [] [⟨0, 0, 0⟩] = ([0], none, []) from rfl), htau⟩
  exact ⟨_, freed⟩

/-- A message that fits is copied to the front. -/
theorem appendBuf_front (mem : Nat → Nat → UInt8) (finished : Bool) (pc : Pc) {msg : List UInt8}
    (hlen : msg.length ≤ kFlushBufferSize) : ∃ mem',
    State.appendBuf ⟨mem, 1, [], [], some 0, 0, 0, kFlushBufferSize, finished, pc⟩ msg =
      ⟨mem', 1, [], [], some 0, 0, msg.length, kFlushBufferSize, finished, pc⟩ := by
  refine ⟨Function.update mem 0 (writeBytes (mem 0) 0 msg), ?_⟩
  simp [State.appendBuf, State.copy, Nat.not_lt.mpr hlen]

/-! ## From the statements to the output -/

/-- **Whole records, in the order of each thread.**  The records given to `append_buf` are, thread
by thread, those its calls compose, but for one it may still be handing on; those of a high level
were given to `g_ef_output_func`, in the order in which they were ended.  The output is a prefix of
the records as `append_buf` had them, and all of them once the sink thread has ended; for the runs
in which no message is copied over one that is queued, and none comes too late. -/
theorem pipeline_in_order (hmax : Admitted g)
    (h : ((process g ef).when (OnSink fun s e => Intact s e ∧ NotLate s e)).Run as p) :
    (∀ i, ∃ src, recordsOf i as ++ (p.pending i).toList =
      (compose g ⟨[], true, src, []⟩ (callsOf i as)).out.reverse) ∧
    p.ef = ((emitted as).filter fun r => ef.toNat ≤ r.2.1.toNat).map (fun r => r.2.2) ∧
    (∀ i, emittedOf i as = recordsOf i as ++ (p.pending i).toList) ∧
    outputs (events as) <+: (records as).flatMap Prod.snd ∧
    (p.sink.pc = .done → outputs (events as) = (records as).flatMap Prod.snd) := by
  have hkept := run_kept h.of_when
  obtain ⟨ho, hd⟩ := run_drained (run_sink h)
  rw [← appended_events as (ne_appended h.of_when)]
  refine ⟨fun i => ?_, hkept.ef, hkept.pending, ⟨_, ho.bytes.symm⟩, outputs_eq ho hd⟩
  obtain ⟨-, src, hline⟩ := run_placed hmax (run_stream h.of_when i)
  refine ⟨src, ?_⟩
  rw [← hkept.pending i, hkept.out i, ← hline]
  rfl

end System

/-- A thread hands a record on, the sink thread puts it out, is stopped, and adds one itself. -/
theorem pipeline_in_order_stopped : ∃ (as : List (Action Unit)) (p : Process Unit)
    (msg : List UInt8),
    ((process 1024 .kError).when (OnSink fun s e => Intact s e ∧ NotLate s e)).Run as p ∧
    p.sink.pc = .done ∧ recordsOf (some ()) as = [msg] ∧ recordsOf none as = [msg] ∧
    (∃ src, recordsOf (some ()) as =
      (compose 1024 ⟨[], true, src, []⟩ (callsOf (some ()) as)).out.reverse) ∧
    outputs (events as) = msg ++ msg := by
  have start : ((process 1024 .kError).when (OnSink fun s e => Intact s e ∧ NotLate s e)).Run
      [] Process.initial :=
    .start ⟨fun _ => init_stream 1024, fun _ => rfl, init_initial, rfl⟩
  obtain ⟨msg, hout, hpos, hlen⟩ : ∃ msg, begun.sink.out = msg :: begun.out ∧
      0 < msg.length ∧ msg.length ≤ kFlushBufferSize :=
    ⟨_, rfl, by decide, by decide⟩
  obtain ⟨mem, happ⟩ := appendBuf_front (fun _ _ => 0) false .loop hlen
  obtain ⟨mem', happ'⟩ := appendBuf_front mem true .fatal hlen
  -- the record of the thread
  obtain ⟨p₁, emitted₁, hpending₁, hsink₁, hstream₁⟩ :=
    run_record start (i := some ()) ⟨rfl, fun h => by cases h⟩ rfl hout
  have handed₁ := emitted₁.next ⟨.append (show p₁.pending (some ()) = some msg by
    rw [hpending₁]; exact Function.update_self ..) (.thread ()), fun e h => by
      cases h
      rw [hsink₁]
      exact ⟨⟨hlen, fun _ _ b hb => by cases hb⟩, trivial⟩⟩
  have hfront : p₁.sink.appendBuf msg = _ := (congrArg (State.appendBuf · msg) hsink₁).trans happ
  obtain ⟨bytes₁, flushed₁⟩ := quiet_stopped mem hpos
  have stopped := run_quiet handed₁ (hfront.symm ▸ flushed₁)
  -- that of the sink thread
  obtain ⟨p₂, emitted₂, hpending₂, hsink₂, -⟩ := run_record stopped (i := none)
    ⟨by simp [hpending₁, Process.initial], fun _ => rfl⟩ (hstream₁ none (by simp)) hout
  have handed₂ := emitted₂.next ⟨.append (show p₂.pending none = some msg by
    rw [hpending₂]; exact Function.update_self ..) (.last (by rw [hsink₂])), fun e h => by
      cases h
      rw [hsink₂]
      exact ⟨⟨hlen, fun _ _ b _ ref href => absurd href List.not_mem_nil⟩, trivial⟩⟩
  have hlast := congrArg (fun s : State => { s with pc := .newBuffer })
    ((congrArg (State.appendBuf · msg) hsink₂).trans happ')
  obtain ⟨bytes₂, flushed₂⟩ := quiet_done mem' hpos
  have run := run_quiet handed₂ (hlast.symm ▸ flushed₂)
  obtain ⟨hcomposed, -, -, -, hdone⟩ := pipeline_in_order admitted_1024 run
  obtain ⟨src, hsrc⟩ := hcomposed (some ())
  have hnone : p₂.pending (some ()) = none := by simp [hpending₂]
  refine ⟨_, _, msg, run, rfl, rfl, rfl, ⟨src, ?_⟩, (hdone rfl).trans ?_⟩
  · simpa [hnone] using hsrc
  · show msg ++ (msg ++ []) = msg ++ msg
    rw [List.append_nil]

end PBase.Logger
