/-
# `PBase.TimerControl.Stop` — when `stop_and_join` reaches the timer thread

`stop_` is read at the top of the loop and `signal_pending_` only after the buckets are
drained and the due timers run.  A `stop_and_join` whose increment falls in between is seen
by neither: the thread loads the new count, waits for it to change, and the wakeup has been
spent (`stop_lost`).  Everywhere else the stop is seen: at the top the thread reads `stop_`
next, and after its load of `signal_pending_` the count differs from the one it waits on
(`stop_reaches`).
-/
import PBase.TimerControl.Model

namespace PBase.TimerControl

open PBase.Lib

/-- Between a load of `stop_` that read 0 and the load of `signal_pending_`. -/
def RunPc.InLoop : RunPc → Prop
  | .resetMin | .drain _ | .scan _ _ | .scanAssert _ _ _ | .scanRelease _ _ _ | .heapTop
  | .topAssert _ | .topRelease _ | .clock _ | .runCas _ | .calling _ _ | .runStore _ _
  | .runRelease _ | .runAssert _ _ | .loadSignal => True
  | _ => False

/-- The count the thread is going to wait on. -/
def RunPc.loaded : RunPc → List Nat
  | .loadMin signalPending | .decide signalPending _ | .wait signalPending _
  | .blocked signalPending _ => [signalPending]
  | _ => []

variable {ι : Type}

/-- `stop_and_join` increments `signal_pending_` while the thread is outside that stretch. -/
def SignalOutside (s : State ι) : Event → Prop
  | .stopSignalled => ¬ s.run.InLoop
  | _ => True

structure Stopping (s : State ι) : Prop where
  loaded : ∀ c ∈ s.run.loaded, c ≤ s.signalPending
  /-- After the increment the thread does not enter the loop, and waits on an old count. -/
  signalled : s.stopSignalled = true →
    s.stop = 1 ∧ ¬ s.run.InLoop ∧ ∀ c ∈ s.run.loaded, c < s.signalPending
  woken : s.stopWoken = true → s.stopSignalled = true
  stopSignal : ∀ t, s.client t = .stopSignal → s.stop = 1
  stopWake : ∀ t, s.client t = .stopWake → s.stopSignalled = true

namespace Stopping

variable {n : Nat} {s s' : State ι} {e : Event}

/-- A step of the timer thread.  It enters the loop only by a load of `stop_` that read 0. -/
theorem ofRun (h : Stopping s)
    (hsame : s'.client = s.client ∧ s'.stop = s.stop ∧ s'.signalPending = s.signalPending ∧
      s'.stopSignalled = s.stopSignalled ∧ s'.stopWoken = s.stopWoken)
    (hloop : s'.run.InLoop → s.run.InLoop ∨ s.stop = 0)
    (hloaded : ∀ c ∈ s'.run.loaded, c ∈ s.run.loaded ∨ (s.run.InLoop ∧ c = s.signalPending)) :
    Stopping s' := by
  obtain ⟨hclient, hstop, hsignal, hsignalled, hwoken⟩ := hsame
  refine ⟨fun c hc => ?_, fun hs => ?_, ?_, ?_, ?_⟩
  · rw [hsignal]
    rcases hloaded c hc with hc | ⟨_, rfl⟩
    · exact h.loaded c hc
    · exact Nat.le_refl _
  · rw [hsignalled] at hs
    obtain ⟨hone, hnot, hlt⟩ := h.signalled hs
    refine ⟨hstop ▸ hone, fun hin => ?_, fun c hc => ?_⟩
    · rcases hloop hin with hin | hzero
      · exact hnot hin
      · rw [hone] at hzero
        exact absurd hzero (by decide)
    · rw [hsignal]
      exact hlt c ((hloaded c hc).resolve_right fun hin => hnot hin.1)
  · rw [hwoken, hsignalled]; exact h.woken
  · rw [hclient, hstop]; exact h.stopSignal
  · rw [hclient, hsignalled]; exact h.stopWake

theorem runStep (h : Stopping s) (hs : RunStep n s e s') : Stopping s' := by
  cases hs with
  | stopNotSet ht hstop =>
      exact h.ofRun ⟨rfl, rfl, rfl, rfl, rfl⟩ (fun _ => .inr hstop)
        (by simp [State.goto, RunPc.loaded])
  | loadSignal ht =>
      exact h.ofRun ⟨rfl, rfl, rfl, rfl, rfl⟩ (by simp [State.goto, RunPc.InLoop])
        (by simp [State.goto, RunPc.loaded, ht, RunPc.InLoop])
  | scanAssert ht | topAssert ht | runAssert ht | exitEnd ht =>
      refine h.ofRun ⟨rfl, rfl, rfl, rfl, rfl⟩ ?_ ?_ <;> simp only [State.goto] <;> split <;>
        simp [RunPc.loaded, ht, RunPc.InLoop]
  | stopSet ht _ | resetMin ht | drain ht _ | drainEnd ht _ | scanEnd ht | scanPush ht _ _ _
  | heapEmpty ht _ | clockEarly ht _ | clockDue ht _ _ _ _ | scanMismatch ht _ | topMatch ht _ _
  | topMismatch ht _ _ | runCas ht _ | runStore ht | runCasFail ht _ | scanRelease ht
  | topRelease ht _ _ _ | runRelease ht | exitRelease ht | loadMin ht | decideWait ht _
  | decideNoWait ht _ | waitBlock ht _ | waitReturn ht _ | timeout ht | callReturn ht =>
      refine h.ofRun ⟨rfl, rfl, rfl, rfl, rfl⟩ ?_ ?_ <;>
        simp [State.goto, State.release, RunPc.loaded, ht, RunPc.InLoop]

theorem wake_loaded {p : RunPc} {c : Nat} (hc : c ∈ p.wake.loaded) : c ∈ p.loaded := by
  cases p <;> first | exact hc | simp [RunPc.wake, RunPc.loaded] at hc

theorem wake_inLoop (p : RunPc) (h : p.wake.InLoop) : p.InLoop := by
  cases p <;> exact h

variable [DecidableEq ι] {t : ι}

/-- A step of a client that does not increment for a stop. -/
theorem client (h : Stopping s) {p : ClientPc}
    (hclient : s'.client = Function.update s.client t p)
    (hrun : s'.run = s.run ∨ s'.run = s.run.wake)
    (hstop : s'.stop = s.stop ∨ s'.stop = 1) (hsignal : s.signalPending ≤ s'.signalPending)
    (hsignalled : s'.stopSignalled = s.stopSignalled)
    (hwoken : s'.stopWoken = true → s.stopSignalled = true)
    (hp : (p = .stopSignal → s'.stop = 1) ∧ p ≠ .stopWake) : Stopping s' := by
  have hloaded : ∀ c ∈ s'.run.loaded, c ∈ s.run.loaded := by
    rcases hrun with hr | hr <;> rw [hr]
    · exact fun _ hc => hc
    · exact fun _ hc => wake_loaded hc
  have hloop : s'.run.InLoop → s.run.InLoop := by
    rcases hrun with hr | hr <;> rw [hr]
    · exact id
    · exact wake_inLoop _
  have hone : s.stop = 1 → s'.stop = 1 := fun hs => hstop.elim (fun heq => heq.trans hs) id
  refine ⟨fun c hc => Nat.le_trans (h.loaded c (hloaded c hc)) hsignal, fun hs => ?_, fun hw => ?_,
    fun u hu => ?_, fun u hu => ?_⟩
  · rw [hsignalled] at hs
    obtain ⟨h₁, hnot, hlt⟩ := h.signalled hs
    exact ⟨hone h₁, fun hin => hnot (hloop hin),
      fun c hc => Nat.lt_of_lt_of_le (hlt c (hloaded c hc)) hsignal⟩
  · rw [hsignalled]
    exact hwoken hw
  · rw [hclient] at hu
    by_cases hut : u = t
    · subst hut
      exact hp.1 (by simpa using hu)
    · exact hone (h.stopSignal u (by rwa [Function.update_of_ne hut] at hu))
  · rw [hclient] at hu
    by_cases hut : u = t
    · subst hut
      exact absurd (by simpa using hu) hp.2
    · rw [hsignalled]
      exact h.stopWake u (by rwa [Function.update_of_ne hut] at hu)

theorem addStep (h : Stopping s) (hs : AddStep n s t e s') : Stopping s' := by
  cases hs with
  | call _ _ | acquire _ _ | acquireNew _ _ _ _ | write _ | store _ | cas _ _ | casFail _ | ret _ =>
      exact h.client rfl (.inl rfl) (.inl rfl) (Nat.le_refl _) rfl h.woken (by simp)
  | bucket _ _ | loadMin _ =>
      refine h.client rfl (.inl rfl) (.inl rfl) (Nat.le_refl _) rfl h.woken ?_
      split <;> simp
  | signal _ => exact h.client rfl (.inl rfl) (.inl rfl) (Nat.le_succ _) rfl h.woken (by simp)
  | wake _ => exact h.client rfl (.inr rfl) (.inl rfl) (Nat.le_refl _) rfl h.woken (by simp)

theorem cancelStep (h : Stopping s) (hs : CancelStep s t e s') : Stopping s' := by
  cases hs with
  | call _ _ | mismatch _ _ | «match» _ _ | cas _ _ | casFail _ _ | load _ =>
      exact h.client rfl (.inl rfl) (.inl rfl) (Nat.le_refl _) rfl h.woken (by simp)

theorem stopStep (h : Stopping s) (hs : StopStep s t e s') (hout : SignalOutside s e) :
    Stopping s' := by
  cases hs with
  | call _ _ | join _ _ =>
      exact h.client rfl (.inl rfl) (.inl rfl) (Nat.le_refl _) rfl h.woken (by simp)
  | store _ => exact h.client rfl (.inl rfl) (.inr rfl) (Nat.le_refl _) rfl h.woken (by simp)
  | wake ht =>
      exact h.client rfl (.inr rfl) (.inl rfl) (Nat.le_refl _) rfl (fun _ => h.stopWake t ht)
        (by simp)
  | signal ht =>
      refine ⟨fun c hc => Nat.le_succ_of_le (h.loaded c hc), fun _ => ⟨h.stopSignal t ht, hout,
        fun c hc => Nat.lt_succ_of_le (h.loaded c hc)⟩, fun _ => rfl, fun u hu => ?_,
        fun _ _ => rfl⟩
      exact h.stopSignal t ht

theorem step (h : Stopping s) (hs : Step n s e s') (hout : SignalOutside s e) : Stopping s' := by
  cases hs with
  | run hs => exact h.runStep hs
  | add t hs => exact h.addStep hs
  | cancel t hs => exact h.cancelStep hs
  | stop t hs => exact h.stopStep hs hout

end Stopping

/-- The thread is blocked on the current count, after a complete `futex_wake` of a stop. -/
def StopLost (s : State ι) : Prop :=
  s.stop = 1 ∧ s.stopWoken = true ∧ ∃ c m, s.run = .blocked c m ∧ s.signalPending = c

section Runs
variable {n : Nat} {es : List Event} {s : State ι} [DecidableEq ι]

theorem run_stopping (h : ((timerSystem n ι).when SignalOutside).Run es s) : Stopping s :=
  h.invariant
    (fun s h₀ => by
      obtain ⟨_, _, _, _, _, hstop, _, hrun, hclient, _, hsignalled, hwoken⟩ := h₀
      exact ⟨by simp [hrun, RunPc.loaded], by simp [hsignalled], by simp [hwoken],
        by simp [hclient], by simp [hclient]⟩)
    fun s e s' hinv hs => hinv.step hs.1.2 hs.2

/-- **A stop reaches the timer thread.**  In every run in which `stop_and_join` increments
`signal_pending_` while the thread is not between a load of `stop_` that read 0 and its load
of `signal_pending_`, the thread is never left blocked on the current count once the
`futex_wake` is done. -/
theorem stop_reaches (h : ((timerSystem n ι).when SignalOutside).Run es s) : ¬ StopLost s := by
  rintro ⟨_, hwoken, c, m, hrun, hc⟩
  have hinv := run_stopping h
  have hlt := (hinv.signalled (hinv.woken hwoken)).2.2 c (by simp [hrun, RunPc.loaded])
  omega

/-- A thread that waits is stopped: the increment comes after its load, the wakeup ends the
wait. -/
theorem stop_reaches_waiting : ∃ es, ∃ s : State Unit,
    ((timerSystem 1 Unit).when SignalOutside).Run es s ∧ s.stop = 1 ∧ s.stopWoken = true ∧
    s.run = .top ∧ ¬ StopLost s := by
  have start : ((timerSystem 1 Unit).when SignalOutside).Run [] (.zeroed Unit) :=
    .start (init_zeroed 1 Unit)
  have drained :=
      ((((start.next ⟨⟨(fun _ h => nomatch h), .run (.stopNotSet rfl rfl)⟩, trivial⟩).next
    ⟨⟨(fun _ h => nomatch h), .run (.resetMin rfl)⟩, trivial⟩).next
    ⟨⟨(fun _ h => nomatch h), .run (.drain rfl (by decide))⟩, trivial⟩).next
    ⟨⟨(fun _ h => nomatch h), .run (.scanEnd rfl)⟩, trivial⟩).next
    ⟨⟨(fun _ h => nomatch h), .run (.drainEnd rfl (by decide))⟩, trivial⟩
  have loaded := ((drained.next ⟨⟨(fun _ h => nomatch h), .run (.heapEmpty rfl rfl)⟩, trivial⟩).next
    ⟨⟨(fun _ h => nomatch h), .run (.loadSignal rfl)⟩, trivial⟩).next
    ⟨⟨(fun _ h => nomatch h), .run (.loadMin rfl)⟩, trivial⟩
  have blocked := (loaded.next ⟨⟨(fun _ h => nomatch h),
    .run (.decideWait rfl (show maxTimestamp > 0 by decide))⟩, trivial⟩).next
    ⟨⟨(fun _ h => nomatch h), .run (.waitBlock rfl rfl)⟩, trivial⟩
  have stopped := ((blocked.next ⟨⟨(fun _ h => nomatch h), .stop () (.call rfl rfl)⟩, trivial⟩).next
    ⟨⟨(fun _ h => nomatch h), .stop () (.store rfl)⟩, trivial⟩).next
    ⟨⟨(fun _ h => nomatch h), .stop () (.signal rfl)⟩, fun h => h⟩
  have run := stopped.next ⟨⟨(fun _ h => nomatch h), .stop () (.wake rfl)⟩, trivial⟩
  exact ⟨_, _, run, rfl, rfl, rfl, stop_reaches run⟩

/-- **A stop that is lost.**  The thread loads `stop_` as 0; `stop_and_join` stores it,
increments `signal_pending_` and wakes nobody; the thread drains one empty bucket, loads the
new count and blocks on it. -/
theorem stop_lost : ∃ es, ∃ s : State Unit, (timerSystem 1 Unit).Run es s ∧ StopLost s := by
  have start : (timerSystem 1 Unit).Run [] (.zeroed Unit) := .start (init_zeroed 1 Unit)
  have stopped := ((((start.next ⟨(fun _ h => nomatch h), .run (.stopNotSet rfl rfl)⟩).next
    ⟨(fun _ h => nomatch h), .stop () (.call rfl rfl)⟩).next
    ⟨(fun _ h => nomatch h), .stop () (.store rfl)⟩).next
    ⟨(fun _ h => nomatch h), .stop () (.signal rfl)⟩).next
    ⟨(fun _ h => nomatch h), .stop () (.wake rfl)⟩
  have drained := (((stopped.next ⟨(fun _ h => nomatch h), .run (.resetMin rfl)⟩).next
    ⟨(fun _ h => nomatch h), .run (.drain rfl (by decide))⟩).next
    ⟨(fun _ h => nomatch h), .run (.scanEnd rfl)⟩).next
    ⟨(fun _ h => nomatch h), .run (.drainEnd rfl (by decide))⟩
  have loaded := ((drained.next ⟨(fun _ h => nomatch h), .run (.heapEmpty rfl rfl)⟩).next
    ⟨(fun _ h => nomatch h), .run (.loadSignal rfl)⟩).next
    ⟨(fun _ h => nomatch h), .run (.loadMin rfl)⟩
  have run := (loaded.next ⟨(fun _ h => nomatch h),
    .run (.decideWait rfl (show maxTimestamp > 0 by decide))⟩).next
    ⟨(fun _ h => nomatch h), .run (.waitBlock rfl rfl)⟩
  exact ⟨_, _, run, rfl, rfl, 1, maxTimestamp, rfl, rfl⟩

end Runs

end PBase.TimerControl
