/-
# `PBase.TimerControl.Asserts` — the asserts on `Timer::version`

`try_delete` and `run_and_delete` drop a timer whose version has moved, and assert that it has
moved to `base_version + 2`: the timer was cancelled.  In `try_delete` that is so.  In
`run_and_delete` the failed CAS has written the version it found to `base_version`, so the assert
asks for a version 2 past the cancelled one, and fails.  It is reached when a cancel comes
between the test of `try_delete` at the top of the heap and the CAS (`assert_fails`), and in no
other way (`asserts_hold`).
-/
import PBase.TimerControl.Exclusion

namespace PBase.TimerControl

open PBase.Lib

/-- The timer `try_delete` has found unchanged and `run_and_delete` has not marked yet. -/
def RunPc.checked : RunPc → List Nat
  | .clock tmp | .runCas tmp => [tmp]
  | _ => []

/-- The timer `try_delete` is about to assert on. -/
def RunPc.asserting : RunPc → List Nat
  | .scanAssert _ _ tmp | .topAssert tmp => [tmp]
  | _ => []

/-- After a failed CAS in `run_and_delete`, or a failed assert. -/
def RunPc.Bad : RunPc → Prop
  | .runAssert _ _ | .aborted _ => True
  | _ => False

/-- `Run` has seen `stop_`. -/
def RunPc.Stopped : RunPc → Prop
  | .exit _ => True
  | _ => False

variable {ι : Type}

/-- A successful cancel is on the timer its id is for, and not on the one that
`run_and_delete` is about to mark. -/
def NotChecked (s : State ι) : Event → Prop
  | .cancelled k hit => hit = k ∧ k.1 ∉ s.run.checked
  | _ => True

structure Asserts (s : State ι) : Prop where
  /-- A timer is marked as running while it is, by the thread. -/
  running : ∀ x, 0 < (s.mem x).stored →
    (s.mem x).version = addVersion (ver (s.mem x).stored) 1 → ∃ base, (x, base) ∈ s.run.running
  checked : ∀ x ∈ s.run.checked, (s.mem x).version = ver (s.mem x).stored
  asserting : ∀ x ∈ s.run.asserting, (s.mem x).version = addVersion (ver (s.mem x).stored) 2
  fine : ¬ s.run.Bad
  stop : s.run.Stopped → s.stop ≠ 0

namespace Asserts

variable {es : List Event} {s s' : State ι} {e : Event}

/-- The timer the thread has looked at waits for it. -/
theorem queued (hset : Settled es s) {x : Nat} (hx : x ∈ s.run.checked ∨ x ∈ s.run.asserting) :
    Queued s x := by
  have hfirst := hset.first x
  cases hp : s.run <;> rw [hp] at hx hfirst <;> simp [RunPc.checked, RunPc.asserting] at hx
  all_goals subst hx
  case clock | topAssert => exact .inr (.inl (hfirst (by simp [RunPc.first])))
  all_goals exact .inr (.inr (by simp [hp, RunPc.slots]))

/-- A version that has moved, while the thread runs nothing: the timer was cancelled. -/
theorem cancelled (h : Asserts s) (hex : Exclusive es s) (ho : Owned es s) {x : Nat}
    (hx : Queued s x) (hnone : s.run.running = [])
    (hne : (s.mem x).version ≠ baseVersion (s.mem x).timerId) :
    (s.mem x).version = addVersion (ver (s.mem x).stored) 2 := by
  obtain ⟨hbase, _, hpos⟩ := ho.baseVersion hx
  rcases hex.word x hpos with ⟨hv, _⟩ | ⟨hv, _⟩ | ⟨hv, _⟩
  · exact absurd (hv.trans hbase.symm) hne
  · obtain ⟨base, hmem⟩ := h.running x hpos hv
    rw [hnone] at hmem
    exact absurd hmem List.not_mem_nil
  · exact hv

/-- A step of the timer thread that writes no version. -/
theorem goto (h : Asserts s) (hmem : s'.mem = s.mem) (hstop : s'.stop = s.stop)
    (hrunning : ∀ p ∈ s.run.running, ∃ base, (p.1, base) ∈ s'.run.running)
    (hchecked : ∀ x ∈ s'.run.checked, x ∈ s.run.checked ∨ (s.mem x).version = ver (s.mem x).stored)
    (hasserting : ∀ x ∈ s'.run.asserting, x ∈ s.run.asserting ∨
      (s.mem x).version = addVersion (ver (s.mem x).stored) 2)
    (hfine : ¬ s'.run.Bad) (hexit : s'.run.Stopped → s.run.Stopped ∨ s.stop ≠ 0) : Asserts s' := by
  refine ⟨fun x hpos hv => ?_, fun x hx => ?_, fun x hx => ?_, hfine, fun hs => ?_⟩
  · rw [hmem] at hpos hv
    obtain ⟨base, hp⟩ := h.running x hpos hv
    exact hrunning _ hp
  · rw [hmem]
    exact (hchecked x hx).elim (h.checked x) id
  · rw [hmem]
    exact (hasserting x hx).elim (h.asserting x) id
  · rw [hstop]
    exact (hexit hs).elim h.stop id

theorem runStep (h : Asserts s) (hex : Exclusive es s) (ho : Owned es s) (hset : Settled es s)
    {n : Nat} (hs : RunStep n s e s') : Asserts s' := by
  cases hs with
  | stopNotSet ht _ | resetMin ht | drain ht _ | drainEnd ht _ | scanEnd ht | scanPush ht _ _ _
  | heapEmpty ht _ | clockEarly ht _ | scanRelease ht | topRelease ht _ _ _ | runRelease ht
  | exitRelease ht | loadSignal ht | loadMin ht | decideWait ht _ | decideNoWait ht _
  | waitBlock ht _ | waitReturn ht _ | timeout ht | callReturn ht | clockDue ht _ _ _ _ =>
      exact h.goto rfl rfl (by simp [ht, State.goto, RunPc.running])
        (by simp [State.goto, State.release, RunPc.checked, ht])
        (by simp [State.goto, State.release, RunPc.asserting])
        (by simp [State.goto, State.release, RunPc.Bad])
        (by simp [State.goto, State.release, RunPc.Stopped, ht])
  | stopSet ht hstop =>
      exact h.goto rfl rfl (by simp [ht, RunPc.running]) (by simp [RunPc.checked])
        (by simp [RunPc.asserting]) (by simp [RunPc.Bad]) (fun _ => .inr hstop)
  | topMatch ht hheap hv =>
      have hq : Queued s _ := .inr (.inl (hheap ▸ List.mem_cons_self))
      have hbase := (ho.baseVersion hq).1
      exact h.goto rfl rfl (by simp [ht, RunPc.running])
        (by simpa [State.goto, RunPc.checked] using .inr (hv.trans hbase))
        (by simp [State.goto, RunPc.asserting]) (by simp [State.goto, RunPc.Bad])
        (by simp [State.goto, RunPc.Stopped])
  | scanMismatch ht hne =>
      have hv := h.cancelled hex ho (.inr (.inr (by simp [ht, RunPc.slots])))
          (by simp [ht, RunPc.running]) hne
      exact h.goto rfl rfl (by simp [ht, RunPc.running]) (by simp [State.goto, RunPc.checked])
        (by simpa [State.goto, RunPc.asserting] using .inr hv) (by simp [State.goto, RunPc.Bad])
        (by simp [State.goto, RunPc.Stopped])
  | topMismatch ht hheap hne =>
      have hv := h.cancelled hex ho (.inr (.inl (hheap ▸ List.mem_cons_self)))
          (by simp [ht, RunPc.running]) hne
      exact h.goto rfl rfl (by simp [ht, RunPc.running]) (by simp [State.goto, RunPc.checked])
        (by simpa [State.goto, RunPc.asserting] using .inr hv) (by simp [State.goto, RunPc.Bad])
        (by simp [State.goto, RunPc.Stopped])
  | @scanAssert _ tmp _ ht | @topAssert tmp ht =>
      have hx : tmp ∈ s.run.asserting := by simp [ht, RunPc.asserting]
      have hbase := (ho.baseVersion (queued hset (.inr hx))).1
      rw [if_pos (by rw [hbase]; exact h.asserting tmp hx)]
      exact h.goto rfl rfl (by simp [ht, RunPc.running]) (by simp [State.goto, RunPc.checked])
        (by simp [State.goto, RunPc.asserting]) (by simp [State.goto, RunPc.Bad])
        (by simp [State.goto, RunPc.Stopped])
  | exitEnd ht =>
      rw [if_pos (h.stop (by rw [ht]; trivial))]
      exact h.goto rfl rfl (by simp [ht, RunPc.running]) (by simp [State.goto, RunPc.checked])
        (by simp [State.goto, RunPc.asserting]) (by simp [State.goto, RunPc.Bad])
        (by simp [State.goto, RunPc.Stopped])
  | @runCasFail tmp ht hne =>
      -- nobody has changed the version since `try_delete` looked at it
      have hx : tmp ∈ s.run.checked := by simp [ht, RunPc.checked]
      have hbase := (ho.baseVersion (queued hset (.inl hx))).1
      exact absurd ((h.checked tmp hx).trans hbase.symm) hne
  | runAssert ht =>
      exact absurd (by rw [ht]; trivial) h.fine
  | @runCas tmp ht hv =>
      refine ⟨fun x hpos hone => ?_, by simp [State.goto, RunPc.checked],
        by simp [State.goto, RunPc.asserting], by simp [State.goto, RunPc.Bad],
        by simp [State.goto, RunPc.Stopped]⟩
      rcases eq_or_ne x tmp with rfl | hx
      · exact ⟨_, List.mem_singleton_self _⟩
      · simp only [State.goto, State.setVersion, Function.update_of_ne hx] at hpos hone
        obtain ⟨base, hp⟩ := h.running x hpos hone
        simp [ht, RunPc.running] at hp
  | @runStore tmp base ht =>
      have hbase := (hex.running (tmp, base) (by simp [ht, RunPc.running])).2
      simp only at hbase
      refine ⟨fun x hpos hone => ?_, by simp [State.goto, RunPc.checked],
        by simp [State.goto, RunPc.asserting], by simp [State.goto, RunPc.Bad],
        by simp [State.goto, RunPc.Stopped]⟩
      rcases eq_or_ne x tmp with rfl | hx
      · simp only [State.goto, State.setVersion, Function.update_self, hbase] at hone
        exact absurd hone.symm (one_ne_two _)
      · simp only [State.goto, State.setVersion, Function.update_of_ne hx] at hpos hone
        obtain ⟨b, hp⟩ := h.running x hpos hone
        simp only [ht, RunPc.running, List.mem_singleton, Prod.mk.injEq] at hp
        exact absurd hp.1 hx

/-! ### Clients -/

theorem running_eq_wake (p : RunPc) : p.wake.running = p.running ∧ p.wake.checked = p.checked ∧
    p.wake.asserting = p.asserting ∧ (p.wake.Bad → p.Bad) ∧ (p.wake.Stopped → p.Stopped) := by
  cases p <;> exact ⟨rfl, rfl, rfl, id, id⟩

/-- A step of a client. -/
theorem client (h : Asserts s) (hrun : s'.run = s.run ∨ s'.run = s.run.wake)
    (hstop : s'.stop = s.stop ∨ s'.stop = 1)
    (hrunning : ∀ x, 0 < (s'.mem x).stored →
      (s'.mem x).version = addVersion (ver (s'.mem x).stored) 1 →
      0 < (s.mem x).stored ∧ (s.mem x).version = addVersion (ver (s.mem x).stored) 1)
    (hseen : ∀ x, x ∈ s.run.checked ∨ x ∈ s.run.asserting →
      (s'.mem x).version = (s.mem x).version ∧
      (s'.mem x).stored = (s.mem x).stored) : Asserts s' := by
  have hsame : s'.run.running = s.run.running ∧ s'.run.checked = s.run.checked ∧
      s'.run.asserting = s.run.asserting ∧ (s'.run.Bad → s.run.Bad) ∧
      (s'.run.Stopped → s.run.Stopped) := by
    rcases hrun with hr | hr <;> rw [hr]
    · exact ⟨rfl, rfl, rfl, id, id⟩
    · exact running_eq_wake s.run
  obtain ⟨hrun, hcheck, hassert, hbad, hexit⟩ := hsame
  refine ⟨fun x hpos hv => ?_, fun x hx => ?_, fun x hx => ?_, fun hb => h.fine (hbad hb),
      fun hs => ?_⟩
  · rw [hrun]
    obtain ⟨hpos, hv⟩ := hrunning x hpos hv
    exact h.running x hpos hv
  · rw [hcheck] at hx
    obtain ⟨hv, hst⟩ := hseen x (.inl hx)
    rw [hv, hst]
    exact h.checked x hx
  · rw [hassert] at hx
    obtain ⟨hv, hst⟩ := hseen x (.inr hx)
    rw [hv, hst]
    exact h.asserting x hx
  · rcases hstop with heq | heq <;> rw [heq]
    · exact h.stop (hexit hs)
    · exact Nat.one_ne_zero

variable [DecidableEq ι] {t : ι}

theorem addStep (h : Asserts s) (ho : Owned es s) (hset : Settled es s) {n : Nat}
    (hs : AddStep n s t e s') : Asserts s' := by
  have hkeep : ∀ {y : Nat} {m : Timer}, m.version = (s.mem y).version ∧
      m.stored = (s.mem y).stored → ∀ x, 0 < (Function.update s.mem y m x).stored →
      (Function.update s.mem y m x).version
        = addVersion (ver (Function.update s.mem y m x).stored) 1 →
      0 < (s.mem x).stored ∧ (s.mem x).version = addVersion (ver (s.mem x).stored) 1 :=
    fun hm x hpos hv => by
      rw [(update_words hm x).1, (update_words hm x).2] at hv
      exact ⟨(update_words hm x).2 ▸ hpos, hv⟩
  cases hs with
  | call _ _ | bucket _ _ | loadMin _ | cas _ _ | casFail _ | signal _ | ret _ =>
      exact h.client (.inl rfl) (.inl rfl) (fun x hpos hv => ⟨hpos, hv⟩) (fun x _ => ⟨rfl, rfl⟩)
  | wake _ =>
      exact h.client (.inr rfl) (.inl rfl) (fun x hpos hv => ⟨hpos, hv⟩) (fun x _ => ⟨rfl, rfl⟩)
  | acquire _ _ | acquireNew _ _ _ _ | write _ =>
      exact h.client (.inl rfl) (.inl rfl) (hkeep (by exact ⟨rfl, rfl⟩))
        (fun x _ => update_words (by exact ⟨rfl, rfl⟩) x)
  | @store id r ht =>
      have hok := ho.client t
      rw [ht] at hok
      have hmem : low id.raw ∈ slotsAt s (.client t) := by simp [slotsAt, ht, ClientPc.slots]
      have hver := high_raw hok.1.raw
      refine h.client (.inl rfl) (.inl rfl) (fun x hpos hv => ?_) fun x hx => ?_
      · rcases eq_or_ne x (low id.raw) with rfl | hne
        · simp only [Function.update_self, hver] at hv
          exact absurd hv.symm (ver_ne_one _)
        · simp only [Function.update_of_ne hne] at hpos hv
          exact ⟨hpos, hv⟩
      · -- what the thread looks at is in no client's hands
        have hne : x ≠ low id.raw := fun heq => ho.not_queued_of_client hmem (heq ▸ queued hset hx)
        simp [Function.update_of_ne hne]

theorem cancelStep (h : Asserts s) (ho : Owned es s) (hs : CancelStep s t e s')
    (hnot : NotChecked s e) : Asserts s' := by
  cases hs with
  | call _ _ | mismatch _ _ | «match» _ _ | casFail _ _ | load _ =>
      exact h.client (.inl rfl) (.inl rfl) (fun x hpos hv => ⟨hpos, hv⟩) (fun x _ => ⟨rfl, rfl⟩)
  | @cas id ht hv =>
      have hid : id ∈ s.returned := by
        have := ho.client t; rwa [ht] at this
      obtain ⟨hit, hchecked⟩ := hnot
      have hgen : (s.mem (low id.raw)).stored = id.gen := congrArg Prod.snd hit
      have hbase := (ho.returned id hid).baseVersion
      rw [← hgen] at hbase
      refine h.client (.inl rfl) (.inl rfl) (fun x hpos hone => ?_) fun x hx => ?_
      · rcases eq_or_ne x (low id.raw) with rfl | hne
        · simp only [State.clientGoto, State.setVersion, Function.update_self, hbase] at hone
          exact absurd hone.symm (one_ne_two _)
        · simp only [State.clientGoto, State.setVersion, Function.update_of_ne hne] at hpos hone
          exact ⟨hpos, hone⟩
      · have hne : x ≠ low id.raw := by
          rintro rfl
          rcases hx with hx | hx
          · exact hchecked hx
          · exact ver_ne_two _ ((h.asserting _ hx).symm.trans (hv.trans hbase))
        simp [State.clientGoto, State.setVersion, Function.update_of_ne hne]

theorem stopStep (h : Asserts s) (hs : StopStep s t e s') : Asserts s' := by
  cases hs with
  | call _ _ | signal _ | join _ _ =>
      exact h.client (.inl rfl) (.inl rfl) (fun x hpos hv => ⟨hpos, hv⟩) (fun x _ => ⟨rfl, rfl⟩)
  | store _ =>
      exact h.client (.inl rfl) (.inr rfl) (fun x hpos hv => ⟨hpos, hv⟩) (fun x _ => ⟨rfl, rfl⟩)
  | wake _ =>
      exact h.client (.inr rfl) (.inl rfl) (fun x hpos hv => ⟨hpos, hv⟩) (fun x _ => ⟨rfl, rfl⟩)

theorem step (h : Asserts s) (hex : Exclusive es s) (ho : Owned es s) (hset : Settled es s)
    {n : Nat}
    (hs : Step n s e s') (hnot : NotChecked s e) : Asserts s' := by
  cases hs with
  | run hs => exact h.runStep hex ho hset hs
  | add t hs => exact h.addStep ho hset hs
  | cancel t hs => exact h.cancelStep ho hs hnot
  | stop t hs => exact h.stopStep hs

end Asserts

section Runs
variable {n : Nat} {es : List Event} {s : State ι} [DecidableEq ι]

omit [DecidableEq ι] in
theorem NotChecked.hits {e : Event} (h : NotChecked s e) : e.Hits := by
  cases e <;> first | exact h.1 | trivial

theorem run_asserts (h : ((timerSystem n ι).when NotChecked).Run es s) :
    Exclusive es s ∧ Asserts s := by
  induction h with
  | @start s h₀ =>
      refine ⟨.start (n := n) h₀, ?_⟩
      obtain ⟨hmem, _, _, _, _, _, _, hrun, _⟩ := h₀
      refine ⟨fun x hx => ?_, ?_, ?_, ?_, ?_⟩
      · rw [(hmem x).2] at hx
        exact absurd hx (Nat.lt_irrefl 0)
      · simp [hrun, RunPc.checked]
      · simp [hrun, RunPc.asserting]
      · simp [hrun, RunPc.Bad]
      · simp [hrun, RunPc.Stopped]
  | next hr hs ih =>
      have hown := run_owned hr.of_when
      exact ⟨ih.1.step hown hs.1.2 hs.2.hits,
        ih.2.step ih.1 hown (run_settled hr.of_when) hs.1.2 hs.2⟩

/-- **The asserts hold if no cancel comes in between.**  For any clients and any order of their
calls with the timer thread: no assert fails in a run in which no cancel succeeds on a timer
between the test of `try_delete` at the top of the heap and the CAS of `run_and_delete`, and every
cancel that succeeds is on the timer its id is for. -/
theorem asserts_hold (h : ((timerSystem n ι).when NotChecked).Run es s) :
    ∀ tmList, s.run ≠ .aborted tmList := by
  intro tmList hrun
  exact (run_asserts h).2.fine (by rw [hrun]; trivial)

end Runs

/-! ### One timer -/

/-- The timer for time 5 in the slot 1, with this version, in a bucket or the heap. -/
structure OneTimer (s : State Unit) (list tmHeap : List Nat) (v : Nat) : Prop where
  stop : s.stop = 0
  client : s.client () = .idle
  returned : ⟨mkId 1 1, 1⟩ ∈ s.returned
  list : (s.bucket 0).list = list
  heap : s.tmHeap = tmHeap
  mem : s.mem 1 = ⟨5, mkId 1 1, v, 1, 1⟩

section OneTimer
variable {c : State Unit → Event → Prop} {es : List Event} {s : State Unit} {v : Nat}

/-- `add_timer`, for time 5. -/
theorem run_added (htau : ∀ s, c s .tau) (hadded : ∀ s k r, c s (.added k r)) :
    ∃ es s, ((timerSystem 1 Unit).when c).Run es s ∧ s.run = .top ∧ OneTimer s [1] [] 3 := by
  have start : ((timerSystem 1 Unit).when c).Run [] (.zeroed Unit) := .start (init_zeroed 1 Unit)
  have alive : ∀ tmList, RunPc.top ≠ .aborted tmList := fun _ h => nomatch h
  have held := ((start.next ⟨⟨alive, .add () (.call 5 rfl)⟩, htau _⟩).next
    ⟨⟨alive, .add () (.acquireNew rfl (show 0 < 1 by decide) (by decide) List.not_mem_nil)⟩,
      htau _⟩).next ⟨⟨alive, .add () (.write rfl)⟩, htau _⟩
  have queued := (held.next ⟨⟨alive, .add () (.store rfl)⟩, htau _⟩).next
    ⟨⟨alive, .add () (.bucket (i := 0) rfl (by decide))⟩, htau _⟩
  have waking := ((queued.next ⟨⟨alive, .add () (.loadMin rfl)⟩, htau _⟩).next
    ⟨⟨alive, .add () (.cas rfl rfl)⟩, htau _⟩).next ⟨⟨alive, .add () (.signal rfl)⟩, htau _⟩
  have added := (waking.next ⟨⟨alive, .add () (.wake rfl)⟩, htau _⟩).next
    ⟨⟨alive, .add () (.ret rfl)⟩, hadded _ _ _⟩
  exact ⟨_, _, added, rfl, rfl, rfl, List.mem_cons_self, rfl, rfl, rfl⟩

/-- The thread drains its buckets up to the timer. -/
theorem run_drained (htau : ∀ s, c s .tau) (h : ((timerSystem 1 Unit).when c).Run es s)
    (htop : s.run = .top) (hs : OneTimer s [1] [] v) :
    ∃ es s', ((timerSystem 1 Unit).when c).Run es s' ∧ s'.run = .scan 0 [1] ∧
    OneTimer s' [] [] v := by
  have alive : ∀ tmList, s.run ≠ .aborted tmList := fun _ h => by
    rw [htop] at h
    cases h
  have run := ((h.next ⟨⟨alive, .run (.stopNotSet htop hs.stop)⟩, htau _⟩).next
    ⟨⟨(fun _ h => nomatch h), .run (.resetMin rfl)⟩, htau _⟩).next
    ⟨⟨(fun _ h => nomatch h), .run (.drain rfl (by decide))⟩, htau _⟩
  exact ⟨_, _, run, congrArg (RunPc.scan 0) hs.list, hs.stop, hs.client, hs.returned, rfl, hs.heap,
      hs.mem⟩

/-- The thread finds the timer unchanged at the top of its heap. -/
theorem run_checked (htau : ∀ s, c s .tau) (h : ((timerSystem 1 Unit).when c).Run es s)
    (hscan : s.run = .scan 0 [1]) (hs : OneTimer s [] [] 3) :
    ∃ es s', ((timerSystem 1 Unit).when c).Run es s' ∧ s'.run = .clock 1 ∧
    OneTimer s' [] [1] 3 := by
  have alive : ∀ tmList, s.run ≠ .aborted tmList := fun _ h => by
    rw [hscan] at h
    cases h
  have hv : (s.mem 1).version = baseVersion (s.mem 1).timerId := by
    rw [hs.mem]
    rfl
  have hperm : [1].Perm (1 :: s.tmHeap) := by rw [hs.heap]
  have run := (((h.next ⟨⟨alive, .run (.scanPush hscan hv hperm fun _ => IsHeap.singleton 1)⟩,
    htau _⟩).next
    ⟨⟨(fun _ h => nomatch h), .run (.scanEnd rfl)⟩, htau _⟩).next
    ⟨⟨(fun _ h => nomatch h), .run (.drainEnd rfl (by decide))⟩, htau _⟩).next
    ⟨⟨(fun _ h => nomatch h), .run (.topMatch rfl rfl hv)⟩, htau _⟩
  exact ⟨_, _, run, rfl, hs.stop, hs.client, hs.returned, hs.list, rfl, hs.mem⟩

/-- `cancel_timer`, which succeeds. -/
theorem run_cancelled {list tmHeap : List Nat} (htau : ∀ s, c s .tau)
    (h : ((timerSystem 1 Unit).when c).Run es s) (alive : ∀ tmList, s.run ≠ .aborted tmList)
    (hs : OneTimer s list tmHeap 3)
    (hcancel : ∀ s', s'.run = s.run → c s' (.cancelled (1, 1) (1, 1))) :
    ∃ es s', ((timerSystem 1 Unit).when c).Run es s' ∧ s'.run = s.run ∧
      OneTimer s' list tmHeap 5 := by
  have hid : mkId 1 1 = (s.mem 1).timerId := by rw [hs.mem]
  have hversion : (s.mem 1).version = 3 := by rw [hs.mem]
  have hstored : (s.mem 1).stored = 1 := by rw [hs.mem]
  have cancelling := (h.next ⟨⟨alive, .cancel () (.call hs.client hs.returned)⟩, htau _⟩).next
    ⟨⟨alive, .cancel () (.match rfl hid)⟩, htau _⟩
  have hevent : c ((s.clientGoto () (.cancelCompare ⟨mkId 1 1, 1⟩)).clientGoto ()
      (.cancelCas ⟨mkId 1 1, 1⟩)) (.cancelled (1, 1) (1, (s.mem 1).stored)) := by
    rw [hstored]
    exact hcancel _ rfl
  have cancelled := cancelling.next ⟨⟨alive, .cancel () (.cas rfl hversion)⟩, hevent⟩
  refine ⟨_, _, cancelled, rfl, hs.stop, rfl, hs.returned, hs.list, hs.heap, ?_⟩
  show ({ s.mem 1 with version := _ } : Timer) = _
  rw [hs.mem]
  rfl

end OneTimer

/-- The timer is cancelled in its bucket: `try_delete` finds that, and its assert holds. -/
theorem asserts_hold_cancelled : ∃ es, ∃ s : State Unit,
    ((timerSystem 1 Unit).when NotChecked).Run es s ∧ s.run = .scanRelease 0 [] 1 ∧
    ∀ tmList, s.run ≠ .aborted tmList := by
  obtain ⟨_, s, added, htop, hs⟩ := run_added (c := NotChecked) (fun _ => trivial) fun _ _ _ =>
      trivial
  obtain ⟨_, s, cancelled, hrun, hs⟩ := run_cancelled (fun _ => trivial) added
    (by simp [htop]) hs fun s' hs' => ⟨rfl, by simp [hs', htop, RunPc.checked]⟩
  obtain ⟨_, s, drained, hscan, hs⟩ := run_drained (fun _ => trivial) cancelled (hrun.trans htop) hs
  have hne : (s.mem 1).version ≠ baseVersion (s.mem 1).timerId := by
    rw [hs.mem]
    decide
  have hassert : (s.mem 1).version = addVersion (baseVersion (s.mem 1).timerId) 2 := by
    rw [hs.mem]
    rfl
  have run := (drained.next ⟨⟨by simp [hscan], .run (.scanMismatch hscan hne)⟩, trivial⟩).next
    ⟨⟨(fun _ h => nomatch h), .run (.scanAssert rfl)⟩, trivial⟩
  exact ⟨_, _, run, if_pos hassert, asserts_hold run⟩

/-- **An assert fails.**  The timer is cancelled after the test of `try_delete` and before the
CAS of `run_and_delete`: the failed CAS leaves 5 in `base_version`, and the assert asks for 7. -/
theorem assert_fails : ¬ ∀ (es : List Event) (s : State Unit), (timerSystem 1 Unit).Run es s →
    ∀ tmList, s.run ≠ .aborted tmList := by
  intro hall
  obtain ⟨_, s, added, htop, hs⟩ := run_added (c := fun _ _ => True) (fun _ => trivial)
    fun _ _ _ => trivial
  obtain ⟨_, s, drained, hscan, hs⟩ := run_drained (fun _ => trivial) added htop hs
  obtain ⟨_, s, checked, hclock, hs⟩ := run_checked (fun _ => trivial) drained hscan hs
  obtain ⟨_, s, cancelled, hrun, hs⟩ := run_cancelled (fun _ => trivial) checked
    (by simp [hclock]) hs fun _ _ => trivial
  rw [hclock] at hrun
  have hdue : ¬ (s.mem 1).runTime > 5 := by
    rw [hs.mem]
    decide
  have hne : (s.mem 1).version ≠ baseVersion (s.mem 1).timerId := by
    rw [hs.mem]
    decide
  have failed := ((cancelled.next ⟨⟨by simp [hrun],
    .run (.clockDue hrun hdue hs.heap (.refl []) fun _ => IsHeap.nil)⟩, trivial⟩).next
    ⟨⟨(fun _ h => nomatch h), .run (.runCasFail rfl hne)⟩, trivial⟩).next
    ⟨⟨(fun _ h => nomatch h), .run (.runAssert rfl)⟩, trivial⟩
  refine hall _ _ failed.of_when [1] (if_neg ?_)
  show ¬ (s.mem 1).version = addVersion (s.mem 1).version 2
  rw [hs.mem]
  decide

end PBase.TimerControl
