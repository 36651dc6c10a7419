/-
# `PBase.TimerControl.Destroy` — a `TimerControl` gives every slot back

`~TimerThread` calls `stop_and_join`, and when the thread has exited it releases the timers that are
still in the buckets.  Nobody else uses the object then, so this is a function of the state. 
Together with the loop at the end of `Run`, which releases the timers in the heap, every slot is
back in the pool, and every timer was released once, called or not (`destroyed`).
-/
import PBase.TimerControl.Answer
import PBase.TimerControl.Pass
import PBase.TimerControl.Sleep

namespace PBase.TimerControl

open PBase.Lib

variable {ι : Type}

/-! ## The destructor -/

/-- The loop over a list that was taken from a bucket. -/
def State.releaseAll (s : State ι) : List Nat → List Event × State ι
  | [] => ([], s)
  | tmp :: tmList =>
      let r := State.releaseAll { s with pool := (s.mem tmp).timerId :: s.pool } tmList
      (.released (s.keyOf tmp) :: r.1, r.2)

/-- Bucket `i` is reset, and its timers released. -/
def State.drain (s : State ι) (i : Nat) : List Event × State ι :=
  let r := State.releaseAll { s with bucket := Function.update s.bucket i TimerBucket.empty }
      (s.bucket i).list
  (.tau :: r.1, r.2)

/-- `~TimerThread` after `stop_and_join`, with this many buckets. -/
def State.destroy (s : State ι) : Nat → List Event × State ι
  | 0 => ([], s)
  | i + 1 =>
      let r := s.destroy i
      let r' := r.2.drain i
      (r.1 ++ r'.1, r'.2)

/-- What the destructor leaves alone. -/
structure State.Same (s s' : State ι) : Prop where
  mem : s'.mem = s.mem
  created : s'.created = s.created
  tmHeap : s'.tmHeap = s.tmHeap
  run : s'.run = s.run
  client : s'.client = s.client

/-- What it shows. -/
def Event.Quiet (e : Event) : Prop := e = .tau ∨ ∃ k, e = .released k

section
variable {n i : Nat} {es : List Event} {s : State ι}

/-- It does not matter where the timer thread is, but for what it has in hand. -/
theorem Owned.at (h : Owned es s) {p : RunPc} (hslots : p.slots = s.run.slots) :
    Owned es { s with run := p } := by
  have hsame : slotsAt { s with run := p } = slotsAt s := by
    funext pl
    cases pl with
    | run => exact hslots
    | pool | bucket _ | heap | client _ => rfl
  have hagree : Agree s { s with run := p } := Agree.of_mem rfl
  obtain ⟨hclient, hreturned⟩ := h.clients_of_agree hagree rfl rfl
  refine ⟨hsame ▸ h.placed, h.lt, h.used, h.unused, h.pool, fun x hx => h.queued x ?_, hclient,
      hreturned, h.back,
    h.added⟩
  rcases hx with hx | hx | hx
  · exact .inl hx
  · exact .inr (.inl hx)
  · exact .inr (.inr (hslots ▸ hx))

/-- The list is released like what was left in the heap. -/
theorem Owned.releaseAll {tmList : List Nat} (h : Owned es { s with run := .exit tmList }) :
    Owned (es ++ (s.releaseAll tmList).1) { (s.releaseAll tmList).2 with run := .exit [] } ∧
      s.Same (s.releaseAll tmList).2 ∧ (s.releaseAll tmList).2.bucket = s.bucket ∧
      ∀ e ∈ (s.releaseAll tmList).1, e.Quiet := by
  induction tmList generalizing s es with
  | nil =>
      rw [State.releaseAll, List.append_nil]
      exact ⟨h, ⟨rfl, rfl, rfl, rfl, rfl⟩, rfl, fun e he => absurd he List.not_mem_nil⟩
  | cons tmp tmList ih =>
      have hnext : Owned (es ++ [.released (s.keyOf tmp)])
          { s with pool := (s.mem tmp).timerId :: s.pool, run := .exit tmList } :=
          h.runStep (n := 0) (.exitRelease rfl)
      obtain ⟨hown, hsame, hbucket, hquiet⟩ :=
          ih (s := { s with pool := (s.mem tmp).timerId :: s.pool }) hnext
      rw [List.append_assoc] at hown
      refine ⟨hown, ⟨hsame.mem, hsame.created, hsame.tmHeap, hsame.run, hsame.client⟩, hbucket,
          fun e he => ?_⟩
      rcases List.mem_cons.mp he with rfl | he
      · exact .inr ⟨_, rfl⟩
      · exact hquiet e he

theorem Owned.drain (h : Owned es s) (hrun : s.run = .exited) :
    Owned (es ++ (s.drain i).1) (s.drain i).2 ∧ s.Same (s.drain i).2 ∧
    (s.drain i).2.bucket = Function.update s.bucket i TimerBucket.empty ∧
    ∀ e ∈ (s.drain i).1, e.Quiet := by
  have htaken : Owned (es ++ [.tau])
      { s with
        bucket := Function.update s.bucket i TimerBucket.empty
        run := .exit (s.bucket i).list } := by
    refine h.ofRun i (Agree.of_mem rfl) ⟨rfl, rfl, rfl, rfl⟩
      (fun j hj => by simp [Function.update_of_ne hj]) ?_ (by simp) (by simp)
    simpa [hrun, RunPc.slots, TimerBucket.empty] using List.perm_append_comm
  obtain ⟨hown, hsame, hbucket, hquiet⟩ :=
    Owned.releaseAll (s := { s with bucket := Function.update s.bucket i TimerBucket.empty }) htaken
  rw [List.append_assoc] at hown
  have hrun' : (s.drain i).2.run = .exited := hsame.run.trans hrun
  refine ⟨?_, ⟨hsame.mem, hsame.created, hsame.tmHeap, hsame.run, hsame.client⟩, hbucket,
      fun e he => ?_⟩
  · have hback := hown.at (p := (s.drain i).2.run) (by rw [hrun']; rfl)
    exact hback
  · rcases List.mem_cons.mp he with rfl | he
    · exact .inl rfl
    · exact hquiet e he

theorem Owned.destroy (h : Owned es s) (hrun : s.run = .exited) (n : Nat) :
    Owned (es ++ (s.destroy n).1) (s.destroy n).2 ∧ s.Same (s.destroy n).2 ∧
      (∀ j, ((s.destroy n).2.bucket j).list = if j < n then [] else (s.bucket j).list) ∧
      ∀ e ∈ (s.destroy n).1, e.Quiet := by
  induction n with
  | zero =>
      rw [State.destroy, List.append_nil]
      exact ⟨h, ⟨rfl, rfl, rfl, rfl, rfl⟩, fun j => rfl, fun e he => absurd he List.not_mem_nil⟩
  | succ i ih =>
      obtain ⟨hown, hsame, hbucket, hquiet⟩ := ih
      obtain ⟨hown', hsame', hbucket', hquiet'⟩ := hown.drain (i := i) (hsame.run.trans hrun)
      rw [List.append_assoc] at hown'
      refine ⟨hown', ?_, fun j => ?_,
          fun e he => (List.mem_append.mp he).elim (hquiet e) (hquiet' e)⟩
      · exact ⟨hsame'.mem.trans hsame.mem, hsame'.created.trans hsame.created,
          hsame'.tmHeap.trans hsame.tmHeap,
          hsame'.run.trans hsame.run, hsame'.client.trans hsame.client⟩
      · show (((s.destroy i).2.drain i).2.bucket j).list = _
        rw [hbucket']
        rcases eq_or_ne j i with rfl | hj
        · rw [Function.update_self, if_pos (Nat.lt_succ_self j)]
          rfl
        · rw [Function.update_of_ne hj, hbucket j]
          have hiff : j < i ↔ j < i + 1 := by omega
          simp only [hiff]

end

/-! ## Every run -/

section Runs
variable [DecidableEq ι] {n : Nat} {es : List Event} {s : State ι}

/-- When the timer thread has left its loop it has taken what was in the heap. -/
theorem run_heap_taken (h : (timerSystem n ι).Run es s) :
    (∀ tmHeap, s.run = .exit tmHeap → s.tmHeap = []) ∧ (s.run = .exited → s.tmHeap = []) := by
  induction h with
  | start h₀ =>
      obtain ⟨_, _, _, _, _, _, hheap, _⟩ := h₀
      exact ⟨fun _ _ => hheap, fun _ => hheap⟩
  | next hr hs ih =>
      rcases hs.2.run_or_client with hs | hs
      · cases hs with
        | stopSet _ _ => exact ⟨fun _ _ => rfl, fun _ => rfl⟩
        | exitRelease ht => exact ⟨fun _ _ => ih.1 _ ht, fun _ => ih.1 _ ht⟩
        | exitEnd ht => exact ⟨fun _ _ => ih.1 _ ht, fun _ => ih.1 _ ht⟩
        | scanAssert _ | topAssert _ | runAssert _ =>
            refine ⟨fun _ hrun => ?_, fun hrun => ?_⟩ <;>
            · simp only [State.goto] at hrun
              split at hrun <;> cases hrun
        | _ => refine ⟨fun _ hrun => ?_, fun hrun => ?_⟩ <;> cases hrun
      · obtain ⟨hrun, hheap, _, _⟩ := (run_owned hr).outside hs
        rw [hheap]
        rcases hrun with hrun | hrun
        · rw [hrun]
          exact ih
        · rw [hrun]
          exact ⟨fun l hl => ih.1 l (wake_eq hl (by simp)), fun hl => ih.2 (wake_eq hl (by simp))⟩

/-- **A `TimerControl` gives every slot back.**  When the timer thread has exited and no call is in
progress, the rest of the destructor leaves every slot that was ever created in the pool, once. 
Every timer that was added was released once, by the thread or by the destructor; it was called or
cancelled once at most; if it was called, its `func` has returned; and the destructor calls none. -/
theorem destroyed (h : ((timerSystem n ι).when FewReuses).Run es s) (hrun : s.run = .exited)
    (hidle : ∀ t, s.client t = .idle) :
    ((s.destroy n).2.pool.map low).Nodup ∧ (∀ x, x ∈ (s.destroy n).2.pool.map low ↔ x ∈ s.created) ∧
    (∀ k runTime, .added k runTime ∈ es → (es ++ (s.destroy n).1).count (.released k) = 1 ∧
      calls es k + cancels es k ≤ 1 ∧ (.called k ∈ es → .finished k ∈ es)) ∧
    (∀ k, (es ++ (s.destroy n).1).count (.released k) ≤ 1) ∧
    ∀ e ∈ (s.destroy n).1, e.Quiet := by
  have hown := run_owned h.of_when
  obtain ⟨hown', hsame, hbucket, hquiet⟩ := hown.destroy hrun n
  have hempty : ∀ pl, pl ≠ Place.pool → slotsAt (s.destroy n).2 pl = [] := by
    rintro (_ | j | _ | _ | t) hpl
    · exact absurd rfl hpl
    · show ((s.destroy n).2.bucket j).list = []
      rw [hbucket j]
      split
      · rfl
      · exact run_bucket_empty h.of_when j (by omega)
    · exact hsame.tmHeap.trans ((run_heap_taken h.of_when).2 hrun)
    · show (s.destroy n).2.run.slots = []
      rw [hsame.run, hrun]
      rfl
    · show ((s.destroy n).2.client t).slots = []
      rw [hsame.client, hidle]
      rfl
  have hpool : ∀ x, x ∈ (s.destroy n).2.pool.map low ↔ x ∈ s.created := by
    intro x
    rw [← hsame.created]
    refine ⟨fun hx => (hown'.placed.cover x).mpr ⟨.pool, hx⟩, fun hx => ?_⟩
    obtain ⟨pl, hpl⟩ := (hown'.placed.cover x).mp hx
    by_cases heq : pl = .pool
    · rw [heq] at hpl
      exact hpl
    · rw [hempty pl heq] at hpl
      exact absurd hpl List.not_mem_nil
  refine ⟨hown'.placed.nodup .pool, hpool, fun k runTime hk => ⟨?_, ?_, fun hc => ?_⟩, fun k => ?_,
      hquiet⟩
  · obtain ⟨⟨hpos, hstored⟩, -⟩ := hown'.added k runTime (List.mem_append_left _ hk)
    refine ((hown'.back k).resolve_right fun hnot => hnot.2 ⟨hpos, ?_⟩).1
    have hcreated : k.1 ∈ (s.destroy n).2.created := by
      by_contra hnot
      have hzero := (hown'.unused k.1 hnot).2
      omega
    have hin := (hpool k.1).mpr (hsame.created ▸ hcreated)
    have huses : k.2 ≤ ((s.destroy n).2.mem k.1).uses := by
      have hle := hown'.stored_le k.1
      omega
    exact huses.lt_or_eq.imp_right fun heq => ⟨heq, hin⟩
  · exact (run_exclusive h).once k
  · by_contra hnot
    obtain ⟨base, hcalling, -⟩ := (run_timeline h).calling k ⟨hc, hnot⟩
    rw [hrun] at hcalling
    cases hcalling
  · rcases hown'.back k with ⟨hone, -⟩ | ⟨hzero, -⟩ <;> omega

/-- A timer that the thread never took from its bucket: the destructor releases it. -/
theorem destroyed_pending : ∃ es, ∃ s : State Unit, ((timerSystem 1 Unit).when FewReuses).Run es s ∧
    .added (1, 1) 5 ∈ es ∧ calls es (1, 1) = 0 ∧
    (es ++ (s.destroy 1).1).count (.released (1, 1)) = 1 := by
  have start : ((timerSystem 1 Unit).when FewReuses).Run [] (.zeroed Unit) :=
      .start (init_zeroed 1 Unit)
  have top : ∀ tmList, RunPc.top ≠ .aborted tmList := fun _ h => nomatch h
  have held := ((start.next ⟨⟨top, .add () (.call 5 rfl)⟩, trivial⟩).next
    ⟨⟨top, .add () (.acquireNew rfl (show 0 < 1 by decide) (by decide) List.not_mem_nil)⟩,
      trivial⟩).next
    ⟨⟨top, .add () (.write rfl)⟩, trivial⟩
  have queued := (held.next ⟨⟨top, .add () (.store rfl)⟩, trivial⟩).next
    ⟨⟨top, .add () (.bucket (i := 0) rfl (by decide))⟩, trivial⟩
  have waking := ((queued.next ⟨⟨top, .add () (.loadMin rfl)⟩, trivial⟩).next
    ⟨⟨top, .add () (.cas rfl rfl)⟩, trivial⟩).next ⟨⟨top, .add () (.signal rfl)⟩, trivial⟩
  have added :=
      (waking.next ⟨⟨top, .add () (.wake rfl)⟩, trivial⟩).next ⟨⟨top, .add () (.ret rfl)⟩, trivial⟩
  have stopped :=
      (added.next ⟨⟨top, .stop () (.call rfl rfl)⟩, trivial⟩).next ⟨⟨top, .stop () (.store rfl)⟩,
      trivial⟩
  have exited := (stopped.next ⟨⟨top, .run (.stopSet rfl (by decide))⟩, trivial⟩).next
    ⟨⟨(fun _ h => nomatch h), .run (.exitEnd rfl)⟩, trivial⟩
  have run := ((exited.next ⟨⟨(fun _ h => nomatch h), .stop () (.signal rfl)⟩, trivial⟩).next
    ⟨⟨(fun _ h => nomatch h), .stop () (.wake rfl)⟩, trivial⟩).next
    ⟨⟨(fun _ h => nomatch h), .stop () (.join rfl rfl)⟩, trivial⟩
  have hdestroyed := destroyed run rfl fun _ => rfl
  exact ⟨_, _, run, by decide, rfl, (hdestroyed.2.2.1 (1, 1) 5 (by decide)).1⟩

end Runs

end PBase.TimerControl
