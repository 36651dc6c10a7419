/-
# `PBase.TimerControl.Pass` — one pass of the timer loop

A pass takes the timers of all buckets, puts those that are not cancelled into the heap, and
runs the first of the heap as long as it is due.  Only the first is looked at.  It is the
earliest, since the array stays a heap: a slot that is in it keeps its `run_time`.  So what is run
is the earliest of the heap, and what is left when the loop ends is later than the clock it read
last (`pass_in_order`).

`Passing` is a state of the timer system with what the pass has done so far: the timers it took
from the buckets, and its last reading of the clock.  `PassStep` are the steps of the system,
those that read the clock with the reading.
-/
import PBase.TimerControl.Asserts

namespace PBase.TimerControl

open PBase.Lib

variable {ι : Type}

/-! ## The heap -/

section Heap
variable {n : Nat} {es : List Event} {s s' : State ι} {e : Event}

theorem runStep_heap (h : s.isHeap s.tmHeap) (hs : RunStep n s e s') : s'.isHeap s'.tmHeap := by
  cases hs with
  | stopNotSet _ _ | resetMin _ | drain _ _ | drainEnd _ _ | scanEnd _ | scanMismatch _ _
  | scanAssert _ | scanRelease _ | heapEmpty _ _ | topMatch _ _ _ | topMismatch _ _ _
  | topAssert _ | clockEarly _ _ | runCasFail _ _ | callReturn _ | runAssert _ | runRelease _
  | loadSignal _ | loadMin _ | decideWait _ _ | decideNoWait _ _ | waitBlock _ _ | waitReturn _ _
  | timeout _ | exitRelease _ | exitEnd _ => exact h
  | stopSet _ _ => exact IsHeap.nil
  | scanPush _ _ _ hheap => exact hheap h
  | clockDue _ _ _ _ hheap => exact hheap h
  | topRelease _ _ _ hheap => exact hheap h
  | runCas _ _ | runStore _ =>
      refine h.imp fun x _ y _ hxy => ?_
      simpa only [(Agree.setVersion s _ _ x).2.2.2, (Agree.setVersion s _ _ y).2.2.2, State.goto]
        using hxy

/-- The array is a heap. -/
theorem run_heap [DecidableEq ι] (h : (timerSystem n ι).Run es s) : s.isHeap s.tmHeap := by
  induction h with
  | start h₀ =>
      obtain ⟨_, _, _, _, _, _, hheap, _⟩ := h₀
      rw [hheap]
      exact IsHeap.nil
  | next hr hs ih =>
      rcases hs.2.run_or_client with hs | hs
      · exact runStep_heap ih hs
      · obtain ⟨_, hheap, hsame, _⟩ := (run_owned hr).outside hs
        rw [hheap]
        exact ih.imp fun x hx y hy hxy => by
          rw [(hsame x (.inr (.inl hx))).2, (hsame y (.inr (.inl hy))).2]
          exact hxy

/-- The first of the heap is the earliest. -/
theorem heap_first (h : s.isHeap s.tmHeap) {tmp : Nat} {rest : List Nat}
    (hheap : s.tmHeap = tmp :: rest) : ∀ x ∈ s.tmHeap, (s.mem tmp).runTime ≤ (s.mem x).runTime := by
  rw [hheap] at h ⊢
  exact IsHeap.head_le (r := fun a b => (s.mem a).runTime ≤ (s.mem b).runTime)
    (fun _ => Nat.le_refl _) (fun _ _ _ => Nat.le_trans) h

end Heap

/-! ## A pass -/

/-- A state, its history, and what the pass has done: its last reading of the clock in the loop
that runs timers, and the timers it took from the buckets. -/
structure Passing (ι : Type) where
  state : State ι
  history : List Event
  reading : Nat
  taken : List Key

/-- What the timer thread is about to take from a bucket. -/
def takes (bucketNumber : Nat) (s : State ι) : List Key :=
  match s.run with
  | .drain i => if i < bucketNumber then (s.bucket i).list.map s.keyOf else []
  | _ => []

/-- A step of the timer thread that does not read the clock. -/
def Passing.next (p : Passing ι) (bucketNumber : Nat) (e : Event) (s' : State ι) : Passing ι :=
  { state := s'
    history := p.history ++ [e]
    reading := p.reading
    taken := match p.state.run with
      | .top => []
      | _ => p.taken ++ takes bucketNumber p.state }

/-- A step of somebody else. -/
def Passing.skip (p : Passing ι) (e : Event) (s' : State ι) : Passing ι :=
  { p with state := s', history := p.history ++ [e] }

section Steps
variable [DecidableEq ι]

/-- The steps of the timer system, with the reading of the clock. -/
inductive PassStep (n : Nat) (p : Passing ι) : Event → Passing ι → Prop
  | early {tmp now : Nat} : p.state.run = .clock tmp → (p.state.mem tmp).runTime > now →
      PassStep n p .tau { p.next n .tau (p.state.goto .loadSignal) with reading := now }
  | due {tmp now : Nat} {rest tmHeap : List Nat} : p.state.run = .clock tmp →
      ¬ (p.state.mem tmp).runTime > now → p.state.tmHeap = tmp :: rest → tmHeap.Perm rest →
      (p.state.isHeap p.state.tmHeap → p.state.isHeap tmHeap) →
      PassStep n p .tau
        { p.next n .tau { p.state with tmHeap := tmHeap, run := .runCas tmp } with reading := now }
  | run {e : Event} {s' : State ι} : (∀ tmp, p.state.run ≠ .clock tmp) →
      RunStep n p.state e s' → PassStep n p e (p.next n e s')
  | client {e : Event} {s' : State ι} : ClientStep n p.state e s' → PassStep n p e (p.skip e s')

/-- `timerSystem`, with what the pass has done. -/
def passSystem (n : Nat) (ι : Type) [DecidableEq ι] : System (Passing ι) Event where
  init p := (timerSystem n ι).init p.state ∧ p.history = [] ∧ p.taken = []
  step p e p' := (∀ tmList, p.state.run ≠ .aborted tmList) ∧ PassStep n p e p'

variable {n : Nat} {p p' : Passing ι} {e : Event} {es : List Event}

theorem ClientStep.step {s s' : State ι} (h : ClientStep n s e s') : Step n s e s' := by
  cases h with
  | add t h => exact .add t h
  | cancel t h => exact .cancel t h
  | stop t h => exact .stop t h

/-- A step with the reading is one of the system, and every step of it is one with a reading. -/
theorem PassStep.step (h : PassStep n p e p') :
    Step n p.state e p'.state ∧ p'.history = p.history ++ [e] := by
  cases h with
  | early ht hlt => exact ⟨.run (.clockEarly ht hlt), rfl⟩
  | due ht hle hheap hperm hkeep => exact ⟨.run (.clockDue ht hle hheap hperm hkeep), rfl⟩
  | run _ hs => exact ⟨.run hs, rfl⟩
  | client hs => exact ⟨hs.step, rfl⟩

theorem passStep_of_step {s' : State ι} (h : Step n p.state e s') :
    ∃ p', PassStep n p e p' ∧ p'.state = s' := by
  rcases h.run_or_client with hs | hs
  · by_cases hclock : ∃ tmp, p.state.run = .clock tmp
    · obtain ⟨tmp, hr⟩ := hclock
      cases hs with
      | clockEarly ht hlt => exact ⟨_, .early ht hlt, rfl⟩
      | clockDue ht hle hheap hperm hkeep => exact ⟨_, .due ht hle hheap hperm hkeep, rfl⟩
      | _ => simp_all only [reduceCtorEq]
    · exact ⟨_, .run (fun tmp hr => hclock ⟨tmp, hr⟩) hs, rfl⟩
  · exact ⟨_, .client hs, rfl⟩

/-- A run of passes is a run. -/
theorem run_of_pass (h : (passSystem n ι).Run es p) :
    (timerSystem n ι).Run es p.state ∧ p.history = es := by
  induction h with
  | start h₀ => exact ⟨.start h₀.1, h₀.2.1⟩
  | next _ hs ih =>
      obtain ⟨hstep, hhistory⟩ := hs.2.step
      exact ⟨ih.1.next ⟨hs.1, hstep⟩, by rw [hhistory, ih.2]⟩

/-- And every run is one of passes. -/
theorem pass_of_run {s : State ι} (h : (timerSystem n ι).Run es s) :
    ∃ p, (passSystem n ι).Run es p ∧ p.state = s := by
  induction h with
  | @start s h₀ => exact ⟨⟨s, [], 0, []⟩, .start ⟨h₀, rfl, rfl⟩, rfl⟩
  | next _ hs ih =>
      obtain ⟨p, hp, rfl⟩ := ih
      obtain ⟨p', hstep, hs'⟩ := passStep_of_step hs.2
      exact ⟨p', hp.next ⟨hs.1, hstep⟩, hs'⟩

/-! ## What becomes of a timer -/

/-- Its `func` was called. -/
def Executed (es : List Event) (k : Key) : Prop := .called k ∈ es

/-- It was released without that. -/
def Dropped (es : List Event) (k : Key) : Prop := .released k ∈ es ∧ .called k ∉ es

def InHeap (s : State ι) (k : Key) : Prop := k.1 ∈ s.tmHeap ∧ k.2 = (s.mem k.1).uses

def ExactlyOne (a b c : Prop) : Prop := (a ∧ ¬ b ∧ ¬ c) ∨ (¬ a ∧ b ∧ ¬ c) ∨ (¬ a ∧ ¬ b ∧ c)

/-- The timer whose `func` was called and that is not released yet. -/
def RunPc.active : RunPc → List Nat
  | .calling tmp _ | .runStore tmp _ | .runRelease tmp => [tmp]
  | _ => []

structure Pass (p : Passing ι) : Prop where
  first : ∀ tmp, p.state.run = .clock tmp → ∃ rest, p.state.tmHeap = tmp :: rest
  admitted : ∀ tmp, p.state.run = .runCas tmp → (p.state.mem tmp).runTime ≤ p.reading ∧
    ∀ x ∈ p.state.tmHeap, (p.state.mem tmp).runTime ≤ (p.state.mem x).runTime
  drained : p.state.run = .loadSignal → p.state.tmHeap = [] ∨
    ∀ x ∈ p.state.tmHeap, p.reading < (p.state.mem x).runTime
  here : ∀ k ∈ p.taken, .released k ∈ p.history ∨
    (k.1 ∈ p.state.run.slots ∨ k.1 ∈ p.state.tmHeap) ∧ k.2 = (p.state.mem k.1).uses
  gone : ∀ k, .called k ∈ p.history → .released k ∈ p.history ∨
    k.1 ∈ p.state.run.active ∧ k.2 = (p.state.mem k.1).uses

omit [DecidableEq ι] in
theorem runStep_uses {s s' : State ι} (hs : RunStep n s e s') (x : Nat) :
    (s'.mem x).uses = (s.mem x).uses := by
  cases hs with
  | runCas _ _ | runStore _ => exact (Agree.setVersion s _ _ x).1
  | _ => rfl

omit [DecidableEq ι] in
/-- What the thread has it keeps, or releases. -/
theorem runStep_slots {s s' : State ι} (hs : RunStep n s e s') {x : Nat}
    (hx : x ∈ s.run.slots ∨ x ∈ s.tmHeap) :
    (x ∈ s'.run.slots ∨ x ∈ s'.tmHeap) ∨ e = .released (s.keyOf x) := by
  cases hs with
  | stopNotSet ht _ | resetMin ht | drainEnd ht _ | heapEmpty ht _ | topMatch ht _ _
  | topMismatch ht _ _ | clockEarly ht _ | loadSignal ht | loadMin ht | decideWait ht _
  | decideNoWait ht _ | waitBlock ht _ | waitReturn ht _ | timeout ht | scanEnd ht
  | scanMismatch ht _ | runCas ht _ | runCasFail ht _ | callReturn ht | runStore ht | drain ht _ =>
      simp [ht, RunPc.slots] at hx
      simp [State.goto, State.setVersion, RunPc.slots, hx]
  | stopSet ht _ =>
      simp [ht, RunPc.slots] at hx
      simp [RunPc.slots, hx]
  | scanPush ht _ hperm _ =>
      simp [ht, RunPc.slots] at hx
      simp only [RunPc.slots, hperm.mem_iff, List.mem_cons]
      tauto
  | scanAssert ht | topAssert ht | runAssert ht | exitEnd ht =>
      simp [ht, RunPc.slots] at hx
      simp only [State.goto]
      split <;> simp [RunPc.slots, hx]
  | @topRelease tmp rest _ ht hheap hperm _ =>
      simp [ht, RunPc.slots, hheap] at hx
      rcases hx with rfl | hx
      · exact .inr rfl
      · exact .inl (.inr (hperm.mem_iff.mpr hx))
  | clockDue ht _ hheap hperm _ =>
      simp [ht, RunPc.slots, hheap] at hx
      simp only [RunPc.slots, hperm.mem_iff, List.mem_singleton]
      exact .inl hx
  | @scanRelease i tmp tmList ht | @runRelease tmp ht | @exitRelease tmp rest ht =>
      simp [ht, RunPc.slots] at hx
      simp only [State.release, RunPc.slots]
      rcases eq_or_ne x tmp with rfl | hne
      · exact .inr rfl
      · simp [hne] at hx
        exact .inl (by simpa using hx)

omit [DecidableEq ι] in
/-- Only `run_and_delete` calls a `func`, and it goes on to the release. -/
theorem runStep_active {s s' : State ι} (hs : RunStep n s e s') {k : Key} :
    (e = .called k → k.1 ∈ s'.run.active ∧ k.2 = (s.mem k.1).uses) ∧
    (k.1 ∈ s.run.active → k.1 ∈ s'.run.active ∨ e = .released (s.keyOf k.1)) := by
  cases hs with
  | runCas ht _ =>
      refine ⟨fun hk => ?_, by simp [ht, RunPc.active]⟩
      cases hk
      exact ⟨List.mem_singleton_self _, rfl⟩
  | callReturn ht | runStore ht =>
      refine ⟨by simp, fun hx => .inl ?_⟩
      simpa [ht, RunPc.active, State.goto] using hx
  | runRelease ht =>
      refine ⟨by simp, fun hx => .inr ?_⟩
      simp only [ht, RunPc.active, List.mem_singleton] at hx
      rw [hx]
  | stopNotSet ht _ | stopSet ht _ | resetMin ht | drain ht _ | drainEnd ht _ | scanEnd ht
  | scanPush ht _ _ _ | scanMismatch ht _ | scanAssert ht | scanRelease ht | heapEmpty ht _
  | topMatch ht _ _ | topMismatch ht _ _ | topAssert ht | topRelease ht _ _ _ | clockEarly ht _
  | clockDue ht _ _ _ _ | runCasFail ht _ | runAssert ht | loadSignal ht | loadMin ht
  | decideWait ht _ | decideNoWait ht _ | waitBlock ht _ | waitReturn ht _ | timeout ht
  | exitRelease ht | exitEnd ht => exact ⟨by simp, by simp [ht, RunPc.active]⟩

omit [DecidableEq ι] in
/-- What the thread took and what it called, after any step of its own. -/
theorem Pass.thread (h : Pass p) (hs : RunStep n p.state e p'.state)
    (hhistory : p'.history = p.history ++ [e])
    (htaken : ∀ k ∈ p'.taken, k ∈ p.taken ∨ k.1 ∈ p'.state.run.slots ∧ k.2 = (p.state.mem k.1).uses)
    (hfirst : ∀ tmp, p'.state.run = .clock tmp → ∃ rest, p'.state.tmHeap = tmp :: rest)
    (hadmitted : ∀ tmp, p'.state.run = .runCas tmp → (p'.state.mem tmp).runTime ≤ p'.reading ∧
      ∀ x ∈ p'.state.tmHeap, (p'.state.mem tmp).runTime ≤ (p'.state.mem x).runTime)
    (hdrained : p'.state.run = .loadSignal → p'.state.tmHeap = [] ∨
      ∀ x ∈ p'.state.tmHeap, p'.reading < (p'.state.mem x).runTime) : Pass p' := by
  have keep : ∀ {e' : Event}, e' ∈ p.history → e' ∈ p'.history := fun he' => by
    rw [hhistory]
    exact List.mem_append_left _ he'
  have last : e ∈ p'.history := by
    rw [hhistory]
    exact List.mem_append_right _ (List.mem_singleton_self e)
  refine ⟨hfirst, hadmitted, hdrained, fun k hk => ?_, fun k hk => ?_⟩
  · rw [runStep_uses hs]
    rcases htaken k hk with hk | ⟨hslots, huses⟩
    · rcases h.here k hk with hback | ⟨hplace, huses⟩
      · exact .inl (keep hback)
      · rcases runStep_slots hs hplace with hplace | rfl
        · exact .inr ⟨hplace, huses⟩
        · refine .inl ?_
          rwa [show k = p.state.keyOf k.1 from Prod.ext rfl huses]
    · exact .inr ⟨.inl hslots, huses⟩
  · rw [runStep_uses hs]
    rw [hhistory, List.mem_append, List.mem_singleton] at hk
    rcases hk with hk | hk
    · rcases h.gone k hk with hback | ⟨hactive, huses⟩
      · exact .inl (keep hback)
      · rcases (runStep_active hs).2 hactive with hactive | rfl
        · exact .inr ⟨hactive, huses⟩
        · refine .inl ?_
          rwa [show k = p.state.keyOf k.1 from Prod.ext rfl huses]
    · exact .inr ((runStep_active hs).1 hk.symm)

omit [DecidableEq ι] in
/-- A step that does not read the clock. -/
theorem Pass.run (h : Pass p) (hnot : ∀ tmp, p.state.run ≠ .clock tmp) {s' : State ι}
    (hs : RunStep n p.state e s') : Pass (p.next n e s') := by
  have htaken : ∀ k ∈ (p.next n e s').taken,
      k ∈ p.taken ∨ k.1 ∈ s'.run.slots ∧ k.2 = (p.state.mem k.1).uses := by
    intro k hk
    cases hs with
    | @drain i ht hi =>
        simp only [Passing.next, takes, ht, if_pos hi, List.mem_append, List.mem_map] at hk
        rcases hk with hk | ⟨x, hx, rfl⟩
        · exact .inl hk
        · exact .inr ⟨hx, rfl⟩
    | drainEnd ht hi =>
        simp only [Passing.next, takes, ht, if_neg hi, List.append_nil] at hk
        exact .inl hk
    | stopNotSet ht _ | stopSet ht _ =>
        simp only [Passing.next, ht, List.not_mem_nil] at hk
    | resetMin ht | scanEnd ht | scanPush ht _ _ _ | scanMismatch ht _ | scanAssert ht
    | scanRelease ht | heapEmpty ht _ | topMatch ht _ _ | topMismatch ht _ _ | topAssert ht
    | topRelease ht _ _ _ | clockEarly ht _ | clockDue ht _ _ _ _ | runCas ht _ | runCasFail ht _
    | callReturn ht | runStore ht | runAssert ht | runRelease ht | loadSignal ht | loadMin ht
    | decideWait ht _
    | decideNoWait ht _ | waitBlock ht _ | waitReturn ht _ | timeout ht | exitRelease ht
    | exitEnd ht =>
        simp only [Passing.next, takes, ht, List.append_nil] at hk
        exact .inl hk
  refine h.thread hs rfl htaken ?_ ?_ ?_
  · intro tmp hr
    cases hs with
    | topMatch ht hheap hv =>
        cases hr
        exact ⟨_, hheap⟩
    | scanAssert ht | topAssert ht | runAssert ht | exitEnd ht =>
        simp only [Passing.next, State.goto] at hr
        split at hr <;> cases hr
    | _ => cases hr
  · intro tmp hr
    cases hs with
    | clockDue ht _ _ _ _ => exact absurd ht (hnot _)
    | scanAssert ht | topAssert ht | runAssert ht | exitEnd ht =>
        simp only [Passing.next, State.goto] at hr
        split at hr <;> cases hr
    | _ => cases hr
  · intro hr
    cases hs with
    | clockEarly ht _ => exact absurd ht (hnot _)
    | heapEmpty ht hheap => exact .inl hheap
    | scanAssert ht | topAssert ht | runAssert ht | exitEnd ht =>
        simp only [Passing.next, State.goto] at hr
        split at hr <;> cases hr
    | _ => cases hr

omit [DecidableEq ι] in
theorem wake_eq {pc q : RunPc} (h : pc.wake = q) (hq : q ≠ .top) : pc = q := by
  cases pc
  case blocked => exact absurd h.symm hq
  all_goals exact h

omit [DecidableEq ι] in
theorem active_wake (pc : RunPc) : pc.wake.active = pc.active := by cases pc <;> rfl

omit [DecidableEq ι] in
theorem slots_of_active {pc : RunPc} {x : Nat} (h : x ∈ pc.active) : x ∈ pc.slots := by
  cases pc
  case calling | runStore | runRelease => exact h
  all_goals cases h

omit [DecidableEq ι] in
/-- A step of a client: the pass is where it was. -/
theorem Pass.client (h : Pass p) {s' : State ι} (ho : Outside p.state e s') :
    Pass (p.skip e s') := by
  have hrun : ∀ {q}, s'.run = q → q ≠ .top → p.state.run = q := by
    intro q hr hq
    rcases ho.run with hsame | hwake
    · exact hsame.symm.trans hr
    · exact wake_eq (hwake.symm.trans hr) hq
  have hslots : s'.run.slots = p.state.run.slots := by
    rcases ho.run with hsame | hwake
    · rw [hsame]
    · rw [hwake, wake_slots]
  have hactive : s'.run.active = p.state.run.active := by
    rcases ho.run with hsame | hwake
    · rw [hsame]
    · rw [hwake, active_wake]
  have heapSame : ∀ x ∈ p.state.tmHeap, (s'.mem x).runTime = (p.state.mem x).runTime :=
    fun x hx => (ho.same x (.inr (.inl hx))).2
  refine ⟨fun tmp hr => ?_, fun tmp hr => ?_, fun hr => ?_, fun k hk => ?_, fun k hk => ?_⟩
  · obtain ⟨rest, hfirst⟩ := h.first tmp (hrun hr (by simp))
    exact ⟨rest, ho.heap.trans hfirst⟩
  · have hcas := hrun hr (by simp)
    obtain ⟨hdue, hleast⟩ := h.admitted tmp hcas
    have htmp : (s'.mem tmp).runTime = (p.state.mem tmp).runTime :=
      (ho.same tmp (.inr (.inr (by simp [hcas, RunPc.slots])))).2
    simp only [Passing.skip, ho.heap, htmp]
    exact ⟨hdue, fun x hx => heapSame x hx ▸ hleast x hx⟩
  · simp only [Passing.skip, ho.heap]
    exact (h.drained (hrun hr (by simp))).imp_right fun hlater x hx => heapSame x hx ▸ hlater x hx
  · refine (h.here k hk).imp (List.mem_append_left _) fun hin => ?_
    simp only [Passing.skip, ho.heap, hslots]
    exact ⟨hin.1, hin.2.trans (ho.same k.1 (.inr hin.1.symm)).1.symm⟩
  · rcases List.mem_append.mp hk with hk | hk
    · refine (h.gone k hk).imp (List.mem_append_left _) fun hin => ?_
      simp only [Passing.skip, hactive]
      exact ⟨hin.1, hin.2.trans (ho.same k.1 (.inr (.inr (slots_of_active hin.1)))).1.symm⟩
    · exact absurd (List.mem_singleton.mp hk).symm (ho.event k).1

theorem Pass.step (h : Pass p) (ho : Owned p.history p.state)
    (hheap : p.state.isHeap p.state.tmHeap) (hs : PassStep n p e p') : Pass p' := by
  have htaken : ∀ {tmp}, p.state.run = .clock tmp → ∀ s' : State ι, ∀ k ∈ (p.next n .tau s').taken,
      k ∈ p.taken ∨ k.1 ∈ s'.run.slots ∧ k.2 = (p.state.mem k.1).uses := by
    intro tmp ht s' k hk
    simp only [Passing.next, takes, ht, List.append_nil] at hk
    exact .inl hk
  cases hs with
  | early ht hlt =>
      refine h.thread (n := n) (.clockEarly ht hlt) rfl (htaken ht _) nofun nofun fun _ => .inr ?_
      obtain ⟨rest, hfirst⟩ := h.first _ ht
      -- the first of the heap is not due, so nothing in it is
      exact fun x hx => Nat.lt_of_lt_of_le hlt (heap_first hheap hfirst x hx)
  | due ht hle hfirst hperm hkeep =>
      refine h.thread (n := n) (.clockDue ht hle hfirst hperm hkeep) rfl (htaken ht _) nofun ?_
        nofun
      rintro tmp ⟨⟩
      refine ⟨Nat.le_of_not_lt hle, fun x hx => heap_first hheap hfirst x ?_⟩
      rw [hfirst]
      exact List.mem_cons_of_mem _ (hperm.mem_iff.mp hx)
  | run hnot hs => exact h.run hnot hs
  | client hs => exact h.client (ho.outside hs)

theorem run_passes (h : (passSystem n ι).Run es p) : Pass p := by
  induction h with
  | start h₀ =>
      obtain ⟨⟨_, _, _, _, _, _, _, hrun, _⟩, hhistory, htaken⟩ := h₀
      refine ⟨?_, ?_, ?_, ?_, ?_⟩ <;> simp [hrun, hhistory, htaken]
  | next hr hs ih =>
      obtain ⟨hrun, hhistory⟩ := run_of_pass hr
      exact ih.step (hhistory ▸ run_owned hrun) (run_heap hrun) hs.2

omit [DecidableEq ι] in
/-- Whatever is released is no longer where the timer thread could have it. -/
theorem Owned.not_queued_of_released {s : State ι} (h : Owned es s) {k : Key}
    (hk : .released k ∈ es) : ¬ (Queued s k.1 ∧ k.2 = (s.mem k.1).uses) := by
  rintro ⟨hqueued, huses⟩
  rcases h.back k with ⟨_, _, hlt | ⟨_, hpool⟩⟩ | ⟨hcount, _⟩
  · exact absurd huses (Nat.ne_of_lt hlt)
  · exact h.not_pool_of_queued hqueued hpool
  · exact List.count_eq_zero.mp hcount hk

/-- **A pass runs what is due, earliest first, and leaves none behind.**  In every run of the timer
system the array is a heap; a timer whose `func` is called was due at the last reading of the
clock, and none in the heap is earlier; and where the loop has ended, every timer left is later
than that reading, and every timer the pass took was called, released after a cancel, or is in
the heap. -/
theorem pass_in_order (h : (passSystem n ι).Run es p) :
    p.state.isHeap p.state.tmHeap ∧
    (∀ k p', (passSystem n ι).step p (.called k) p' → (p.state.mem k.1).runTime ≤ p.reading ∧
      ∀ x ∈ p.state.tmHeap, (p.state.mem k.1).runTime ≤ (p.state.mem x).runTime) ∧
    (p.state.run = .loadSignal →
      (p.state.tmHeap = [] ∨ ∀ x ∈ p.state.tmHeap, p.reading < (p.state.mem x).runTime) ∧
      ∀ k ∈ p.taken, ExactlyOne (Executed es k) (Dropped es k) (InHeap p.state k) ∧
        (Dropped es k → ∃ k', .cancelled k' k ∈ es)) := by
  obtain ⟨hrun, hhistory⟩ := run_of_pass h
  have hpass := run_passes h
  have howned := run_owned hrun
  refine ⟨run_heap hrun, fun k p' hs => ?_, fun hload => ⟨hpass.drained hload, fun k hk => ?_⟩⟩
  · generalize he : Event.called k = e at hs
    cases hs.2 with
    | early _ _ | due _ _ _ _ _ => cases he
    | client hclient => exact absurd he.symm ((howned.outside hclient).event k).1
    | run _ hthread =>
        cases hthread with
        | runCas ht _ =>
            cases he
            exact hpass.admitted _ ht
        | _ => cases he
  · have hcalled : .called k ∈ es → .released k ∈ es := fun hc => by
      rcases hpass.gone k (hhistory ▸ hc) with hback | ⟨hactive, _⟩
      · exact hhistory ▸ hback
      · simp [hload, RunPc.active] at hactive
    have hheap : InHeap p.state k → .released k ∉ es := fun hin hback =>
      howned.not_queued_of_released hback ⟨.inr (.inl hin.1), hin.2⟩
    refine ⟨?_, fun hdropped => ?_⟩
    · rcases hpass.here k hk with hback | ⟨hplace, huses⟩
      · rw [hhistory] at hback
        rcases Classical.em (.called k ∈ es) with hc | hc
        · exact .inl ⟨hc, fun hd => hd.2 hc, fun hin => hheap hin hback⟩
        · exact .inr (.inl ⟨hc, ⟨hback, hc⟩, fun hin => hheap hin hback⟩)
      · have hin : InHeap p.state k := ⟨hplace.resolve_left (by simp [hload, RunPc.slots]), huses⟩
        exact .inr (.inr ⟨fun hc => hheap hin (hcalled hc), fun hd => hheap hin hd.1, hin⟩)
    · rcases (run_settled hrun).back k hdropped.1 with (hc | hcancelled) | hpast
      · exact absurd hc hdropped.2
      · exact hcancelled
      · rw [hload] at hpast
        cases hpast

end Steps

/-- A pass that runs the timer for time 5 when it reads 5. -/
theorem pass_in_order_executed : ∃ es, ∃ p : Passing Unit, (passSystem 1 Unit).Run es p ∧
    p.state.run = .loadSignal ∧ (1, 1) ∈ p.taken ∧ Executed es (1, 1) ∧
    ExactlyOne (Executed es (1, 1)) (Dropped es (1, 1)) (InHeap p.state (1, 1)) := by
  obtain ⟨_, s, added, htop, hs⟩ := run_added (c := fun _ _ => True) (fun _ => trivial)
    fun _ _ _ => trivial
  obtain ⟨p, start, rfl⟩ := pass_of_run added.of_when
  have alive : ∀ tmList, p.state.run ≠ .aborted tmList := fun _ h => by
    rw [htop] at h
    cases h
  have hv : (p.state.mem 1).version = baseVersion (p.state.mem 1).timerId := by
    rw [hs.mem]
    rfl
  have hdue : ¬ (p.state.mem 1).runTime > 5 := by
    rw [hs.mem]
    decide
  have huses : (p.state.mem 1).uses = 1 := by rw [hs.mem]
  have drained := ((start.next ⟨alive, .run (by simp [htop]) (.stopNotSet htop hs.stop)⟩).next
    ⟨(fun _ h => nomatch h), .run (fun _ h => nomatch h) (.resetMin rfl)⟩).next
    ⟨(fun _ h => nomatch h), .run (fun _ h => nomatch h) (.drain rfl (by decide))⟩
  have hlist : (p.state.bucket 0).list = [1] := hs.list
  have hheap : [1].Perm (1 :: p.state.tmHeap) := by rw [hs.heap]
  have pushed := ((drained.next ⟨(fun _ h => nomatch h), .run (fun _ h => nomatch h)
      (.scanPush (congrArg (RunPc.scan 0) hlist) hv hheap fun _ => IsHeap.singleton 1)⟩).next
    ⟨(fun _ h => nomatch h), .run (fun _ h => nomatch h) (.scanEnd rfl)⟩).next
    ⟨(fun _ h => nomatch h), .run (fun _ h => nomatch h) (.drainEnd rfl (by decide))⟩
  have due := (pushed.next ⟨(fun _ h => nomatch h), .run (fun _ h => nomatch h)
      (.topMatch rfl rfl hv)⟩).next
    ⟨(fun _ h => nomatch h), .due rfl hdue rfl (.refl []) fun _ => IsHeap.nil⟩
  have executed := (due.next ⟨(fun _ h => nomatch h), .run (fun _ h => nomatch h)
      (.runCas rfl hv)⟩).next
    ⟨(fun _ h => nomatch h), .run (fun _ h => nomatch h) (.callReturn rfl)⟩
  have ended := ((executed.next ⟨(fun _ h => nomatch h), .run (fun _ h => nomatch h)
      (.runStore rfl)⟩).next
    ⟨(fun _ h => nomatch h), .run (fun _ h => nomatch h) (.runRelease rfl)⟩).next
    ⟨(fun _ h => nomatch h), .run (fun _ h => nomatch h) (.heapEmpty rfl rfl)⟩
  have htaken : (1, 1) ∈ (p.next 1 .tau (p.state.goto .resetMin)).taken ++ [] ++
      (p.state.bucket 0).list.map p.state.keyOf := by
    simp [hlist, State.keyOf, huses]
  -- the ten steps that follow take nothing
  have hkept : (1, 1) ∈ (p.next 1 .tau (p.state.goto .resetMin)).taken ++ [] ++
      (p.state.bucket 0).list.map p.state.keyOf ++ [] ++ [] ++ [] ++ [] ++ [] ++ [] ++ [] ++ [] ++
      [] ++ [] := by simpa only [List.append_nil] using htaken
  have hcalled : (1, 1) = (1, (p.state.mem 1).uses) := by rw [huses]
  refine ⟨_, _, ended, rfl, hkept, ?_, (((pass_in_order ended).2.2 rfl).2 (1, 1) hkept).1⟩
  · simp only [Executed, List.mem_append, List.mem_singleton]
    exact .inl (.inl (.inl (.inl (.inr (congrArg Event.called hcalled)))))

end PBase.TimerControl
