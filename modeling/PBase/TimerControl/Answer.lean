/-
# `PBase.TimerControl.Answer` — what the result of `cancel_timer` says

`cancel_timer` promises a positive result for a timer that is running.  The CAS that fails writes
the version it found to `base_version`, and the load that follows is compared with one more than
that.  So the result is positive when the version moved on by one between the CAS and the load,
whatever timer of the slot that was for:

    base ── run_and_delete ──► base + 1 ── func returned ──► base + 2 ── add_timer ──► next base
      └────────────── cancel_timer ─────────────────────────────►┘

A timer that runs all the time gets -1 (`cancel_misreports`).

The calls in progress are watched: `began` and `failed` are the histories at the beginning of the
call and at its CAS, and `since` has the writes of the versions since that CAS.  No step reads
them.
-/
import PBase.TimerControl.Asserts

namespace PBase.TimerControl

open PBase.Lib

/-! ## Watching the calls -/

/-- A step that writes the version of a slot. -/
inductive Write where
  /-- The CAS of `run_and_delete`. -/
  | run
  /-- Its store, after `func` returned. -/
  | done
  /-- The store of `add_timer`, and whether the last timer of the slot was called or cancelled. -/
  | store (ended : Bool)
  /-- The CAS of `cancel_timer`. -/
  | cancel

/-- By how much the version moves on. -/
def Write.weight : Write → Nat
  | .run | .done | .store true => 1
  | .cancel => 2
  | .store false => 3

def weights (l : List Write) : Nat := (l.map Write.weight).sum

/-- A state, the history that led to it, and for each client the histories when its last call
began and when a CAS of `cancel_timer` was its last, and the writes of each slot since then. -/
structure Watched (ι : Type) where
  state : State ι
  history : List Event
  began : ι → List Event
  failed : ι → List Event
  since : ι → Nat → List Write

def ClientPc.isIdle : ClientPc → Bool
  | .idle => true
  | _ => false

def ClientPc.isCas : ClientPc → Bool
  | .cancelCas _ => true
  | _ => false

/-- The result of a `cancel_timer` that returns, and the timer it was for. -/
def Event.answer : Event → Option (Key × Int)
  | .cancelled k _ => some (k, 0)
  | .notCancelled k result => some (k, result)
  | _ => none

section Watch
variable {ι : Type} [DecidableEq ι]

/-- A step, of the timer thread or of a client. -/
inductive StepBy (n : Nat) (s : State ι) : Option ι → Event → State ι → Prop
  | run {e : Event} {s' : State ι} : RunStep n s e s' → StepBy n s none e s'
  | add {t : ι} {e : Event} {s' : State ι} : AddStep n s t e s' → StepBy n s (some t) e s'
  | cancel {t : ι} {e : Event} {s' : State ι} : CancelStep s t e s' → StepBy n s (some t) e s'
  | stop {t : ι} {e : Event} {s' : State ι} : StopStep s t e s' → StepBy n s (some t) e s'

/-- The writes of the version of slot `x` in a step. -/
def written (s : State ι) (es : List Event) (who : Option ι) (e : Event) (x : Nat) : List Write :=
  match who, e with
  | none, .called k => if k.1 = x then [.run] else []
  | none, _ => match s.run with
      | .runStore tmp _ => if tmp = x then [.done] else []
      | _ => []
  | some _, .cancelled k _ => if k.1 = x then [.cancel] else []
  | some t, _ => match s.client t with
      | .addStore id _ =>
          if low id.raw = x then [.store (decide (ends es (x, (s.mem x).stored) ≠ 0))] else []
      | _ => []

def Watched.next (w : Watched ι) (who : Option ι) (e : Event) (s' : State ι) : Watched ι :=
  { state := s'
    history := w.history ++ [e]
    began := fun t => if who = some t ∧ (w.state.client t).isIdle then w.history else w.began t
    failed := fun t => if who = some t ∧ (w.state.client t).isCas then w.history else w.failed t
    since := fun t x => if who = some t ∧ (w.state.client t).isCas then []
      else w.since t x ++ written w.state w.history who e x }

/-- `timerSystem`, watched. -/
def watched (n : Nat) (ι : Type) [DecidableEq ι] : System (Watched ι) (Option ι × Event) where
  init w := (timerSystem n ι).init w.state ∧ w.history = [] ∧ w.began = fun _ => []
  step w l w' := (∀ tmList, w.state.run ≠ .aborted tmList) ∧
    ∃ s', StepBy n w.state l.1 l.2 s' ∧ w' = w.next l.1 l.2 s'

/-! ## What the result should say -/

/-- The `func` of the timer is executing. -/
def Executing (es : List Event) (k : Key) : Prop := .called k ∈ es ∧ .finished k ∉ es

/-- What is promised of a `cancel_timer` for the timer `k` by the client `t`, which is about to
return this result. -/
structure Truthful (w : Watched ι) (t : ι) (k : Key) (result : Int) : Prop where
  running : (∃ id base, w.state.client t = .cancelLoad id base) → Executing (w.failed t) k →
    Executing w.history k → 0 < result
  positive : 0 < result → ∃ h, w.began t <+: h ∧ h <+: w.history ∧ Executing h k
  ended : (.finished k ∈ w.began t ∨ ∃ k', .cancelled k' k ∈ w.began t) → result < 0

/-- When the result of a load is true.  If `func` was executing when the CAS failed, it has
returned.  If the version of the slot was written once since, and moved on by one (the timer
thread called or finished with a timer of the slot, or the next timer came after one that was
called or cancelled), then the timer was called, and `func` had not returned before the call
began. -/
structure Timely (w : Watched ι) (t : ι) (k : Key) : Prop where
  returned : Executing (w.failed t) k → .finished k ∈ w.history
  single : ∀ a ∈ [Write.run, .done, .store true], w.since t k.1 = [a] →
    .called k ∈ w.history ∧ .finished k ∉ w.began t

/-- Fewer than 2^30 timers have used the slot since the one a `cancel_timer` that returns is
for. -/
def Recent (w : Watched ι) : Option ι × Event → Prop
  | (some _, .notCancelled k _) => (w.state.mem k.1).uses < k.2 + 2 ^ 30
  | (_, e) => FewReuses w.state e

variable {n : Nat} {s s' : State ι} {who : Option ι} {e : Event} {w w' : Watched ι}
  {l : Option ι × Event} {ls : List (Option ι × Event)}

theorem StepBy.step (h : StepBy n s who e s') : Step n s e s' := by
  cases h with
  | run h => exact .run h
  | add h => exact .add _ h
  | cancel h => exact .cancel _ h
  | stop h => exact .stop _ h

omit [DecidableEq ι] in
theorem Recent.few (h : Recent w l) : FewReuses w.state l.2 := by
  obtain ⟨who, e⟩ := l
  cases who <;> cases e <;> first | exact h | trivial

/-- A watched run is a run. -/
theorem run_state (h : ((watched n ι).when Recent).Run ls w) :
    ((timerSystem n ι).when FewReuses).Run w.history w.state := by
  induction h with
  | start h₀ =>
      rw [h₀.2.1]
      exact .start h₀.1
  | next _ hs ih =>
      obtain ⟨⟨alive, s', hstep, rfl⟩, hrecent⟩ := hs
      exact ih.next ⟨⟨alive, hstep.step⟩, hrecent.few⟩

/-! ## When `func` is executing -/

/-- What the history says about `func`. -/
structure Timeline (es : List Event) (s : State ι) : Prop where
  calling : ∀ k, Executing es k → ∃ base, s.run = .calling k.1 base ∧ k.2 = (s.mem k.1).uses
  /-- `func` returns after it was called. -/
  order : ∀ h, h <+: es → ∀ k, .finished k ∈ h → .called k ∈ h

omit [DecidableEq ι] in
/-- While `func` runs, its timer was called. -/
theorem Exclusive.called {es : List Event} (hex : Exclusive es s) (ho : Owned es s) {tmp base : Nat}
    (hrun : (tmp, base) ∈ s.run.running) : .called (s.keyOf tmp) ∈ es := by
  obtain ⟨_, huses, hpos⟩ := ho.baseVersion (x := tmp) (queued_running hrun)
  have hv : (s.mem tmp).version = addVersion (ver (s.mem tmp).stored) 1 := (hex.running _ hrun).1
  rw [State.keyOf, ← huses]
  rcases hex.word tmp hpos with ⟨hw, _⟩ | ⟨_, hcalls, _⟩ | ⟨hw, _⟩
  · exact absurd (hv.symm.trans hw) (ver_ne_one _)
  · exact List.count_pos_iff.mp (Nat.lt_of_lt_of_eq Nat.one_pos hcalls.symm)
  · exact absurd (hv.symm.trans hw) (one_ne_two _)

theorem Executing.snoc {es : List Event} {k : Key} (h : Executing (es ++ [e]) k) :
    e = .called k ∨ Executing es k ∧ e ≠ .finished k := by
  obtain ⟨hcalled, hnot⟩ := h
  rw [List.mem_append, not_or] at hnot
  rcases List.mem_append.mp hcalled with hc | hc
  · exact .inr ⟨⟨hc, hnot.1⟩, fun he => hnot.2 (he ▸ List.mem_singleton_self _)⟩
  · exact .inl (List.mem_singleton.mp hc).symm

theorem prefix_snoc {es h : List Event} (hp : h <+: es ++ [e]) : h <+: es ∨ h = es ++ [e] := by
  obtain ⟨l, hl⟩ := hp
  rcases List.eq_nil_or_concat l with rfl | ⟨l', a, rfl⟩
  · exact .inr (by simpa using hl)
  · rw [List.concat_eq_append, ← List.append_assoc] at hl
    exact .inl ⟨l', (List.append_inj_left' hl rfl)⟩

omit [DecidableEq ι] in
/-- Only the return of `func` ends its execution. -/
theorem Timeline.of_step {es : List Event} (h : Timeline es s)
    (hcalled : ∀ k, e = .called k → ∃ base, s'.run = .calling k.1 base ∧ k.2 = (s'.mem k.1).uses)
    (hcalling : ∀ x base, s.run = .calling x base → e ≠ .finished (s.keyOf x) →
      s'.run = .calling x base ∧ (s'.mem x).uses = (s.mem x).uses)
    (hfinished : ∀ k, e = .finished k → .called k ∈ es) : Timeline (es ++ [e]) s' where
  calling k hk := by
    rcases hk.snoc with hk | ⟨hk, hne⟩
    · exact hcalled k hk
    · obtain ⟨base, hrun, huses⟩ := h.calling k hk
      have hkey : s.keyOf k.1 = k := Prod.ext rfl huses.symm
      obtain ⟨hrun', huses'⟩ := hcalling k.1 base hrun (by rwa [hkey])
      exact ⟨base, hrun', huses.trans huses'.symm⟩
  order p hp k hk := by
    rcases prefix_snoc hp with hp | rfl
    · exact h.order p hp k hk
    · rcases List.mem_append.mp hk with hk | hk
      · exact List.mem_append_left _ (h.order es List.prefix_rfl k hk)
      · exact List.mem_append_left _ (hfinished k (List.mem_singleton.mp hk).symm)

omit [DecidableEq ι] in
theorem Timeline.runStep {es : List Event} (h : Timeline es s) (hex : Exclusive es s)
    (ho : Owned es s) (hs : RunStep n s e s') : Timeline (es ++ [e]) s' := by
  cases hs with
  | stopNotSet ht _ | stopSet ht _ | resetMin ht | drain ht _ | drainEnd ht _ | scanEnd ht
  | scanPush ht _ _ _ | scanMismatch ht _ | scanAssert ht | scanRelease ht | heapEmpty ht _
  | topMatch ht _ _ | topMismatch ht _ _ | topAssert ht | topRelease ht _ _ _ | clockEarly ht _
  | clockDue ht _ _ _ _ | runCasFail ht _ | runStore ht | runAssert ht | runRelease ht
  | loadSignal ht | loadMin ht | decideWait ht _ | decideNoWait ht _ | waitBlock ht _
  | waitReturn ht _ | timeout ht | exitRelease ht | exitEnd ht =>
      exact h.of_step (by simp) (by simp [ht]) (by simp)
  | @runCas tmp ht _ =>
      refine h.of_step (fun k hk => ?_) (by simp [ht]) (by simp)
      cases hk
      exact ⟨_, rfl, by simp [State.goto, State.setVersion, State.keyOf]⟩
  | @callReturn tmp base ht =>
      have hcalled := hex.called ho (show (tmp, base) ∈ s.run.running by simp [ht, RunPc.running])
      refine h.of_step (by simp) (fun x b hrun hne => ?_) fun k hk => ?_
      · rw [ht] at hrun
        cases hrun
        exact absurd rfl hne
      · cases hk
        exact hcalled

/-- A client leaves the timer thread where it is, while that runs a `func`. -/
theorem Timeline.step {es : List Event} (h : Timeline es s) (hex : Exclusive es s) (ho : Owned es s)
    (hs : Step n s e s') : Timeline (es ++ [e]) s' := by
  rcases hs.run_or_client with hs | hs
  · exact h.runStep hex ho hs
  · obtain ⟨hrun, _, hsame, he⟩ := ho.outside hs
    refine h.of_step (fun k hk => absurd hk (he k).1) (fun x base hx _ => ⟨?_, ?_⟩)
      fun k hk => absurd hk (he k).2.1
    · rcases hrun with hr | hr <;> rw [hr, hx]
      rfl
    · exact (hsame x (.inr (.inr (by simp [hx, RunPc.slots])))).1

theorem run_timeline {es : List Event} (h : ((timerSystem n ι).when FewReuses).Run es s) :
    Timeline es s := by
  induction h with
  | start h₀ =>
      refine ⟨fun k hk => absurd hk.1 List.not_mem_nil, fun p hp k hk => ?_⟩
      rw [List.prefix_nil.mp hp] at hk
      exact absurd hk List.not_mem_nil
  | next hr hs ih => exact ih.step (run_exclusive hr) (run_owned hr.of_when) hs.1.2

/-! ## How far a slot is -/

/-- A timer moves the version of its slot on by three: it is pending, running and over. -/
def Position (s : State ι) (x p : Nat) : Prop :=
  ∃ d ≤ 2, p = 3 * (s.mem x).stored + d ∧
    (s.mem x).version = addVersion (ver (s.mem x).stored) d

theorem addVersion_ver (g d : Nat) : addVersion (ver g) d = (3 * g + d) % 2 ^ 32 := by
  unfold addVersion ver
  omega

theorem ver_zero (g : Nat) : addVersion (ver g) 0 = ver g := by
  unfold addVersion ver
  omega

section Position
omit [DecidableEq ι]
variable {x p p' : Nat} {es : List Event}

theorem Position.version (h : Position s x p) : (s.mem x).version = p % 2 ^ 32 := by
  obtain ⟨d, -, rfl, hv⟩ := h
  rw [hv, addVersion_ver]

/-- The version tells the position. -/
theorem Position.eq_add (h : Position s x p) {d : Nat} (hd : d ≤ 4)
    (hv : (s.mem x).version = addVersion (ver (s.mem x).stored) d) :
    d ≤ 2 ∧ p = 3 * (s.mem x).stored + d := by
  obtain ⟨d', hd', rfl, hv'⟩ := h
  rw [hv', addVersion_ver, addVersion_ver] at hv
  omega

theorem Position.le (h : Position s x p) : p ≤ 3 * (s.mem x).stored + 2 := by
  obtain ⟨d, hd, rfl, -⟩ := h
  omega

theorem Position.ge (h : Position s x p) : 3 * (s.mem x).stored ≤ p := by
  obtain ⟨d, -, rfl, -⟩ := h
  exact Nat.le_add_right _ _

theorem Exclusive.position (h : Exclusive es s) (hpos : 0 < (s.mem x).stored) :
    ∃ p, Position s x p := by
  rcases h.word x hpos with ⟨hv, -⟩ | ⟨hv, -⟩ | ⟨hv, -⟩
  · exact ⟨_, 0, by decide, rfl, hv.trans (ver_zero _).symm⟩
  · exact ⟨_, 1, by decide, rfl, hv⟩
  · exact ⟨_, 2, le_rfl, rfl, hv⟩

/-- A timer that was neither called nor cancelled is pending. -/
theorem Exclusive.pending_of_ends (h : Exclusive es s) (hpos : 0 < (s.mem x).stored)
    (hends : ends es (x, (s.mem x).stored) = 0) :
    (s.mem x).version = addVersion (ver (s.mem x).stored) 0 := by
  rcases h.word x hpos with ⟨hv, -⟩ | ⟨-, hcalls, -⟩ | ⟨-, hone⟩
  · exact hv.trans (ver_zero _).symm
  · rw [ends] at hends
    omega
  · omega

end Position

/-- The slots that are marked as running are those the timer thread runs. -/
def Marked (s : State ι) : Prop :=
  ∀ x, 0 < (s.mem x).stored → (s.mem x).version = addVersion (ver (s.mem x).stored) 1 →
    ∃ base, (x, base) ∈ s.run.running

/-- What a step does to the slot `x`, with its writes of the version. -/
inductive Effect (es : List Event) (s s' : State ι) (x : Nat) : List Write → Prop
  | none : (s'.mem x).version = (s.mem x).version → (s'.mem x).stored = (s.mem x).stored →
      (∀ base, (x, base) ∈ s.run.running → (x, base) ∈ s'.run.running) → Effect es s s' x []
  | run {base : Nat} : (s'.mem x).stored = (s.mem x).stored →
      (s.mem x).version = ver (s.mem x).stored →
      (s'.mem x).version = addVersion (ver (s.mem x).stored) 1 → (x, base) ∈ s'.run.running →
      Effect es s s' x [.run]
  | done : (s'.mem x).stored = (s.mem x).stored →
      (s.mem x).version = addVersion (ver (s.mem x).stored) 1 →
      (s'.mem x).version = addVersion (ver (s.mem x).stored) 2 → Effect es s s' x [.done]
  | store : (s'.mem x).stored = (s.mem x).stored + 1 →
      (s'.mem x).version = ver ((s.mem x).stored + 1) → ¬ Queued s x →
      Effect es s s' x [.store (decide (ends es (x, (s.mem x).stored) ≠ 0))]
  | cancel : (s'.mem x).stored = (s.mem x).stored →
      (s'.mem x).version = addVersion (s.mem x).version 2 → Effect es s s' x [.cancel]

section Effect
variable {es : List Event} {x p p' : Nat}

omit [DecidableEq ι] in
theorem Effect.of_update {m : Timer} {y : Nat} (hmem : s'.mem = Function.update s.mem y m)
    (hm : m.version = (s.mem y).version ∧ m.stored = (s.mem y).stored) (hrun : s'.run = s.run) :
    Effect es s s' x [] := by
  obtain ⟨hversion, hstored⟩ := update_words hm x
  rw [← hmem] at hversion hstored
  exact .none hversion hstored fun base hb => by rwa [hrun]

omit [DecidableEq ι] in
theorem RunStep.effect (h : RunStep n s e s') (hex : Exclusive es s) (ho : Owned es s) (x : Nat) :
    Effect es s s' x (written s es none e x) := by
  cases h with
  | stopNotSet ht _ | stopSet ht _ | resetMin ht | drain ht _ | drainEnd ht _ | scanEnd ht
  | scanPush ht _ _ _ | scanMismatch ht _ | scanAssert ht | scanRelease ht | heapEmpty ht _
  | topMatch ht _ _ | topMismatch ht _ _ | topAssert ht | topRelease ht _ _ _ | clockEarly ht _
  | clockDue ht _ _ _ _ | runCasFail ht _ | runAssert ht | runRelease ht | loadSignal ht
  | loadMin ht | decideWait ht _ | decideNoWait ht _ | waitBlock ht _ | waitReturn ht _
  | timeout ht | exitRelease ht | exitEnd ht =>
      simp only [written, ht]
      exact .none rfl rfl (by simp [ht, RunPc.running])
  | callReturn ht =>
      simp only [written, ht]
      exact .none rfl rfl fun base hb => by rwa [ht] at hb
  | @runCas tmp ht hv =>
      have hbase := (ho.baseVersion (x := tmp) (.inr (.inr (by simp [ht, RunPc.slots])))).1
      rcases eq_or_ne tmp x with rfl | hne
      · simp only [written, State.keyOf, if_true]
        refine .run ?_ (hv.trans hbase) ?_ (List.mem_singleton_self _)
        · simp [State.goto, State.setVersion]
        · simp [State.goto, State.setVersion, hbase]
      · have hnone : written s es (none : Option ι) (.called (s.keyOf tmp)) x = [] := if_neg hne
        rw [hnone]
        refine .none ?_ ?_ (by simp [ht, RunPc.running])
        · simp [State.goto, State.setVersion, Function.update_of_ne hne.symm]
        · simp [State.goto, State.setVersion, Function.update_of_ne hne.symm]
  | @runStore tmp base ht =>
      obtain ⟨hv, hbase⟩ := hex.running (tmp, base) (by simp [ht, RunPc.running])
      rcases eq_or_ne tmp x with rfl | hne
      · simp only [written, ht, if_true]
        refine .done ?_ hv ?_
        · simp [State.goto, State.setVersion]
        · simp only [State.goto, State.setVersion, Function.update_self]
          rw [← hbase]
      · simp only [written, ht, if_neg hne]
        refine .none ?_ ?_ fun b hb => ?_
        · simp [State.goto, State.setVersion, Function.update_of_ne hne.symm]
        · simp [State.goto, State.setVersion, Function.update_of_ne hne.symm]
        · rw [ht] at hb
          cases List.mem_singleton.mp hb
          exact absurd rfl hne

theorem AddStep.effect {t : ι} (h : AddStep n s t e s') (ho : Owned es s) (x : Nat) :
    Effect es s s' x (written s es (some t) e x) := by
  cases h with
  | call _ ht | bucket ht _ | loadMin ht | cas ht _ | casFail ht | signal ht | ret ht =>
      simp only [written, ht]
      exact .none rfl rfl fun _ hb => hb
  | wake ht =>
      simp only [written, ht]
      exact .none rfl rfl fun base hb => by rwa [Exclusive.running_wake]
  | acquire ht _ | acquireNew ht _ _ _ | write ht =>
      simp only [written, ht]
      exact .of_update rfl ⟨rfl, rfl⟩ rfl
  | @store id r ht =>
      have hok := ho.client t
      rw [ht] at hok
      obtain ⟨hheld, hnext, -⟩ := hok
      simp only [written, ht]
      rcases eq_or_ne (low id.raw) x with rfl | hne
      · rw [if_pos rfl]
        refine .store ?_ ?_ (ho.not_queued_of_client (t := t) (by simp [ht, ClientPc.slots]))
        · simp [hnext]
        · simp [hnext, high_raw hheld.raw]
      · rw [if_neg hne]
        refine .none ?_ ?_ fun _ hb => hb
        · simp [Function.update_of_ne hne.symm]
        · simp [Function.update_of_ne hne.symm]

theorem CancelStep.effect {t : ι} (h : CancelStep s t e s') (x : Nat) :
    Effect es s s' x (written s es (some t) e x) := by
  cases h with
  | call ht _ | mismatch ht _ | «match» ht _ | casFail ht _ | load ht =>
      simp only [written, ht]
      exact .none rfl rfl fun _ hb => hb
  | @cas id ht hv =>
      rcases eq_or_ne (low id.raw) x with rfl | hne
      · simp only [written, TimerId.key, if_true]
        refine .cancel ?_ ?_
        · simp [State.clientGoto, State.setVersion]
        · simp [State.clientGoto, State.setVersion, hv]
      · have hnone :
          written s es (some t) (.cancelled id.key (low id.raw, (s.mem (low id.raw)).stored)) x
            = [] := if_neg hne
        rw [hnone]
        refine .none ?_ ?_ fun _ hb => hb
        · simp [State.clientGoto, State.setVersion, Function.update_of_ne hne.symm]
        · simp [State.clientGoto, State.setVersion, Function.update_of_ne hne.symm]

theorem StopStep.effect {t : ι} (h : StopStep s t e s') (x : Nat) :
    Effect es s s' x (written s es (some t) e x) := by
  cases h with
  | call ht _ | store ht | signal ht | join ht _ =>
      simp only [written, ht]
      exact .none rfl rfl fun _ hb => hb
  | wake ht =>
      simp only [written, ht]
      exact .none rfl rfl fun base hb => by rwa [Exclusive.running_wake]

theorem StepBy.effect (h : StepBy n s who e s') (hex : Exclusive es s) (ho : Owned es s) (x : Nat) :
    Effect es s s' x (written s es who e x) := by
  cases h with
  | run h => exact h.effect hex ho x
  | add h => exact h.effect ho x
  | cancel h => exact h.effect x
  | stop h => exact h.effect x

omit [DecidableEq ι] in
theorem Effect.marked {ws : List Write} (h : Effect es s s' x ws) (hp : Position s x p)
    (hm : (s.mem x).version = addVersion (ver (s.mem x).stored) 1 →
      ∃ base, (x, base) ∈ s.run.running)
    (hv : (s'.mem x).version = addVersion (ver (s'.mem x).stored) 1) :
    ∃ base, (x, base) ∈ s'.run.running := by
  cases h with
  | none hversion hstored hrunning =>
      rw [hversion, hstored] at hv
      obtain ⟨base, hb⟩ := hm hv
      exact ⟨base, hrunning base hb⟩
  | run _ _ _ hb => exact ⟨_, hb⟩
  | done hstored _ hversion =>
      rw [hversion, hstored] at hv
      exact absurd hv.symm (one_ne_two _)
  | store hstored hversion _ =>
      rw [hversion, hstored] at hv
      exact absurd hv.symm (ver_ne_one _)
  | cancel hstored hversion =>
      rw [hversion, hstored, hp.version, addVersion_ver] at hv
      have hge := hp.ge
      have hle := hp.le
      unfold addVersion at hv
      omega

omit [DecidableEq ι] in
theorem Effect.stored_le {ws : List Write} (h : Effect es s s' x ws) :
    (s.mem x).stored ≤ (s'.mem x).stored := by
  cases h with
  | none _ hstored _ => exact hstored.ge
  | run hstored _ _ _ => exact hstored.ge
  | done hstored _ _ => exact hstored.ge
  | store hstored _ _ =>
      rw [hstored]
      exact Nat.le_succ _
  | cancel hstored _ => exact hstored.ge

omit [DecidableEq ι] in
/-- The version moves on by the weight of what is written. -/
theorem Effect.position {ws : List Write} (h : Effect es s s' x ws) (hex : Exclusive es s)
    (hpos : 0 < (s.mem x).stored)
    (hm : (s.mem x).version = addVersion (ver (s.mem x).stored) 1 →
      ∃ base, (x, base) ∈ s.run.running)
    (hp : Position s x p) (hp' : Position s' x p') : p' = p + weights ws := by
  cases h with
  | none hversion hstored _ =>
      obtain ⟨d, hd, rfl, hv⟩ := hp
      obtain ⟨-, rfl⟩ := hp'.eq_add (d := d) (by omega) (by rw [hversion, hstored, hv])
      rw [hstored]
      rfl
  | run hstored hversion hversion' _ =>
      obtain ⟨-, rfl⟩ := hp.eq_add (d := 0) (by decide) (hversion.trans (ver_zero _).symm)
      obtain ⟨-, rfl⟩ := hp'.eq_add (d := 1) (by decide) (by rw [hversion', hstored])
      rw [hstored]
      rfl
  | done hstored hversion hversion' =>
      obtain ⟨-, rfl⟩ := hp.eq_add (d := 1) (by decide) hversion
      obtain ⟨-, rfl⟩ := hp'.eq_add (d := 2) (by decide) (by rw [hversion', hstored])
      rw [hstored]
      rfl
  | cancel hstored hversion =>
      obtain ⟨d, hd, rfl, hv⟩ := hp
      have hv' : (s'.mem x).version = addVersion (ver (s'.mem x).stored) (d + 2) := by
        rw [hversion, hstored, hv]
        unfold addVersion
        omega
      obtain ⟨-, rfl⟩ := hp'.eq_add (d := d + 2) (by omega) hv'
      rw [hstored]
      rfl
  | store hstored hversion hqueued =>
      obtain ⟨-, rfl⟩ := hp'.eq_add (d := 0) (by decide) (by rw [hversion, hstored, ver_zero])
      by_cases hends : ends es (x, (s.mem x).stored) = 0
      · obtain ⟨-, rfl⟩ := hp.eq_add (d := 0) (by decide) (hex.pending_of_ends hpos hends)
        simp only [hstored, hends, weights, Write.weight, List.map_cons, List.map_nil,
            List.sum_cons,
          List.sum_nil, ne_eq, not_true_eq_false, decide_false]
        omega
      · -- it was called or cancelled, and does not run
        have hover : (s.mem x).version = addVersion (ver (s.mem x).stored) 2 := by
          rcases hex.word x hpos with ⟨-, hcalls, hcancels⟩ | ⟨hv, -⟩ | ⟨hv, -⟩
          · rw [ends, hcalls, hcancels] at hends
            exact absurd rfl hends
          · obtain ⟨base, hb⟩ := hm hv
            exact absurd (queued_running hb) hqueued
          · exact hv
        obtain ⟨-, rfl⟩ := hp.eq_add (d := 2) (by decide) hover
        simp only [hstored, hends, weights, Write.weight, List.map_cons, List.map_nil,
            List.sum_cons,
          List.sum_nil, ne_eq, not_false_eq_true, decide_true]
        omega

end Effect


omit [DecidableEq ι] in
/-- The timer whose `func` executes is marked as running. -/
theorem Timeline.version {es : List Event} (h : Timeline es s) (hex : Exclusive es s)
    (ho : Owned es s) {k : Key} (hk : Executing es k) :
    (s.mem k.1).version = addVersion (ver k.2) 1 := by
  obtain ⟨base, hrun, huses⟩ := h.calling k hk
  have hmem : (k.1, base) ∈ s.run.running := by simp [hrun, RunPc.running]
  rw [huses, ← (ho.baseVersion (x := k.1) (queued_running (p := (k.1, base)) hmem)).2.1]
  exact (hex.running _ hmem).1

/-! ## The calls in progress -/

structure Watching (w : Watched ι) : Prop where
  marked : Marked w.state
  began : ∀ t, w.began t <+: w.history
  load : ∀ t id found, w.state.client t = .cancelLoad id found → w.began t <+: w.failed t ∧
    w.failed t <+: w.history ∧
    (Executing (w.failed t) id.key → found = addVersion (ver id.gen) 1) ∧
    ∃ p, 3 * id.gen ≤ p ∧ found = p % 2 ^ 32 ∧
      Position w.state (low id.raw) (p + weights (w.since t (low id.raw)))

/-- Who is about to load the version was, or has just failed in its CAS. -/
theorem StepBy.load (h : StepBy n s who e s') {t : ι} {id : TimerId} {found : Nat}
    (ht : s'.client t = .cancelLoad id found) :
    (s.client t = .cancelLoad id found ∧ (who = some t → False)) ∨
      (who = some t ∧ s.client t = .cancelCas id ∧ found = (s.mem (low id.raw)).version ∧
        s'.mem = s.mem) := by
  have hsame : ∀ {u : ι} {p : ClientPc}, Function.update s.client u p t = .cancelLoad id found →
      (∀ found, p ≠ .cancelLoad id found) →
      s.client t = .cancelLoad id found ∧ (some u = some t → False) := fun {u p} hu hp => by
    rcases eq_or_ne t u with rfl | hne
    · rw [Function.update_self] at hu
      exact absurd hu (hp found)
    · rw [Function.update_of_ne hne] at hu
      exact ⟨hu, fun heq => hne (Option.some.inj heq).symm⟩
  cases h with
  | run hs =>
      refine .inl ⟨?_, nofun⟩
      cases hs <;> exact ht
  | add hs =>
      cases hs with
      | bucket _ _ | loadMin _ =>
          refine .inl (hsame ht ?_)
          split <;> simp
      | _ => exact .inl (hsame ht (by simp))
  | stop hs => cases hs <;> exact .inl (hsame ht (by simp))
  | @cancel u _ _ hs =>
      cases hs with
      | @casFail id' hu _ =>
          rcases eq_or_ne t u with rfl | hne
          · simp only [State.clientGoto, Function.update_self, ClientPc.cancelLoad.injEq] at ht
            obtain ⟨rfl, rfl⟩ := ht
            exact .inr ⟨rfl, hu, rfl, rfl⟩
          · simp only [State.clientGoto, Function.update_of_ne hne] at ht
            exact .inl ⟨ht, fun heq => hne (Option.some.inj heq).symm⟩
      | _ => exact .inl (hsame ht (by simp))

theorem weights_append (l l' : List Write) : weights (l ++ l') = weights l + weights l' := by
  rw [weights, List.map_append, List.sum_append]
  rfl

/-- One write moves a version on by one. -/
theorem weights_eq_one {l : List Write} :
    weights l = 1 ↔ ∃ a ∈ [Write.run, .done, .store true], l = [a] := by
  have hpos : ∀ a : Write, 0 < a.weight := fun a => by
    cases a with
    | run | done | cancel => decide
    | store ended => cases ended <;> decide
  constructor
  · intro hone
    cases l with
    | nil => cases hone
    | cons a l =>
        have hsum : a.weight + weights l = 1 := hone
        have ha := hpos a
        have hnil : l = [] := by
          cases l with
          | nil => rfl
          | cons b l =>
              have hb := hpos b
              have hrest : weights (b :: l) = b.weight + weights l := rfl
              omega
        subst hnil
        have hweight : a.weight = 1 := hsum
        refine ⟨a, ?_, rfl⟩
        cases a with
        | run | done => simp
        | cancel => cases hweight
        | store ended =>
            cases ended with
            | false => cases hweight
            | true => simp
  · rintro ⟨a, ha, rfl⟩
    simp only [List.mem_cons, List.not_mem_nil, or_false] at ha
    rcases ha with rfl | rfl | rfl <;> rfl

theorem Marked.step {es : List Event} (h : Marked s) (hex : Exclusive es s) (ho : Owned es s)
    (hs : StepBy n s who e s') : Marked s' := by
  intro x hpos hv
  have heff := hs.effect hex ho x
  generalize written s es who e x = ws at heff
  by_cases hstored : 0 < (s.mem x).stored
  · obtain ⟨p, hp⟩ := hex.position hstored
    exact heff.marked hp (h x hstored) hv
  · -- its first timer is pending
    cases heff with
    | none _ heq _ => omega
    | run heq _ _ _ => omega
    | done heq _ _ => omega
    | cancel heq _ => omega
    | store heq hversion _ =>
        rw [hversion, heq] at hv
        exact absurd hv.symm (ver_ne_one _)

theorem Watching.step (h : Watching w) (htime : Timeline w.history w.state)
    (hex : Exclusive w.history w.state) (hex' : Exclusive (w.history ++ [e]) s')
    (ho : Owned w.history w.state) (hs : StepBy n w.state who e s') :
    Watching (w.next who e s') where
  marked := h.marked.step hex ho hs
  began t := by
    simp only [Watched.next]
    split
    · exact List.prefix_append _ _
    · exact (h.began t).trans (List.prefix_append _ _)
  load t id found ht := by
    rcases hs.load ht with ⟨hload, hnot⟩ | ⟨rfl, hcas, rfl, hmem⟩
    · obtain ⟨hpre, hpre', hexec, p, hle, hfound, hp⟩ := h.load t id found hload
      simp only [Watched.next, hload, ClientPc.isIdle, ClientPc.isCas, and_false,
        Bool.false_eq_true, if_false]
      refine ⟨hpre, hpre'.trans (List.prefix_append _ _), hexec, p, hle, hfound, ?_⟩
      have hid : id ∈ w.state.returned := by
        have := ho.client t; rwa [hload] at this
      have hpos := Nat.lt_of_lt_of_le (ho.returned id hid).pos (ho.returned id hid).stored
      have heff := hs.effect hex ho (low id.raw)
      obtain ⟨p', hp'⟩ := hex'.position (x := low id.raw) (Nat.lt_of_lt_of_le hpos heff.stored_le)
      have heq := heff.position hex hpos (h.marked _ hpos) hp hp'
      rw [weights_append, ← Nat.add_assoc, ← heq]
      exact hp'
    · have hid : id ∈ w.state.returned := by
        have := ho.client t; rwa [hcas] at this
      have hstored := (ho.returned id hid).stored
      obtain ⟨p, hp⟩ := hex.position (Nat.lt_of_lt_of_le (ho.returned id hid).pos hstored)
      simp only [Watched.next, hcas, ClientPc.isIdle, ClientPc.isCas, and_false, and_self,
        Bool.false_eq_true, if_false, if_true]
      refine ⟨h.began t, List.prefix_append _ _, fun hk => htime.version hex ho hk, p, ?_,
          hp.version, ?_⟩
      · exact (Nat.mul_le_mul_left 3 hstored).trans hp.ge
      · show Position s' (low id.raw) (p + 0)
        rw [Position, hmem]
        exact hp

theorem run_watching (h : ((watched n ι).when Recent).Run ls w) : Watching w := by
  induction h with
  | @start w h₀ =>
      obtain ⟨⟨hmem, _, _, _, _, _, _, _, hclient, _⟩, hhistory, hbegan⟩ := h₀
      refine ⟨fun x hpos => ?_, fun t => ?_, fun t id found ht => ?_⟩
      · rw [(hmem x).2] at hpos
        exact absurd hpos (Nat.lt_irrefl 0)
      · rw [hbegan]
        exact List.nil_prefix
      · rw [hclient] at ht
        cases ht
  | next hr hs ih =>
      have hnext := run_exclusive (run_state (hr.next hs))
      obtain ⟨⟨_, s', hstep, rfl⟩, _⟩ := hs
      have hrun := run_state hr
      exact ih.step (run_timeline hrun) (run_exclusive hrun) hnext (run_owned hrun.of_when) hstep

/-! ## The result -/

omit [DecidableEq ι] in
theorem Exclusive.not_both {es : List Event} {k hit : Key} (h : Exclusive es s)
    (hcalled : .called k ∈ es) : .cancelled k hit ∉ es := by
  intro hcancelled
  have hcalls : 0 < calls es k := List.count_pos_iff.mpr hcalled
  have hcancels : 0 < cancels es k :=
    List.countP_pos_iff.mpr ⟨_, hcancelled, by simp [Event.cancels]⟩
  have := h.once k
  rw [ends] at this
  omega

omit [DecidableEq ι] in
/-- A timer that was called, and had not returned when the call began, was executing during the
call. -/
theorem Timeline.executing {es began : List Event} {k : Key} (h : Timeline es s)
    (hbegan : began <+: es) (hcalled : .called k ∈ es) (hnot : .finished k ∉ began) :
    ∃ h, began <+: h ∧ h <+: es ∧ Executing h k := by
  by_cases hin : .called k ∈ began
  · exact ⟨began, List.prefix_rfl, hbegan, hin, hnot⟩
  · -- right after the call of `func`
    obtain ⟨a, b, rfl, hfirst⟩ := List.eq_append_cons_of_mem hcalled
    have hpre : a ++ [.called k] <+: a ++ .called k :: b := ⟨b, by simp⟩
    refine ⟨a ++ [.called k], ?_, hpre, by simp, fun hfin => ?_⟩
    · rcases List.prefix_or_prefix_of_prefix hbegan hpre with hp | hp
      · exact hp
      · exact absurd (hp.subset (by simp)) hin
    · have hfin : .finished k ∈ a := by simpa using hfin
      exact hfirst (h.order a (List.prefix_append _ _) k hfin)

omit [DecidableEq ι] in
/-- The version that is loaded is one more than the one the CAS met, if it was written once and
moved on by one. -/
theorem Watching.load_eq_iff (h : Watching w) (ho : Owned w.history w.state) {t : ι} {id : TimerId}
    {found : Nat} (ht : w.state.client t = .cancelLoad id found)
    (hrecent : (w.state.mem (low id.raw)).uses < id.gen + 2 ^ 30) :
    (w.state.mem (low id.raw)).version = addVersion found 1 ↔
      ∃ a ∈ [Write.run, .done, .store true], w.since t (low id.raw) = [a] := by
  obtain ⟨-, -, -, p, hge, hfound, hp⟩ := h.load t id found ht
  have hle := hp.le
  have hstored := ho.stored_le (low id.raw)
  rw [← weights_eq_one, hp.version, hfound]
  unfold addVersion
  omega

omit [DecidableEq ι] in
/-- The result of a load, after a CAS that failed. -/
theorem Watching.load_truthful (h : Watching w) (htime : Timeline w.history w.state)
    (hex : Exclusive w.history w.state) (ho : Owned w.history w.state) {t : ι} {id : TimerId}
    {found : Nat} (ht : w.state.client t = .cancelLoad id found)
    (hrecent : (w.state.mem (low id.raw)).uses < id.gen + 2 ^ 30) (htimely : Timely w t id.key) :
    Truthful w t id.key
      (if (w.state.mem (low id.raw)).version = addVersion found 1 then 1 else -1) := by
  have hload := h.load_eq_iff ho ht hrecent
  obtain ⟨hbegan, hfailed, -⟩ := h.load t id found ht
  refine ⟨fun _ hcas hnow => ?_, fun hpos => ?_, fun hended => ?_⟩
  · exact absurd (htimely.returned hcas) hnow.2
  · split at hpos
    · rename_i hv
      obtain ⟨a, ha, hsince⟩ := hload.mp hv
      obtain ⟨hcalled, hnot⟩ := htimely.single a ha hsince
      exact htime.executing (hbegan.trans hfailed) hcalled hnot
    · exact absurd hpos (by decide)
  · split
    · rename_i hv
      obtain ⟨a, ha, hsince⟩ := hload.mp hv
      obtain ⟨hcalled, hnot⟩ := htimely.single a ha hsince
      rcases hended with hfin | ⟨k', hk'⟩
      · exact absurd hfin hnot
      · -- called and cancelled
        have hmem := (hbegan.trans hfailed).subset hk'
        cases hex.hits k' _ hmem
        exact absurd (hex.not_both hcalled) (not_not.mpr hmem)
    · decide

omit [DecidableEq ι] in
/-- A result that is true is one the condition allows. -/
theorem Watching.timely (h : Watching w) (htime : Timeline w.history w.state)
    (hex : Exclusive w.history w.state) (ho : Owned w.history w.state) {t : ι} {id : TimerId}
    {found : Nat} (ht : w.state.client t = .cancelLoad id found)
    (hrecent : (w.state.mem (low id.raw)).uses < id.gen + 2 ^ 30)
    (htrue : Truthful w t id.key
      (if (w.state.mem (low id.raw)).version = addVersion found 1 then 1 else -1)) :
    Timely w t id.key where
  returned hcas := by
    obtain ⟨-, hfailed, hexec, -⟩ := h.load t id found ht
    by_contra hnot
    have hnow : Executing w.history id.key := ⟨hfailed.subset hcas.1, hnot⟩
    have hv := htime.version hex ho hnow
    -- the version is the one the CAS met
    have hne : ¬ (w.state.mem (low id.raw)).version = addVersion found 1 := by
      have hv : (w.state.mem (low id.raw)).version = addVersion (ver id.gen) 1 := hv
      rw [hv, hexec hcas]
      unfold addVersion
      omega
    have hpos := htrue.running ⟨id, found, ht⟩ hcas hnow
    rw [if_neg hne] at hpos
    exact absurd hpos (by decide)
  single a ha hsince := by
    have hv := (h.load_eq_iff ho ht hrecent).mpr ⟨a, ha, hsince⟩
    rw [if_pos hv] at htrue
    obtain ⟨es, hbegan, hpre, hcalled, hnot⟩ := htrue.positive Int.one_pos
    exact ⟨hpre.subset hcalled, fun hfin => hnot (hbegan.subset hfin)⟩

/-- **When the result of `cancel_timer` is true**, in every run in which fewer than 2^30 timers
have used a slot since the one a call is for.  A result that is not of a load is true.  After a CAS
that failed, the result is true if and only if the condition on what the others have done since
holds: otherwise a `func` that executes gets -1, or a timer that is over, or was cancelled, gets
1. -/
theorem cancel_truthful {t : ι} {k : Key} {result : Int} (h : ((watched n ι).when Recent).Run ls w)
    (hs : ((watched n ι).when Recent).step w (some t, e) w')
    (hanswer : e.answer = some (k, result)) :
    Truthful w t k result ↔
      ((∃ id found, w.state.client t = .cancelLoad id found) → Timely w t k) := by
  have hrun := run_state h
  have hwatch := run_watching h
  have htime := run_timeline hrun
  have hex := run_exclusive hrun
  have ho := run_owned hrun.of_when
  obtain ⟨⟨_, s', hstep, _⟩, hrecent⟩ := hs
  cases hstep with
  | add hs => cases hs <;> cases hanswer
  | stop hs => cases hs <;> cases hanswer
  | cancel hs =>
      cases hs with
      | call _ _ => cases hanswer
      | «match» _ _ => cases hanswer
      | casFail _ _ => cases hanswer
      | @load id found ht =>
          cases hanswer
          exact ⟨fun htrue _ => hwatch.timely htime hex ho ht hrecent htrue,
            fun htimely => hwatch.load_truthful htime hex ho ht hrecent (htimely ⟨id, found, ht⟩)⟩
      | mismatch ht _ =>
          cases hanswer
          have hno : ¬ ∃ id found, w.state.client t = .cancelLoad id found := by simp [ht]
          refine ⟨fun _ hload => absurd hload hno, fun _ => ⟨fun hload => absurd hload hno, ?_, ?_⟩⟩
          · exact fun hpos => absurd hpos (by decide)
          · exact fun _ => by decide
      | @cas id ht hv =>
          cases hanswer
          have hno : ¬ ∃ id found, w.state.client t = .cancelLoad id found := by simp [ht]
          have hid : id ∈ w.state.returned := by
            have := ho.client t; rwa [ht] at this
          obtain ⟨hgen, hver⟩ := hex.hit_eq ho hid hv hrecent
          have hpos : 0 < (w.state.mem (low id.raw)).stored := hgen ▸ (ho.returned id hid).pos
          -- the timer was pending
          obtain ⟨hcalls, hcancels⟩ := hex.pending_of_eq hpos hver
          rw [← hgen] at hcalls hcancels
          have hbegan := hwatch.began t
          refine ⟨fun _ hload => absurd hload hno, fun _ => ⟨fun hload => absurd hload hno, ?_, ?_⟩⟩
          · exact fun hpos => absurd hpos (by decide)
          · rintro (hfin | ⟨k', hk'⟩)
            · have hcalled := htime.order _ hbegan _ hfin
              exact absurd (hbegan.subset hcalled) (List.count_eq_zero.mp hcalls)
            · have hmem := hbegan.subset hk'
              cases hex.hits k' _ hmem
              exact absurd (by simp [Event.cancels, TimerId.key])
                  (List.countP_eq_zero.mp hcancels _ hmem)

theorem watched_next (h : ((watched n ι).when Recent).Run ls w)
    (alive : ∀ tmList, w.state.run ≠ .aborted tmList) (hs : StepBy n w.state who e s')
    (hrecent : Recent w (who, e)) :
    ((watched n ι).when Recent).Run (ls ++ [(who, e)]) (w.next who e s') :=
  h.next ⟨⟨alive, s', hs, rfl⟩, hrecent⟩

/-- A run in which no cancel returns, watched. -/
theorem watched_of_run {c : State ι → Event → Prop} {es : List Event}
    (hc : ∀ s e, c s e → e.answer = none) (h : ((timerSystem n ι).when c).Run es s) :
    ∃ ls w, ((watched n ι).when Recent).Run ls w ∧ w.state = s ∧ w.history = es := by
  induction h with
  | @start s h₀ =>
      exact ⟨[], ⟨s, [], fun _ => [], fun _ => [], fun _ _ => []⟩, .start ⟨h₀, rfl, rfl⟩, rfl, rfl⟩
  | @next es s s' e _ hs ih =>
      obtain ⟨ls, w, hrun, rfl, rfl⟩ := ih
      have hrecent : ∀ who, Recent w (who, e) := fun who => by
        have hnone := hc _ _ hs.2
        cases e <;> cases who <;> trivial
      cases hs.1.2 with
      | run hstep => exact ⟨_, _, watched_next hrun hs.1.1 (.run hstep) (hrecent _), rfl, rfl⟩
      | add t hstep => exact ⟨_, _, watched_next hrun hs.1.1 (.add hstep) (hrecent _), rfl, rfl⟩
      | cancel t hstep =>
          exact ⟨_, _, watched_next hrun hs.1.1 (.cancel hstep) (hrecent _), rfl, rfl⟩
      | stop t hstep => exact ⟨_, _, watched_next hrun hs.1.1 (.stop hstep) (hrecent _), rfl, rfl⟩

end Watch

/-! ### One timer that runs -/

/-- The thread runs the timer for time 5. -/
theorem run_calling : ∃ ls w, ((watched 1 Unit).when Recent).Run ls w ∧
    w.state.run = .calling 1 3 ∧ OneTimer w.state [] [] 4 ∧ Executing w.history (1, 1) := by
  obtain ⟨_, s, added, htop, hs⟩ := run_added (c := fun _ e => e.answer = none) (fun _ => rfl)
    fun _ _ _ => rfl
  obtain ⟨_, s, drained, hscan, hs⟩ := run_drained (c := fun _ e => e.answer = none)
      (fun _ => rfl) added htop hs
  obtain ⟨_, s, checked, hclock, hs⟩ := run_checked (c := fun _ e => e.answer = none)
      (fun _ => rfl) drained hscan hs
  obtain ⟨ls, w, watched, rfl, rfl⟩ :=
    watched_of_run (c := fun _ e => e.answer = none) (fun _ _ h => h) checked
  have hdue : ¬ (w.state.mem 1).runTime > 5 := by
    rw [hs.mem]
    decide
  have hv : (w.state.mem 1).version = baseVersion (w.state.mem 1).timerId := by
    rw [hs.mem]
    rfl
  have due := watched_next watched (by simp [hclock])
    (.run (.clockDue hclock hdue hs.heap (.refl []) fun _ => IsHeap.nil)) trivial
  have called := watched_next due (fun _ h => nomatch h) (.run (.runCas rfl hv)) trivial
  have hkey : w.state.keyOf 1 = (1, 1) := by rw [State.keyOf, hs.mem]
  have hbase : baseVersion (w.state.mem 1).timerId = 3 := by
    rw [hs.mem]
    rfl
  have hmem : Event.called (1, 1) ∈ w.history ++ [.tau] ++ [.called (w.state.keyOf 1)] := by
    rw [hkey]
    exact List.mem_append_right _ (List.mem_singleton_self _)
  refine ⟨_, _, called, congrArg (RunPc.calling 1) hbase, ⟨hs.stop, hs.client, hs.returned, hs.list,
    rfl, ?_⟩, hmem, fun hfin => ?_⟩
  · show ({ w.state.mem 1 with
      version := addVersion (baseVersion (w.state.mem 1).timerId) 1 } : Timer) = _
    rw [hs.mem]
    rfl
  · -- it was not called before
    have hfin : .finished (1, 1) ∈ w.history ++ [.tau] ++ [.called (w.state.keyOf 1)] := hfin
    have hfin : .finished (1, 1) ∈ w.history := by simpa using hfin
    have hbefore := (run_timeline (run_state watched)).order _ List.prefix_rfl _ hfin
    have honce : ends (w.history ++ [.tau] ++ [.called (w.state.keyOf 1)]) (1, 1) ≤ 1 :=
      (run_exclusive (run_state called)).once (1, 1)
    have hcalls : calls (w.history ++ [.tau] ++ [.called (w.state.keyOf 1)]) (1, 1)
        = calls (w.history ++ [.tau]) (1, 1) + 1 := by rw [hkey, calls_called]
    have hpos : 0 < calls (w.history ++ [.tau]) (1, 1) :=
      List.count_pos_iff.mpr (List.mem_append_left _ hbefore)
    rw [ends, hcalls] at honce
    omega

/-- `cancel_timer` fails in its CAS while the timer runs. -/
theorem run_failed : ∃ ls w, ((watched 1 Unit).when Recent).Run ls w ∧
    w.state.run = .calling 1 3 ∧ w.state.client () = .cancelLoad ⟨mkId 1 1, 1⟩ 4 ∧
    w.state.mem 1 = ⟨5, mkId 1 1, 4, 1, 1⟩ ∧ Executing w.history (1, 1) ∧
    Executing (w.failed ()) (1, 1) ∧ Executing (w.began ()) (1, 1) ∧ w.since () 1 = [] := by
  obtain ⟨ls, w, calling, hrun, hs, hexec⟩ := run_calling
  have alive : ∀ tmList, w.state.run ≠ .aborted tmList := by simp [hrun]
  have hid : mkId 1 1 = (w.state.mem 1).timerId := by rw [hs.mem]
  have hne : (w.state.mem 1).version ≠ 3 := by
    rw [hs.mem]
    decide
  have began := watched_next calling alive (.cancel (t := ()) (.call hs.client hs.returned)) trivial
  have compared := watched_next began alive (.cancel (t := ()) (.match rfl hid)) trivial
  have failed := watched_next compared alive (.cancel (t := ()) (.casFail rfl hne)) trivial
  have hfound : (w.state.mem 1).version = 4 := by rw [hs.mem]
  have hlater : ∀ es : List Event, (∀ e ∈ es, e = .tau) → Executing (w.history ++ es) (1, 1) := by
    intro es htau
    refine ⟨List.mem_append_left _ hexec.1, fun hfin => ?_⟩
    rcases List.mem_append.mp hfin with hfin | hfin
    · exact hexec.2 hfin
    · cases htau _ hfin
  refine ⟨_, _, failed, hrun, congrArg (ClientPc.cancelLoad ⟨mkId 1 1, 1⟩) hfound, hs.mem, ?_, ?_,
      ?_,
    ?_⟩
  · simpa [Watched.next] using hlater [.tau, .tau, .tau] (by simp)
  · simpa [Watched.next, State.clientGoto, ClientPc.isCas] using hlater [.tau, .tau] (by simp)
  · simpa [Watched.next, State.clientGoto, ClientPc.isIdle, hs.client] using hexec
  · simp [Watched.next, State.clientGoto, ClientPc.isCas]

/-- `func` returns between the CAS and the load, and base + 2 is stored: the result is 1. -/
theorem cancel_truthful_running : ∃ ls w, ((watched 1 Unit).when Recent).Run ls w ∧
    Executing (w.failed ()) (1, 1) ∧ w.since () 1 = [.done] ∧ Truthful w () (1, 1) 1 := by
  obtain ⟨ls, w, failed, hrun, hclient, hmem, hexec, hfailed, hbegan, hsince⟩ := run_failed
  have stored : ∃ ls w, ((watched 1 Unit).when Recent).Run ls w ∧ w.state.run = .runRelease 1 ∧
      w.state.client () = .cancelLoad ⟨mkId 1 1, 1⟩ 4 ∧ w.state.mem 1 = ⟨5, mkId 1 1, 5, 1, 1⟩ ∧
      Executing (w.failed ()) (1, 1) ∧ .finished (1, 1) ∉ w.began () ∧ .called (1, 1) ∈ w.history ∧
      .finished (1, 1) ∈ w.history ∧ w.since () 1 = [.done] := by
    have hkey : w.state.keyOf 1 = (1, 1) := by rw [State.keyOf, hmem]
    have returned := watched_next failed (by simp [hrun]) (.run (.callReturn hrun)) trivial
    have stored := watched_next returned (fun _ h => by cases h) (.run (.runStore rfl)) trivial
    refine ⟨_, _, stored, rfl, hclient, ?_, ?_, ?_, ?_, ?_, ?_⟩
    · show ({ w.state.mem 1 with version := addVersion 3 2 } : Timer) = _
      rw [hmem]
      rfl
    · simpa [Watched.next] using hfailed
    · simpa [Watched.next] using hbegan.2
    · simpa [Watched.next] using hexec.1
    · simp [Watched.next, hkey]
    · simp [Watched.next, written, State.goto, hrun, hsince]
  obtain ⟨ls, w, stored, hrun, hclient, hmem, hfailed, hbegan, hcalled, hfinished, hsince⟩ := stored
  have huses : (w.state.mem 1).uses < 1 + 2 ^ 30 := by
    rw [hmem]
    decide
  have hone : (w.state.mem (low (mkId 1 1))).version = addVersion 4 1 := congrArg Timer.version hmem
  have htrue := (cancel_truthful stored
    ⟨⟨by simp [hrun], _, .cancel (.load hclient), rfl⟩, huses⟩ rfl).mpr fun _ =>
      ⟨fun _ => hfinished, fun _ _ _ => ⟨hcalled, hbegan⟩⟩
  rw [if_pos hone] at htrue
  exact ⟨_, _, stored, hfailed, hsince, htrue⟩

/-- A timer that runs while it is cancelled: the result is -1. -/
theorem cancel_misreports : ¬ ∀ (ls : List (Option Unit × Event)) (w w' : Watched Unit) (t : Unit)
    (e : Event) (k : Key) (result : Int), (watched 1 Unit).Run ls w →
      (watched 1 Unit).step w (some t, e) w' → e.answer = some (k, result) →
      Truthful w t k result := by
  intro hall
  obtain ⟨ls, w, failed, hrun, hclient, hmem, hexec, hfailed, -⟩ := run_failed
  have hne : ¬ (w.state.mem (low (mkId 1 1))).version = addVersion 4 1 := by
    have hversion : (w.state.mem (low (mkId 1 1))).version = 4 := congrArg Timer.version hmem
    rw [hversion]
    decide
  have htrue := hall _ w _ () _ _ _ failed.of_when
    ⟨by simp [hrun], _, .cancel (.load hclient), rfl⟩ rfl
  have hpos := htrue.running ⟨_, _, hclient⟩ hfailed hexec
  rw [if_neg hne] at hpos
  exact absurd hpos (by decide)

end PBase.TimerControl
