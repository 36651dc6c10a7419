/-
# `PBase.TimerControl.Pooled` — the timers over the pool they come from

`PBase.TimerControl.Model` takes an acquire and a release for one step of a list of free ids.  Here
they are the calls of `TimerFactory`, an `ArenaObjectPool`: the timer thread (`none`) and the
clients (`some t`) are its threads, and while one of them is inside the pool all others go on, down
to the accesses of the two lock-free stacks and the two arenas under it:

    timers   add_timer ── acquire ┐                                 ┌ write the timer ── …
    pool                          └ pop, add_block, push, … ───────┘

In a state of this system the lists `pool` and `created` of the timers are a history: they follow
what the pool gave out and took back, and no step reads them (`State.acquired`).  That the pool is
this list is the result, and with it that the timers do what they do over the list and that each has
memory of its own (`timers_pooled`).
-/
import PBase.TimerControl.Answer
import PBase.Pool.Backed

namespace PBase.TimerControl

open PBase.Lib

variable {ι : Type} [DecidableEq ι]

/-! ## The threads -/

/-- `typedef base::ArenaObjectPool<TimerControl::Timer> TimerFactory` -/
def timerFactory : Pool.Config := ⟨.arenaObjectPool, Arena.N, fun _ => rfl, by decide⟩

structure Pooled (ι : Type) where
  timers : State ι
  pool : Pool.Backed (Option ι)

/-- The threads of the pool, its stacks being lists. -/
def Pooled.threads (f : Pooled ι) : Pool.State (Option ι) := f.pool.pool.pool

/-- `TimerFactory::acquire` returned this id. -/
def State.acquired (s : State ι) (t : ι) (poolId runTime : Nat) : State ι :=
  { s with
    pool := s.pool.erase poolId
    created := if poolId ∈ s.pool then s.created else low poolId :: s.created
    mem := Function.update s.mem (low poolId)
      { s.mem (low poolId) with uses := (s.mem (low poolId)).uses + 1 }
    client := Function.update s.client t
      (.addWrite ⟨nextId poolId, (s.mem (low poolId)).uses + 1⟩ runTime) }

/-- The thread is in no call of the pool. -/
def OutOfPool (p : Pool.Backed (Option ι)) (who : Option ι) : Prop :=
  ((p.pool.pool.thread who).pc = .idle ∨ (p.pool.pool.thread who).pc = .dead) ∧
  p.pool.shared.pc who = .idle

/-- A thread enters the pool to acquire in `add_timer`, or when it ends. -/
def EntersPool (s : State ι) : Option ι → Prop
  | none => s.run = .exited
  | some t => (∃ runTime, s.client t = .addAcquire runTime) ∨ s.client t = .idle

/-- A step has an event of the timers, one of the pool and one of the stacks. -/
inductive Pooled.Step (n : Nat) (f : Pooled ι) :
    Event × Pool.Event (Option ι) × Stack.Event (Option ι) → Pooled ι → Prop
  /-- A step outside the pool. -/
  | timers {who : Option ι} {e : Event} {s' : State ι} : OutOfPool f.pool who →
      StepBy n f.timers who e s' →
      s'.pool = f.timers.pool → s'.created = f.timers.created →
      Step n f (e, .tau, .tau) { f with timers := s' }
  /-- A step inside, or the exit of a thread. -/
  | inside {e : Pool.Event (Option ι)} {se : Stack.Event (Option ι)} {p' : Pool.Backed (Option ι)} :
      Pool.Backed.Step timerFactory f.pool (e, se) p' → (e = .tau ∨ ∃ who, e = .exited who) →
      (∀ who, OutOfPool f.pool who → ¬ OutOfPool p' who → EntersPool f.timers who) →
      Step n f (.tau, e, se) { f with pool := p' }
  | acquire (t : ι) {item runTime : Nat} {se : Stack.Event (Option ι)}
      {p' : Pool.Backed (Option ι)} :
      f.timers.client t = .addAcquire runTime →
      Pool.Backed.Step timerFactory f.pool (.acquired (some t) item, se) p' →
      Step n f (.tau, .acquired (some t) item, se) ⟨f.timers.acquired t item runTime, p'⟩
  | release {k : Key} {s' : State ι} {se : Stack.Event (Option ι)} {p' : Pool.Backed (Option ι)} :
      RunStep n f.timers (.released k) s' →
      Pool.Backed.Step timerFactory f.pool (.released none (f.timers.mem k.1).timerId, se) p' →
      Step n f (.released k, .released none (f.timers.mem k.1).timerId, se) ⟨s', p'⟩

def pooledSystem (n : Nat) (ι : Type) [DecidableEq ι] :
    System (Pooled ι) (Event × Pool.Event (Option ι) × Stack.Event (Option ι)) where
  init f := (timerSystem n ι).init f.timers ∧ (Pool.backed timerFactory (Option ι)).init f.pool
  step f e f' := (∀ tmList, f.timers.run ≠ .aborted tmList) ∧ Pooled.Step n f e f'

/-- What the results ask of a step: fewer than 2^32 pushes of a node under a pop, and `c` of the
timers. -/
def FewAnd (c : State ι → Event → Prop) (f : Pooled ι)
    (e : Event × Pool.Event (Option ι) × Stack.Event (Option ι)) : Prop :=
  Stack.FewPushes f.pool.pool.shared e.2.2 ∧ c f.timers e.1

/-! ## The pool of the timers -/

section Refinement
variable [Fintype ι] {n : Nat} {s s' : State ι} {k : Key} {f f' : Pooled ι} {q q' : Pool.Objects}

omit [DecidableEq ι] [Fintype ι] in
/-- The timer thread releases a slot it has, under the id of the timer there. -/
theorem RunStep.release_eq (hs : RunStep n s (.released k) s') :
    s'.pool = (s.mem k.1).timerId :: s.pool ∧ s'.created = s.created ∧ Queued s k.1 := by
  cases hs with
  | scanRelease ht | runRelease ht | exitRelease ht =>
      exact ⟨rfl, rfl, .inr (.inr (ht ▸ List.mem_cons_self))⟩
  | topRelease ht hheap _ _ => exact ⟨rfl, rfl, .inr (.inl (hheap ▸ List.mem_cons_self))⟩

/-- `q` is the pool as the timers see it. -/
structure Pooled.Inv (f : Pooled ι) (q : Pool.Objects) : Prop where
  pool : Pool.Backed.Inv timerFactory f.pool q
  placed : Placed (Pool.objectsAt timerFactory q) (· ∈ q.created)
  released : q.released = f.timers.pool
  created : q.created = f.timers.created

namespace Pooled.Inv

/-- A step of the pool is one of the heap. -/
theorem objects_step (h : Inv f q) {e : Pool.Event (Option ι) × Stack.Event (Option ι)}
    {p' : Pool.Backed (Option ι)} (hs : Pool.Backed.Step timerFactory f.pool e p')
    (hfew : Stack.FewPushes f.pool.pool.shared e.2) :
    ∃ q', (Pool.objects timerFactory (Option ι)).step q e.1 q' ∧
      ∀ s', q'.released = s'.pool → q'.created = s'.created → Inv ⟨s', p'⟩ q' := by
  obtain ⟨q', hq, hpool⟩ := h.pool.step hs hfew
  exact ⟨q', hq, fun s' hreleased hcreated =>
    ⟨hpool, Pool.Objects.placed_step h.placed hq, hreleased, hcreated⟩⟩

omit [Fintype ι] in
/-- The id that the pool gives out is one that `add_timer` may get. -/
theorem acquire {t : ι} {item runTime : Nat} (h : Inv f q)
    (ht : f.timers.client t = .addAcquire runTime)
    (hq : (Pool.objects timerFactory (Option ι)).step q (.acquired (some t) item) q') :
    AddStep n f.timers t .tau (f.timers.acquired t item runTime) ∧
      q'.released = (f.timers.acquired t item runTime).pool ∧
      q'.created = (f.timers.acquired t item runTime).created := by
  simp only [Pool.objects, h.released, h.created] at hq
  by_cases hmem : item ∈ f.timers.pool
  · rw [if_pos hmem] at hq
    subst hq
    simp only [State.acquired, if_pos hmem, and_true]
    exact .acquire ht hmem
  · rw [if_neg hmem] at hq
    obtain ⟨hslot, hnew, rfl⟩ := hq
    obtain ⟨hpos, hlt⟩ := hnew rfl
    have hlow : low item = item := low_of_lt hlt
    have hslot' : item ∉ f.timers.created := hlow ▸ hslot
    simp only [State.acquired, if_neg hmem, hlow, List.erase_of_not_mem hmem]
    exact ⟨.acquireNew ht hpos hlt hslot', trivial, congrArg (· :: f.timers.created) hlow⟩

/-- A step is one of the timers, or none of theirs. -/
theorem step (h : Inv f q) {e : Event × Pool.Event (Option ι) × Stack.Event (Option ι)}
    (hs : Pooled.Step n f e f') (hfew : Stack.FewPushes f.pool.pool.shared e.2.2) :
    (∃ q', Inv f' q') ∧
    (TimerControl.Step n f.timers e.1 f'.timers ∨ e.1 = .tau ∧ f'.timers = f.timers) := by
  cases hs with
  | timers _ hs hpool hcreated =>
      exact ⟨⟨q, h.pool, h.placed, h.released.trans hpool.symm, h.created.trans hcreated.symm⟩,
          .inl hs.step⟩
  | inside hs he _ =>
      obtain ⟨q', hq, hinv⟩ := h.objects_step hs hfew
      have hsame : q' = q := by
        rcases he with rfl | ⟨who, rfl⟩ <;> exact hq
      subst hsame
      exact ⟨⟨q', hinv f.timers h.released h.created⟩, .inr ⟨rfl, rfl⟩⟩
  | acquire t ht hs =>
      obtain ⟨q', hq, hinv⟩ := h.objects_step hs hfew
      obtain ⟨hadd, hreleased, hcreated⟩ := h.acquire (n := n) ht hq
      exact ⟨⟨q', hinv _ hreleased hcreated⟩, .inl (.add t hadd)⟩
  | release hs hpool =>
      obtain ⟨q', ⟨-, hq⟩, hinv⟩ := h.objects_step hpool hfew
      obtain ⟨hreleased, hcreated, -⟩ := hs.release_eq
      subst hq
      exact ⟨⟨_, hinv _ (by rw [hreleased, h.released]) (by rw [hcreated, h.created])⟩,
          .inl (.run hs)⟩

end Pooled.Inv

/-! ## Every run -/

variable {es : List (Event × Pool.Event (Option ι) × Stack.Event (Option ι))}
  {c : State ι → Event → Prop}

theorem run_pooled (h : ((pooledSystem n ι).when (FewAnd c)).Run es f) : (∃ q, Pooled.Inv f q) ∧
    ∃ es', ((timerSystem n ι).when c).Run es' f.timers ∧
      es'.filter (· ≠ .tau) = (es.map Prod.fst).filter (· ≠ .tau) := by
  induction h with
  | @start f h₀ =>
      obtain ⟨htimers, hpool⟩ := h₀
      obtain ⟨-, hlist, hcreated, -⟩ := id htimers
      have hplaced : Placed (Pool.objectsAt timerFactory ⟨[], [], []⟩) (· ∈ []) :=
        Pool.Objects.placed_run (.start rfl : (Pool.objects timerFactory (Option ι)).Run [] _)
      exact ⟨⟨_, .init hpool, hplaced, hlist.symm, hcreated.symm⟩, [], .start htimers, rfl⟩
  | @next es f f' e _ hs ih =>
      obtain ⟨⟨q, hinv⟩, es', hrun, hshown⟩ := ih
      obtain ⟨⟨hnot, hs⟩, hfew, hc⟩ := hs
      obtain ⟨hinv', hstep⟩ := hinv.step hs hfew
      refine ⟨hinv', ?_⟩
      rw [List.map_append, List.filter_append, ← hshown]
      rcases hstep with hstep | ⟨htau, hsame⟩
      · exact ⟨es' ++ [e.1], hrun.next ⟨⟨hnot, hstep⟩, hc⟩, by rw [List.filter_append]; rfl⟩
      · refine ⟨es', hsame ▸ hrun, ?_⟩
        rw [List.map_singleton, htau]
        exact (List.append_nil _).symm

omit [Fintype ι] in
/-- What a thread does alone in the pool, it does under the timers. -/
theorem run_inside {who : Option ι} {enters : Prop} {p p' : Pool.Backed (Option ι)}
    (h : ((pooledSystem n ι).when (FewAnd c)).Run es ⟨s, p⟩)
    (h' : Pool.Reached timerFactory who enters p [] p') (hc : c s .tau)
    (hnot : ∀ tmList, s.run ≠ .aborted tmList) (henters : enters → EntersPool s who) :
    ∃ es', ((pooledSystem n ι).when (FewAnd c)).Run (es ++ es') ⟨s, p'⟩ ∧
      (es'.map Prod.fst).filter (· ≠ .tau) = [] := by
  obtain ⟨es₀, hrun, hshown⟩ := h'.run
  clear h'
  induction hrun with
  | start h₀ =>
      cases h₀
      exact ⟨[], (List.append_nil es).symm ▸ h, rfl⟩
  | @next es₀ p₁ p₂ e _ hs ih =>
      rw [List.map_append, List.filter_append, List.append_eq_nil_iff] at hshown
      obtain ⟨es', hrun, htau⟩ := ih hshown.1
      obtain ⟨hs, hfew, hothers, hbusy⟩ := hs
      have hevent : e.1 = .tau := by
        cases he : e.1 with
        | tau => rfl
        | acquired | released | exited => simp [he, Pool.Event.shown] at hshown
      -- the others stay outside or inside
      have hwho : ∀ u, OutOfPool p₁ u → ¬ OutOfPool p₂ u → EntersPool s u := by
        intro u hout hin
        by_cases hu : u = who
        · subst hu
          refine henters (hbusy.resolve_right fun hpc => ?_)
          exact hout.1.elim hpc.1 hpc.2
        · obtain ⟨hth, hpc⟩ := hothers u hu
          exact absurd ⟨hth ▸ hout.1, hpc.trans hout.2⟩ hin
      refine ⟨es' ++ [(.tau, e)], ?_, ?_⟩
      · rw [← List.append_assoc]
        exact hrun.next ⟨⟨hnot, .inside hs (.inl hevent) hwho⟩, hfew, hc⟩
      · rw [List.map_append, List.filter_append, htau]
        rfl

/-- A client acquires a slot for a timer, under the arenas and the stacks. -/
theorem run_acquired : ∃ es, ∃ p : Pool.Backed (Option Unit),
    ((pooledSystem 1 Unit).when (FewAnd fun _ _ => True)).Run es
      ⟨((State.zeroed Unit).clientGoto () (.addAcquire 5)).acquired () 1048576 5, p⟩ ∧
    (es.map Prod.fst).filter (· ≠ .tau) = [] ∧
    Pool.Composed.Inv timerFactory p.pool ∧ (∀ u, p.pool.shared.pc u = .idle) ∧
    (p.pool.pool.thread (some ())).pc = .idle ∧ p.pool.pool.thread none = ⟨none, 0, .idle⟩ ∧
    p.pool.pool.acquired = [1048576] ∧
    ∃ rest, p.pool.pool.free = bump 1 1049599 :: rest := by
  have hpool := Pool.init_initial timerFactory (Option Unit)
  have called := (System.Run.start ⟨init_zeroed 1 Unit, hpool⟩ :
    ((pooledSystem 1 Unit).when (FewAnd fun _ _ => True)).Run [] ⟨.zeroed Unit, _⟩).next
    ⟨⟨fun _ h => (by cases h), .timers (show OutOfPool _ (some ()) from ⟨.inl rfl, rfl⟩)
      (.add (.call 5 rfl)) rfl rfl⟩, trivial, trivial⟩
  obtain ⟨p, hreached, hthread, hgroup, hslots, hglobal, hacquired, hfree⟩ :=
    Pool.Reached.acquire (t := some ()) hpool rfl (trivial : True)
  obtain ⟨es, hinside, htau⟩ := run_inside called hreached trivial (fun _ h => by cases h)
    fun _ => .inl ⟨5, rfl⟩
  have ht : p.pool.pool.thread (some ()) = ⟨some 1048576, 1048576, .acquireReturn 1048576⟩ := by
    rw [hthread]
    exact Function.update_self ..
  have ht' : p.pool.pool.thread none = ⟨none, 0, .idle⟩ := by
    rw [hthread]
    exact Function.update_of_ne (by decide) ..
  have hpc : (p.pool.pool.thread (some ())).pc = .acquireReturn 1048576 := by rw [ht]
  have hreturn : Pool.Composed.Step timerFactory p.pool (.acquired (some ()) 1048576, .tau) _ :=
    .own (some ()) (hreached.idle _) (.acquireReturn (some ()) hpc) (by simp [Pool.Moves, ht])
      (Pool.not_pop hpc rfl) rfl rfl
  have run := hinside.next ⟨⟨fun _ h => (by cases h), .acquire ()
    (show _ = ClientPc.addAcquire 5 from rfl) (.pool hreturn rfl fun _ => rfl)⟩, trivial, trivial⟩
  refine ⟨_, _, run, ?_, (hreached.inv.step hreturn trivial).1, hreached.idle, ?_, ?_, ?_, hfree⟩
  · rw [List.map_append, List.filter_append, List.map_append, List.filter_append, htau]
    rfl
  · simp
  · simp [ht']
  · have hslot : timerFactory.slot 1048576 = 1048576 := by decide
    simp [hacquired, hslot]

/-- The client adds the timer; the timer thread calls it when it is due, and is about to release
it. -/
theorem run_stored {es : List (Event × Pool.Event (Option Unit) × Stack.Event (Option Unit))}
    {p : Pool.Backed (Option Unit)} (hout : ∀ who, OutOfPool p who)
    (acquired : ((pooledSystem 1 Unit).when (FewAnd fun _ _ => True)).Run es
      ⟨((State.zeroed Unit).clientGoto () (.addAcquire 5)).acquired () 1048576 5, p⟩) :
    ∃ es' s, ((pooledSystem 1 Unit).when (FewAnd fun _ _ => True)).Run es' ⟨s, p⟩ ∧
      (es'.map Prod.fst).filter (· ≠ .tau) = (es.map Prod.fst).filter (· ≠ .tau) ++
        [.added (1048576, 1) 5, .called (1048576, 1), .finished (1048576, 1)] ∧
      s.run = .runRelease 1048576 ∧ (s.mem 1048576).timerId = bump 3 1048576 ∧
      (s.mem 1048576).uses = 1 ∧ s.created = [1048576] := by
  have add : ∀ {es s s'} e, ((pooledSystem 1 Unit).when (FewAnd fun _ _ => True)).Run es
      ⟨s, p⟩ → (∀ tmList, s.run ≠ .aborted tmList) → AddStep 1 s () e s' → s'.pool = s.pool →
      s'.created = s.created → ((pooledSystem 1 Unit).when (FewAnd fun _ _ => True)).Run
        (es ++ [(e, .tau, .tau)]) ⟨s', p⟩ := fun _ h hnot hs hpool hcreated =>
    h.next ⟨⟨hnot, .timers (hout _) (.add hs) hpool hcreated⟩, trivial, trivial⟩
  have run : ∀ {es s s'} e, ((pooledSystem 1 Unit).when (FewAnd fun _ _ => True)).Run es
      ⟨s, p⟩ → (∀ tmList, s.run ≠ .aborted tmList) → RunStep 1 s e s' → s'.pool = s.pool →
      s'.created = s.created → ((pooledSystem 1 Unit).when (FewAnd fun _ _ => True)).Run
        (es ++ [(e, .tau, .tau)]) ⟨s', p⟩ := fun _ h hnot hs hpool hcreated =>
    h.next ⟨⟨hnot, .timers (hout _) (.run hs) hpool hcreated⟩, trivial, trivial⟩
  have top : ∀ tmList, RunPc.top ≠ .aborted tmList := fun _ h => by cases h
  have queued := add .tau (add .tau (add .tau acquired top (.write rfl) rfl rfl) top (.store rfl)
    rfl rfl) top (.bucket (i := 0) rfl (by decide)) rfl rfl
  have waking := add .tau (add .tau (add .tau queued top (.loadMin rfl) rfl rfl) top (.cas rfl rfl)
    rfl rfl) top (.signal rfl) rfl rfl
  have added := add (.added (1048576, 1) 5) (add .tau waking top (.wake rfl) rfl rfl) top
    (.ret (show _ = ClientPc.addReturn ⟨bump 3 1048576, 1⟩ 5 from rfl)) rfl rfl
  have draining := run .tau (run .tau added top (.stopNotSet rfl rfl) rfl rfl)
    (fun _ h => by cases h) (.resetMin rfl) rfl rfl
  have scanned := run .tau (run .tau draining (fun _ h => by cases h) (.drain rfl (by decide)) rfl
    rfl) (fun _ h => by cases h) (.scanPush rfl rfl (.refl [1048576]) fun _ => .singleton _) rfl rfl
  have drained := run .tau (run .tau scanned (fun _ h => by cases h) (.scanEnd rfl) rfl rfl)
    (fun _ h => by cases h) (.drainEnd rfl (by decide)) rfl rfl
  have due := run .tau (run .tau drained (fun _ h => by cases h) (.topMatch rfl rfl rfl) rfl rfl)
    (fun _ h => by cases h) (.clockDue rfl (show ¬ 5 > 5 by decide) rfl (.refl []) fun _ => .nil)
    rfl rfl
  have calling := run (.called (1048576, 1)) due (fun _ h => by cases h) (.runCas rfl rfl) rfl rfl
  have stored := run .tau (run (.finished (1048576, 1)) calling (fun _ h => by cases h)
    (.callReturn rfl) rfl rfl) (fun _ h => by cases h) (.runStore rfl) rfl rfl
  refine ⟨_, _, stored, ?_, rfl, rfl, rfl, rfl⟩
  simp

/-- Where an object is for the timers. -/
def whose (f : Pooled ι) : Pool.Whose → List Nat
  | .callers => f.threads.acquired
  | .pool => f.timers.pool.map low

/-- **Timers over the pool are timers over a list of free ids.**  In every run of the timer thread,
the clients and the pool under them, down to the accesses of its stacks and arenas, with fewer than
2^32 pushes of a node between the load and the CAS of a pop: the timers do what they do in a run
over the list, under any condition `c` on their steps, so all that is proved of these runs holds;
the list is what the pool has; the ids of the timers, of whatever version, lead `find` to memory
that no two slots share; the timer thread can release whatever it is about to release, because the
pool has given it out and not got it back; and no `assert` of the pool fails. -/
theorem timers_pooled (h : ((pooledSystem n ι).when (FewAnd c)).Run es f) :
    (∃ es', ((timerSystem n ι).when c).Run es' f.timers ∧
      es'.filter (· ≠ .tau) = (es.map Prod.fst).filter (· ≠ .tau)) ∧
    Placed (whose f) (· ∈ f.timers.created) ∧ Pool.Resolves f.pool.objects f.timers.created ∧
    (∀ k s', RunStep n f.timers (.released k) s' → (f.threads.thread none).pc = .idle →
      f.pool.pool.shared.pc none = .idle → ∃ e f', Pooled.Step n f (.released k, e) f') ∧
    ∀ who, (f.threads.thread who).pc ≠ .failed := by
  obtain ⟨⟨q, hinv⟩, es', hrun, hshown⟩ := run_pooled h
  have hown := run_owned hrun.of_when
  have hwhose : Pool.objectsAt timerFactory q = whose f := by
    funext p
    cases p with
    | callers => exact hinv.pool.covers.held
    | pool => exact congrArg (List.map low) hinv.released
  have hplaced : Placed (whose f) (· ∈ f.timers.created) := hwhose ▸ hinv.created ▸ hinv.placed
  have hslots : ∀ slot ∈ f.timers.created, slot ∈ f.threads.slots :=
      hinv.created ▸ hinv.pool.covers.created
  refine ⟨⟨es', hrun, hshown⟩, hplaced, ((hinv.pool.objects rfl).resolves).mono hslots,
    fun k s' hs hidle hcall => ?_, fun who ht => hinv.pool.pool.pool.ok ht⟩
  obtain ⟨-, -, hqueued⟩ := hs.release_eq
  have hslot : low (f.timers.mem k.1).timerId = k.1 := by
    rw [(hown.queued k.1 hqueued).1]
    exact low_mkId _ (hown.lt_of_queued hqueued)
  -- a slot that the timer thread has is not in the pool
  have hmem : timerFactory.slot (f.timers.mem k.1).timerId ∈ f.threads.acquired := by
    show low _ ∈ _
    rw [hslot]
    obtain ⟨p, hp⟩ := (hplaced.cover k.1).mp (hown.created_of_queued hqueued)
    cases p with
    | callers => exact hp
    | pool => exact absurd hp (hown.not_pool_of_queued hqueued)
  have hpc : (f.pool.pool.pool.thread none).pc = .idle := hidle
  exact ⟨_, _, .release hs (.pool (.own none hcall (.release none hidle hmem)
    (by simp [Pool.Moves, hpc]) (Pool.not_pop hpc rfl) rfl rfl) rfl fun _ => rfl)⟩

/-- The timer is added, called when it is due, and released: a client acquires a slot for it, and
the timer thread, which has no group, takes one from the free stack for the slot. -/
theorem timers_pooled_recycled : ∃ es, ∃ f : Pooled Unit,
    ((pooledSystem 1 Unit).when (FewAnd fun _ _ => True)).Run es f ∧
    (es.map Prod.fst).filter (· ≠ .tau) = [.added (1048576, 1) 5, .called (1048576, 1),
      .finished (1048576, 1), .released (1048576, 1)] ∧
    f.threads.acquired = [] ∧ f.timers.created = [1048576] ∧
    Placed (whose f) (· ∈ f.timers.created) ∧ Pool.Resolves f.pool.objects f.timers.created := by
  obtain ⟨es, p, acquired, hshown, inv, idle, hclient, hrun, hacquired, rest, hfree⟩ := run_acquired
  have hout : ∀ who, OutOfPool p who := by
    rintro (_ | ⟨⟩)
    · exact ⟨.inl (by rw [hrun]), idle _⟩
    · exact ⟨.inl hclient, idle _⟩
  obtain ⟨es₁, s, stored, hshown₁, hrelease, hid, huses, hcreated⟩ := run_stored hout acquired
  have hmem : timerFactory.slot (s.mem 1048576).timerId ∈ p.pool.pool.acquired := by
    rw [hid, hacquired]
    decide
  have hpc : (p.pool.pool.thread none).pc = .idle := by rw [hrun]
  have hreleasing : Pool.Composed.Step timerFactory p.pool
      (.released none (s.mem 1048576).timerId, .tau) _ :=
    .own none (idle _) (.release none hpc hmem) (by simp [Pool.Moves, hrun])
      (Pool.not_pop hpc rfl) rfl rfl
  have released := stored.next ⟨⟨fun _ h => (by rw [hrelease] at h; cases h),
    .release (.runRelease hrelease) (.pool hreleasing rfl fun _ => rfl)⟩, trivial, trivial⟩
  have start : Pool.Reached timerFactory none False _ [] { p with pool := _ } :=
    ⟨⟨[], .start rfl, rfl⟩, (inv.step hreleasing trivial).1, idle⟩
  obtain ⟨m, freed⟩ := start.release (show Pool.State.thread _ none =
    ⟨none, 0, .release (bump 3 1048576)⟩ by simp [hrun, hid]) hfree (by decide)
  obtain ⟨es₂, run, htau⟩ := run_inside released freed trivial (fun _ h => by cases h) False.elim
  obtain ⟨-, hplaced, hfound, -⟩ := timers_pooled run
  refine ⟨_, _, run, ?_, ?_, hcreated, hplaced, hfound⟩
  · rw [List.map_append, List.filter_append, htau, List.map_append, List.filter_append, hshown₁,
      hshown]
    simp [State.keyOf, huses]
  · show p.pool.pool.acquired.erase (timerFactory.slot (s.mem 1048576).timerId) = []
    rw [hacquired, hid]
    decide

end Refinement

end PBase.TimerControl
