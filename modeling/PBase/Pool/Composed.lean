/-
# `PBase.Pool.Composed` — the pools over stacks that are not atomic

`PBase.Pool.Model` takes a push and a pop for one step, and `PBase.Stack.Model` takes them apart and
lets its clients do what they like.  Here the threads of a pool are the clients: a thread that is
about to push or pop starts the call, the loads, writes and CASes of all threads interleave, and the
pool goes on when the call is through, at its successful CAS or at the load of a null head:

    pool      ──── push(id) ┐                          ┌ next step ────
    stack                   └ load, write, CAS, …, CAS ┘

In a state of this system the lists `global` and `free` of the pool are a history: they follow the
calls that went through, and no step reads them (`State.put`).  That they are what is in the stacks
is the result, and with it that all other threads see a pool with atomic stacks (`pool_composed`).
-/
import PBase.Pool.Partition
import PBase.Stack.Linearize

namespace PBase.Pool

open PBase.Lib
open PBase.Arena (N N_eq)
open PBase.Stack (StackId node nextVersion)

variable {ι : Type}

/-! ## What a thread asks of the stacks -/

def State.stack (s : State ι) : Stack.Spec
  | .globalObjectGroupStack => s.global
  | .globalFreeObjectGroupStack => s.free

/-- The pool, as if this were on the stack. -/
def State.put (s : State ι) (st : StackId) (l : List Nat) : State ι :=
  match st with
  | .globalObjectGroupStack => { s with global := l }
  | .globalFreeObjectGroupStack => { s with free := l }

inductive Request where
  | push (st : StackId) (value : Nat)
  | pop (st : StackId)

/-- What a thread is about to call. -/
inductive Asks (C : Config) (s : State ι) (t : ι) : Request → Prop
  /-- `acquire` or an exit. -/
  | empty {g : Nat} : (s.thread t).pc = .idle → (s.thread t).ptr = some g → s.group g = some [] →
      Asks C s t (.push .globalFreeObjectGroupStack (s.thread t).id)
  /-- An exit. -/
  | loaded {g : Nat} {items : List Nat} : (s.thread t).pc = .idle → (s.thread t).ptr = some g →
      s.group g = some items → 0 < items.length →
      Asks C s t (.push .globalObjectGroupStack (s.thread t).id)
  | full {g item : Nat} {items : List Nat} : (s.thread t).pc = .release item →
      (s.thread t).ptr = some g →
      s.group g = some items → C.kObjectGroupItemSize ≤ items.length →
      Asks C s t (.push .globalObjectGroupStack (s.thread t).id)
  | freePush {k : Caller} {freeId i : Nat} : (s.thread t).pc = .freePush k freeId i → i < N →
      Asks C s t (.push .globalFreeObjectGroupStack (freeId + 1))
  | acquirePop : (s.thread t).pc = .acquirePop → Asks C s t (.pop .globalObjectGroupStack)
  | freePop {k : Caller} : (s.thread t).pc = .freePop k →
      Asks C s t (.pop .globalFreeObjectGroupStack)

/-! ## The threads and the stacks -/

structure Composed (ι : Type) where
  pool : State ι
  shared : Stack.State ι

variable [DecidableEq ι]

/-- The nodes of a new block are the thread's. -/
def create (t : ι) (ids : List Nat) (s : Stack.State ι) : Stack.State ι :=
  { s with
    created := ids ++ s.created
    held := Function.update s.held t (ids ++ s.held t) }

def startPush (t : ι) (st : StackId) (value : Nat) (s : Stack.State ι) : Stack.State ι :=
  { s with
    held := Function.update s.held t ((s.held t).erase value)
    pc := Function.update s.pc t (.pushLoad st (nextVersion value)) }

/-- A step has an event of the pool and one of the stacks. -/
inductive Composed.Step (C : Config) (f : Composed ι) : Event ι × Stack.Event ι → Composed ι → Prop
  /-- A step of the pool that is on no stack. -/
  | own (t : ι) {e : Event ι} {s' : State ι} : f.shared.pc t = .idle →
      Pool.Step C f.pool e s' → Moves t f.pool s' → (∀ st, ¬ Asks C f.pool t (.pop st)) →
      s'.stack = f.pool.stack → s'.groups = f.pool.groups → Step C f (e, .tau) { f with pool := s' }
  /-- `ObjectArena<ObjectGroup>::acquire` -/
  | acquire (t : ι) {e : Event ι} {base : Nat} {s' : State ι} : f.shared.pc t = .idle →
      Pool.Step C f.pool e s' → Moves t f.pool s' → s'.groups = block base ++ f.pool.groups →
      Step C f (e, .tau) ⟨s', create t (block base) f.shared⟩
  | push (t : ι) {st : StackId} {value : Nat} : f.shared.pc t = .idle →
      Asks C f.pool t (.push st value) →
      Step C f (.tau, .tau) { f with shared := startPush t st value f.shared }
  | pop (t : ι) {st : StackId} : f.shared.pc t = .idle → Asks C f.pool t (.pop st) →
      Step C f (.tau, .tau) { f with shared := f.shared.goto t (.popLoad st) }
  /-- A load, a write or a failed CAS of a thread that is in a call. -/
  | access {shared' : Stack.State ι} : Stack.Step f.shared .tau shared' →
      (∀ u, f.shared.pc u = .idle → shared'.pc u = .idle) → shared'.created = f.shared.created →
      Step C f (.tau, .tau) { f with shared := shared' }
  | pushed {t : ι} {st : StackId} {value : Nat} {e : Event ι} {s' : State ι}
      {shared' : Stack.State ι} :
      Stack.Step f.shared (.pushed t st value) shared' →
      Pool.Step C f.pool e s' → Moves t f.pool s' →
      s'.stack = Function.update f.pool.stack st (value :: f.pool.stack st) →
      Step C f (e, .pushed t st value) ⟨s', shared'⟩
  /-- The pool goes on with what the pop returns. -/
  | popped {t : ι} {st : StackId} {value : Nat} {e : Event ι} {s' : State ι}
      {shared' : Stack.State ι} :
      Stack.Step f.shared (.popped t st value) shared' →
      Pool.Step C (f.pool.put st (value :: (f.pool.stack st).tail)) e s' → Moves t f.pool s' →
      Step C f (e, .popped t st value) ⟨s', shared'⟩
  | empty {t : ι} {st : StackId} {e : Event ι} {s' : State ι} {shared' : Stack.State ι} :
      Stack.Step f.shared (.empty t st) shared' →
      Pool.Step C (f.pool.put st []) e s' → Moves t f.pool s' →
      Step C f (e, .empty t st) ⟨s', shared'⟩

/-- A pool over two empty stacks. -/
def composed (C : Config) (ι : Type) [DecidableEq ι] :
    System (Composed ι) (Event ι × Stack.Event ι) where
  init f := (poolSystem C ι).init f.pool ∧ (Stack.stackSystem ι).init f.shared
  step := Composed.Step C

/-! ## What a step of the pool is to the stacks -/

/-- The ids of the groups a thread owns. -/
def Thread.ids (th : Thread) : List Nat := th.localGroup.map (fun _ => th.id) ++ th.moving

/-- The id a thread pushes, if it is about to push one. -/
def Thread.pushing (th : Thread) : Nat :=
  match th.pc with
  | .freePush _ freeId _ => freeId + 1
  | _ => th.id

section Effect
variable {C : Config} {s s' : State ι} {t u : ι} {st st' : StackId} {value : Nat} {r : Request}
  {e : Event ι}

omit [DecidableEq ι] in
theorem Asks.push_eq (h : Asks C s t (.push st value)) : value = (s.thread t).pushing := by
  cases h with
  | empty ht _ _ => simp [Thread.pushing, ht]
  | loaded ht _ _ _ => simp [Thread.pushing, ht]
  | full ht _ _ _ => simp [Thread.pushing, ht]
  | freePush ht _ => simp [Thread.pushing, ht]

omit [DecidableEq ι] in
/-- The id a thread is about to push is one of its groups. -/
theorem Asks.mem_ids (h : Asks C s t (.push st value)) : value ∈ (s.thread t).ids := by
  cases h with
  | empty ht hptr _ | loaded ht hptr _ _ | full ht hptr _ _ =>
      simp [Thread.ids, Thread.localGroup, Thread.moving, ht, hptr]
  | @freePush k freeId i ht hi =>
      refine List.mem_append_right _ ?_
      simp only [Thread.moving, ht, List.mem_range'_1]
      omega

omit [DecidableEq ι] in
theorem Asks.pop_eq (h : Asks C s t (.pop st)) (h' : Asks C s t (.pop st')) : st = st' := by
  cases h with
  | acquirePop ht =>
      cases h' with
      | acquirePop _ => rfl
      | freePop ht' => cases ht.symm.trans ht'
  | freePop ht =>
      cases h' with
      | acquirePop ht' => cases ht.symm.trans ht'
      | freePop _ => rfl

omit [DecidableEq ι] in
/-- A thread that is about to pop owns no group and asks for nothing else. -/
theorem Asks.pop_ids (h : Asks C s t (.pop st)) :
    (s.thread t).ids = [] ∧ ∀ st' value, ¬ Asks C s t (.push st' value) := by
  have hpc : (s.thread t).pc = .acquirePop ∨ ∃ k, (s.thread t).pc = .freePop k := by
    cases h with
    | acquirePop ht => exact .inl ht
    | freePop ht => exact .inr ⟨_, ht⟩
  refine ⟨?_, fun st' value h' => ?_⟩
  · rcases hpc with ht | ⟨k, ht⟩ <;> simp [Thread.ids, Thread.localGroup, Thread.moving, ht]
  · cases h' with
    | empty ht' _ _ | loaded ht' _ _ _ | full ht' _ _ _ | freePush ht' _ => simp [ht'] at hpc

omit [DecidableEq ι] in
/-- What a thread asks is a matter of itself and its local group. -/
theorem Asks.frame (h : Asks C s t r) (hth : s'.thread t = s.thread t)
    (hg : ∀ g ∈ (s.thread t).localGroup, s'.group g = s.group g) : Asks C s' t r := by
  have hlocal : ∀ {g}, (s.thread t).localGroup = (s.thread t).ptr.toList →
      (s.thread t).ptr = some g →
      s'.group g = s.group g := fun hl hptr => hg _ (by simp [hl, hptr])
  cases h with
  | empty ht hptr hgroup =>
      rw [← hlocal (by simp [Thread.localGroup, ht]) hptr] at hgroup
      rw [← hth] at ht hptr ⊢
      exact .empty ht hptr hgroup
  | loaded ht hptr hgroup hpos =>
      rw [← hlocal (by simp [Thread.localGroup, ht]) hptr] at hgroup
      rw [← hth] at ht hptr ⊢
      exact .loaded ht hptr hgroup hpos
  | full ht hptr hgroup hlen =>
      rw [← hlocal (by simp [Thread.localGroup, ht]) hptr] at hgroup
      rw [← hth] at ht hptr ⊢
      exact .full ht hptr hgroup hlen
  | freePush ht hi => exact .freePush (hth ▸ ht) hi
  | acquirePop ht => exact .acquirePop (hth ▸ ht)
  | freePop ht => exact .freePop (hth ▸ ht)

/-- The next step is a pop. -/
def Pc.pops : Pc → Bool
  | .acquirePop | .freePop _ => true
  | _ => false

omit [DecidableEq ι] in
theorem not_pop {p : Pc} (ht : (s.thread t).pc = p) (hp : p.pops = false) :
    ∀ st, ¬ Asks C s t (.pop st) := by
  intro st h
  rw [← ht] at hp
  cases h with
  | acquirePop ht' => cases ht' ▸ hp
  | freePop ht' => cases ht' ▸ hp

omit [DecidableEq ι] in
theorem stack_put (s : State ι) (st : StackId) (l : List Nat) :
    (s.put st l).stack = Function.update s.stack st l := by
  funext st'
  cases st <;> cases st' <;> rfl

/-- What a step of `t` is to the stacks and the groups. -/
inductive Effect (C : Config) (s s' : State ι) (t : ι) : Prop
  | own : (∀ st, ¬ Asks C s t (.pop st)) → s'.stack = s.stack → s'.groups = s.groups →
      (s'.thread t).ids = (s.thread t).ids ∨ (s'.thread t).pc = .failed → Effect C s s' t
  | acquire {base : Nat} : (∀ st, ¬ Asks C s t (.pop st)) → s'.stack = s.stack →
      s'.groups = block base ++ s.groups → Fresh base s.groups →
      (s.thread t).ids = [] → (s'.thread t).ids = block base → Effect C s s' t
  | push {st : StackId} {value : Nat} : Asks C s t (.push st value) →
      s'.stack = Function.update s.stack st (nextVersion value :: s.stack st) →
      s'.groups = s.groups →
      (s.thread t).ids.Perm (value :: (s'.thread t).ids) → Effect C s s' t
  | pop {st : StackId} {value : Nat} {rest : List Nat} : Asks C s t (.pop st) →
      Pool.pop (s.stack st) = (value, rest) → s'.stack = Function.update s.stack st rest →
      s'.groups = s.groups → (s'.thread t).ids = (if value = 0 then [] else [value]) →
      Effect C s s' t

/-- What a step can do: one thread moves, it writes no group but its own, and it is on one stack at
most. -/
theorem Step.effect (hs : Step C s e s') : ∃ t, Moves t s s' ∧ (∀ u ≠ t, s'.thread u = s.thread u) ∧
    (∀ g, g ∉ (s.thread t).localGroup → s'.group g = s.group g) ∧ Effect C s s' t := by
  have hothers : ∀ {t : ι} {th : Thread}, ∀ u ≠ t, Function.update s.thread t th u = s.thread u :=
    fun u hu => Function.update_of_ne hu _ _
  have hgroup : ∀ {t : ι} {g : Nat} {x : Option (List Nat)},
      (s.thread t).localGroup = (s.thread t).ptr.toList →
      (s.thread t).ptr = some g →
      ∀ g', g' ∉ (s.thread t).localGroup → Function.update s.group g x g' = s.group g' :=
    fun hl hptr g' hg' => Function.update_of_ne (fun heq => hg' (by simp [hl, hptr, heq])) _ _
  have hglobal : ∀ l, (s.put .globalObjectGroupStack l).stack = _ :=
      stack_put s .globalObjectGroupStack
  have hfree : ∀ l, (s.put .globalFreeObjectGroupStack l).stack = _ :=
      stack_put s .globalFreeObjectGroupStack
  cases hs with
  | acquireLocal t ht hptr hg =>
      refine ⟨t, by simp [Moves, ht], hothers, hgroup (by simp [Thread.localGroup, ht]) hptr,
          .own (not_pop ht rfl) rfl rfl (.inl ?_)⟩
      simp [Thread.ids, Thread.localGroup, Thread.moving, ht]
  | acquireEmpty t ht hptr hg =>
      refine ⟨t, by simp [Moves, ht], hothers, fun _ _ => rfl,
          .push (.empty ht hptr hg) (hfree _) rfl ?_⟩
      simp [Thread.ids, Thread.localGroup, Thread.moving, ht, hptr]
  | acquireNull t ht hptr =>
      refine ⟨t, by simp [Moves, State.goto, ht], hothers, fun _ _ => rfl,
          .own (not_pop ht rfl) rfl rfl (.inl ?_)⟩
      simp [State.goto, Thread.ids, Thread.localGroup, Thread.moving, ht, hptr]
  | acquirePop t ht hpop hid =>
      refine ⟨t, by simp [Moves, ht], hothers, fun _ _ => rfl,
          .pop (.acquirePop ht) hpop (hglobal _) rfl ?_⟩
      simp [Thread.ids, Thread.localGroup, Thread.moving, hid]
  | acquirePopEmpty t ht hpop =>
      refine ⟨t, ?_, hothers, fun _ _ => rfl, .pop (.acquirePop ht) hpop (hglobal _) rfl ?_⟩
      · cases C.kind <;> simp [Moves, ht]
      · cases C.kind <;> simp [Thread.ids, Thread.localGroup, Thread.moving]
  | acquireTake t ht hptr hg hlen =>
      refine ⟨t, by simp [Moves, ht], hothers, hgroup (by simp [Thread.localGroup, ht]) hptr,
          .own (not_pop ht rfl) rfl rfl (.inl ?_)⟩
      simp [Thread.ids, Thread.localGroup, Thread.moving, ht]
  | acquireAssert t ht hptr hg hassert =>
      refine ⟨t, by simp [Moves, State.goto, ht], hothers, fun _ _ => rfl,
          .own (not_pop ht rfl) rfl rfl (.inr ?_)⟩
      simp [State.goto]
  | newThis t ht hobj =>
      refine ⟨t, by simp [Moves, ht], hothers, fun _ _ => rfl,
          .own (not_pop ht rfl) rfl rfl (.inl ?_)⟩
      simp [Thread.ids, Thread.localGroup, Thread.moving, ht]
  | acquireBlock t ht hfresh =>
      refine ⟨t, by simp [Moves, ht], hothers, fun _ _ => rfl,
          .own (not_pop ht rfl) rfl rfl (.inl ?_)⟩
      simp [Thread.ids, Thread.localGroup, Thread.moving, ht]
  | acquireFill t ht hptr =>
      refine ⟨t, by simp [Moves, ht], hothers, hgroup (by simp [Thread.localGroup, ht]) hptr,
          .own (not_pop ht rfl) rfl rfl (.inl ?_)⟩
      simp [Thread.ids, Thread.localGroup, Thread.moving, ht]
  | acquireReturn t ht =>
      refine ⟨t, by simp [Moves, ht], hothers, fun _ _ => rfl,
          .own (not_pop ht rfl) rfl rfl (.inl ?_)⟩
      simp [Thread.ids, Thread.localGroup, Thread.moving, ht]
  | release t ht hitem =>
      refine ⟨t, by simp [Moves, ht], hothers, fun _ _ => rfl,
          .own (not_pop ht rfl) rfl rfl (.inl ?_)⟩
      simp [Thread.ids, Thread.localGroup, Thread.moving, ht]
  | releaseLocal t ht hptr hg hlen =>
      refine ⟨t, by simp [Moves, ht], hothers, hgroup (by simp [Thread.localGroup, ht]) hptr,
          .own (not_pop ht rfl) rfl rfl (.inl ?_)⟩
      simp [Thread.ids, Thread.localGroup, Thread.moving, ht]
  | releaseFull t ht hptr hg hlen =>
      refine ⟨t, by simp [Moves, ht], hothers, fun _ _ => rfl,
          .push (.full ht hptr hg hlen) (hglobal _) rfl ?_⟩
      simp [Thread.ids, Thread.localGroup, Thread.moving, ht, hptr]
  | releaseNull t ht hptr =>
      refine ⟨t, by simp [Moves, State.goto, ht], hothers, fun _ _ => rfl,
          .own (not_pop ht rfl) rfl rfl (.inl ?_)⟩
      simp [State.goto, Thread.ids, Thread.localGroup, Thread.moving, ht, hptr]
  | releaseFill t ht hptr =>
      refine ⟨t, by simp [Moves, ht], hothers, hgroup (by simp [Thread.localGroup, ht]) hptr,
          .own (not_pop ht rfl) rfl rfl (.inl ?_)⟩
      simp [Thread.ids, Thread.localGroup, Thread.moving, ht]
  | @freePop t k id rest ht hpop hid =>
      refine ⟨t, ?_, hothers, fun _ _ => rfl, .pop (.freePop ht) hpop (hfree _) rfl ?_⟩
      · cases k <;> simp [Moves, ht, Caller.resume]
      · cases k <;> simp [Thread.ids, Thread.localGroup, Thread.moving, Caller.resume, hid]
  | freePopEmpty t ht hpop =>
      refine ⟨t, by simp [Moves, ht], hothers, fun _ _ => rfl,
          .pop (.freePop ht) hpop (hfree _) rfl ?_⟩
      simp [Thread.ids, Thread.localGroup, Thread.moving]
  | freeArena t ht hfresh =>
      refine ⟨t, by simp [Moves, ht], hothers, fun _ _ => rfl,
          .acquire (not_pop ht rfl) rfl rfl hfresh ?_ ?_⟩
      · simp [Thread.ids, Thread.localGroup, Thread.moving, ht]
      · simp [Thread.ids, Thread.localGroup, Thread.moving]
  | @freeAssign t k base ht =>
      refine ⟨t, by simp [Moves, ht], hothers, fun _ _ => rfl,
          .own (not_pop ht rfl) rfl rfl (.inl ?_)⟩
      simp [Thread.ids, Thread.localGroup, Thread.moving, ht, block_eq_cons]
  | @freePush t k freeId i ht hi =>
      refine ⟨t, by simp [Moves, ht], hothers, fun _ _ => rfl,
          .push (.freePush ht hi) (hfree _) rfl ?_⟩
      have hlen : N - i = N - (i + 1) + 1 := by omega
      simp only [Thread.ids, Thread.localGroup, Thread.moving, ht, Function.update_self]
      rw [hlen, List.range'_succ]
      exact List.perm_middle
  | @freePushEnd t k freeId i ht hi =>
      have hlen : N - i = 0 := by omega
      refine ⟨t, ?_, hothers, fun _ _ => rfl, .own (not_pop ht rfl) rfl rfl (.inl ?_)⟩
      · cases k <;> simp [Moves, State.goto, ht, Caller.resume]
      · cases k <;> simp [State.goto, Thread.ids, Thread.localGroup, Thread.moving, ht,
          Caller.resume, hlen]
  | exitLoaded t ht hptr hg hpos =>
      refine ⟨t, by simp [Moves, ht], hothers, fun _ _ => rfl,
          .push (.loaded ht hptr hg hpos) (hglobal _) rfl ?_⟩
      simp [Thread.ids, Thread.localGroup, Thread.moving, ht, hptr]
  | exitEmpty t ht hptr hg =>
      refine ⟨t, by simp [Moves, ht], hothers, fun _ _ => rfl,
          .push (.empty ht hptr hg) (hfree _) rfl ?_⟩
      simp [Thread.ids, Thread.localGroup, Thread.moving, ht, hptr]
  | exitNull t ht hptr =>
      refine ⟨t, by simp [Moves, State.goto, ht], hothers, fun _ _ => rfl,
          .own (not_pop ht rfl) rfl rfl (.inl ?_)⟩
      simp [State.goto, Thread.ids, Thread.localGroup, Thread.moving, ht, hptr]
  | uninitialised t ht hptr hg =>
      refine ⟨t, ?_, hothers, fun _ _ => rfl, .own ?_ rfl rfl (.inr ?_)⟩
      · rcases ht with ht | ht | ⟨item, ht⟩ <;> simp [Moves, State.goto, ht]
      · rcases ht with ht | ht | ⟨item, ht⟩ <;> exact not_pop ht rfl
      · simp [State.goto]

theorem Moves.eq (hm : Moves t s s') (hothers : ∀ v ≠ u, s'.thread v = s.thread v) : t = u := by
  by_contra hne
  exact hm (congrArg Thread.pc (hothers t hne))

/-- The same, for the thread that moved. -/
theorem Step.effect_of (hs : Step C s e s') (hm : Moves t s s') :
    (∀ u ≠ t, s'.thread u = s.thread u) ∧
    (∀ g, g ∉ (s.thread t).localGroup → s'.group g = s.group g) ∧ Effect C s s' t := by
  obtain ⟨u, -, hothers, hgroup, heff⟩ := hs.effect
  cases hm.eq hothers
  exact ⟨hothers, hgroup, heff⟩

end Effect

/-! ## Who owns what -/

/-- The call a thread is in; the id has its new version. -/
def serves : Stack.Pc → Option Request
  | .idle => none
  | .pushLoad st value | .pushWrite st value _ | .pushCas st value _ => some (.push st value)
  | .popLoad st | .popNext st _ _ | .popCas st _ _ _ => some (.pop st)

/-- A thread holds the ids of its groups, but for the one it is pushing. -/
def Owns (C : Config) (s : State ι) (t : ι) (held : List Nat) : Option Request → Prop
  | none => held.Perm (s.thread t).ids
  | some (.push st value) => ∃ id, value = nextVersion id ∧ Asks C s t (.push st id) ∧
      (s.thread t).ids.Perm (id :: held)
  | some (.pop st) => Asks C s t (.pop st) ∧ held = []

structure Composed.Inv (C : Config) (f : Composed ι) : Prop where
  pool : Pool.Inv C f.pool
  shared : Stack.Inv f.shared f.pool.stack
  created : f.shared.created = f.pool.groups
  owns : ∀ t, Owns C f.pool t (f.shared.held t) (serves (f.shared.pc t))

section
variable {C : Config} {s s' : State ι} {t u : ι} {held : List Nat} {r : Option Request}
  {m m' : Stack.State ι}
  {σ : Stack.Spec}

omit [DecidableEq ι] in
theorem Owns.frame (h : Owns C s t held r) (hth : s'.thread t = s.thread t)
    (hg : ∀ g ∈ (s.thread t).localGroup, s'.group g = s.group g) : Owns C s' t held r := by
  match r with
  | none =>
      show held.Perm (s'.thread t).ids
      rw [hth]
      exact h
  | some (.push st value) =>
      obtain ⟨id, hvalue, hasks, hperm⟩ := h
      exact ⟨id, hvalue, hasks.frame hth hg, hth ▸ hperm⟩
  | some (.pop st) => exact ⟨h.1.frame hth hg, h.2⟩

/-- New nodes, one after the other. -/
theorem createNodes (h : Stack.Inv m σ) (t : ι) {ids : List Nat} (hnodup : ids.Nodup)
    (hids : ∀ id ∈ ids, 0 < id ∧ id < 2 ^ 32 ∧ id ∉ m.created) : Stack.Inv (create t ids m) σ := by
  induction ids with
  | nil =>
      have hsame : create t [] m = m := by simp [create]
      rwa [hsame]
  | cons id ids ih =>
      obtain ⟨hnot, hnodup⟩ := List.nodup_cons.mp hnodup
      obtain ⟨hpos, hlt, hnew⟩ := hids id List.mem_cons_self
      have hrest := ih hnodup fun x hx => hids x (List.mem_cons_of_mem _ hx)
      have hadd := hrest.create t hpos hlt fun hmem => (List.mem_append.mp hmem).elim hnot hnew
      simpa [create] using hadd

/-- An access leaves every thread in its call, and its nodes. -/
theorem access_serves (hs : Stack.Step m .tau m') (hidle : ∀ u, m.pc u = .idle → m'.pc u = .idle)
    (hcreated : m'.created = m.created) (u : ι) : serves (m'.pc u) = serves (m.pc u) ∧
    m'.held u = m.held u := by
  have hgoto : ∀ {t : ι} {p : Stack.Pc}, serves p = serves (m.pc t) →
      serves ((m.goto t p).pc u) = serves (m.pc u) := by
    intro t p hp
    rcases eq_or_ne u t with rfl | hu
    · simpa [Stack.State.goto] using hp
    · simp [Stack.State.goto, Function.update_of_ne hu]
  cases hs with
  | @create t id hpos hlt hnew => exact absurd hcreated (List.cons_ne_self _ _)
  | push t st ht hmem => exact absurd (hidle t ht) (by simp)
  | pushLoad t ht => exact ⟨hgoto (by simp [ht, serves]), rfl⟩
  | pushWrite t ht =>
      refine ⟨?_, rfl⟩
      rcases eq_or_ne u t with rfl | hu
      · simp [ht, serves]
      · simp [Function.update_of_ne hu]
  | pushRetry t ht => exact ⟨hgoto (by simp [ht, serves]), rfl⟩
  | pop t st ht => exact absurd (hidle t ht) (by simp [Stack.State.goto])
  | popLoad t ht hhead => exact ⟨hgoto (by simp [ht, serves]), rfl⟩
  | popNext t ht => exact ⟨hgoto (by simp [ht, serves]), rfl⟩
  | popRetry t ht => exact ⟨hgoto (by simp [ht, serves]), rfl⟩

end

namespace Composed.Inv
variable {C : Config} {f f' : Composed ι} {t u : ι} {st : StackId} {value : Nat} {e : Event ι}
  {s' : State ι}
  {shared' : Stack.State ι}

omit [DecidableEq ι] in
/-- The others own what they did after a step of `t`. -/
theorem others (h : Inv C f) (hothers : ∀ u ≠ t, s'.thread u = f.pool.thread u)
    (hgroup : ∀ g, g ∉ (f.pool.thread t).localGroup → s'.group g = f.pool.group g) (hu : u ≠ t) :
    Owns C s' u (f.shared.held u) (serves (f.shared.pc u)) :=
  (h.owns u).frame (hothers u hu) fun g hg => hgroup g fun hg' =>
    hu (GroupPlace.local.inj (h.pool.groups.apart (p := .local u) (q := .local t) hg hg'))

/-- The ids of a thread that has moved on are those of its groups. -/
theorem ids_own (h : Inv C f) (hs : Pool.Step C f.pool e s')
    (hids : (s'.thread t).ids = (f.pool.thread t).ids ∨ (s'.thread t).pc = .failed) :
    (s'.thread t).ids = (f.pool.thread t).ids := by
  refine hids.resolve_right fun hfailed => ?_
  exact (h.pool.step hs).ok hfailed

theorem own (h : Inv C f) (ht : f.shared.pc t = .idle) (hs : Pool.Step C f.pool e s')
    (hm : Moves t f.pool s')
    (hpop : ∀ st, ¬ Asks C f.pool t (.pop st)) (hstack : s'.stack = f.pool.stack)
    (hgroups : s'.groups = f.pool.groups) : Inv C { f with pool := s' } := by
  obtain ⟨hothers, hgroup, heff⟩ := hs.effect_of hm
  refine ⟨h.pool.step hs, hstack ▸ h.shared, h.created.trans hgroups.symm, fun u => ?_⟩
  rcases eq_or_ne u t with rfl | hu
  · have howns := h.owns u
    rw [ht] at howns
    show Owns C s' u (f.shared.held u) (serves (f.shared.pc u))
    rw [ht]
    cases heff with
    | own _ _ _ hids =>
        show (f.shared.held u).Perm (s'.thread u).ids
        rw [h.ids_own hs hids]
        exact howns
    | acquire _ _ hnew _ _ _ =>
        have hlen := congrArg List.length (hgroups.symm.trans hnew)
        rw [List.length_append, block, List.length_range', N_eq] at hlen
        omega
    | @push st id _ hnew _ _ =>
        have heq := congrFun (hstack.symm.trans hnew) st
        rw [Function.update_self] at heq
        exact absurd heq.symm (List.cons_ne_self _ _)
    | pop hasks _ _ _ _ => exact absurd hasks (hpop _)
  · exact h.others hothers hgroup hu

theorem acquire {base : Nat} (h : Inv C f) (ht : f.shared.pc t = .idle)
    (hs : Pool.Step C f.pool e s')
    (hm : Moves t f.pool s') (hgroups : s'.groups = block base ++ f.pool.groups) :
    Inv C ⟨s', create t (block base) f.shared⟩ ∧ s'.stack = f.pool.stack := by
  obtain ⟨hothers, hgroup, heff⟩ := hs.effect_of hm
  have hsame : s'.groups ≠ f.pool.groups := fun heq => by
    have hlen := congrArg List.length (heq.symm.trans hgroups)
    rw [List.length_append, block, List.length_range', N_eq] at hlen
    omega
  cases heff with
  | own _ _ heq _ => exact absurd heq hsame
  | push _ _ heq _ => exact absurd heq hsame
  | pop _ _ _ heq _ => exact absurd heq hsame
  | @acquire base' _ hstack hnew hfresh hold hids =>
      have hblock : block base' = block base := List.append_cancel_right (hnew.symm.trans hgroups)
      rw [← hblock]
      refine ⟨⟨h.pool.step hs, hstack ▸ createNodes h.shared t (block_nodup base') fun id hid => ?_,
          ?_, fun u => ?_⟩,
        hstack⟩
      · have hpos := hfresh.pos
        have hlt := hfresh.lt
        have hmem := mem_block.mp hid
        rw [h.created]
        exact ⟨by omega, by omega, hfresh.unused id hid⟩
      · show block base' ++ f.shared.created = s'.groups
        rw [h.created, hnew]
      · rcases eq_or_ne u t with rfl | hu
        · have howns := h.owns u
          rw [ht] at howns
          have hheld : f.shared.held u = [] := List.perm_nil.mp (hold ▸ howns)
          show Owns C s' u (Function.update f.shared.held u _ u) (serves (f.shared.pc u))
          rw [ht, Function.update_self, hheld, List.append_nil]
          exact .of_eq hids.symm
        · show Owns C s' u (Function.update f.shared.held t _ u) (serves (f.shared.pc u))
          rw [Function.update_of_ne hu]
          exact h.others hothers hgroup hu

theorem push (h : Inv C f) (ht : f.shared.pc t = .idle) (hasks : Asks C f.pool t (.push st value))
    (hmem : value ∈ (f.pool.thread t).ids) :
    Inv C { f with shared := startPush t st value f.shared } := by
  have howns := h.owns t
  rw [ht] at howns
  have hheld : value ∈ f.shared.held t := howns.mem_iff.mpr hmem
  refine ⟨h.pool, h.shared.push t st ht hheld, h.created, fun u => ?_⟩
  show Owns C f.pool u (Function.update f.shared.held t _ u)
      (serves (Function.update f.shared.pc t _ u))
  rcases eq_or_ne u t with rfl | hu
  · rw [Function.update_self, Function.update_self]
    exact ⟨value, rfl, hasks, howns.symm.trans (List.perm_cons_erase hheld)⟩
  · rw [Function.update_of_ne hu, Function.update_of_ne hu]
    exact h.owns u

theorem pop (h : Inv C f) (ht : f.shared.pc t = .idle) (hasks : Asks C f.pool t (.pop st)) :
    Inv C { f with shared := f.shared.goto t (.popLoad st) } := by
  have howns := h.owns t
  rw [ht] at howns
  refine ⟨h.pool, ?_, h.created, fun u => ?_⟩
  · exact h.shared.goto t (by simp [ht, Stack.Pc.pushing]) (fun _ _ _ hp => nomatch hp) trivial
  · show Owns C f.pool u (f.shared.held u) (serves (Function.update f.shared.pc t _ u))
    rcases eq_or_ne u t with rfl | hu
    · rw [Function.update_self]
      exact ⟨hasks, List.perm_nil.mp (hasks.pop_ids.1 ▸ howns)⟩
    · rw [Function.update_of_ne hu]
      exact h.owns u

theorem access (h : Inv C f) (hs : Stack.Step f.shared .tau shared')
    (hidle : ∀ u, f.shared.pc u = .idle → shared'.pc u = .idle)
    (hcreated : shared'.created = f.shared.created) :
    Inv C { f with shared := shared' } := by
  obtain ⟨σ', happ, hshared⟩ := h.shared.step hs trivial
  cases happ
  refine ⟨h.pool, hshared, hcreated.trans h.created, fun u => ?_⟩
  obtain ⟨hserves, hheld⟩ := access_serves hs hidle hcreated u
  show Owns C f.pool u (shared'.held u) (serves (shared'.pc u))
  rw [hserves, hheld]
  exact h.owns u

/-- A push goes through at its CAS: the group is on the stack, under its new version. -/
theorem pushed (h : Inv C f) (hs : Stack.Step f.shared (.pushed t st value) shared')
    (hpool : Pool.Step C f.pool e s') (hm : Moves t f.pool s')
    (hstack : s'.stack = Function.update f.pool.stack st (value :: f.pool.stack st)) :
    Inv C ⟨s', shared'⟩ := by
  obtain ⟨σ', happ, hshared⟩ := h.shared.step hs trivial
  cases happ
  rw [← hstack] at hshared
  cases hs with
  | @pushCas _ _ _ p ht hhead =>
      obtain ⟨hothers, hgroup, heff⟩ := hpool.effect_of hm
      have hlonger : s'.stack ≠ f.pool.stack := fun heq => by
        have hsame := congrFun (heq.symm.trans hstack) st
        rw [Function.update_self] at hsame
        exact absurd hsame.symm (List.cons_ne_self _ _)
      have howns := h.owns t
      rw [ht] at howns
      obtain ⟨id, hvalue, hasks, hperm⟩ := howns
      cases heff with
      | own _ heq _ _ => exact absurd heq hlonger
      | acquire _ heq _ _ _ _ => exact absurd heq hlonger
      | pop hasks' _ _ _ _ => exact absurd hasks (hasks'.pop_ids.2 _ _)
      | @push st' id' hasks' _ hgroups hperm' =>
          have hid : id = id' := hasks.push_eq.trans hasks'.push_eq.symm
          rw [← hid] at hperm'
          refine ⟨h.pool.step hpool, hshared, h.created.trans hgroups.symm, fun u => ?_⟩
          show Owns C s' u (f.shared.held u) (serves (Function.update f.shared.pc t _ u))
          rcases eq_or_ne u t with rfl | hu
          · rw [Function.update_self]
            exact (List.perm_cons id).mp (hperm.symm.trans hperm')
          · rw [Function.update_of_ne hu]
            exact h.others hothers hgroup hu

omit [DecidableEq ι] in
theorem put_self (s : State ι) (st : StackId) : s.put st (s.stack st) = s := by
  cases st <;> rfl

/-- What the pool makes of a pop. -/
theorem goes_on {rest : List Nat} (h : Inv C f) (hasks : Asks C f.pool t (.pop st))
    (hpop : Pool.pop (f.pool.stack st) = (value, rest)) (hpool : Pool.Step C f.pool e s')
    (hm : Moves t f.pool s') :
    Pool.Inv C s' ∧ s'.stack = Function.update f.pool.stack st rest ∧ s'.groups = f.pool.groups ∧
      (s'.thread t).ids = (if value = 0 then [] else [value]) ∧
      ∀ u ≠ t, Owns C s' u (f.shared.held u) (serves (f.shared.pc u)) := by
  obtain ⟨hothers, hgroup, heff⟩ := hpool.effect_of hm
  cases heff with
  | own hnot _ _ _ => exact absurd hasks (hnot st)
  | acquire hnot _ _ _ _ _ => exact absurd hasks (hnot st)
  | push hasks' _ _ _ => exact absurd hasks' (hasks.pop_ids.2 _ _)
  | pop hasks' hpop' hstack hgroups hids =>
      cases hasks.pop_eq hasks'
      cases hpop.symm.trans hpop'
      exact ⟨h.pool.step hpool, hstack, hgroups, hids, fun u hu => h.others hothers hgroup hu⟩

/-- A pop goes through at its CAS, with what is on top then. -/
theorem popped (h : Inv C f) (hs : Stack.Step f.shared (.popped t st value) shared')
    (hfew : Stack.FewPushes f.shared (.popped t st value))
    (hpool : Pool.Step C (f.pool.put st (value :: (f.pool.stack st).tail)) e s')
    (hm : Moves t f.pool s') :
    Inv C ⟨s', shared'⟩ ∧ Pool.Step C f.pool e s' ∧
    Stack.apply f.pool.stack (.popped t st value) = some s'.stack := by
  cases hs with
  | @popCas _ _ _ next seen ht hhead =>
      obtain ⟨rest, htop, hshared⟩ := h.shared.popCas t ht hhead (hfew _ _ _ _ ht)
      have hput : f.pool.put st (value :: (f.pool.stack st).tail) = f.pool := by
        rw [htop, List.tail_cons, ← htop]
        exact put_self f.pool st
      rw [hput] at hpool
      have howns := h.owns t
      rw [ht] at howns
      obtain ⟨hasks, hheld⟩ := howns
      have hpop : Pool.pop (f.pool.stack st) = (value, rest) := by
        rw [htop]
        rfl
      obtain ⟨hinv, hstack, hgroups, hids, hothers⟩ := h.goes_on hasks hpop hpool hm
      have hne : value ≠ 0 := h.shared.ne_zero_of_placed (p := .stack st)
          (List.mem_map_of_mem (htop ▸ List.mem_cons_self))
      refine ⟨⟨hinv, hstack ▸ hshared, h.created.trans hgroups.symm, fun u => ?_⟩, hpool, ?_⟩
      · show Owns C s' u (Function.update f.shared.held t _ u)
          (serves (Function.update f.shared.pc t _ u))
        rcases eq_or_ne u t with rfl | hu
        · rw [Function.update_self, Function.update_self, hheld]
          show [value].Perm (s'.thread u).ids
          rw [hids, if_neg hne]
        · rw [Function.update_of_ne hu, Function.update_of_ne hu]
          exact hothers u hu
      · simp [Stack.apply, htop, hstack]

/-- A pop that finds a null head goes through at the load. -/
theorem empty (h : Inv C f) (hs : Stack.Step f.shared (.empty t st) shared')
    (hpool : Pool.Step C (f.pool.put st []) e s') (hm : Moves t f.pool s') :
    Inv C ⟨s', shared'⟩ ∧ Pool.Step C f.pool e s' ∧
    Stack.apply f.pool.stack (.empty t st) = some s'.stack := by
  obtain ⟨σ', happ, hshared⟩ := h.shared.step hs trivial
  cases hs with
  | popEmpty _ ht hhead =>
      have hnil : f.pool.stack st = [] := (h.shared.chain st).eq_nil_iff.mpr hhead
      rw [Stack.apply, if_pos hnil] at happ
      cases happ
      have hput : f.pool.put st [] = f.pool := by
        rw [← hnil]
        exact put_self f.pool st
      rw [hput] at hpool
      have howns := h.owns t
      rw [ht] at howns
      obtain ⟨hasks, hheld⟩ := howns
      have hpop : Pool.pop (f.pool.stack st) = (0, []) := by
        rw [hnil]
        rfl
      obtain ⟨hinv, hstack, hgroups, hids, hothers⟩ := h.goes_on hasks hpop hpool hm
      have hsame : s'.stack = f.pool.stack := by
        rw [hstack, ← hnil, Function.update_eq_self]
      refine ⟨⟨hinv, hsame ▸ hshared, h.created.trans hgroups.symm, fun u => ?_⟩, hpool, ?_⟩
      · show Owns C s' u (f.shared.held u) (serves (Function.update f.shared.pc t _ u))
        rcases eq_or_ne u t with rfl | hu
        · rw [Function.update_self, hheld]
          show [].Perm (s'.thread u).ids
          rw [hids, if_pos rfl]
        · rw [Function.update_of_ne hu]
          exact hothers u hu
      · rw [Stack.apply, if_pos hnil, hsame]

/-- Every step keeps the invariant, is one of the stacks, and one of the pool if it is not an
access. -/
theorem step {e : Event ι × Stack.Event ι} (h : Inv C f) (hs : Composed.Step C f e f')
    (hfew : Stack.FewPushes f.shared e.2) :
    Inv C f' ∧ Stack.apply f.pool.stack e.2 = some f'.pool.stack ∧
      (Pool.Step C f.pool e.1 f'.pool ∨ e.1 = .tau ∧ f'.pool = f.pool) := by
  cases hs with
  | own t ht hpool hm hpop hstack hgroups =>
      exact ⟨h.own ht hpool hm hpop hstack hgroups, congrArg some hstack.symm, .inl hpool⟩
  | acquire t ht hpool hm hgroups =>
      obtain ⟨hinv, hstack⟩ := h.acquire ht hpool hm hgroups
      exact ⟨hinv, congrArg some hstack.symm, .inl hpool⟩
  | push t ht hasks => exact ⟨h.push ht hasks hasks.mem_ids, rfl, .inr ⟨rfl, rfl⟩⟩
  | pop t ht hasks => exact ⟨h.pop ht hasks, rfl, .inr ⟨rfl, rfl⟩⟩
  | access hs hidle hcreated => exact ⟨h.access hs hidle hcreated, rfl, .inr ⟨rfl, rfl⟩⟩
  | pushed hs hpool hm hstack =>
      exact ⟨h.pushed hs hpool hm hstack, congrArg some hstack.symm, .inl hpool⟩
  | popped hs hpool hm =>
      obtain ⟨hinv, hpool, happ⟩ := h.popped hs hfew hpool hm
      exact ⟨hinv, happ, .inl hpool⟩
  | empty hs hpool hm =>
      obtain ⟨hinv, hpool, happ⟩ := h.empty hs hpool hm
      exact ⟨hinv, happ, .inl hpool⟩

end Composed.Inv

/-! ## Calls that are alone -/

section Alone
variable {C : Config} {s s' : State ι} {t : ι} {st : StackId} {value : Nat} {m m' : Stack.State ι}
  {e : Event ι} {p q : Stack.Pc} {f : Composed ι}

/-- A step of `t` in a call, before that is through.  No other thread is in one. -/
def Calling (C : Config) (s : State ι) (t : ι) (m m' : Stack.State ι) : Prop :=
  Composed.Step C ⟨s, m⟩ (.tau, .tau) ⟨s, m'⟩ ∧
    ∀ u ≠ t, m.pc u = .idle ∧ m'.pc u = .idle

theorem idle_update (hm : ∀ u ≠ t, m.pc u = .idle) (u : ι) (hu : u ≠ t) :
    Function.update m.pc t p u = .idle := (Function.update_of_ne hu ..).trans (hm u hu)

theorem idle_stays (ht : m.pc t = q) (hq : q ≠ .idle) (u : ι) (hu : m.pc u = .idle) :
    Function.update m.pc t p u = .idle := by
  refine (Function.update_of_ne (fun heq => hq ?_) ..).trans hu
  rw [← ht, ← heq, hu]

/-- An access of `t`. -/
theorem calling (hs : Stack.Step m .tau m') (ht : m.pc t = q) (hq : q ≠ .idle)
    (hm : ∀ u ≠ t, m.pc u = .idle) (hpc : m'.pc = Function.update m.pc t p)
    (hcreated : m'.created = m.created) : Calling C s t m m' :=
  ⟨.access hs (fun u hu => hpc ▸ idle_stays ht hq u hu) hcreated,
    fun u hu => ⟨hm u hu, hpc ▸ idle_update hm u hu⟩⟩

theorem calling_inv (h : Composed.Inv C ⟨s, m⟩)
    (hcalling : Relation.ReflTransGen (Calling C s t) m m') : Composed.Inv C ⟨s, m'⟩ := by
  induction hcalling with
  | refl => exact h
  | tail _ hab ih => exact (ih.step hab.1 trivial).1

/-- A push runs from its start up to its CAS, and this succeeds. -/
theorem push_alone (hm : ∀ u, m.pc u = .idle) (hasks : Asks C s t (.push st value))
    (hs : Step C s e s') (hmoves : Moves t s s')
    (hstack : s'.stack = Function.update s.stack st (nextVersion value :: s.stack st)) :
    ∃ m₁ m', Relation.ReflTransGen (Calling C s t) m m₁ ∧
      Composed.Step C ⟨s, m₁⟩ (e, .pushed t st (nextVersion value)) ⟨s', m'⟩ ∧
      (∀ u ≠ t, m₁.pc u = .idle) ∧ ∀ u, m'.pc u = .idle := by
  have hothers : ∀ u ≠ t, m.pc u = .idle := fun u _ => hm u
  have h₁ : Calling C s t m (startPush t st value m) :=
    ⟨.push t (hm t) hasks, fun u hu => ⟨hm u, idle_update hothers u hu⟩⟩
  have ht₁ : (startPush t st value m).pc t = .pushLoad st (nextVersion value) :=
    Function.update_self ..
  have h₂ := calling (C := C) (s := s) (.pushLoad t ht₁) ht₁ (by simp)
    (fun u hu => (h₁.2 u hu).2) rfl rfl
  have ht₂ := Function.update_self t (Stack.Pc.pushWrite st (nextVersion value) (m.head st))
    (startPush t st value m).pc
  have h₃ := calling (C := C) (s := s) (.pushWrite t ht₂) ht₂ (by simp)
    (fun u hu => (h₂.2 u hu).2) rfl rfl
  have ht₃ := Function.update_self t (Stack.Pc.pushCas st (nextVersion value) (m.head st))
    ((startPush t st value m).goto t (.pushWrite st (nextVersion value) (m.head st))).pc
  refine ⟨_, _, .tail (.tail (.single h₁) h₂) h₃, .pushed (.pushCas t ht₃ rfl) hs hmoves hstack,
    fun u hu => (h₃.2 u hu).2, fun u => ?_⟩
  rcases eq_or_ne u t with rfl | hu
  · exact Function.update_self ..
  · exact (Function.update_of_ne hu ..).trans (h₃.2 u hu).2

/-- A pop that starts in a state of the stacks runs up to its CAS, and this succeeds; if the stack
is empty, up to its load. -/
theorem pop_alone (hm : ∀ u, m.pc u = .idle) (hshared : Stack.Inv m s.stack)
    (hasks : Asks C s t (.pop st)) (hs : Step C s e s') (hmoves : Moves t s s') :
    ∃ m₁ se m', Relation.ReflTransGen (Calling C s t) m m₁ ∧
      Composed.Step C ⟨s, m₁⟩ (e, se) ⟨s', m'⟩ ∧ Stack.FewPushes m₁ se ∧
      (∀ u ≠ t, m₁.pc u = .idle) ∧ ∀ u, m'.pc u = .idle := by
  have hothers : ∀ u ≠ t, m.pc u = .idle := fun u _ => hm u
  have h₁ : Calling C s t m (m.goto t (.popLoad st)) :=
    ⟨.pop t (hm t) hasks, fun u hu => ⟨hm u, idle_update hothers u hu⟩⟩
  have ht₁ : (m.goto t (.popLoad st)).pc t = .popLoad st := Function.update_self ..
  have hput := Composed.Inv.put_self s st
  cases hl : s.stack st with
  | nil =>
      have hhead : m.head st = 0 := (hshared.chain st).eq_nil_iff.mp hl
      rw [hl] at hput
      refine ⟨_, _, _, .single h₁, .empty (.popEmpty t ht₁ hhead) (hput.symm ▸ hs) hmoves, trivial,
        fun u hu => (h₁.2 u hu).2, fun u => ?_⟩
      rcases eq_or_ne u t with rfl | hu
      · exact Function.update_self ..
      · exact (Function.update_of_ne hu ..).trans (h₁.2 u hu).2
  | cons v l =>
      have hhead : m.head st ≠ 0 := fun h0 => by
        rw [(hshared.chain st).eq_nil_iff.mpr h0] at hl
        cases hl
      have hv : m.head st = v := by
        have hchain := hshared.chain st
        rw [hl] at hchain
        exact hchain.of_cons.1
      rw [hl] at hput
      have h₂ := calling (C := C) (s := s) (.popLoad t ht₁ hhead) ht₁ (by simp)
        (fun u hu => (h₁.2 u hu).2) rfl rfl
      have ht₂ := Function.update_self t
        (Stack.Pc.popNext st (m.head st) (m.pushes (node (m.head st))))
        (m.goto t (.popLoad st)).pc
      have h₃ := calling (C := C) (s := s) (.popNext t ht₂) ht₂ (by simp)
        (fun u hu => (h₂.2 u hu).2) rfl rfl
      have ht₃ := Function.update_self t
        (Stack.Pc.popCas st (m.head st) (m.next (node (m.head st))) (m.pushes (node (m.head st))))
        ((m.goto t (.popLoad st)).goto t
          (.popNext st (m.head st) (m.pushes (node (m.head st))))).pc
      have hgoes : Step C (s.put st (m.head st :: (s.stack st).tail)) e s' := by
        rw [hv, hl, List.tail_cons, hput]
        exact hs
      refine ⟨_, _, _, .tail (.tail (.single h₁) h₂) h₃, .popped (.popCas t ht₃ rfl) hgoes hmoves,
        fun st' p next seen hp => ?_, fun u hu => (h₃.2 u hu).2, fun u => ?_⟩
      · cases ht₃.symm.trans hp
        exact Nat.lt_add_of_pos_right (by decide)
      · rcases eq_or_ne u t with rfl | hu
        · exact Function.update_self ..
        · exact (Function.update_of_ne hu ..).trans (h₃.2 u hu).2

/-- **A step of the pool over atomic stacks is one over those that are not**, after the accesses of
its call, if no call is in progress. -/
theorem Composed.Inv.alone (h : Composed.Inv C f) (hm : ∀ u, f.shared.pc u = .idle)
    (hs : Pool.Step C f.pool e s') (hmoves : Moves t f.pool s') :
    ∃ m₁ se m', Relation.ReflTransGen (Calling C f.pool t) f.shared m₁ ∧
      Composed.Step C ⟨f.pool, m₁⟩ (e, se) ⟨s', m'⟩ ∧ Stack.FewPushes m₁ se ∧
      (∀ u ≠ t, m₁.pc u = .idle) ∧ ∀ u, m'.pc u = .idle := by
  obtain ⟨-, -, heff⟩ := hs.effect_of hmoves
  cases heff with
  | own hpop hstack hgroups _ =>
      exact ⟨_, _, _, .refl, .own t (hm t) hs hmoves hpop hstack hgroups, trivial, fun u _ => hm u,
        hm⟩
  | acquire _ _ hgroups _ _ _ =>
      exact ⟨_, _, _, .refl, .acquire t (hm t) hs hmoves hgroups, trivial, fun u _ => hm u, hm⟩
  | push hasks hstack _ _ =>
      obtain ⟨m₁, m', hcalling, hstep, hothers, hidle⟩ := push_alone hm hasks hs hmoves hstack
      exact ⟨m₁, _, m', hcalling, hstep, trivial, hothers, hidle⟩
  | pop hasks _ _ _ _ => exact pop_alone hm h.shared hasks hs hmoves

end Alone

/-! ## Every run -/

section Runs
variable {C : Config} {s : State ι} {t : ι} {st : StackId} {value : Nat} {f : Composed ι}
  {es : List (Event ι × Stack.Event ι)}

/-- What a thread does when its push is through. -/
theorem Asks.push_step (h : Asks C s t (.push st value)) : ∃ e s', Step C s e s' ∧ Moves t s s' ∧
    s'.stack = Function.update s.stack st (nextVersion value :: s.stack st) := by
  cases h with
  | empty ht hptr hg =>
      exact ⟨_, _, .acquireEmpty t ht hptr hg, by
        simp [Moves, ht], stack_put s .globalFreeObjectGroupStack _⟩
  | loaded ht hptr hg hpos =>
      exact ⟨_, _, .exitLoaded t ht hptr hg hpos, by
        simp [Moves, ht], stack_put s .globalObjectGroupStack _⟩
  | full ht hptr hg hlen =>
      exact ⟨_, _, .releaseFull t ht hptr hg hlen, by
        simp [Moves, ht], stack_put s .globalObjectGroupStack _⟩
  | freePush ht hi =>
      exact ⟨_, _, .freePush t ht hi, by simp [Moves, ht],
      stack_put s .globalFreeObjectGroupStack _⟩

/-- What a thread does when its pop is through, whatever that returned. -/
theorem Asks.pop_step (h : Asks C s t (.pop st)) (l : List Nat) :
    ∃ e s', Step C (s.put st l) e s' ∧ Moves t s s' := by
  obtain ⟨id, rest, hpop⟩ : ∃ id rest, Pool.pop l = (id, rest) := ⟨_, _, rfl⟩
  rcases Nat.eq_zero_or_pos id with rfl | hid
  · cases h with
    | acquirePop ht =>
        refine ⟨_, _, .acquirePopEmpty t ht hpop, ?_⟩
        cases C.kind <;> simp [Moves, ht]
    | freePop ht =>
        refine ⟨_, _, .freePopEmpty t ht hpop, ?_⟩
        simp [Moves, ht]
  · cases h with
    | acquirePop ht =>
        refine ⟨_, _, .acquirePop t ht hpop (Nat.ne_of_gt hid), ?_⟩
        simp [Moves, ht]
    | @freePop k ht =>
        refine ⟨_, _, .freePop t ht hpop (Nat.ne_of_gt hid), ?_⟩
        cases k <;> simp [Moves, ht, Caller.resume]

/-- A call that can go through does, and the pool goes on. -/
structure Answered (C : Config) (f : Composed ι) : Prop where
  pushed : ∀ t st value p, f.shared.pc t = .pushCas st value p → f.shared.head st = p →
    ∃ e f', Composed.Step C f (e, .pushed t st value) f'
  popped : ∀ t st p next seen, f.shared.pc t = .popCas st p next seen → f.shared.head st = p →
    ∃ e f', Composed.Step C f (e, .popped t st p) f'
  empty : ∀ t st, f.shared.pc t = .popLoad st → f.shared.head st = 0 →
    ∃ e f', Composed.Step C f (e, .empty t st) f'

theorem Composed.Inv.answered (h : Composed.Inv C f) : Answered C f where
  pushed t st value p ht hhead := by
    have howns := h.owns t
    rw [ht] at howns
    obtain ⟨id, hvalue, hasks, -⟩ := howns
    obtain ⟨e, s', hs, hm, hstack⟩ := hasks.push_step
    rw [← hvalue] at hstack
    exact ⟨e, _, .pushed (.pushCas t ht hhead) hs hm hstack⟩
  popped t st p next seen ht hhead := by
    have howns := h.owns t
    rw [ht] at howns
    obtain ⟨e, s', hs, hm⟩ := howns.1.pop_step (p :: (f.pool.stack st).tail)
    exact ⟨e, _, .popped (.popCas t ht hhead) hs hm⟩
  empty t st ht hhead := by
    have howns := h.owns t
    rw [ht] at howns
    obtain ⟨e, s', hs, hm⟩ := howns.1.pop_step []
    exact ⟨e, _, .empty (.popEmpty t ht hhead) hs hm⟩

theorem Composed.Inv.init (h : (composed C ι).init f) : Composed.Inv C f ∧
    f.pool.stack = fun _ => [] := by
  obtain ⟨⟨hthread, hgroup, hglobal, hfree, hgroups, hslots, hacquired⟩, hshared⟩ := h
  have hstack : f.pool.stack = fun _ => [] := by
    funext st
    cases st with
    | globalObjectGroupStack => exact hglobal
    | globalFreeObjectGroupStack => exact hfree
  obtain ⟨σ, hσ, hinv⟩ := Stack.run_inv
    (System.Run.start hshared : ((Stack.stackSystem ι).when Stack.FewPushes).Run [] f.shared)
  cases hσ
  obtain ⟨-, hcreated, hheld, hpc, -⟩ := hshared
  refine ⟨⟨.init hthread hgroup hglobal hfree hgroups hslots hacquired, hstack ▸ hinv, ?_,
      fun t => ?_⟩, hstack⟩
  · rw [hcreated, hgroups]
  · rw [hheld, hpc]
    show [].Perm (f.pool.thread t).ids
    rw [hthread]
    exact .nil

theorem run_composed (h : ((composed C ι).when fun f e => Stack.FewPushes f.shared e.2).Run es f) :
    Composed.Inv C f ∧ Stack.replay (es.map Prod.snd) = some f.pool.stack ∧
      ∃ es', (poolSystem C ι).Run es' f.pool ∧
      es'.filter Event.shown = (es.map Prod.fst).filter Event.shown := by
  induction h with
  | start h₀ =>
      obtain ⟨hinv, hstack⟩ := Composed.Inv.init h₀
      exact ⟨hinv, congrArg some hstack.symm, [], .start h₀.1, rfl⟩
  | @next es f f' e _ hs ih =>
      obtain ⟨hinv, hreplay, es', hrun, hshown⟩ := ih
      obtain ⟨hinv', happ, hpool⟩ := hinv.step hs.1 hs.2
      rw [List.map_append, List.map_append]
      refine ⟨hinv', Stack.replay_snoc hreplay happ, ?_⟩
      rcases hpool with hstep | ⟨htau, hsame⟩
      · refine ⟨es' ++ [e.1], hrun.next hstep, ?_⟩
        rw [List.filter_append, List.filter_append, hshown]
        rfl
      · refine ⟨es', hsame ▸ hrun, ?_⟩
        rw [List.filter_append, List.map_singleton, htau, hshown]
        exact (List.append_nil _).symm

omit [DecidableEq ι] in
/-- What the callers see of a step after the accesses of its call. -/
theorem shown_calls (es : List (Event ι × Stack.Event ι)) (n : Nat) (e : Event ι × Stack.Event ι) :
    ((es ++ List.replicate n (Event.tau, Stack.Event.tau) ++ [e]).map Prod.fst).filter Event.shown =
      (es.map Prod.fst).filter Event.shown ++ [e.1].filter Event.shown := by
  rw [List.map_append, List.map_append, List.filter_append, List.filter_append, List.map_replicate,
    List.filter_replicate]
  simp [Event.shown]

/-- What the callers of a pool over atomic stacks can see, those of a pool over stacks that are not
can see too: the calls run one after the other. -/
theorem composed_of_pool {es : List (Event ι)} (h : (poolSystem C ι).Run es s) :
    ∃ es' f, ((composed C ι).when fun f e => Stack.FewPushes f.shared e.2).Run es' f ∧
      f.pool = s ∧ (∀ t, f.shared.pc t = .idle) ∧
      (es'.map Prod.fst).filter Event.shown = es.filter Event.shown := by
  induction h with
  | @start s h₀ =>
      exact ⟨[], ⟨s, fun _ => 0, fun _ => 0, [], fun _ => [], fun _ => .idle, fun _ => 0⟩,
        .start ⟨h₀, rfl, rfl, rfl, rfl, rfl⟩, rfl, fun _ => rfl, rfl⟩
  | @next es s s' e _ hs ih =>
      obtain ⟨es', f, hrun, rfl, hidle, hshown⟩ := ih
      obtain ⟨t, hmoves, -⟩ := hs.effect
      obtain ⟨m, se, m', hcalling, hstep, hfew, -, hidle'⟩ :=
        (run_composed hrun).1.alone hidle hs hmoves
      obtain ⟨n, hcalls⟩ := System.Run.steps (g := fun m => (⟨f.pool, m⟩ : Composed ι))
        (e := (Event.tau, Stack.Event.tau)) hrun hcalling fun _ _ hab => ⟨hab.1, trivial⟩
      refine ⟨_, _, hcalls.next ⟨hstep, hfew⟩, rfl, hidle', ?_⟩
      rw [shown_calls, hshown, List.filter_append]

/-- **A pool over stacks that are not atomic is a pool over atomic ones.**  In every run of the
threads of a pool in which the loads, writes and CASes of their pushes and pops interleave, with
fewer than 2^32 pushes of a node between the load and the CAS of a pop: the lists of the pool are
what is in the stacks, where the history of the stacks leads; the callers see a run of the pool with
atomic stacks that ends in the same state, so the objects and the groups are still partitioned and
no `assert` fails; and a call whose CAS can succeed is one the pool goes on after. -/
theorem pool_composed (h : ((composed C ι).when fun f e => Stack.FewPushes f.shared e.2).Run es f) :
    (∃ es', (poolSystem C ι).Run es' f.pool ∧
      es'.filter Event.shown = (es.map Prod.fst).filter Event.shown) ∧
    Stack.replay (es.map Prod.snd) = some f.pool.stack ∧
    (∀ st, Chain (fun w => f.shared.next (node w)) 0 (f.shared.head st) (f.pool.stack st)) ∧
    Placed (slotsAt C f.pool) (· ∈ f.pool.slots) ∧ Placed (groupsAt f.pool) (· ∈ f.pool.groups) ∧
    (∀ t, (f.pool.thread t).pc ≠ .failed) ∧ Answered C f := by
  obtain ⟨hinv, hreplay, hrun⟩ := run_composed h
  exact ⟨hrun, hreplay, hinv.shared.chain, hinv.pool.slots, hinv.pool.groups,
      fun t ht => hinv.pool.ok ht,
    hinv.answered⟩

/-- Two threads of an `ObjectPool`: a full group is pushed by one, and popped by the other. -/
theorem pool_composed_recycled : ∃ (es : List (Event Bool × Stack.Event Bool)) (f : Composed Bool),
    ((composed single Bool).when fun f e => Stack.FewPushes f.shared e.2).Run es f ∧
    (es.map Prod.fst).filter Event.shown = [.acquired true 7, .acquired true 8, .released true 7,
      .released true 8, .acquired false 7] ∧
    f.pool.group 1024 = some [8] ∧ Placed (slotsAt single f.pool) (· ∈ f.pool.slots) := by
  obtain ⟨_, _, hrun, hshown, -, hgroup⟩ := run_recycled
  obtain ⟨es, f, hcomposed, rfl, -, hsame⟩ := composed_of_pool hrun
  exact ⟨es, f, hcomposed, hsame.trans hshown, hgroup, (pool_composed hcomposed).2.2.2.1⟩

end Runs

end PBase.Pool
