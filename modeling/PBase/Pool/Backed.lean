/-
# `PBase.Pool.Backed` — the pools over the arenas

`PBase.Pool.Model` takes a block of an arena for one step with a fresh base.  Here the accesses of
`add_block` interleave with everything else, in two arenas: `ObjectArena<T>`, which the objects of
an `ArenaObjectPool` come from, and `ObjectArena<ObjectGroup>`.

    pool     ──── acquire(&id) ┐                                       ┌ fill the group ────
    arena                      └ fetch_add, fetch_sub, add_group, … ──┘

The lists `slots` and `groups` of the pool are a history of what the arenas returned.  So what the
callers hold are not only different ids: `find` takes them to different objects, for good
(`pool_backed`).
-/
import PBase.Arena.Address
import PBase.Pool.Objects

namespace PBase.Pool

open PBase.Lib
open PBase.Arena (N N_eq arena returns)

variable {ι : Type} [DecidableEq ι]

structure Backed (ι : Type) where
  pool : Composed ι
  /-- `ObjectArena<T>` -/
  objects : Arena.State ι
  /-- `ObjectArena<ObjectGroup>` -/
  groups : Arena.State ι

def State.gotBlock (s : State ι) (t : ι) (base : Nat) : State ι :=
  { s with
    slots := block base ++ s.slots
    thread := Function.update s.thread t { s.thread t with pc := .acquireFill base } }

def State.gotGroups (s : State ι) (t : ι) (k : Caller) (base : Nat) : State ι :=
  { s with
    groups := block base ++ s.groups
    thread := Function.update s.thread t { s.thread t with pc := .freeAssign k base } }

/-- An access of `t` to an arena. -/
structure Access (t : ι) (a : Arena.State ι) (e : Arena.Event) (a' : Arena.State ι) : Prop where
  step : Arena.Step a e a'
  others : ∀ u, u ≠ t → a'.pc u = a.pc u

inductive Backed.Step (C : Config) (f : Backed ι) : Event ι × Stack.Event ι → Backed ι → Prop
  /-- A step that is on no arena. -/
  | pool {e : Event ι × Stack.Event ι} {p' : Composed ι} : Composed.Step C f.pool e p' →
      p'.pool.groups = f.pool.pool.groups →
      (C.kind = .arenaObjectPool → p'.pool.slots = f.pool.pool.slots) →
      Step C f e { f with pool := p' }
  | objects (t : ι) {e : Arena.Event} {a' : Arena.State ι} :
      (f.pool.pool.thread t).pc = .acquireBlock →
      Access t f.objects e a' → (∀ r, e ≠ .acquired r) →
      Step C f (.tau, .tau) { f with objects := a' }
  | groups (t : ι) {k : Caller} {e : Arena.Event} {a' : Arena.State ι} :
      (f.pool.pool.thread t).pc = .freeArena k →
      Access t f.groups e a' → (∀ r, e ≠ .acquired r) →
      Step C f (.tau, .tau) { f with groups := a' }
  | acquireBlock (t : ι) {r : Arena.Ret} {a' : Arena.State ι} :
      (f.pool.pool.thread t).pc = .acquireBlock →
      f.pool.shared.pc t = .idle → Access t f.objects (.acquired r) a' →
      Step C f (.tau, .tau)
      { f with pool := { f.pool with pool := f.pool.pool.gotBlock t r.base }, objects := a' }
  | freeArena (t : ι) {k : Caller} {r : Arena.Ret} {a' : Arena.State ι} :
      (f.pool.pool.thread t).pc = .freeArena k →
      f.pool.shared.pc t = .idle → Access t f.groups (.acquired r) a' →
      Step C f (.tau, .tau)
        { f with
          pool := ⟨f.pool.pool.gotGroups t k r.base, create t (block r.base) f.pool.shared⟩
          groups := a' }

/-- A pool over two empty stacks and two arenas. -/
def backed (C : Config) (ι : Type) [DecidableEq ι] :
    System (Backed ι) (Event ι × Stack.Event ι) where
  init f := (composed C ι).init f.pool ∧ (arena ι).init f.objects ∧ (arena ι).init f.groups
  step := Backed.Step C

/-- An arena before the first call. -/
def unused (ι : Type) : Arena.State ι := ⟨Arena.GlobalGroup.new, fun _ => .idle⟩

/-- A pool before the first call. -/
def Backed.initial (ι : Type) : Backed ι :=
  { pool := ⟨⟨fun _ => ⟨none, 0, .idle⟩, fun _ => none, [], [], [], [], [], fun _ => .exit⟩,
      ⟨fun _ => 0, fun _ => 0, [], fun _ => [], fun _ => .idle, fun _ => 0⟩⟩,
    objects := unused ι, groups := unused ι }

theorem init_initial (C : Config) (ι : Type) [DecidableEq ι] : (backed C ι).init (.initial ι) :=
  ⟨⟨⟨rfl, rfl, rfl, rfl, rfl, rfl, rfl⟩, rfl, rfl, rfl, rfl, rfl⟩, rfl, rfl⟩

section
variable [Fintype ι] {C : Config} {a a' : Arena.State ι} {t : ι} {ids : List Nat} {f f' : Backed ι}
  {q : Objects}
  {es : List (Event ι × Stack.Event ι)}

/-! ## What an arena has given out -/

def Backs (a : Arena.State ι) (ids : List Nat) : Prop :=
  ∃ es, (arena ι).Run es a ∧ ∀ x, x ∈ ids ↔ ∃ r ∈ returns es, x ∈ block r.base

theorem item_of_block {base x : Nat} (hx : x ∈ block base) : ∃ k, k < N ∧ x = base + k := by
  obtain ⟨hge, hlt⟩ := mem_block.mp hx
  exact ⟨x - base, by omega, by omega⟩

omit [Fintype ι] in
theorem Backs.init (h : (arena ι).init a) : Backs a [] := by
  refine ⟨[], .start h, fun x => ⟨fun hx => absurd hx List.not_mem_nil, ?_⟩⟩
  rintro ⟨r, hr, -⟩
  cases hr

omit [Fintype ι] in
theorem Backs.access {e : Arena.Event} (h : Backs a ids) (hs : Access t a e a')
    (he : ∀ r, e ≠ .acquired r) :
    Backs a' ids := by
  obtain ⟨es, hrun, hids⟩ := h
  have hret : returns (es ++ [e]) = returns es := by
    rw [Arena.returns_append]
    cases e with
    | acquired r => exact absurd rfl (he r)
    | tau | refused => exact List.append_nil _
  exact ⟨es ++ [e], hrun.next hs.step, hret ▸ hids⟩

/-- A block that an arena returns is fresh. -/
theorem Backs.acquired {r : Arena.Ret} (h : Backs a ids) (hs : Access t a (.acquired r) a') :
    Fresh r.base ids ∧ Backs a' (block r.base ++ ids) := by
  obtain ⟨es, hrun, hids⟩ := h
  have hrun' := hrun.next hs.step
  have hret : returns (es ++ [.acquired r]) = returns es ++ [r] := Arena.returns_append _ _
  have hmem : r ∈ returns (es ++ [.acquired r]) := hret ▸ List.mem_append_right _ List.mem_cons_self
  have hold : ∀ {r'}, r' ∈ returns es → r' ∈ returns (es ++ [.acquired r]) := fun hr' =>
    hret ▸ List.mem_append_left _ hr'
  obtain ⟨hpos, hlt⟩ := Arena.base_bounds hrun' hmem
  refine ⟨⟨hpos, hlt, fun x hx hused => ?_⟩, _, hrun', fun x => ?_⟩
  · obtain ⟨r', hr', hx'⟩ := (hids x).mp hused
    have hblocks := (Arena.run_blocks hrun').nodup
    rw [hret, List.map_append] at hblocks
    -- `x` would be an id of two blocks
    obtain ⟨k, hk, rfl⟩ := item_of_block hx
    obtain ⟨k', hk', heq⟩ := item_of_block hx'
    have hfind := Arena.find_returned hrun' hmem hk
    rw [heq, Arena.find_returned hrun' (hold hr') hk'] at hfind
    have hsame : r'.block = r.block := (Prod.ext_iff.mp (Option.some.inj hfind)).1
    exact List.disjoint_of_nodup_append hblocks (List.mem_map_of_mem hr')
        (hsame ▸ List.mem_singleton_self _)
  · rw [List.mem_append, hids, hret]
    constructor
    · rintro (hx | ⟨r', hr', hx⟩)
      · exact ⟨r, List.mem_append_right _ List.mem_cons_self, hx⟩
      · exact ⟨r', List.mem_append_left _ hr', hx⟩
    · rintro ⟨r', hr', hx⟩
      rcases List.mem_append.mp hr' with hr' | hr'
      · exact .inr ⟨r', hr', hx⟩
      · exact .inl (List.mem_singleton.mp hr' ▸ hx)

/-- Every id resolves, and two that differ in more than the version do so to different objects. -/
structure Resolves (a : Arena.State ι) (ids : List Nat) : Prop where
  found : ∀ id, low id ∈ ids → ∃ block k, k < N ∧ a.g.find id = some (block, k)
  apart : ∀ id id', low id ∈ ids → low id' ∈ ids → a.g.find id = a.g.find id' → low id = low id'

omit [DecidableEq ι] [Fintype ι] in
theorem Resolves.mono {ids' : List Nat} (h : Resolves a ids) (hsub : ∀ x ∈ ids', x ∈ ids) :
    Resolves a ids' :=
  ⟨fun id hid => h.found id (hsub _ hid),
    fun id id' hid hid' => h.apart id id' (hsub _ hid) (hsub _ hid')⟩

theorem Backs.resolves (h : Backs a ids) : Resolves a ids := by
  obtain ⟨es, hrun, hids⟩ := h
  have hitem : ∀ {x}, x ∈ ids → ∃ r ∈ returns es, ∃ k, k < N ∧ x = r.base + k := by
    intro x hx
    obtain ⟨r, hr, hx⟩ := (hids x).mp hx
    exact ⟨r, hr, item_of_block hx⟩
  refine ⟨fun id hid => ?_, fun id id' hid hid' heq => ?_⟩
  · obtain ⟨r, hr, k, hk, hx⟩ := hitem hid
    rw [Arena.GlobalGroup.find_low, hx]
    exact ⟨r.block, k, hk, Arena.find_returned hrun hr hk⟩
  · obtain ⟨r, hr, k, hk, hx⟩ := hitem hid
    obtain ⟨r', hr', k', hk', hx'⟩ := hitem hid'
    rw [Arena.GlobalGroup.find_low, Arena.GlobalGroup.find_low _ id', hx, hx'] at heq
    rw [hx, hx']
    exact Arena.id_unique hrun hr hr' hk hk' heq

/-! ## Every run -/

structure Backed.Inv (C : Config) (f : Backed ι) (q : Objects) : Prop where
  pool : Composed.Inv C f.pool
  covers : Covers C f.pool.pool q
  objects : C.kind = .arenaObjectPool → Backs f.objects f.pool.pool.slots
  groups : Backs f.groups f.pool.pool.groups

namespace Backed.Inv

theorem step {e : Event ι × Stack.Event ι} (h : Inv C f q) (hs : Backed.Step C f e f')
    (hfew : Stack.FewPushes f.pool.shared e.2) :
    ∃ q', (Pool.objects C ι).step q e.1 q' ∧ Inv C f' q' := by
  cases hs with
  | pool hs hgroups hslots =>
      obtain ⟨hpool, q', hq, hcovers⟩ := h.covers.composed_step h.pool hs hfew
      exact ⟨q', hq, hpool, hcovers, fun hk => (hslots hk).symm ▸ h.objects hk,
          hgroups.symm ▸ h.groups⟩
  | objects t ht ha he =>
      exact ⟨q, rfl, h.pool, h.covers, fun hk => (h.objects hk).access ha he, h.groups⟩
  | groups t ht ha he => exact ⟨q, rfl, h.pool, h.covers, h.objects, h.groups.access ha he⟩
  | @acquireBlock t r a' ht hidle ha =>
      have hkind : C.kind = .arenaObjectPool ∧ _ := h.pool.pool.ok ht
      obtain ⟨hfresh, hbacks⟩ := (h.objects hkind.1).acquired ha
      have hstep : Composed.Step C f.pool (.tau,
          .tau) { f.pool with pool := f.pool.pool.gotBlock t r.base } :=
        .own t hidle (.acquireBlock t ht hfresh) (by simp [Moves, State.gotBlock, ht])
          (not_pop ht rfl) rfl rfl
      obtain ⟨hpool, q', hq, hcovers⟩ := h.covers.composed_step h.pool hstep hfew
      exact ⟨q', hq, hpool, hcovers, fun _ => hbacks, h.groups⟩
  | @freeArena t k r a' ht hidle ha =>
      obtain ⟨hfresh, hbacks⟩ := h.groups.acquired ha
      have hstep : Composed.Step C f.pool (.tau, .tau)
          ⟨f.pool.pool.gotGroups t k r.base, create t (block r.base) f.pool.shared⟩ :=
        .acquire t hidle (.freeArena t ht hfresh) (by simp [Moves, State.gotGroups, ht]) rfl
      obtain ⟨hpool, q', hq, hcovers⟩ := h.covers.composed_step h.pool hstep hfew
      exact ⟨q', hq, hpool, hcovers, h.objects, hbacks⟩

omit [Fintype ι] in
theorem init (h : (backed C ι).init f) : Inv C f ⟨[], [], []⟩ := by
  obtain ⟨hpool, hobjects, hgroups⟩ := h
  obtain ⟨-, -, -, -, hgroupIds, hslots, -⟩ := id hpool.1
  exact ⟨(Composed.Inv.init hpool).1, .init hpool.1, fun _ => hslots ▸ .init hobjects,
      hgroupIds ▸ .init hgroups⟩

end Backed.Inv

theorem run_backed (h : ((backed C ι).when fun f e => Stack.FewPushes f.pool.shared e.2).Run es f) :
    ∃ q, (objects C ι).Run (es.map Prod.fst) q ∧ Backed.Inv C f q := by
  induction h with
  | start h₀ => exact ⟨_, .start rfl, .init h₀⟩
  | next _ hs ih =>
      obtain ⟨q, hrun, hinv⟩ := ih
      obtain ⟨q', hq, hinv'⟩ := hinv.step hs.1 hs.2
      rw [List.map_append]
      exact ⟨q', hrun.next hq, hinv'⟩

/-! ### A thread that is alone -/

section Alone
variable {enters : Prop} {p p₀ : Backed ι} {s s' : State ι} {shown : List (Event ι)}

/-- Steps over the arenas in which the other threads stay where they are.  The thread `t` is in a
call, or may start one. -/
def inside (C : Config) (t : ι) (enters : Prop) (p₀ : Backed ι) :
    System (Backed ι) (Event ι × Stack.Event ι) where
  init := (· = p₀)
  step p e p' := Backed.Step C p e p' ∧ Stack.FewPushes p.pool.shared e.2 ∧
    (∀ u ≠ t, p'.pool.pool.thread u = p.pool.pool.thread u ∧
      p'.pool.shared.pc u = p.pool.shared.pc u) ∧
    (enters ∨ (p.pool.pool.thread t).pc ≠ .idle ∧ (p.pool.pool.thread t).pc ≠ .dead)

/-- With such steps `t` comes to `p`, and no call of a stack is in progress there. -/
structure Reached (C : Config) (t : ι) (enters : Prop) (p₀ : Backed ι) (shown : List (Event ι))
    (p : Backed ι) : Prop where
  run : ∃ es, (inside C t enters p₀).Run es p ∧ (es.map Prod.fst).filter Event.shown = shown
  inv : Composed.Inv C p.pool
  idle : ∀ u, p.pool.shared.pc u = .idle

omit [Fintype ι] in
/-- The stacks are empty: a thread without a group goes for a block of groups. -/
theorem solo_empty (hkind : C.kind = .arenaObjectPool) (henters : enters)
    (ht : s.thread t = ⟨none, 0, .idle⟩) (hglobal : s.global = []) (hfree : s.free = []) :
    (solo C t enters s).Run [.tau, .tau, .tau]
      { s with thread := Function.update s.thread t ⟨none, 0, .freeArena .acquire⟩ } := by
  have null := (System.Run.start rfl : (solo C t enters s).Run [] s).next
    ⟨.acquireNull t (by rw [ht]) (by rw [ht]), by simp [Moves, State.goto, ht], rfl, rfl,
      .inl henters⟩
  have noGroup := null.next ⟨.acquirePopEmpty t (by simp [State.goto])
    (show pop s.global = (0, []) by rw [hglobal]; rfl), by simp [Moves, State.goto, hkind], rfl,
    rfl, .inl henters⟩
  have noFree := noGroup.next ⟨.freePopEmpty (k := .acquire) t (by simp [hkind])
    (show pop s.free = (0, []) by rw [hfree]; rfl), by simp [Moves, hkind], rfl, rfl,
    .inl henters⟩
  simpa [State.goto, hkind, ht, hglobal, hfree] using noFree

/-- An access of `t` that does not end its call. -/
def Accessing (t : ι) (a a' : Arena.State ι) : Prop :=
  ∃ e, Access t a e a' ∧ ∀ r, e ≠ .acquired r

theorem pos_N : 0 < N := by decide

omit [Fintype ι] in
/-- The first block of an arena. -/
theorem first_block (t : ι) : ∃ a r a', Relation.ReflTransGen (Accessing t) (unused ι) a ∧
    Access t a (.acquired r) a' ∧ r.base = 1048576 := by
  have step : ∀ {a a' : Arena.State ι} {p : Arena.Pc}, Arena.Step a .tau a' →
      a'.pc = Function.update a.pc t p → Accessing t a a' := fun hs hpc =>
    ⟨.tau, ⟨hs, fun u hu => hpc ▸ Function.update_of_ne hu ..⟩, fun r h => by cases h⟩
  have called : Accessing t (unused ι) _ := step (.call t rfl) rfl
  have sized := (Relation.ReflTransGen.single called).tail
    (step (.loadSize t (Function.update_self ..)) rfl)
  have located := sized.tail (step (.loadGroup t (Function.update_self ..) rfl) rfl)
  have counted := located.tail (step (.fetchAdd t (Function.update_self ..) pos_N) rfl)
  exact ⟨_, _, _, counted,
    ⟨.store t (Function.update_self ..), fun u hu => Function.update_of_ne hu ..⟩,
    show Arena.baseId 1 0 = 1048576 by decide⟩

theorem first_fresh : Fresh 1048576 [] := ⟨by decide, by decide, fun _ _ => List.not_mem_nil⟩

namespace Reached

omit [Fintype ι] in
/-- What a thread does over atomic stacks, it does over the arenas, as long as it needs no block. -/
theorem solo {es : List (Event ι)} (h : Reached C t enters p₀ shown p)
    (hsolo : (solo C t enters p.pool.pool).Run es s') :
    ∃ m, Reached C t enters p₀ (shown ++ es.filter Event.shown) { p with pool := ⟨s', m⟩ } := by
  induction hsolo with
  | start h₀ =>
      cases h₀
      exact ⟨p.pool.shared, (List.append_nil shown).symm ▸ h⟩
  | @next es s s' e _ hs ih =>
      obtain ⟨m, ⟨es', hrun, hshown⟩, hinv, hidle⟩ := ih
      obtain ⟨hs, hmoves, hgroups, hslots, hbusy⟩ := hs
      obtain ⟨hothers, -, -⟩ := hs.effect_of hmoves
      obtain ⟨m₁, se, m', hcalling, hstep, hfew, hm₁, hidle'⟩ := hinv.alone hidle hs hmoves
      obtain ⟨n, hcalls⟩ := System.Run.steps (g := fun m => ({ p with pool := ⟨s, m⟩ } : Backed ι))
        (e := (Event.tau, Stack.Event.tau)) hrun hcalling fun _ _ hab =>
          ⟨.pool hab.1 rfl fun _ => rfl, trivial,
            fun u hu => ⟨rfl, (hab.2 u hu).2.trans (hab.2 u hu).1.symm⟩, hbusy⟩
      refine ⟨m', ⟨_, hcalls.next ⟨.pool hstep hgroups fun _ => hslots, hfew,
        fun u hu => ⟨hothers u hu, (hidle' u).trans (hm₁ u hu).symm⟩, hbusy⟩, ?_⟩,
        ((calling_inv hinv hcalling).step hstep hfew).1, hidle'⟩
      rw [shown_calls, hshown, List.filter_append, List.append_assoc]

omit [Fintype ι] in
/-- The first block of groups. -/
theorem freeArena {k : Caller} (h : Reached C t enters p₀ shown p) (harena : p.groups = unused ι)
    (hgroups : p.pool.pool.groups = []) (ht : (p.pool.pool.thread t).pc = .freeArena k) :
    ∃ m a, Reached C t enters p₀ shown
      { p with pool := ⟨p.pool.pool.gotGroups t k 1048576, m⟩, groups := a } := by
  obtain ⟨⟨es, hrun, hshown⟩, hinv, hidle⟩ := h
  obtain ⟨a, r, a', hpath, hacc, hbase⟩ := first_block t
  rw [← harena] at hpath
  have hbusy : enters ∨ (p.pool.pool.thread t).pc ≠ .idle ∧ (p.pool.pool.thread t).pc ≠ .dead :=
    .inr (by simp [ht])
  obtain ⟨n, hlocated⟩ := System.Run.steps (g := fun a => ({ p with groups := a } : Backed ι))
    (e := (Event.tau, Stack.Event.tau)) hrun hpath fun a a' hab => by
      obtain ⟨e, hacc, hne⟩ := hab
      exact ⟨.groups t ht hacc hne, trivial, fun u _ => ⟨rfl, rfl⟩, hbusy⟩
  have hgot := hlocated.next ⟨.freeArena t ht (hidle t) hacc, trivial,
    fun u hu => ⟨Function.update_of_ne hu .., rfl⟩, hbusy⟩
  rw [hbase] at hgot
  refine ⟨_, a', ⟨_, hgot, ?_⟩, (hinv.acquire (hidle t)
    (.freeArena t ht (hgroups.symm ▸ first_fresh)) (by simp [Moves, ht]) rfl).1,
    hidle⟩
  rw [shown_calls, hshown]
  exact List.append_nil _

omit [Fintype ι] in
/-- The new groups go to the free stack, and the thread for a block of objects. -/
theorem grouped {base : Nat} (h : Reached C t enters p₀ shown p)
    (ht : (p.pool.pool.thread t).pc = .freeAssign .acquire base) :
    ∃ m pushedBy rest, Reached C t enters p₀ shown
      { p with
        pool := ⟨{ p.pool.pool with
          free := bump 1 (base + 1023) :: rest
          pushedBy := pushedBy
          thread := Function.update p.pool.pool.thread t ⟨some (low base), base, .acquireBlock⟩ },
          m⟩ } := by
  have assigned := (System.Run.start rfl : (Pool.solo C t enters p.pool.pool).Run [] _).next
    ⟨.freeAssign t ht, by simp [Moves, ht], rfl, rfl, .inr (by simp [ht])⟩
  obtain ⟨pushedBy, rest, pushed⟩ := solo_newGroups assigned
    (show _ = Pc.freePush .acquire base 1 by simp)
  obtain ⟨m, h'⟩ := h.solo pushed
  refine ⟨m, pushedBy, rest, ?_⟩
  simpa [Caller.resume, Event.shown, List.filter_replicate] using h'

omit [Fintype ι] in
/-- The first block of objects. -/
theorem acquireBlock (h : Reached C t enters p₀ shown p)
    (harena : p.objects = unused ι) (hslots : p.pool.pool.slots = [])
    (ht : (p.pool.pool.thread t).pc = .acquireBlock) :
    ∃ a, Reached C t enters p₀ shown
      { p with pool := { p.pool with pool := p.pool.pool.gotBlock t 1048576 }, objects := a } := by
  obtain ⟨⟨es, hrun, hshown⟩, hinv, hidle⟩ := h
  obtain ⟨a, r, a', hpath, hacc, hbase⟩ := first_block t
  rw [← harena] at hpath
  have hbusy : enters ∨ (p.pool.pool.thread t).pc ≠ .idle ∧ (p.pool.pool.thread t).pc ≠ .dead :=
    .inr (by simp [ht])
  obtain ⟨n, hlocated⟩ := System.Run.steps (g := fun a => ({ p with objects := a } : Backed ι))
    (e := (Event.tau, Stack.Event.tau)) hrun hpath fun a a' hab => by
      obtain ⟨e, hacc, hne⟩ := hab
      exact ⟨.objects t ht hacc hne, trivial, fun u _ => ⟨rfl, rfl⟩, hbusy⟩
  have hgot := hlocated.next ⟨.acquireBlock t ht (hidle t) hacc, trivial,
    fun u hu => ⟨Function.update_of_ne hu .., rfl⟩, hbusy⟩
  rw [hbase] at hgot
  have hstep : Composed.Step C p.pool (.tau, .tau)
      { p.pool with pool := p.pool.pool.gotBlock t 1048576 } :=
    .own t (hidle t) (.acquireBlock t ht (hslots.symm ▸ first_fresh))
      (by simp [Moves, State.gotBlock, ht]) (not_pop ht rfl) rfl rfl
  refine ⟨a', ⟨_, hgot, ?_⟩, (hinv.step hstep trivial).1, hidle⟩
  rw [shown_calls, hshown]
  exact List.append_nil _

omit [Fintype ι] in
/-- The first `acquire` of an `ArenaObjectPool`, up to its return.  Both stacks are empty, so the
thread takes a block of groups, pushes all but one, and takes a block of objects. -/
theorem acquire (h₀ : (backed C ι).init p) (hkind : C.kind = .arenaObjectPool) (henters : enters) :
    ∃ p', Reached C t enters p [] p' ∧
      p'.pool.pool.thread = Function.update p.pool.pool.thread t
        ⟨some 1048576, 1048576, .acquireReturn 1048576⟩ ∧
      p'.pool.pool.group 1048576 = some (List.range' 1048577 1023) ∧
      p'.pool.pool.slots = block 1048576 ∧
      p'.pool.pool.global = [] ∧ p'.pool.pool.acquired = [] ∧
      ∃ rest, p'.pool.pool.free = bump 1 1049599 :: rest := by
  obtain ⟨⟨⟨hthread, hgroup, hglobal, hfree, hgroups, hslots, hacquired⟩, hshared⟩, hobjects,
    harena⟩ := id h₀
  have start : Reached C t enters p [] p :=
    ⟨⟨[], .start rfl, rfl⟩, (Composed.Inv.init h₀.1).1, fun u => by rw [hshared.2.2.2.1]⟩
  obtain ⟨m₁, empty⟩ := start.solo (solo_empty hkind henters (by rw [hthread]) hglobal hfree)
  obtain ⟨m₂, a, groups⟩ := empty.freeArena harena hgroups
    (show Thread.pc _ = .freeArena .acquire by simp)
  obtain ⟨m₃, pushedBy, rest, pushed⟩ := groups.grouped
    (show Thread.pc _ = .freeAssign .acquire 1048576 by simp [State.gotGroups])
  obtain ⟨b, objects⟩ := pushed.acquireBlock hobjects hslots
    (show Thread.pc _ = .acquireBlock by simp)
  have hlow : low 1048576 = 1048576 := by decide
  obtain ⟨m₄, filled⟩ := objects.solo ((System.Run.start rfl).next ⟨.acquireFill t
    (show Thread.pc _ = .acquireFill 1048576 by simp [State.gotBlock])
    (show Thread.ptr _ = some 1048576 by simp [State.gotBlock, hlow]),
    by simp [Moves, State.gotBlock], rfl, rfl, .inr (by simp [State.gotBlock])⟩)
  refine ⟨_, filled, ?_, ?_, ?_, hglobal, hacquired, rest, rfl⟩
  · simp [State.gotBlock, State.gotGroups, hlow]
  · simp [C.arena hkind, N_eq]
  · simp [State.gotBlock, State.gotGroups, hslots]

omit [Fintype ι] in
/-- The end of a `release` by a thread without a group: one is on the free stack. -/
theorem release {item id : Nat} {rest : List Nat} (h : Reached C t enters p₀ shown p)
    (ht : p.pool.pool.thread t = ⟨none, 0, .release item⟩) (hfree : p.pool.pool.free = id :: rest)
    (hid : id ≠ 0) :
    ∃ m, Reached C t enters p₀ shown
      { p with
        pool := ⟨{ p.pool.pool with
          free := rest
          group := Function.update p.pool.pool.group (low id) (some [item])
          thread := Function.update p.pool.pool.thread t ⟨some (low id), id, .idle⟩ }, m⟩ } := by
  have null := (System.Run.start rfl : (Pool.solo C t enters p.pool.pool).Run [] _).next
    ⟨.releaseNull t (show Thread.pc _ = .release item by rw [ht]) (by rw [ht]),
      by simp [Moves, State.goto, ht], rfl, rfl, .inr (by simp [ht])⟩
  have popped := null.next ⟨.freePop (k := .release item) t (by simp [State.goto])
    (show pop p.pool.pool.free = (id, rest) by rw [hfree]; rfl) hid,
    by simp [Moves, State.goto, Caller.resume], rfl, rfl, .inr (by simp [State.goto])⟩
  have filled := popped.next ⟨.releaseFill t
    (show Thread.pc _ = .releaseFill item by simp [Caller.resume])
    (show Thread.ptr _ = some (low id) by simp), by simp [Moves, Caller.resume], rfl, rfl,
    .inr (by simp [Caller.resume])⟩
  obtain ⟨m, h'⟩ := h.solo filled
  refine ⟨m, ?_⟩
  simpa [Event.shown, State.goto] using h'

omit [Fintype ι] in
/-- What a thread does alone is part of a run. -/
theorem run_backed {es : List (Event ι × Stack.Event ι)} (h : Reached C t enters p₀ shown p)
    (h₀ : ((backed C ι).when fun f e => Stack.FewPushes f.pool.shared e.2).Run es p₀) :
    ∃ es', ((backed C ι).when fun f e => Stack.FewPushes f.pool.shared e.2).Run (es ++ es') p ∧
      ((es ++ es').map Prod.fst).filter Event.shown =
        (es.map Prod.fst).filter Event.shown ++ shown := by
  obtain ⟨es', hrun, hshown⟩ := h.run
  refine ⟨es', h₀.append hrun (fun _ => id) fun _ _ _ hs => ⟨hs.1, hs.2.1⟩, ?_⟩
  rw [List.map_append, List.filter_append, hshown]

end Reached

end Alone

/-- An `ArenaObjectPool`. -/
def byId : Config := ⟨.arenaObjectPool, N, fun _ => rfl, pos_N⟩

/-- A thread acquires an object, for which it takes a block of groups and a block of objects,
releases it and exits, so its group is on the global stack. -/
theorem run_exited : ∃ (es : List (Event Bool × Stack.Event Bool)) (p : Backed Bool),
    ((backed byId Bool).when fun f e => Stack.FewPushes f.pool.shared e.2).Run es p ∧
    (es.map Prod.fst).filter Event.shown = [.acquired true 1048576, .released true 1048576,
      .exited true] ∧
    Composed.Inv byId p.pool ∧ (∀ u, p.pool.shared.pc u = .idle) ∧
    p.pool.pool.thread false = ⟨none, 0, .idle⟩ ∧ p.pool.pool.global = [bump 1 1048576] ∧
    p.pool.pool.group 1048576 = some (List.range' 1048577 1023 ++ [1048576]) ∧
    p.pool.pool.acquired = [] ∧ p.pool.pool.slots = block 1048576 := by
  obtain ⟨p, acquiring, hthread, hgroup, hslots, hglobal, hacquired, -⟩ :=
    Reached.acquire (t := true) (init_initial byId Bool) rfl (trivial : True)
  have ht : p.pool.pool.thread true = ⟨some 1048576, 1048576, .acquireReturn 1048576⟩ := by
    rw [hthread]
    exact Function.update_self ..
  have ht' : p.pool.pool.thread false = ⟨none, 0, .idle⟩ := by
    rw [hthread]
    exact Function.update_of_ne (by decide) ..
  have hslot : byId.slot 1048576 = 1048576 := by decide
  have exited := ((((System.Run.start rfl : (solo byId true True p.pool.pool).Run [] _).next
    ⟨.acquireReturn true (by rw [ht]), by simp [Moves, ht], rfl, rfl, .inl trivial⟩).next
    ⟨.release true (by simp) (show byId.slot 1048576 ∈ _ from List.mem_cons_self),
      by simp [Moves], rfl, rfl, .inl trivial⟩).next
    ⟨.releaseLocal true (show Thread.pc _ = .release 1048576 by simp)
      (show Thread.ptr _ = some 1048576 by simp [ht]) hgroup (show _ < N by simp [N_eq]),
      by simp [Moves], rfl, rfl, .inl trivial⟩).next
    ⟨.exitLoaded true (by simp) (show Thread.ptr _ = some 1048576 by simp [ht])
      (show State.group _ 1048576 = some (List.range' 1048577 1023 ++ [1048576]) by simp)
      (by simp), by simp [Moves], rfl, rfl, .inl trivial⟩
  obtain ⟨m, exiting⟩ := acquiring.solo exited
  obtain ⟨es, run, shown⟩ := exiting.run_backed (.start (init_initial byId Bool))
  refine ⟨_, _, run, shown, exiting.inv, exiting.idle, ?_, ?_, ?_, ?_, hslots⟩
  · simp [ht']
  · simp [ht, hglobal, push]
  · simp
  · simp [hslot, hacquired]

/-- **To its callers a pool is a heap of objects that are apart in memory.**  In every run of the
threads of a pool, down to the accesses of its stacks and of the arenas under it, with fewer than
2^32 pushes of a node between the load and the CAS of a pop: `acquire` returns an id that was
released and not given out since, or one of an object that was never given out before, with version
0; every object that was ever given out is held by the callers or free, and only one of the two,
under one id; and in an `ArenaObjectPool` `find` takes every such id, under any version, to an
object, and no two of them to the same.  So it is with the groups, and no `assert` of the pool
fails. -/
theorem pool_backed
    (h : ((backed C ι).when fun f e => Stack.FewPushes f.pool.shared e.2).Run es f) :
    (∃ q, (objects C ι).Run (es.map Prod.fst) q ∧ q.held = f.pool.pool.acquired ∧
      Placed (objectsAt C q) (· ∈ q.created) ∧ ∀ slot ∈ q.created, slot ∈ f.pool.pool.slots) ∧
    (C.kind = .arenaObjectPool → Resolves f.objects f.pool.pool.slots) ∧
    Resolves f.groups f.pool.pool.groups ∧ ∀ t, (f.pool.pool.thread t).pc ≠ .failed := by
  obtain ⟨q, hrun, hinv⟩ := run_backed h
  exact ⟨⟨q, hrun, hinv.covers.held, Objects.placed_run hrun, hinv.covers.created⟩,
      fun hk => (hinv.objects hk).resolves,
    hinv.groups.resolves, fun t ht => hinv.pool.pool.ok ht⟩

/-- Another thread pops the group, and gets the same object. -/
theorem pool_backed_recycled : ∃ (C : Config) (es : List (Event Bool × Stack.Event Bool))
    (f : Backed Bool),
    ((backed C Bool).when fun f e => Stack.FewPushes f.pool.shared e.2).Run es f ∧
    (es.map Prod.fst).filter Event.shown = [.acquired true 1048576, .released true 1048576,
      .exited true, .acquired false 1048576] ∧
    (∃ q, (objects C Bool).Run (es.map Prod.fst) q ∧ q.held = [1048576] ∧
      Placed (objectsAt C q) (· ∈ q.created)) ∧
    Resolves f.objects (block 1048576) := by
  obtain ⟨es₁, p, run₁, shown₁, inv, idle, ht, hglobal, hgroup, hacquired, hslots⟩ := run_exited
  have popped := ((((System.Run.start rfl : (solo byId false True p.pool.pool).Run [] _).next
    ⟨.acquireNull false (by rw [ht]) (by rw [ht]), by simp [Moves, State.goto, ht], rfl, rfl,
      .inl trivial⟩).next
    ⟨.acquirePop false (by simp [State.goto])
      (show pop p.pool.pool.global = (bump 1 1048576, []) by rw [hglobal]; rfl)
      (by decide), by simp [Moves, State.goto], rfl, rfl, .inl trivial⟩).next
    ⟨.acquireTake false (by simp) (show Thread.ptr _ = some 1048576 by simp; decide) hgroup
      (show _ ≤ N by simp [N_eq]), by simp [Moves], rfl, rfl, .inl trivial⟩).next
    ⟨.acquireReturn false (show Thread.pc _ = .acquireReturn 1048576 by simp), by simp [Moves], rfl,
      rfl, .inl trivial⟩
  have start : Reached byId false True p [] p := ⟨⟨[], .start rfl, rfl⟩, inv, idle⟩
  obtain ⟨m, returning⟩ := start.solo popped
  obtain ⟨es₂, run₂, shown₂⟩ := returning.run_backed run₁
  obtain ⟨⟨q, hq, hheld, hplaced, -⟩, hfound, -, -⟩ := pool_backed run₂
  refine ⟨byId, _, _, run₂, ?_, ⟨q, hq, ?_, hplaced⟩, ?_⟩
  · rw [shown₂, shown₁]
    rfl
  · rw [hheld]
    exact congrArg (1048576 :: ·) hacquired
  · exact hslots ▸ hfound rfl

end

end PBase.Pool
