/-
# `PBase.Pool.Partition` — no object is handed out twice, none is lost

Two nested partitions hold in every reachable state of a pool (`pool_partition`):

* every object created so far is with a caller, or an item of exactly one group, or in the
  hands of one call in progress;
* every `ObjectGroup` is the local group of one live thread, or on the global stack, or on
  the free stack, or in the hands of one `new_free_object_group`.

Groups on the global stack hold at least one item and at most `kObjectGroupItemSize`, so
the `assert`s of `acquire` never fail.  A group on the free stack that `acquire` or a
thread exit pushed last is empty, and one that comes straight from the arena was never
written.

A step moves at most one group and at most one batch of objects, and writes at most the
local group of its thread, which nobody else can reach (`Inv.of_step`).
-/
import PBase.Pool.Model

namespace PBase.Pool

open PBase.Lib
open PBase.Arena (N N_eq)

/-! ## Where the objects and the groups are -/

/-- The items in the hands of a call. -/
def Caller.items : Caller → List Nat
  | .acquire => []
  | .release item => [item]

def Pc.items : Pc → List Nat
  | .acquireFill base => block base
  | .acquireReturn item | .release item | .releaseFill item => [item]
  | .freePop k | .freeArena k | .freeAssign k _ | .freePush k _ _ => k.items
  | _ => []

/-- The local group of a thread.  Once a call has pushed it, `object_group_ptr_` still
points to it but it is no longer the thread's. -/
def Thread.localGroup (th : Thread) : List Nat :=
  match th.pc with
  | .idle | .acquireTake | .newThis | .acquireBlock | .acquireFill _ | .acquireReturn _
  | .release _ | .releaseFill _ | .freePush _ _ _ => th.ptr.toList
  | _ => []

/-- The new groups that `new_free_object_group` has yet to push. -/
def Thread.moving (th : Thread) : List Nat :=
  match th.pc with
  | .freeAssign _ base => block base
  | .freePush _ freeId i => List.range' (freeId + 1) (N - i)
  | _ => []

inductive SlotPlace (ι : Type) where
  /-- With a caller. -/
  | acquired
  /-- An item of the group at a node. -/
  | group (g : Nat)
  /-- In the hands of the call a thread is in. -/
  | call (t : ι)

inductive GroupPlace (ι : Type) where
  | local (t : ι)
  | global
  | free
  /-- In the hands of the call a thread is in. -/
  | call (t : ι)

variable {ι : Type}

/-- The objects at a place. -/
def slotsAt (C : Config) (s : State ι) : SlotPlace ι → List Nat
  | .acquired => s.acquired
  | .group g => ((s.group g).getD []).map C.slot
  | .call t => (s.thread t).pc.items.map C.slot

/-- The groups at a place. -/
def groupsAt (s : State ι) : GroupPlace ι → List Nat
  | .local t => (s.thread t).localGroup
  | .global => s.global.map low
  | .free => s.free.map low
  | .call t => (s.thread t).moving

/-! ## The invariant -/

section Conditions
variable (C : Config) (s : State ι)

/-- A group with at least one item and room for no more than `kObjectGroupItemSize`. -/
def Loaded (g : Nat) : Prop :=
  ∃ items, s.group g = some items ∧ 0 < items.length ∧ items.length ≤ C.kObjectGroupItemSize

/-- A group whose items nobody will read. -/
def Unloaded (g : Nat) : Prop := s.group g = none ∨ s.group g = some []

/-- What is known of a group on the free stack, by the code that pushed it. -/
def Freed (g : Nat) : Prop :=
  match s.pushedBy g with
  | .newFreeObjectGroup => s.group g = none
  | .acquire | .exit => s.group g = some []

/-- The local group, named by `object_group_ptr_` and by `object_group_id_`. -/
def Thread.Has (th : Thread) (p : Nat → Prop) : Prop :=
  th.ptr = some (low th.id) ∧ p (low th.id)

def Caller.Ok : Caller → Prop
  | .acquire => C.kind = .arenaObjectPool
  | .release _ => True

def ThreadOk (th : Thread) : Prop :=
  match th.pc with
  | .idle | .acquireReturn _ | .release _ => th.ptr = none ∨ th.Has fun g =>
      ∃ items, s.group g = some items ∧ items.length ≤ C.kObjectGroupItemSize
  | .acquireTake => th.Has (Loaded C s)
  | .newThis => C.kind = .objectPool ∧ th.ptr = none
  | .acquireBlock => C.kind = .arenaObjectPool ∧ th.Has (Unloaded s)
  | .acquireFill base => C.kind = .arenaObjectPool ∧ base + N ≤ 2 ^ 32 ∧ th.Has (Unloaded s)
  | .releaseFill _ => th.Has (Unloaded s)
  | .freePop k | .freeArena k => k.Ok C
  | .freeAssign k base => k.Ok C ∧ base + N ≤ 2 ^ 32 ∧ ∀ g ∈ th.moving, s.group g = none
  | .freePush k freeId i => k.Ok C ∧ freeId + (N - i) < 2 ^ 32 ∧ th.Has (Unloaded s) ∧
      ∀ g ∈ th.moving, s.group g = none
  | .acquirePop | .dead => True
  | .failed => False

end Conditions

structure Inv (C : Config) (s : State ι) : Prop where
  slots : Placed (slotsAt C s) (· ∈ s.slots)
  groups : Placed (groupsAt s) (· ∈ s.groups)
  bound : ∀ g ∈ s.groups, 0 < g ∧ g < 2 ^ 32
  unused : ∀ g, g ∉ s.groups → s.group g = none
  global : ∀ v ∈ s.global, Loaded C s (low v)
  free : ∀ v ∈ s.free, Freed s (low v)
  thread : ∀ t, ThreadOk C s (s.thread t)

/-! ## What a step can disturb -/

section Frame
variable {C : Config} {s s' : State ι} {th : Thread}

/-- A thread only relies on its own groups. -/
theorem ThreadOk.frame (h : ThreadOk C s th)
    (hmem : ∀ g, g ∈ th.localGroup ∨ g ∈ th.moving → s'.group g = s.group g) :
    ThreadOk C s' th := by
  have hhas : ∀ {p p' : Nat → Prop}, th.localGroup = th.ptr.toList → th.Has p →
      (s'.group (low th.id) = s.group (low th.id) → p (low th.id) → p' (low th.id)) →
      th.Has p' := fun hl hp himp =>
    ⟨hp.1, himp (hmem _ (.inl (by simp [hl, hp.1]))) hp.2⟩
  have hunl : th.localGroup = th.ptr.toList → th.Has (Unloaded s) → th.Has (Unloaded s') :=
    fun hl hp => hhas hl hp fun heq hu => by rwa [Unloaded, heq]
  have hmove : (∀ g ∈ th.moving, s.group g = none) → ∀ g ∈ th.moving, s'.group g = none :=
    fun hm g hg => (hmem g (.inr hg)).trans (hm g hg)
  obtain ⟨ptr, id, pc⟩ := th
  cases pc with
  | idle | acquireReturn _ | release _ =>
      exact h.imp_right fun hp => hhas rfl hp fun heq hl => by rwa [heq]
  | acquireTake => exact hhas rfl h fun heq hl => by rwa [Loaded, heq]
  | acquireBlock => exact ⟨h.1, hunl rfl h.2⟩
  | acquireFill base => exact ⟨h.1, h.2.1, hunl rfl h.2.2⟩
  | releaseFill _ => exact hunl rfl h
  | freeAssign k base => exact ⟨h.1, h.2.1, hmove h.2.2⟩
  | freePush k freeId i => exact ⟨h.1, h.2.1, hunl rfl h.2.2.1, hmove h.2.2.2⟩
  | newThis | freePop _ | freeArena _ | acquirePop | dead | failed => exact h

variable [DecidableEq ι] {t : ι}

/-- A step of thread `t` that writes at most its local group and takes nothing away from
what the stacks promise keeps the invariant of everybody else. -/
theorem Inv.of_step (h : Inv C s) (hth : s'.thread = Function.update s.thread t th)
    (hmem : ∀ g, g ∉ (s.thread t).localGroup → s'.group g = s.group g)
    (hslots : Placed (slotsAt C s') (· ∈ s'.slots))
    (hgroups : Placed (groupsAt s') (· ∈ s'.groups))
    (hbound : ∀ g ∈ s'.groups, 0 < g ∧ g < 2 ^ 32) (hsub : ∀ g ∈ s.groups, g ∈ s'.groups)
    (hok : ThreadOk C s' th)
    (hglobal : ∀ v ∈ s'.global, v ∈ s.global ∨ Loaded C s' (low v))
    (hfree : ∀ v ∈ s'.free,
      (v ∈ s.free ∧ s'.pushedBy (low v) = s.pushedBy (low v)) ∨ Freed s' (low v)) :
    Inv C s' where
  slots := hslots
  groups := hgroups
  bound := hbound
  unused g hg := by
    have hlocal : g ∉ (s.thread t).localGroup := fun hl =>
      hg (hsub g (h.groups.mem_all (p := .local t) hl))
    rw [hmem g hlocal]
    exact h.unused g fun hmem => hg (hsub g hmem)
  global v hv := by
    rcases hglobal v hv with hold | hnew
    · have hlocal : low v ∉ (s.thread t).localGroup := fun hl => by
        cases h.groups.apart (p := .local t) (q := .global) hl (List.mem_map_of_mem hold)
      have := h.global v hold
      rwa [Loaded, ← hmem _ hlocal] at this
    · exact hnew
  free v hv := by
    rcases hfree v hv with ⟨hold, hby⟩ | hnew
    · have hlocal : low v ∉ (s.thread t).localGroup := fun hl => by
        cases h.groups.apart (p := .local t) (q := .free) hl (List.mem_map_of_mem hold)
      have := h.free v hold
      rwa [Freed, ← hmem _ hlocal, ← hby] at this
    · exact hnew
  thread u := by
    rw [hth]
    by_cases hu : u = t
    · subst hu
      rwa [Function.update_self]
    · rw [Function.update_of_ne hu]
      refine (h.thread u).frame fun g hg => hmem g fun hl => ?_
      rcases hg with hg | hg
      · exact hu (GroupPlace.local.inj (h.groups.apart (p := .local u) (q := .local t) hg hl))
      · cases h.groups.apart (p := .call u) (q := .local t) hg hl

variable (s') in
/-- Where the objects are after a step of `t` that writes the group at `g` at most. -/
theorem slots_step {xs : List Nat} {g : Nat} (h : Inv C s)
    (hth : s'.thread = Function.update s.thread t th)
    (hmem : ∀ g', g' ≠ g → s'.group g' = s.group g') (hxs : xs.Nodup)
    (hnew : ∀ x ∈ xs, x ∉ s.slots)
    (hperm : (s'.acquired ++ (((s'.group g).getD []).map C.slot ++ th.pc.items.map C.slot)).Perm
      (xs ++ (s.acquired ++ (((s.group g).getD []).map C.slot ++
        (s.thread t).pc.items.map C.slot)))) :
    Placed (slotsAt C s') (fun x => x ∈ xs ∨ x ∈ s.slots) := by
  refine h.slots.create [.acquired, .group g, .call t] hxs hnew (by simp) ?_ ?_
  · simpa [slotsAt, hth] using hperm
  · rintro (_ | g' | u) hp
    · simp at hp
    · have hg : g' ≠ g := fun hg => hp (by simp [hg])
      simp [slotsAt, hmem g' hg]
    · have hu : u ≠ t := fun hu => hp (by simp [hu])
      simp [slotsAt, hth, Function.update_of_ne hu]

variable (s') in
/-- Where the groups are after a step of `t`. -/
theorem groups_step {xs : List Nat} (h : Inv C s)
    (hth : s'.thread = Function.update s.thread t th) (hxs : xs.Nodup)
    (hnew : ∀ x ∈ xs, x ∉ s.groups)
    (hperm : (th.localGroup ++ (th.moving ++ (s'.global.map low ++ s'.free.map low))).Perm
      (xs ++ ((s.thread t).localGroup ++ ((s.thread t).moving ++
        (s.global.map low ++ s.free.map low))))) :
    Placed (groupsAt s') (fun x => x ∈ xs ∨ x ∈ s.groups) := by
  refine h.groups.create [.local t, .call t, .global, .free] hxs hnew (by simp) ?_ ?_
  · simpa [groupsAt, hth] using hperm
  · rintro (u | _ | _ | u) hp
    · have hu : u ≠ t := fun hu => hp (by simp [hu])
      simp [groupsAt, hth, Function.update_of_ne hu]
    · simp at hp
    · simp at hp
    · have hu : u ≠ t := fun hu => hp (by simp [hu])
      simp [groupsAt, hth, Function.update_of_ne hu]

/-- A step that creates nothing, writes at most the group at `g`, which is then the local
one, and moves objects among the callers, that group and the call, and groups among the
thread and the stacks. -/
theorem Inv.of_move (h : Inv C s) (g : Nat)
    (hth : s'.thread = Function.update s.thread t th)
    (hcreated : s'.slots = s.slots ∧ s'.groups = s.groups)
    (hmem : ∀ g', g' ≠ g → s'.group g' = s.group g')
    (hlocal : s'.group g = s.group g ∨ g ∈ (s.thread t).localGroup)
    (hslots : (s'.acquired ++ (((s'.group g).getD []).map C.slot ++ th.pc.items.map C.slot)).Perm
      (s.acquired ++ (((s.group g).getD []).map C.slot ++ (s.thread t).pc.items.map C.slot)))
    (hgroups : (th.localGroup ++ (th.moving ++ (s'.global.map low ++ s'.free.map low))).Perm
      ((s.thread t).localGroup ++ ((s.thread t).moving ++ (s.global.map low ++ s.free.map low))))
    (hok : ThreadOk C s' th)
    (hglobal : ∀ v ∈ s'.global, v ∈ s.global ∨ Loaded C s' (low v))
    (hfree : ∀ v ∈ s'.free,
      (v ∈ s.free ∧ s'.pushedBy (low v) = s.pushedBy (low v)) ∨ Freed s' (low v)) :
    Inv C s' := by
  have hnone : ∀ {l : List Nat}, ∀ x ∈ ([] : List Nat), x ∉ l := fun x hx => by simp at hx
  refine h.of_step hth (fun g' hg' => ?_) ?_ ?_ ?_ ?_ hok hglobal hfree
  · by_cases hg : g' = g
    · subst hg; exact hlocal.resolve_right hg'
    · exact hmem g' hg
  · simpa [hcreated.1] using slots_step s' h hth hmem List.nodup_nil hnone hslots
  · simpa [hcreated.2] using groups_step s' h hth List.nodup_nil hnone hgroups
  · rw [hcreated.2]; exact h.bound
  · rw [hcreated.2]; exact fun g hg => hg

/-- A step that only moves a thread. -/
theorem Inv.goto (h : Inv C s) (t : ι) {p : Pc} (hitems : p.items = (s.thread t).pc.items)
    (hgroups : (Thread.localGroup { s.thread t with pc := p }
        ++ Thread.moving { s.thread t with pc := p }).Perm
      ((s.thread t).localGroup ++ (s.thread t).moving))
    (hok : ThreadOk C s { s.thread t with pc := p }) : Inv C (s.goto t p) := by
  refine h.of_move 0 rfl ⟨rfl, rfl⟩ (fun _ _ => rfl) (.inl rfl) ?_ ?_
    (hok.frame fun _ _ => rfl) (fun v hv => .inl hv) (fun v hv => .inl ⟨hv, rfl⟩)
  · simp only [hitems]
    exact .refl _
  · have := hgroups.append_right (s.global.map low ++ s.free.map low)
    simpa [List.append_assoc, State.goto] using this

end Frame

/-! ## Every step -/

section Steps
variable {C : Config} {s : State ι} {t : ι}

theorem Inv.ok (h : Inv C s) {p : Pc} (ht : (s.thread t).pc = p) :
    ThreadOk C s ⟨(s.thread t).ptr, (s.thread t).id, p⟩ :=
  ht ▸ h.thread t

theorem Thread.Has.eq {th : Thread} {p : Nat → Prop} {g : Nat} (h : th.Has p)
    (hptr : th.ptr = some g) : low th.id = g ∧ p g := by
  obtain ⟨hid, hp⟩ := h
  cases hid.symm.trans hptr
  exact ⟨rfl, hp⟩

/-- A thread between two calls, with a local group. -/
theorem settled {th : Thread} {g : Nat} {items : List Nat}
    (h : th.ptr = none ∨ th.Has fun g =>
      ∃ items, s.group g = some items ∧ items.length ≤ C.kObjectGroupItemSize)
    (hptr : th.ptr = some g) (hg : s.group g = some items) :
    low th.id = g ∧ items.length ≤ C.kObjectGroupItemSize := by
  obtain ⟨hid, items', hitems, hlen⟩ := (h.resolve_left (by simp [hptr])).eq hptr
  cases hitems.symm.trans hg
  exact ⟨hid, hlen⟩

theorem pop_ne {stack rest : List Nat} {id : Nat} (h : pop stack = (id, rest)) (hid : id ≠ 0) :
    stack = id :: rest := by
  cases stack with
  | nil => cases h; exact absurd rfl hid
  | cons v l => cases h; rfl

theorem mem_push {stack : List Nat} {v value : Nat} :
    v ∈ push stack value ↔ v = bump 1 value ∨ v ∈ stack := List.mem_cons

/-- A pop that returns 0 found the stack empty: no id in it is 0. -/
theorem Inv.pop_zero (h : Inv C s) {p : GroupPlace ι} {stack rest : List Nat}
    (hp : groupsAt s p = stack.map low) (hpop : pop stack = (0, rest)) : rest = stack := by
  cases stack with
  | nil => cases hpop; rfl
  | cons v l =>
      cases hpop
      have hmem : low 0 ∈ groupsAt s p := by simp [hp]
      exact absurd (h.bound _ (h.groups.mem_all hmem)).1 (by decide)

/-- A group on the free stack is not the local group of a thread. -/
theorem Inv.free_ne_local (h : Inv C s) {v g : Nat} (hv : v ∈ s.free)
    (hg : g ∈ (s.thread t).localGroup) : low v ≠ g := by
  rintro rfl
  cases h.groups.apart (p := .free) (q := .local t) (List.mem_map_of_mem hv) hg

variable [DecidableEq ι]

/-! ### `acquire` -/

/-- An item is taken off the local group. -/
theorem Inv.take (h : Inv C s) {g item : Nat} {items : List Nat}
    (ht : (s.thread t).pc = .idle ∨ (s.thread t).pc = .acquireTake)
    (hptr : (s.thread t).ptr = some g) (hid : low (s.thread t).id = g)
    (hg : s.group g = some (items ++ [item]))
    (hlen : items.length + 1 ≤ C.kObjectGroupItemSize) :
    Inv C { s with
      group := Function.update s.group g (some items)
      thread := Function.update s.thread t { s.thread t with pc := .acquireReturn item } } := by
  have hlocal : (s.thread t).localGroup = [g] := by
    rcases ht with ht | ht <;> simp [Thread.localGroup, ht, hptr]
  have hmoving : (s.thread t).moving = [] := by
    rcases ht with ht | ht <;> simp [Thread.moving, ht]
  have hitems : (s.thread t).pc.items = [] := by rcases ht with ht | ht <;> simp [Pc.items, ht]
  refine h.of_move g rfl ⟨rfl, rfl⟩ (fun g' hg' => Function.update_of_ne hg' _ _)
    (.inr (by simp [hlocal])) ?_ ?_ (.inr ⟨?_, items, ?_, ?_⟩) (fun v hv => .inl hv)
    (fun v hv => .inl ⟨hv, rfl⟩)
  · rw [hitems]
    simp [hg, Pc.items]
  · rw [hlocal, hmoving]
    simp [Thread.localGroup, Thread.moving, hptr]
  · rw [hptr, ← hid]
  · simp [← hid]
  · omega

/-- The local group has no items: it goes to the free stack. -/
theorem Inv.pushEmpty (h : Inv C s) {g : Nat} {p : Pc} {by' : Pusher}
    (ht : (s.thread t).pc = .idle) (hptr : (s.thread t).ptr = some g) (hg : s.group g = some [])
    (hby : by' = .acquire ∨ by' = .exit) (hp : p = .acquirePop ∨ p = .dead) :
    Inv C { s with
      free := push s.free (s.thread t).id
      pushedBy := Function.update s.pushedBy (low (s.thread t).id) by'
      thread := Function.update s.thread t { s.thread t with pc := p } } := by
  obtain ⟨hid, _⟩ := settled (h.ok ht) hptr hg
  have hlocal : g ∈ (s.thread t).localGroup := by simp [Thread.localGroup, ht, hptr]
  refine h.of_move 0 rfl ⟨rfl, rfl⟩ (fun _ _ => rfl) (.inl rfl) ?_ ?_ ?_ (fun v hv => .inl hv)
    (fun v hv => ?_)
  · rcases hp with rfl | rfl <;> simp [ht, Pc.items]
  · rcases hp with rfl | rfl <;>
      simp [Thread.localGroup, Thread.moving, ht, hptr, push, low_bump, hid]
  · rcases hp with rfl | rfl <;> trivial
  · rcases mem_push.mp hv with hv | hv
    · right
      rw [hv, low_bump, hid]
      rcases hby with rfl | rfl <;> simpa [Freed] using hg
    · exact .inl ⟨hv, Function.update_of_ne (hid ▸ h.free_ne_local hv hlocal) _ _⟩

/-- A group is taken off the global stack: it becomes the local group. -/
theorem Inv.acquirePop (h : Inv C s) {id : Nat} {rest : List Nat}
    (ht : (s.thread t).pc = .acquirePop) (hpop : s.global = id :: rest) :
    Inv C { s with
      global := rest
      thread := Function.update s.thread t ⟨some (low id), id, .acquireTake⟩ } := by
  refine h.of_move 0 rfl ⟨rfl, rfl⟩ (fun _ _ => rfl) (.inl rfl) ?_ ?_
    ⟨rfl, h.global id (by simp [hpop])⟩ (fun v hv => .inl (hpop ▸ List.mem_cons_of_mem _ hv))
    (fun v hv => .inl ⟨hv, rfl⟩)
  · simp [ht, Pc.items]
  · simp [Thread.localGroup, Thread.moving, ht, hpop]

theorem Inv.acquirePopEmpty (h : Inv C s) (ht : (s.thread t).pc = .acquirePop) :
    Inv C { s with
      thread := Function.update s.thread t
        (match C.kind with
        | .arenaObjectPool => ⟨(s.thread t).ptr, 0, .freePop .acquire⟩
        | .objectPool => ⟨none, 0, .newThis⟩) } := by
  refine h.of_move 0 rfl ⟨rfl, rfl⟩ (fun _ _ => rfl) (.inl rfl) ?_ ?_ ?_ (fun v hv => .inl hv)
    (fun v hv => .inl ⟨hv, rfl⟩)
  all_goals cases hk : C.kind
  · simp [ht, Pc.items]
  · simp [ht, Pc.items, Caller.items]
  · simp [Thread.localGroup, Thread.moving, ht]
  · simp [Thread.localGroup, Thread.moving, ht]
  · exact ⟨hk, rfl⟩
  · exact hk

/-- New objects appear in the hands of the call. -/
theorem Inv.createSlots (h : Inv C s) {xs : List Nat} {p : Pc} (hxs : xs.Nodup)
    (hnew : ∀ x ∈ xs, x ∉ s.slots) (hpc : (s.thread t).pc.items = [])
    (hitems : p.items.map C.slot = xs)
    (hlocal : Thread.localGroup { s.thread t with pc := p } = (s.thread t).localGroup)
    (hmoving : Thread.moving { s.thread t with pc := p } = (s.thread t).moving)
    (hok : ThreadOk C s { s.thread t with pc := p }) :
    Inv C { s with
      slots := xs ++ s.slots
      thread := Function.update s.thread t { s.thread t with pc := p } } := by
  refine h.of_step rfl (fun _ _ => rfl) ?_ ?_ h.bound (fun g hg => hg)
    (hok.frame fun _ _ => rfl) (fun v hv => .inl hv) (fun v hv => .inl ⟨hv, rfl⟩)
  · have hcreate := slots_step { s with
      slots := xs ++ s.slots
      thread := Function.update s.thread t { s.thread t with pc := p } } (g := 0) h rfl
      (fun _ _ => rfl) hxs hnew ?_
    · simpa using hcreate
    · simp only [hpc, hitems, List.map_nil, List.append_nil]
      rw [← List.append_assoc]
      exact List.perm_append_comm
  · have hgroups := groups_step { s with
      slots := xs ++ s.slots
      thread := Function.update s.thread t { s.thread t with pc := p } } h rfl
      List.nodup_nil (by simp) (by simp [hlocal, hmoving])
    simpa using hgroups

theorem Inv.newThis (h : Inv C s) {obj : Nat} (ht : (s.thread t).pc = .newThis)
    (hobj : obj ∉ s.slots) :
    Inv C { s with
      slots := obj :: s.slots
      thread := Function.update s.thread t { s.thread t with pc := .acquireReturn obj } } := by
  obtain ⟨hkind, hptr⟩ : C.kind = .objectPool ∧ (s.thread t).ptr = none := h.ok ht
  exact h.createSlots (List.nodup_singleton obj) (by simpa using hobj)
    (by simp [ht, Pc.items]) (by simp [Pc.items, Config.slot, hkind])
    (by simp [Thread.localGroup, ht]) (by simp [Thread.moving, ht]) (.inl hptr)

theorem block_nodup (base : Nat) : (block base).Nodup := List.nodup_range'

theorem mem_block {base x : Nat} : x ∈ block base ↔ base ≤ x ∧ x < base + N :=
  List.mem_range'_1

/-- The ids of a block are its slots. -/
theorem map_slot_block {base : Nat} (hkind : C.kind = .arenaObjectPool)
    (hlt : base + N ≤ 2 ^ 32) : (block base).map C.slot = block base := by
  refine (List.map_congr_left fun x hx => ?_).trans (List.map_id _)
  have hx' := mem_block.mp hx
  simp only [Config.slot, hkind, id]
  exact low_of_lt (by omega)

theorem block_eq_cons (base : Nat) : block base = base :: List.range' (base + 1) (N - 1) := by
  have hN : N = N - 1 + 1 := by rw [N_eq]
  rw [block, hN, List.range'_succ, Nat.add_sub_cancel]

theorem Inv.acquireBlock (h : Inv C s) {base : Nat} (ht : (s.thread t).pc = .acquireBlock)
    (hfresh : Fresh base s.slots) :
    Inv C { s with
      slots := block base ++ s.slots
      thread := Function.update s.thread t { s.thread t with pc := .acquireFill base } } := by
  obtain ⟨hkind, hhas⟩ : C.kind = .arenaObjectPool ∧ _ := h.ok ht
  exact h.createSlots (block_nodup base) hfresh.unused (by simp [ht, Pc.items])
    (map_slot_block hkind hfresh.lt) (by simp [Thread.localGroup, ht])
    (by simp [Thread.moving, ht]) ⟨hkind, hfresh.lt, hhas⟩

omit [DecidableEq ι] in
theorem Unloaded.items {g : Nat} (h : Unloaded s g) : (s.group g).getD [] = [] := by
  rcases h with h | h <;> rw [h] <;> rfl

/-- All items of the block but the first go to the local group. -/
theorem Inv.acquireFill (h : Inv C s) {g base : Nat}
    (ht : (s.thread t).pc = .acquireFill base) (hptr : (s.thread t).ptr = some g) :
    Inv C { s with
      group := Function.update s.group g (some
        (List.range' (base + 1) (C.kObjectGroupItemSize - 1)))
      thread := Function.update s.thread t { s.thread t with pc := .acquireReturn base } } := by
  obtain ⟨hkind, _, hhas⟩ : C.kind = .arenaObjectPool ∧ base + N ≤ 2 ^ 32 ∧ _ := h.ok ht
  obtain ⟨hid, hunl⟩ := hhas.eq hptr
  refine h.of_move g rfl ⟨rfl, rfl⟩ (fun g' hg' => Function.update_of_ne hg' _ _)
    (.inr (by simp [Thread.localGroup, ht, hptr])) ?_ ?_
    (.inr ⟨?_, List.range' (base + 1) (C.kObjectGroupItemSize - 1), ?_, ?_⟩)
    (fun v hv => .inl hv) (fun v hv => .inl ⟨hv, rfl⟩)
  · simp only [Function.update_self, Option.getD_some, Pc.items, ht, hunl.items,
      C.arena hkind, block_eq_cons]
    exact (List.perm_append_singleton _ _).append_left _
  · simp [Thread.localGroup, Thread.moving, ht]
  · rw [hptr, ← hid]
  · rw [← hid]
    exact Function.update_self ..
  · rw [List.length_range']
    exact Nat.sub_le _ _

/-! ### `release` -/

theorem Inv.acquireReturn (h : Inv C s) {item : Nat}
    (ht : (s.thread t).pc = .acquireReturn item) :
    Inv C { s with
      acquired := C.slot item :: s.acquired
      thread := Function.update s.thread t { s.thread t with pc := .idle } } := by
  refine h.of_move 0 rfl ⟨rfl, rfl⟩ (fun _ _ => rfl) (.inl rfl) ?_ ?_ ?_ (fun v hv => .inl hv)
    (fun v hv => .inl ⟨hv, rfl⟩)
  · simp only [Pc.items, ht, List.map_nil, List.append_nil, List.map_cons, ← List.append_assoc]
    exact (List.perm_append_singleton _ _).symm
  · simp [Thread.localGroup, Thread.moving, ht]
  · exact h.ok ht

theorem Inv.release (h : Inv C s) {item : Nat} (ht : (s.thread t).pc = .idle)
    (hitem : C.slot item ∈ s.acquired) :
    Inv C { s with
      acquired := s.acquired.erase (C.slot item)
      thread := Function.update s.thread t { s.thread t with pc := .release item } } := by
  refine h.of_move 0 rfl ⟨rfl, rfl⟩ (fun _ _ => rfl) (.inl rfl) ?_ ?_ ?_ (fun v hv => .inl hv)
    (fun v hv => .inl ⟨hv, rfl⟩)
  · simp only [Pc.items, ht, List.map_nil, List.append_nil, List.map_cons, ← List.append_assoc]
    refine (List.perm_append_singleton _ _).trans ?_
    rw [← List.cons_append]
    exact (List.perm_cons_erase hitem).symm.append_right _
  · simp [Thread.localGroup, Thread.moving, ht]
  · exact h.ok ht

theorem Inv.releaseLocal (h : Inv C s) {g item : Nat} {items : List Nat}
    (ht : (s.thread t).pc = .release item) (hptr : (s.thread t).ptr = some g)
    (hg : s.group g = some items) (hlen : items.length < C.kObjectGroupItemSize) :
    Inv C { s with
      group := Function.update s.group g (some (items ++ [item]))
      thread := Function.update s.thread t { s.thread t with pc := .idle } } := by
  obtain ⟨hid, _⟩ := settled (h.ok ht) hptr hg
  refine h.of_move g rfl ⟨rfl, rfl⟩ (fun g' hg' => Function.update_of_ne hg' _ _)
    (.inr (by simp [Thread.localGroup, ht, hptr])) ?_ ?_ (.inr ⟨?_, items ++ [item], ?_, ?_⟩)
    (fun v hv => .inl hv) (fun v hv => .inl ⟨hv, rfl⟩)
  · simp [hg, ht, Pc.items]
  · simp [Thread.localGroup, Thread.moving, ht]
  · rw [hptr, ← hid]
  · rw [← hid]
    exact Function.update_self ..
  · simpa using hlen

/-- A local group that holds items goes to the global stack. -/
theorem Inv.pushLoaded (h : Inv C s) {g : Nat} {items : List Nat} {p : Pc}
    (hptr : (s.thread t).ptr = some g) (hg : s.group g = some items)
    (ht : ((s.thread t).pc = .idle ∧ p = .dead) ∨
      ∃ item, (s.thread t).pc = .release item ∧ p = .freePop (.release item))
    (hpos : 0 < items.length) :
    Inv C { s with
      global := push s.global (s.thread t).id
      thread := Function.update s.thread t { s.thread t with pc := p } } := by
  obtain ⟨hid, hlen⟩ : low (s.thread t).id = g ∧ items.length ≤ C.kObjectGroupItemSize := by
    rcases ht with ⟨ht, _⟩ | ⟨item, ht, _⟩ <;> exact settled (h.ok ht) hptr hg
  refine h.of_move 0 rfl ⟨rfl, rfl⟩ (fun _ _ => rfl) (.inl rfl) ?_ ?_ ?_ (fun v hv => ?_)
    (fun v hv => .inl ⟨hv, rfl⟩)
  · rcases ht with ⟨ht, rfl⟩ | ⟨item, ht, rfl⟩ <;> simp [ht, Pc.items, Caller.items]
  · rcases ht with ⟨ht, rfl⟩ | ⟨item, ht, rfl⟩ <;>
      simp [Thread.localGroup, Thread.moving, ht, hptr, push, low_bump, hid]
  · rcases ht with ⟨ht, rfl⟩ | ⟨item, ht, rfl⟩ <;> trivial
  · rcases mem_push.mp hv with hv | hv
    · right
      rw [hv, low_bump, hid]
      exact ⟨items, hg, hpos, hlen⟩
    · exact .inl hv

theorem Inv.releaseFill (h : Inv C s) {g item : Nat} (ht : (s.thread t).pc = .releaseFill item)
    (hptr : (s.thread t).ptr = some g) :
    Inv C { s with
      group := Function.update s.group g (some [item])
      thread := Function.update s.thread t { s.thread t with pc := .idle } } := by
  obtain ⟨hid, hunl⟩ := (show Thread.Has ⟨_, _, .releaseFill item⟩ _ from h.ok ht).eq hptr
  refine h.of_move g rfl ⟨rfl, rfl⟩ (fun g' hg' => Function.update_of_ne hg' _ _)
    (.inr (by simp [Thread.localGroup, ht, hptr])) ?_ ?_ (.inr ⟨?_, [item], ?_, ?_⟩)
    (fun v hv => .inl hv) (fun v hv => .inl ⟨hv, rfl⟩)
  · simp [hunl.items, ht, Pc.items]
  · simp [Thread.localGroup, Thread.moving, ht]
  · rw [hptr, ← hid]
  · rw [← hid]
    exact Function.update_self ..
  · exact C.pos

/-! ### `new_free_object_group` -/

omit [DecidableEq ι] in
theorem Freed.unloaded {g : Nat} (h : Freed s g) : Unloaded s g := by
  unfold Freed at h
  split at h
  · exact .inl h
  · exact .inr h
  · exact .inr h

theorem Caller.items_resume (k : Caller) : k.resume.items = k.items := by cases k <;> rfl

theorem Caller.localGroup_resume (k : Caller) (ptr : Option Nat) (id : Nat) :
    Thread.localGroup ⟨ptr, id, k.resume⟩ = ptr.toList := by cases k <;> rfl

theorem Caller.moving_resume (k : Caller) (ptr : Option Nat) (id : Nat) :
    Thread.moving ⟨ptr, id, k.resume⟩ = [] := by cases k <;> rfl

omit [DecidableEq ι] in
theorem Caller.ok_resume {k : Caller} {ptr : Option Nat} {id : Nat} (hk : k.Ok C)
    (hhas : Thread.Has ⟨ptr, id, k.resume⟩ (Unloaded s)) :
    ThreadOk C s ⟨ptr, id, k.resume⟩ := by
  cases k with
  | acquire => exact ⟨hk, hhas⟩
  | release item => exact hhas

/-- A group is taken off the free stack: it becomes the local group. -/
theorem Inv.freePop (h : Inv C s) {k : Caller} {id : Nat} {rest : List Nat}
    (ht : (s.thread t).pc = .freePop k) (hpop : s.free = id :: rest) :
    Inv C { s with
      free := rest
      thread := Function.update s.thread t ⟨some (low id), id, k.resume⟩ } := by
  have hfreed : Freed s (low id) := h.free id (by simp [hpop])
  refine h.of_move 0 rfl ⟨rfl, rfl⟩ (fun _ _ => rfl) (.inl rfl) ?_ ?_
    ((Caller.ok_resume (h.ok ht) ⟨rfl, hfreed.unloaded⟩).frame fun _ _ => rfl)
    (fun v hv => .inl hv) (fun v hv => .inl ⟨hpop ▸ List.mem_cons_of_mem _ hv, rfl⟩)
  · simp only [k.items_resume, ht]
    exact .refl _
  · rw [k.localGroup_resume, k.moving_resume]
    simpa [Thread.localGroup, Thread.moving, ht, hpop] using List.perm_middle.symm

theorem Inv.freePopEmpty (h : Inv C s) {k : Caller} (ht : (s.thread t).pc = .freePop k) :
    Inv C { s with
      thread := Function.update s.thread t { s.thread t with id := 0, pc := .freeArena k } } := by
  refine h.of_move 0 rfl ⟨rfl, rfl⟩ (fun _ _ => rfl) (.inl rfl) ?_ ?_ (h.ok ht)
    (fun v hv => .inl hv) (fun v hv => .inl ⟨hv, rfl⟩)
  · simp [ht, Pc.items]
  · simp [Thread.localGroup, Thread.moving, ht]

theorem Inv.freeArena (h : Inv C s) {k : Caller} {base : Nat}
    (ht : (s.thread t).pc = .freeArena k) (hfresh : Fresh base s.groups) :
    Inv C { s with
      groups := block base ++ s.groups
      thread := Function.update s.thread t { s.thread t with pc := .freeAssign k base } } := by
  have hnone : ∀ g ∈ block base, s.group g = none := fun g hg =>
    h.unused g (hfresh.unused g hg)
  refine h.of_step rfl (fun _ _ => rfl) ?_ ?_ ?_ (fun g hg => List.mem_append_right _ hg)
    ⟨h.ok ht, hfresh.lt, hnone⟩ (fun v hv => .inl hv) (fun v hv => .inl ⟨hv, rfl⟩)
  · have hslots := slots_step { s with
      groups := block base ++ s.groups
      thread := Function.update s.thread t { s.thread t with pc := .freeAssign k base } }
      (g := 0) h rfl (fun _ _ => rfl) List.nodup_nil (by simp) (by simp [ht, Pc.items])
    simpa using hslots
  · have hgroups := groups_step { s with
      groups := block base ++ s.groups
      thread := Function.update s.thread t { s.thread t with pc := .freeAssign k base } } h rfl
      (block_nodup base) hfresh.unused (by simp [Thread.localGroup, Thread.moving, ht])
    simpa using hgroups
  · intro g hg
    rcases List.mem_append.mp hg with hg | hg
    · have hpos := hfresh.pos
      have hlt := hfresh.lt
      have hmem := mem_block.mp hg
      omega
    · exact h.bound g hg

/-- The first group of the new block becomes the local group. -/
theorem Inv.freeAssign (h : Inv C s) {k : Caller} {base : Nat}
    (ht : (s.thread t).pc = .freeAssign k base) :
    Inv C { s with
      thread := Function.update s.thread t ⟨some (low base), base, .freePush k base 1⟩ } := by
  obtain ⟨hk, hlt, hnone⟩ : k.Ok C ∧ base + N ≤ 2 ^ 32 ∧ ∀ g ∈ block base, s.group g = none :=
    h.ok ht
  have hN := N_eq
  have hlow : low base = base := low_of_lt (by omega)
  refine h.of_move 0 rfl ⟨rfl, rfl⟩ (fun _ _ => rfl) (.inl rfl) ?_ ?_
    ⟨hk, by omega, ⟨rfl, .inl (hnone _ ?_)⟩, fun g hg => hnone g ?_⟩
    (fun v hv => .inl hv) (fun v hv => .inl ⟨hv, rfl⟩)
  · simp [ht, Pc.items]
  · simp [Thread.localGroup, Thread.moving, ht, hlow, block_eq_cons]
  · simp [hlow, block_eq_cons]
  · rw [block_eq_cons]
    exact List.mem_cons_of_mem _ hg

/-- One turn of the loop: a group that was never written goes to the free stack. -/
theorem Inv.freePush (h : Inv C s) {k : Caller} {freeId i : Nat}
    (ht : (s.thread t).pc = .freePush k freeId i) (hi : i < N) :
    Inv C { s with
      free := push s.free (freeId + 1)
      pushedBy := Function.update s.pushedBy (low (freeId + 1)) .newFreeObjectGroup
      thread := Function.update s.thread t
        { s.thread t with pc := .freePush k (freeId + 1) (i + 1) } } := by
  obtain ⟨hk, hlt, hhas, hnone⟩ : k.Ok C ∧ freeId + (N - i) < 2 ^ 32 ∧ _ ∧
    ∀ g ∈ List.range' (freeId + 1) (N - i), s.group g = none := h.ok ht
  have hlow : low (freeId + 1) = freeId + 1 := low_of_lt (by omega)
  have hmoving : List.range' (freeId + 1) (N - i)
      = (freeId + 1) :: List.range' (freeId + 2) (N - (i + 1)) := by
    rw [show N - i = N - (i + 1) + 1 by omega, List.range'_succ]
  have hmem : freeId + 1 ∈ (s.thread t).moving := by simp [Thread.moving, ht, hmoving]
  refine h.of_move 0 rfl ⟨rfl, rfl⟩ (fun _ _ => rfl) (.inl rfl) ?_ ?_
    ⟨hk, by omega, hhas, fun g hg => hnone g ?_⟩ (fun v hv => .inl hv) (fun v hv => ?_)
  · simp [ht, Pc.items]
  · simp only [Thread.localGroup, Thread.moving, ht, hmoving, push, List.map_cons, low_bump, hlow]
    refine List.perm_iff_count.mpr fun x => ?_
    simp only [List.count_append, List.count_cons, Nat.add_assoc, Nat.reduceAdd]
    omega
  · rw [hmoving]
    exact List.mem_cons_of_mem _ hg
  · rcases mem_push.mp hv with hv | hv
    · right
      rw [hv, low_bump, hlow]
      simpa [Freed, hlow] using hnone _ (hmoving ▸ List.mem_cons_self)
    · refine .inl ⟨hv, Function.update_of_ne (fun heq => ?_) _ _⟩
      rw [hlow] at heq
      cases h.groups.apart (p := .free) (q := .call t) (List.mem_map_of_mem hv) (heq ▸ hmem)

theorem Inv.freePushEnd (h : Inv C s) {k : Caller} {freeId i : Nat}
    (ht : (s.thread t).pc = .freePush k freeId i) (hi : ¬ i < N) : Inv C (s.goto t k.resume) := by
  obtain ⟨hk, _, hhas, _⟩ : k.Ok C ∧ freeId + (N - i) < 2 ^ 32 ∧ _ ∧ _ := h.ok ht
  refine h.goto t ?_ ?_ (Caller.ok_resume hk hhas)
  · rw [k.items_resume, ht]
    rfl
  · have hdone : N - i = 0 := by omega
    have hlocal : (s.thread t).localGroup = (s.thread t).ptr.toList := by
      simp [Thread.localGroup, ht]
    have hmoving : (s.thread t).moving = [] := by simp [Thread.moving, ht, hdone]
    rw [k.localGroup_resume, k.moving_resume, hlocal, hmoving]

/-! ### All of them -/

/-- Every step keeps the invariant. -/
theorem Inv.step (h : Inv C s) {e : Event ι} {s' : State ι} (hs : Step C s e s') :
    Inv C s' := by
  cases hs with
  | acquireLocal t ht hptr hg =>
      obtain ⟨hid, hlen⟩ := settled (h.ok ht) hptr hg
      exact h.take (.inl ht) hptr hid hg (by simpa using hlen)
  | acquireEmpty t ht hptr hg => exact h.pushEmpty ht hptr hg (.inl rfl) (.inl rfl)
  | acquireNull t ht hptr =>
      exact h.goto t (by simp [ht, Pc.items])
        (by simp [Thread.localGroup, Thread.moving, ht, hptr]) trivial
  | acquirePop t ht hpop hid => exact h.acquirePop ht (pop_ne hpop hid)
  | acquirePopEmpty t ht hpop =>
      rw [h.pop_zero (p := .global) rfl hpop]
      exact h.acquirePopEmpty ht
  | acquireTake t ht hptr hg hlen =>
      have hhas : Thread.Has ⟨_, _, .acquireTake⟩ (Loaded C s) := h.ok ht
      exact h.take (.inr ht) hptr (hhas.eq hptr).1 hg hlen
  | acquireAssert t ht hptr hg hassert =>
      have hhas : Thread.Has ⟨_, _, .acquireTake⟩ (Loaded C s) := h.ok ht
      obtain ⟨_, items, hitems, hlen⟩ := hhas.eq hptr
      cases hitems.symm.trans hg
      exact absurd hlen hassert
  | newThis t ht hobj => exact h.newThis ht hobj
  | acquireBlock t ht hfresh => exact h.acquireBlock ht hfresh
  | acquireFill t ht hptr => exact h.acquireFill ht hptr
  | acquireReturn t ht => exact h.acquireReturn ht
  | release t ht hitem => exact h.release ht hitem
  | releaseLocal t ht hptr hg hlen => exact h.releaseLocal ht hptr hg hlen
  | releaseFull t ht hptr hg hlen =>
      exact h.pushLoaded hptr hg (.inr ⟨_, ht, rfl⟩) (Nat.lt_of_lt_of_le C.pos hlen)
  | releaseNull t ht hptr =>
      exact h.goto t (by simp [ht, Pc.items, Caller.items])
        (by simp [Thread.localGroup, Thread.moving, ht, hptr]) trivial
  | releaseFill t ht hptr => exact h.releaseFill ht hptr
  | freePop t ht hpop hid => exact h.freePop ht (pop_ne hpop hid)
  | freePopEmpty t ht hpop =>
      rw [h.pop_zero (p := .free) rfl hpop]
      exact h.freePopEmpty ht
  | freeArena t ht hfresh => exact h.freeArena ht hfresh
  | freeAssign t ht => exact h.freeAssign ht
  | freePush t ht hi => exact h.freePush ht hi
  | freePushEnd t ht hi => exact h.freePushEnd ht hi
  | exitLoaded t ht hptr hg hpos => exact h.pushLoaded hptr hg (.inl ⟨ht, rfl⟩) hpos
  | exitEmpty t ht hptr hg => exact h.pushEmpty ht hptr hg (.inr rfl) (.inr rfl)
  | exitNull t ht hptr =>
      exact h.goto t (by simp [ht, Pc.items])
        (by simp [Thread.localGroup, Thread.moving, ht, hptr]) trivial
  | @uninitialised t g ht hptr hg =>
      -- the group at hand was written: nobody reads an uninitialised size
      have hwritten : ∃ items, s.group g = some items := by
        rcases ht with ht | ht | ⟨item, ht⟩
        · obtain ⟨_, items, hitems, _⟩ := ((h.ok ht).resolve_left (by simp [hptr])).eq hptr
          exact ⟨items, hitems⟩
        · obtain ⟨_, items, hitems, _⟩ :=
            (show Thread.Has ⟨_, _, .acquireTake⟩ (Loaded C s) from h.ok ht).eq hptr
          exact ⟨items, hitems⟩
        · obtain ⟨_, items, hitems, _⟩ := ((h.ok ht).resolve_left (by simp [hptr])).eq hptr
          exact ⟨items, hitems⟩
      obtain ⟨items, hitems⟩ := hwritten
      cases hitems.symm.trans hg

end Steps

/-! ## Every run -/

section Runs
variable {C : Config} [DecidableEq ι]

omit [DecidableEq ι] in
theorem Inv.init {s : State ι} (hthread : s.thread = fun _ => ⟨none, 0, .idle⟩)
    (hgroup : s.group = fun _ => none) (hglobal : s.global = []) (hfree : s.free = [])
    (hgroups : s.groups = []) (hslots : s.slots = []) (hacquired : s.acquired = []) :
    Inv C s := by
  have hslotsAt : ∀ p, slotsAt C s p = [] := by
    rintro (_ | g | t) <;> simp [slotsAt, hthread, hgroup, hacquired, Pc.items]
  have hgroupsAt : ∀ p, groupsAt s p = [] := by
    rintro (t | _ | _ | t) <;>
      simp [groupsAt, hthread, hglobal, hfree, Thread.localGroup, Thread.moving]
  refine ⟨⟨fun p => ?_, fun {p q x} hx => ?_, fun x => ?_⟩,
    ⟨fun p => ?_, fun {p q x} hx => ?_, fun x => ?_⟩, ?_, ?_, ?_, ?_, ?_⟩
  · simp [hslotsAt]
  · simp [hslotsAt] at hx
  · simp [hslotsAt, hslots]
  · simp [hgroupsAt]
  · simp [hgroupsAt] at hx
  · simp [hgroupsAt, hgroups]
  · simp [hgroups]
  · simp [hgroup]
  · simp [hglobal]
  · simp [hfree]
  · intro t
    rw [hthread]
    exact .inl rfl

/-! ### A thread that is alone -/

/-- The thread `t` moves, on no arena.  It is in a call, or may start one. -/
def solo (C : Config) (t : ι) (enters : Prop) (s₀ : State ι) : System (State ι) (Event ι) where
  init := (· = s₀)
  step s e s' := Step C s e s' ∧ Moves t s s' ∧ s'.groups = s.groups ∧ s'.slots = s.slots ∧
    (enters ∨ (s.thread t).pc ≠ .idle ∧ (s.thread t).pc ≠ .dead)

/-- What it does is a run of the pool. -/
theorem run_of_solo {enters : Prop} {es es' : List (Event ι)} {s s' : State ι} {t : ι}
    (h : (poolSystem C ι).Run es s) (h' : (solo C t enters s).Run es' s') :
    (poolSystem C ι).Run (es ++ es') s' := h.append h' (fun _ => id) fun _ _ _ hs => hs.1

/-- The loop of `new_free_object_group` pushes the new groups that are left, and ends. -/
theorem run_freePush {enters : Prop} {es : List (Event ι)} {s₀ s : State ι} {t : ι} {k : Caller}
    {freeId i n : Nat} (h : (solo C t enters s₀).Run es s)
    (ht : (s.thread t).pc = .freePush k freeId i) (hn : i + n = N) :
    ∃ pushedBy, (solo C t enters s₀).Run (es ++ List.replicate (n + 1) .tau)
      { s with
        free := ((List.range' (freeId + 1) n).map (bump 1)).reverse ++ s.free
        pushedBy := pushedBy
        thread := Function.update s.thread t { s.thread t with pc := k.resume } } := by
  induction n generalizing es s freeId i with
  | zero =>
      refine ⟨s.pushedBy, h.next ⟨.freePushEnd t ht (by omega), ?_, rfl, rfl, .inr ?_⟩⟩
      · cases k <;> simp [Moves, ht, Caller.resume]
      · simp [ht]
  | succ n ih =>
      have hpush := h.next ⟨.freePush t ht (by omega), by simp [Moves, ht], rfl, rfl,
        .inr (by simp [ht])⟩
      obtain ⟨pushedBy, hrun⟩ := @ih _ _ (freeId + 1) (i + 1) hpush (by simp) (by omega)
      refine ⟨pushedBy, ?_⟩
      rw [List.replicate_succ, List.append_cons, List.range'_succ, List.map_cons,
        List.reverse_cons, List.append_assoc]
      simpa [push] using hrun

/-- All but the first group of a block are pushed, the last one on top. -/
theorem solo_newGroups {enters : Prop} {es : List (Event ι)} {s₀ s : State ι} {t : ι} {k : Caller}
    {freeId : Nat} (h : (solo C t enters s₀).Run es s)
    (ht : (s.thread t).pc = .freePush k freeId 1) :
    ∃ pushedBy rest, (solo C t enters s₀).Run (es ++ List.replicate N .tau)
      { s with
        free := bump 1 (freeId + 1023) :: rest
        pushedBy := pushedBy
        thread := Function.update s.thread t { s.thread t with pc := k.resume } } := by
  obtain ⟨pushedBy, hrun⟩ := run_freePush h ht (show 1 + (1022 + 1) = N by decide)
  rw [List.range'_concat, List.map_append, List.reverse_append, Nat.one_mul, Nat.add_assoc] at hrun
  exact ⟨pushedBy, _, hrun⟩

theorem run_newGroups {es : List (Event ι)} {s : State ι} {t : ι} {k : Caller} {freeId : Nat}
    (h : (poolSystem C ι).Run es s) (ht : (s.thread t).pc = .freePush k freeId 1) :
    ∃ pushedBy rest, (poolSystem C ι).Run (es ++ List.replicate N .tau)
      { s with
        free := bump 1 (freeId + 1023) :: rest
        pushedBy := pushedBy
        thread := Function.update s.thread t { s.thread t with pc := k.resume } } := by
  obtain ⟨pushedBy, rest, hrun⟩ := solo_newGroups (.start rfl : (solo C t True s).Run [] s) ht
  exact ⟨pushedBy, rest, run_of_solo h hrun⟩

/-- An `ObjectPool` with one object in a group. -/
def single : Config := ⟨.objectPool, 1, (fun h => by cases h), by decide⟩

/-- A thread releases two objects: the first one gets a group that is pushed, full, when the second
is released.  Another thread pops it. -/
theorem run_recycled : ∃ es s, (poolSystem single Bool).Run es s ∧
    es.filter Event.shown = [.acquired true 7, .acquired true 8, .released true 7,
      .released true 8, .acquired false 7] ∧
    s.acquired = [7] ∧ s.group 1024 = some [8] := by
  have start : (poolSystem single Bool).Run []
      ⟨fun _ => ⟨none, 0, .idle⟩, fun _ => none, [], [], [], [], [], fun _ => .exit⟩ :=
    .start ⟨rfl, rfl, rfl, rfl, rfl, rfl, rfl⟩
  have first := (((start.next (.acquireNull true rfl rfl)).next
    (.acquirePopEmpty true rfl rfl)).next (.newThis true rfl (show 7 ∉ [] by decide))).next
    (.acquireReturn true rfl)
  have second := (((first.next (.acquireNull true rfl rfl)).next
    (.acquirePopEmpty true rfl rfl)).next (.newThis true rfl (show 8 ∉ [7] by decide))).next
    (.acquireReturn true rfl)
  have hfresh : Fresh 1 [] := ⟨Nat.one_pos, by decide, fun _ _ => List.not_mem_nil⟩
  have groups := ((((second.next (.release true rfl (show 7 ∈ [8, 7] by decide))).next
    (.releaseNull true rfl rfl)).next (.freePopEmpty true rfl rfl)).next
    (.freeArena true rfl hfresh)).next (.freeAssign true rfl)
  obtain ⟨_, rest, hloop⟩ := run_newGroups (t := true) groups rfl
  have filled := hloop.next (.releaseFill true rfl rfl)
  have pushed := (((filled.next (.release true rfl (show 8 ∈ [8] by decide))).next
    (.releaseFull true rfl rfl rfl (by decide))).next
    (.freePop true rfl rfl (by decide))).next (.releaseFill true rfl rfl)
  obtain ⟨s, es, hrun, hshown, hthread, hglobal, hfirst, hsecond, hacquired⟩ : ∃ s es,
      (poolSystem single Bool).Run es s ∧ es.filter Event.shown = [.acquired true 7,
        .acquired true 8, .released true 7, .released true 8] ∧
      s.thread false = ⟨none, 0, .idle⟩ ∧ s.global = [bump 1 1] ∧ s.group 1 = some [7] ∧
      s.group 1024 = some [8] ∧ s.acquired = [] := by
    refine ⟨_, _, pushed, ?_, rfl, rfl, rfl, rfl, rfl⟩
    simp only [List.filter_append, List.filter_replicate]
    rfl
  have hpop : pop s.global = (bump 1 1, []) := by
    rw [hglobal]
    rfl
  have hgroup : s.group (low (bump 1 1)) = some ([] ++ [7]) := hfirst
  have popped := ((hrun.next (.acquireNull false (by rw [hthread]) (by rw [hthread]))).next
    (.acquirePop false rfl hpop (by decide))).next
    (.acquireTake false rfl rfl hgroup (show [].length + 1 ≤ 1 by decide))
  refine ⟨_, _, popped.next (.acquireReturn false rfl), ?_, congrArg (7 :: ·) hacquired, hsecond⟩
  rw [List.filter_append, List.filter_append, List.filter_append, List.filter_append, hshown]
  rfl

/-- **The pools neither hand an object out twice nor lose one.**  In every reachable state
of either pool, for any threads and any order of `acquire`, `release` and exit: the objects
are partitioned among the callers, the groups and the calls in progress, the groups are
partitioned among the live threads, the two stacks and the calls in progress, a group on
the global stack has `0 < size <= kObjectGroupItemSize`, one that `acquire` or an exit
pushed on the free stack is empty, and no `assert` ever fails. -/
theorem pool_partition {es : List (Event ι)} {s : State ι} (h : (poolSystem C ι).Run es s) :
    Placed (slotsAt C s) (· ∈ s.slots) ∧ Placed (groupsAt s) (· ∈ s.groups) ∧
      (∀ v ∈ s.global, Loaded C s (low v)) ∧ (∀ v ∈ s.free, Freed s (low v)) ∧
      ∀ t, (s.thread t).pc ≠ .failed := by
  have hinv : Inv C s := h.invariant
    (fun s hs => by
      obtain ⟨h₁, h₂, h₃, h₄, h₅, h₆, h₇⟩ := hs
      exact Inv.init h₁ h₂ h₃ h₄ h₅ h₆ h₇)
    (fun s e t hinv hs => hinv.step hs)
  refine ⟨hinv.slots, hinv.groups, hinv.global, hinv.free, fun t ht => ?_⟩
  exact hinv.ok ht

/-- Then the one object is with its caller only, and the other in its group only. -/
theorem pool_partition_recycled : ∃ s : State Bool, s.acquired = [7] ∧ s.group 1024 = some [8] ∧
    (∀ p, 7 ∈ slotsAt single s p → p = .acquired) ∧
    (∀ p, 8 ∈ slotsAt single s p → p = .group 1024) ∧ ∀ t, (s.thread t).pc ≠ .failed := by
  obtain ⟨_, s, hrun, _, hacquired, hgroup⟩ := run_recycled
  obtain ⟨hslots, -, -, -, hnot⟩ := pool_partition hrun
  refine ⟨s, hacquired, hgroup, fun p hp => hslots.apart hp ?_, fun p hp => hslots.apart hp ?_,
    hnot⟩
  · show 7 ∈ s.acquired
    rw [hacquired]
    exact List.mem_singleton_self 7
  · show 8 ∈ ((s.group 1024).getD []).map single.slot
    rw [hgroup]
    exact List.mem_singleton_self 8

end Runs

end PBase.Pool
