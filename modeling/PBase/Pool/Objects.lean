/-
# `PBase.Pool.Objects` — what the callers of a pool can rely on

Under the groups, the stacks and the versions a pool is a heap of free ids (`objects`): `acquire`
gives out an id that was released, under the version it was released with, or an object that was
never given out before, under version 0; `release` puts the id back.  Every step of the threads,
down to the single CAS of the stacks, is one of the heap (`Covers.composed_step`), and the heap
keeps every object either with the callers or free (`Objects.placed_run`).
-/
import PBase.Pool.Composed

namespace PBase.Pool

open PBase.Lib
open PBase.Arena (N N_eq)

/-- The free ids, the objects that were given out so far, and those that the callers hold. -/
structure Objects where
  released : List Nat
  created : List Nat
  held : List Nat

/-- The id of an object that was never released.  An id of the arena has version 0 then. -/
def NewId (C : Config) (item : Nat) : Prop := C.kind = .arenaObjectPool → 0 < item ∧ item < 2 ^ 32

def objects (C : Config) (ι : Type) : System Objects (Event ι) where
  init q := q = ⟨[], [], []⟩
  step q e q' :=
    match e with
    | .tau | .exited _ => q' = q
    | .acquired _ item =>
        if item ∈ q.released then q' = ⟨q.released.erase item, q.created, C.slot item :: q.held⟩
        else C.slot item ∉ q.created ∧ NewId C item ∧
          q' = ⟨q.released, C.slot item :: q.created, C.slot item :: q.held⟩
    | .released _ item =>
        C.slot item ∈ q.held ∧ q' = ⟨item :: q.released, q.created, q.held.erase (C.slot item)⟩

section
variable {ι : Type} {C : Config} {s s' : State ι} {item : Nat} {e : Event ι} {q q' : Objects}

/-! ## Where the ids are -/

/-- The id is in a group, or in the hands of a call. -/
def Inside (s : State ι) (item : Nat) : Prop :=
  (∃ g items, s.group g = some items ∧ item ∈ items) ∨ ∃ t, item ∈ (s.thread t).pc.items

theorem Inside.group {g : Nat} {items : List Nat} (hg : s.group g = some items)
    (hmem : item ∈ items) :
    Inside s item := .inl ⟨g, items, hg, hmem⟩

theorem Inside.call {t : ι} {p : Pc} (ht : (s.thread t).pc = p) (hmem : item ∈ p.items) :
    Inside s item :=
  .inr ⟨t, ht ▸ hmem⟩

/-- An id inside is not one of an object that is with a caller. -/
theorem Inside.ne_acquired (h : Inv C s) (hi : Inside s item) : C.slot item ∉ s.acquired := by
  intro hmem
  rcases hi with ⟨g, items, hg, hi⟩ | ⟨t, hi⟩
  · have hslot : C.slot item ∈ slotsAt C s (.group g) := by
      rw [slotsAt, hg]
      exact List.mem_map_of_mem hi
    cases h.slots.apart (p := .acquired) hmem hslot
  · cases h.slots.apart (p := .acquired) (q := .call t) hmem (List.mem_map_of_mem hi)

variable [DecidableEq ι] {t : ι} {th : Thread}

/-- After a step of `t` that writes no group. -/
theorem Inside.of_thread (hi : Inside s' item) (hth : s'.thread = Function.update s.thread t th)
    (hgroup : s'.group = s.group) : Inside s item ∨ item ∈ th.pc.items := by
  rcases hi with ⟨g, items, hg, hi⟩ | ⟨u, hi⟩
  · exact .inl (.group (hgroup ▸ hg) hi)
  · rw [hth] at hi
    rcases eq_or_ne u t with rfl | hu
    · rw [Function.update_self] at hi
      exact .inr hi
    · rw [Function.update_of_ne hu] at hi
      exact .inl (.inr ⟨u, hi⟩)

/-- After a step of `t` that writes no group and takes nothing into its hands. -/
theorem Inside.of_kept (hi : Inside s' item) (hth : s'.thread = Function.update s.thread t th)
    (hgroup : s'.group = s.group) (hkept : th.pc.items ⊆ (s.thread t).pc.items) :
    Inside s item := by
  rcases hi.of_thread hth hgroup with hi | hi
  · exact hi
  · exact .inr ⟨t, hkept hi⟩

/-- After a step of `t` that writes the group at `g`. -/
theorem Inside.of_group {g : Nat} {items : List Nat} (hi : Inside s' item)
    (hth : s'.thread = Function.update s.thread t th)
    (hgroup : s'.group = Function.update s.group g (some items)) :
    Inside s item ∨ item ∈ th.pc.items ∨ item ∈ items := by
  rcases hi with ⟨g', items', hg, hi⟩ | ⟨u, hi⟩
  · rw [hgroup] at hg
    rcases eq_or_ne g' g with rfl | hne
    · rw [Function.update_self] at hg
      cases hg
      exact .inr (.inr hi)
    · rw [Function.update_of_ne hne] at hg
      exact .inl (.group hg hi)
  · rw [hth] at hi
    rcases eq_or_ne u t with rfl | hu
    · rw [Function.update_self] at hi
      exact .inr (.inl hi)
    · rw [Function.update_of_ne hu] at hi
      exact .inl (.inr ⟨u, hi⟩)

/-- An id of an object that was just created. -/
def Made (C : Config) (s s' : State ι) (item : Nat) : Prop :=
  C.slot item ∉ s.slots ∧ C.slot item ∈ s'.slots ∧ NewId C item

/-- An id that is inside after a step was there before, or a caller released it, or it is new. -/
theorem Step.inside (h : Inv C s) (hs : Step C s e s') (hi : Inside s' item) :
    Inside s item ∨ (∃ t, e = .released t item) ∨ Made C s s' item := by
  cases hs with
  -- the thread has nothing in its hands afterwards
  | acquireEmpty | acquireNull | acquirePop | acquireAssert | acquireReturn | exitLoaded
  | exitEmpty | exitNull | uninitialised => exact .inl (hi.of_kept rfl rfl (List.nil_subset _))
  | acquirePopEmpty t ht hpop =>
      refine .inl (hi.of_kept rfl rfl fun x hx => ?_)
      cases hk : C.kind <;> rw [hk] at hx <;> exact absurd hx List.not_mem_nil
  -- or what it had
  | releaseFull t ht hptr hg hlen =>
      exact .inl (hi.of_kept rfl rfl (by rw [ht]; exact List.Subset.refl _))
  | releaseNull t ht | freePopEmpty t ht | freeArena t ht | freeAssign t ht | freePush t ht =>
      exact .inl (hi.of_kept rfl rfl (by rw [ht]; exact List.Subset.refl _))
  | @freePop t k v rest ht hpop hv =>
      refine .inl (hi.of_kept rfl rfl ?_)
      rw [ht]
      exact k.items_resume ▸ List.Subset.refl _
  | @freePushEnd t k freeId i ht hlt =>
      refine .inl (hi.of_kept rfl rfl ?_)
      rw [ht]
      exact k.items_resume ▸ List.Subset.refl _
  -- an item goes from the group to the thread, or back
  | @acquireLocal t g x items ht hptr hg | @acquireTake t g x items ht hptr hg =>
      refine .inl ((hi.of_group rfl rfl).elim id fun hi => .group hg ?_)
      rcases hi with hi | hi
      · exact List.mem_append_right _ hi
      · exact List.mem_append_left _ hi
  | @releaseLocal t g x items ht hptr hg hlen =>
      refine .inl ((hi.of_group rfl rfl).elim id fun hi => ?_)
      rcases hi with hi | hi
      · exact absurd hi List.not_mem_nil
      · exact (List.mem_append.mp hi).elim (Inside.group hg) fun hi => .call ht hi
  | releaseFill t ht hptr =>
      refine .inl ((hi.of_group rfl rfl).elim id fun hi => ?_)
      exact hi.elim (fun hi => absurd hi List.not_mem_nil) fun hi => .call ht hi
  | @acquireFill t g base ht hptr =>
      have hok : C.kind = .arenaObjectPool ∧ _ := h.ok ht
      refine .inl ((hi.of_group rfl rfl).elim id fun hi => .call ht ?_)
      show item ∈ block base
      rw [block_eq_cons]
      rcases hi with hi | hi
      · exact List.mem_cons.mpr (.inl (List.mem_singleton.mp hi))
      · rw [C.arena hok.1] at hi
        exact List.mem_cons_of_mem _ hi
  | @release t x ht hx =>
      refine (hi.of_thread rfl rfl).imp_right fun hi => .inl ⟨t, ?_⟩
      rw [List.mem_singleton.mp hi]
  | @newThis t obj ht hobj =>
      refine (hi.of_thread rfl rfl).imp_right fun hi => .inr ?_
      have hkind : C.kind = .objectPool ∧ _ := h.ok ht
      have hslot : C.slot item = item := by simp [Config.slot, hkind.1]
      cases List.mem_singleton.mp hi
      rw [Made, hslot]
      exact ⟨hobj, List.mem_cons_self, fun hk => by cases hk.symm.trans hkind.1⟩
  | @acquireBlock t base ht hfresh =>
      refine (hi.of_thread rfl rfl).imp_right fun hi => .inr ?_
      have hkind : C.kind = .arenaObjectPool ∧ _ := h.ok ht
      have hmem := mem_block.mp hi
      have hlt := hfresh.lt
      have hpos := hfresh.pos
      have hslot : C.slot item = item := by
        simp only [Config.slot, hkind.1]
        exact low_of_lt (by omega)
      rw [Made, hslot]
      exact ⟨hfresh.unused item hi, List.mem_append_left _ hi, fun _ => ⟨by omega, by omega⟩⟩

/-- What the callers hold. -/
def Event.Holds (C : Config) (s s' : State ι) : Event ι → Prop
  | .tau | .exited _ => s'.acquired = s.acquired
  | .acquired _ item => Inside s item ∧ s'.acquired = C.slot item :: s.acquired
  | .released _ item => C.slot item ∈ s.acquired ∧ s'.acquired = s.acquired.erase (C.slot item)

theorem Step.holds (hs : Step C s e s') : e.Holds C s s' := by
  cases hs with
  | acquireReturn t ht => exact ⟨.call ht (List.mem_singleton.mpr rfl), rfl⟩
  | release t ht hmem => exact ⟨hmem, rfl⟩
  | _ => rfl

theorem Step.slots (hs : Step C s e s') {slot : Nat} (hmem : slot ∈ s.slots) : slot ∈ s'.slots := by
  cases hs with
  | newThis t ht hobj => exact List.mem_cons_of_mem _ hmem
  | acquireBlock t ht hfresh => exact List.mem_append_right _ hmem
  | _ => exact hmem

/-! ## The heap of ids -/

/-- The ids inside are free or new. -/
structure Covers (C : Config) (s : State ι) (q : Objects) : Prop where
  held : q.held = s.acquired
  created : ∀ slot ∈ q.created, slot ∈ s.slots
  inside : ∀ item, Inside s item → item ∈ q.released ∨ (C.slot item ∉ q.created ∧ NewId C item)

namespace Covers

/-- What is inside after a step that releases nothing. -/
theorem inside_after (hc : Covers C s q) (h : Inv C s) (hs : Step C s e s')
    (he : ∀ t item, e ≠ .released t item)
    (hi : Inside s' item) : item ∈ q.released ∨ (C.slot item ∉ q.created ∧ NewId C item) := by
  rcases hs.inside h hi with hi | ⟨t, rfl⟩ | ⟨hnew, -, hid⟩
  · exact hc.inside item hi
  · exact absurd rfl (he t item)
  · exact .inr ⟨fun hmem => hnew (hc.created _ hmem), hid⟩

/-- A step that neither gives out an object nor takes one back. -/
theorem quiet (hc : Covers C s q) (h : Inv C s) (hs : Step C s e s')
    (he : ∀ t item, e ≠ .released t item)
    (hacquired : s'.acquired = s.acquired) : Covers C s' q where
  held := hc.held.trans hacquired.symm
  created slot hmem := hs.slots (hc.created slot hmem)
  inside _ hi := hc.inside_after h hs he hi

theorem acquired (hc : Covers C s q) (h : Inv C s) (hs : Step C s (.acquired t item) s') :
    ∃ q', (objects C ι).step q (.acquired t item) q' ∧ Covers C s' q' := by
  have h' : Inv C s' := h.step hs
  obtain ⟨hi, hacquired⟩ := hs.holds
  have hmem : C.slot item ∈ s'.acquired := hacquired ▸ List.mem_cons_self
  have hheld : C.slot item :: q.held = s'.acquired := by rw [hacquired, hc.held]
  -- the ids that stay inside are of other objects
  have hother : ∀ {other}, Inside s' other → C.slot other ≠ C.slot item := fun hi heq =>
    hi.ne_acquired h' (heq ▸ hmem)
  have hafter : ∀ {other}, Inside s' other → _ :=
      fun hi => hc.inside_after h hs (fun _ _ he => nomatch he) hi
  by_cases hrel : item ∈ q.released
  · refine ⟨⟨q.released.erase item, q.created, C.slot item :: q.held⟩, ?_, hheld,
      fun slot hmem => hs.slots (hc.created slot hmem), fun other hi => ?_⟩
    · simp only [objects, if_pos hrel]
    · have hne : other ≠ item := fun heq => hother hi (heq ▸ rfl)
      exact (hafter hi).imp_left (List.mem_erase_of_ne hne).mpr
  · obtain ⟨hslot, hnew⟩ := (hc.inside item hi).resolve_left hrel
    refine ⟨⟨q.released, C.slot item :: q.created, C.slot item :: q.held⟩, ?_, hheld,
        fun slot hmem' => ?_,
      fun other hi => ?_⟩
    · simp only [objects, if_neg hrel]
      exact ⟨hslot, hnew, trivial⟩
    · rcases List.mem_cons.mp hmem' with rfl | hmem'
      · exact h'.slots.mem_all (p := .acquired) hmem
      · exact hs.slots (hc.created slot hmem')
    · refine (hafter hi).imp_right fun ⟨hslot', hnew'⟩ => ⟨?_, hnew'⟩
      exact List.not_mem_cons_of_ne_of_not_mem (hother hi) hslot'

theorem released (hc : Covers C s q) (h : Inv C s) (hs : Step C s (.released t item) s') :
    ∃ q', (objects C ι).step q (.released t item) q' ∧ Covers C s' q' := by
  obtain ⟨hmem, hacquired⟩ := hs.holds
  rw [← hc.held] at hmem
  refine ⟨_, ⟨hmem, rfl⟩, ?_, fun slot hmem => hs.slots (hc.created slot hmem), fun other hi => ?_⟩
  · rw [hacquired, ← hc.held]
  · rcases hs.inside h hi with hi | ⟨u, he⟩ | ⟨hnew, -, hid⟩
    · exact (hc.inside other hi).imp_left (List.mem_cons_of_mem _)
    · cases he
      exact .inl List.mem_cons_self
    · exact .inr ⟨fun hmem => hnew (hc.created _ hmem), hid⟩

theorem step (hc : Covers C s q) (h : Inv C s) (hs : Step C s e s') :
    ∃ q', (objects C ι).step q e q' ∧ Covers C s' q' := by
  cases e with
  | tau => exact ⟨q, rfl, hc.quiet h hs (fun _ _ he => nomatch he) hs.holds⟩
  | exited t => exact ⟨q, rfl, hc.quiet h hs (fun _ _ he => nomatch he) hs.holds⟩
  | acquired t item => exact hc.acquired h hs
  | released t item => exact hc.released h hs

theorem init (h : (poolSystem C ι).init s) : Covers C s ⟨[], [], []⟩ := by
  obtain ⟨hthread, hgroup, -, -, -, -, hacquired⟩ := h
  refine ⟨hacquired.symm, fun slot hmem => absurd hmem List.not_mem_nil, fun item hi => ?_⟩
  rcases hi with ⟨g, items, hg, -⟩ | ⟨t, hi⟩
  · rw [hgroup] at hg
    cases hg
  · rw [hthread] at hi
    exact absurd hi List.not_mem_nil

end Covers

/-! ## What the heap keeps -/

/-- Where an object is for the callers. -/
inductive Whose where
  | callers
  | pool

def objectsAt (C : Config) (q : Objects) : Whose → List Nat
  | .callers => q.held
  | .pool => q.released.map C.slot

omit [DecidableEq ι] in
theorem Objects.placed_step (h : Placed (objectsAt C q) (· ∈ q.created))
    (hs : (objects C ι).step q e q') :
    Placed (objectsAt C q') (· ∈ q'.created) := by
  cases e with
  | tau | exited t =>
      cases hs
      exact h
  | acquired t item =>
      by_cases hrel : item ∈ q.released
      · simp only [objects, if_pos hrel] at hs
        subst hs
        refine h.move (p := .pool) (q := .callers) (fun he => nomatch he) [C.slot item]
          ((List.perm_cons_erase hrel).map C.slot) (.refl _) fun r hp hq => ?_
        cases r with
        | callers => exact absurd rfl hq
        | pool => exact absurd rfl hp
      · simp only [objects, if_neg hrel] at hs
        obtain ⟨hslot, -, rfl⟩ := hs
        have hperm :
            ([Whose.callers].flatMap
              (objectsAt C ⟨q.released, C.slot item :: q.created, C.slot item :: q.held⟩)).Perm
              ([C.slot item] ++ [Whose.callers].flatMap (objectsAt C q)) := .refl _
        have hcreate := h.create [.callers] (List.nodup_singleton _)
            (fun x hx => List.mem_singleton.mp hx ▸ hslot)
          (List.nodup_singleton _) hperm fun p hp => ?_
        · simpa only [List.mem_cons, List.mem_singleton, List.not_mem_nil, or_false] using hcreate
        · cases p with
          | callers => exact absurd (List.mem_singleton.mpr rfl) hp
          | pool => exact .refl _
  | released t item =>
      obtain ⟨hmem, rfl⟩ := hs
      refine h.move (p := .callers) (q := .pool) (fun he => nomatch he) [C.slot item]
        (List.perm_cons_erase hmem) (.refl _) fun r hp hq => ?_
      cases r with
      | callers => exact absurd rfl hp
      | pool => exact absurd rfl hq

omit [DecidableEq ι] in
theorem Objects.placed_run {es : List (Event ι)} (h : (objects C ι).Run es q) :
    Placed (objectsAt C q) (· ∈ q.created) := by
  refine h.invariant (fun q hq => ?_) fun _ _ _ hp hs => Objects.placed_step hp hs
  cases hq
  refine ⟨fun p => ?_, fun {p _ x} hx => ?_, fun x => ⟨fun hx => absurd hx List.not_mem_nil, ?_⟩⟩
  · cases p <;> exact List.nodup_nil
  · cases p <;> exact absurd hx List.not_mem_nil
  · rintro ⟨p, hx⟩
    cases p <;> exact absurd hx List.not_mem_nil

/-! ## Over the stacks -/

variable {f f' : Composed ι}

theorem Covers.composed_step {e : Event ι × Stack.Event ι} (hc : Covers C f.pool q)
    (h : Composed.Inv C f)
    (hs : Composed.Step C f e f') (hfew : Stack.FewPushes f.shared e.2) :
    Composed.Inv C f' ∧ ∃ q', (objects C ι).step q e.1 q' ∧ Covers C f'.pool q' := by
  obtain ⟨hinv, -, hpool⟩ := h.step hs hfew
  refine ⟨hinv, ?_⟩
  rcases hpool with hstep | ⟨htau, hsame⟩
  · exact hc.step h.pool hstep
  · rw [htau]
    exact ⟨q, rfl, hsame ▸ hc⟩

end

end PBase.Pool
