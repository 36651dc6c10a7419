/-
# `PBase.TimerControl.Exclusion` — running and cancelling exclude each other

`Timer::version` counts: a timer in its `g`-th use of a slot is pending at `3g`, running at
`3g + 1`, over at `3g + 2`, and the next use starts at `3(g + 1)`, all modulo 2^32.  The
invariant reads the history off the version (`Word`): pending means not called and not
cancelled, running means called and not cancelled, over means one of the two, once.  A
cancel or a call is a CAS from `3g`, so it can only be the first.

A `cancel_timer` with an old id compares against the version of its own use.  The slot has
been used fewer than 2^30 times since, so the word it may meet is less than 2^32 further
on and differs from the one it expects, unless no later use has stored its version yet.
-/
import PBase.TimerControl.Ownership

namespace PBase.TimerControl

open PBase.Lib

/-! ## Histories -/

/-- The event is a successful cancel for the timer `k`. -/
def Event.cancels (k : Key) : Event → Bool
  | .cancelled k' _ => k' = k
  | _ => false

/-- How often the `func` of `k` was called. -/
def calls (es : List Event) (k : Key) : Nat := es.count (.called k)

/-- How many `cancel_timer` calls for `k` returned 0. -/
def cancels (es : List Event) (k : Key) : Nat := es.countP (Event.cancels k)

def ends (es : List Event) (k : Key) : Nat := calls es k + cancels es k

/-- The event ends no timer. -/
def Event.Neutral (e : Event) : Prop := ∀ k, e ≠ .called k ∧ e.cancels k = false

section Histories
variable {es : List Event} {e : Event} {k : Key}

theorem calls_snoc : calls (es ++ [e]) k = calls es k + if e = .called k then 1 else 0 := by
  simp [calls, List.count_append, List.count_singleton]

theorem cancels_snoc :
    cancels (es ++ [e]) k = cancels es k + if e.cancels k then 1 else 0 := by
  simp [cancels, List.countP_append, List.countP_singleton]

theorem calls_neutral (h : e.Neutral) : calls (es ++ [e]) k = calls es k := by
  rw [calls_snoc, if_neg (h k).1, Nat.add_zero]

theorem cancels_neutral (h : e.Neutral) : cancels (es ++ [e]) k = cancels es k := by
  rw [cancels_snoc, (h k).2]
  rfl

theorem ends_neutral (h : e.Neutral) : ends (es ++ [e]) k = ends es k := by
  rw [ends, ends, calls_neutral h, cancels_neutral h]

theorem calls_called : calls (es ++ [.called k]) k = calls es k + 1 := by
  rw [calls_snoc, if_pos rfl]

theorem cancels_called {k' : Key} : cancels (es ++ [.called k']) k = cancels es k := by
  rw [cancels_snoc]
  rfl

theorem calls_called_ne {k' : Key} (hk : k ≠ k') : calls (es ++ [.called k']) k = calls es k := by
  rw [calls_snoc, if_neg (by simpa using hk.symm), Nat.add_zero]

theorem calls_cancelled {k' hit : Key} : calls (es ++ [.cancelled k' hit]) k = calls es k := by
  rw [calls_snoc, if_neg (by simp), Nat.add_zero]

theorem cancels_cancelled {hit : Key} :
    cancels (es ++ [.cancelled k hit]) k = cancels es k + 1 := by
  simp [cancels_snoc, Event.cancels]

theorem cancels_cancelled_ne {k' hit : Key} (hk : k ≠ k') :
    cancels (es ++ [.cancelled k' hit]) k = cancels es k := by
  simp [cancels_snoc, Event.cancels, hk.symm]

end Histories

/-! ## A slot goes back when its timer is over -/

/-- The version at which the `g`-th timer of a slot is pending. -/
def ver (g : Nat) : Nat := 3 * g % 2 ^ 32

/-- Timers that were called, or whose version was seen to have moved. -/
def RunPc.moved : RunPc → List Nat
  | .scanAssert _ _ tmp | .scanRelease _ _ tmp | .topAssert tmp | .topRelease tmp
  | .calling tmp _ | .runStore tmp _ | .runAssert tmp _ | .runRelease tmp => [tmp]
  | _ => []

/-- The first timer of the heap, while the thread is busy with it. -/
def RunPc.first : RunPc → List Nat
  | .topAssert tmp | .topRelease tmp | .clock tmp => [tmp]
  | _ => []

/-- `Run` has left its loop. -/
def RunPc.Past : RunPc → Prop
  | .exit _ | .exited | .aborted _ => True
  | _ => False

/-- The timer was called, or a cancel changed its version. -/
def Over (es : List Event) (k : Key) : Prop :=
  Event.called k ∈ es ∨ ∃ k', Event.cancelled k' k ∈ es

theorem Over.snoc {es : List Event} {k : Key} (h : Over es k) (e : Event) : Over (es ++ [e]) k :=
  h.imp (List.mem_append_left _) fun ⟨k', hk'⟩ => ⟨k', List.mem_append_left _ hk'⟩

variable {ι : Type}

structure Settled (es : List Event) (s : State ι) : Prop where
  word : ∀ x, 0 < (s.mem x).stored →
    (s.mem x).version = ver (s.mem x).stored ∨ Over es (x, (s.mem x).stored)
  moved : ∀ x ∈ s.run.moved, Over es (x, (s.mem x).uses)
  first : ∀ x ∈ s.run.first, x ∈ s.tmHeap
  back : ∀ k, Event.released k ∈ es → Over es k ∨ s.run.Past

/-- The version `add_timer` stores for the timer. -/
theorem high_raw {id : TimerId} (h : id.raw = mkId (low id.raw) id.gen) :
    high id.raw = ver id.gen := by
  rw [h]
  exact high_mkId _ (Nat.mod_lt _ (by decide))

theorem Owned.baseVersion {es : List Event} {s : State ι} (ho : Owned es s) {x : Nat}
    (hx : Queued s x) : baseVersion (s.mem x).timerId = ver (s.mem x).stored ∧
      (s.mem x).stored = (s.mem x).uses ∧ 0 < (s.mem x).stored := by
  obtain ⟨hid, hstored⟩ := ho.queued x hx
  have hpos := ho.used x (ho.created_of_queued hx)
  refine ⟨?_, hstored, hstored ▸ hpos⟩
  rw [hid, hstored]
  exact high_mkId _ (ho.lt_of_queued hx)

namespace Settled

variable {es : List Event} {s s' : State ι} {e : Event}

/-- A version that has moved belongs to a timer that is over. -/
theorem over_of_ne (h : Settled es s) (ho : Owned es s) {x : Nat} (hx : Queued s x)
    (hne : (s.mem x).version ≠ TimerControl.baseVersion (s.mem x).timerId) :
    Over es (x, (s.mem x).uses) := by
  obtain ⟨hbase, huses, hpos⟩ := ho.baseVersion hx
  rw [← huses]
  exact (h.word x hpos).resolve_left fun heq => hne (heq.trans hbase.symm)

theorem queued_moved (h : Settled es s) {x : Nat} (hx : x ∈ s.run.moved) : Queued s x := by
  have hfirst := h.first x
  cases hp : s.run <;> rw [hp] at hx hfirst <;> simp [RunPc.moved] at hx
  all_goals subst hx
  case topAssert | topRelease => exact .inr (.inl (hfirst (by simp [RunPc.first])))
  all_goals exact .inr (.inr (by simp [hp, RunPc.slots]))

/-- A step that moves the timer thread along, or leaves it where it is. -/
theorem of_step (h : Settled es s)
    (hword : ∀ x, 0 < (s'.mem x).stored →
      (s'.mem x).version = ver (s'.mem x).stored ∨ Over (es ++ [e]) (x, (s'.mem x).stored) ∨
      ((s'.mem x).version = (s.mem x).version ∧ (s'.mem x).stored = (s.mem x).stored))
    (hmoved : ∀ x ∈ s'.run.moved, Over (es ++ [e]) (x, (s'.mem x).uses) ∨
      (x ∈ s.run.moved ∧ (s'.mem x).uses = (s.mem x).uses))
    (hfirst : ∀ x ∈ s'.run.first, x ∈ s'.tmHeap) (hpast : s.run.Past → s'.run.Past)
    (hback : ∀ k, e = .released k → Over es k ∨ s'.run.Past) : Settled (es ++ [e]) s' where
  word x hx := by
    rcases hword x hx with hv | hv | ⟨hv, hs⟩
    · exact .inl hv
    · exact .inr hv
    · rw [hv, hs]
      exact (h.word x (hs ▸ hx)).imp_right fun ho => ho.snoc e
  moved x hx := by
    rcases hmoved x hx with hv | ⟨hv, hu⟩
    · exact hv
    · rw [hu]
      exact (h.moved x hv).snoc e
  first := hfirst
  back k hk := by
    rcases List.mem_append.mp hk with hk | hk
    · exact (h.back k hk).imp (fun ho => ho.snoc e) hpast
    · exact (hback k (List.mem_singleton.mp hk).symm).imp_left fun ho => ho.snoc e

/-- A step of the timer thread that writes no version and releases nothing. -/
theorem goto (h : Settled es s) (hmem : s'.mem = s.mem) (he : ∀ k, e ≠ .released k)
    (hmoved : ∀ x ∈ s'.run.moved, Over es (x, (s.mem x).uses) ∨ x ∈ s.run.moved)
    (hfirst : ∀ x ∈ s'.run.first, x ∈ s'.tmHeap) (hpast : s.run.Past → s'.run.Past) :
    Settled (es ++ [e]) s' :=
  h.of_step (fun x _ => by simp [hmem])
    (fun x hx => (hmoved x hx).imp (fun ho => by rw [hmem]; exact ho.snoc e)
      fun hm => ⟨hm, by rw [hmem]⟩)
    hfirst hpast (fun k hk => absurd hk (he k))

theorem runStep (h : Settled es s) (ho : Owned es s) {n : Nat} (hs : RunStep n s e s') :
    Settled (es ++ [e]) s' := by
  cases hs with
  | stopNotSet ht _ | stopSet ht _ | resetMin ht | drain ht _ | drainEnd ht _ | scanEnd ht
  | scanPush ht _ _ _ | heapEmpty ht _ | clockEarly ht _ | clockDue ht _ _ _ _
  | loadSignal ht | loadMin ht | decideWait ht _ | decideNoWait ht _ | waitBlock ht _
  | waitReturn ht _ | timeout ht =>
      exact h.goto rfl (by simp) (by simp [State.goto, RunPc.moved])
        (by simp [State.goto, RunPc.first]) (by simp [ht, RunPc.Past])
  | callReturn ht =>
      exact h.goto rfl (by simp) (by simp [State.goto, RunPc.moved, ht])
        (by simp [State.goto, RunPc.first]) (by simp [ht, RunPc.Past])
  | exitEnd ht =>
      refine h.goto rfl (by simp) ?_ ?_ ?_ <;> simp only [State.goto] <;> split <;>
        simp [RunPc.moved, RunPc.first, RunPc.Past]
  | topMatch ht hheap _ =>
      exact h.goto rfl (by simp) (by simp [State.goto, RunPc.moved])
        (by simp [State.goto, RunPc.first, hheap]) (by simp [ht, RunPc.Past])
  | scanMismatch ht hne =>
      have hover := h.over_of_ne ho (.inr (.inr (by simp [ht, RunPc.slots]))) hne
      exact h.goto rfl (by simp) (by simpa [State.goto, RunPc.moved] using .inl hover)
        (by simp [State.goto, RunPc.first]) (by simp [ht, RunPc.Past])
  | topMismatch ht hheap hne =>
      have hover := h.over_of_ne ho (.inr (.inl (by simp [hheap]))) hne
      exact h.goto rfl (by simp) (by simpa [State.goto, RunPc.moved] using .inl hover)
        (by simp [State.goto, RunPc.first, hheap]) (by simp [ht, RunPc.Past])
  | runCasFail ht hne =>
      have hover := h.over_of_ne ho (.inr (.inr (by simp [ht, RunPc.slots]))) hne
      exact h.goto rfl (by simp) (by simpa [State.goto, RunPc.moved] using .inl hover)
        (by simp [State.goto, RunPc.first]) (by simp [ht, RunPc.Past])
  | scanAssert ht | runAssert ht =>
      refine h.goto rfl (by simp) ?_ ?_ (by simp [ht, RunPc.Past]) <;> simp only [State.goto] <;>
        split <;> simp [RunPc.moved, RunPc.first, ht]
  | @topAssert tmp ht =>
      have hfirst := h.first tmp (by simp [ht, RunPc.first])
      refine h.goto rfl (by simp) ?_ ?_ (by simp [ht, RunPc.Past]) <;> simp only [State.goto] <;>
        split <;> simp [RunPc.moved, RunPc.first, ht, hfirst]
  | @runCas tmp ht _ =>
      have hu := (ho.baseVersion (x := tmp) (.inr (.inr (by simp [ht, RunPc.slots])))).2.1
      have hcalled : Over (es ++ [.called (s.keyOf tmp)]) (s.keyOf tmp) := .inl (by simp)
      refine h.of_step (fun x _ => ?_) ?_ (by simp [State.goto, RunPc.first])
        (by simp [ht, RunPc.Past]) (by simp)
      · by_cases hx : x = tmp
        · subst hx
          right; left
          simpa [State.goto, State.setVersion, hu, State.keyOf] using hcalled
        · simp [State.goto, State.setVersion, Function.update_of_ne hx]
      · simpa [State.goto, State.setVersion, RunPc.moved] using .inl hcalled
  | @runStore tmp base ht =>
      have hu := (ho.baseVersion (x := tmp) (.inr (.inr (by simp [ht, RunPc.slots])))).2.1
      have hover := (h.moved tmp (by simp [ht, RunPc.moved])).snoc .tau
      refine h.of_step (fun x _ => ?_) ?_ (by simp [State.goto, RunPc.first])
        (by simp [ht, RunPc.Past]) (by simp)
      · by_cases hx : x = tmp
        · subst hx
          right; left
          simpa [State.goto, State.setVersion, hu] using hover
        · simp [State.goto, State.setVersion, Function.update_of_ne hx]
      · simpa [State.goto, State.setVersion, RunPc.moved] using .inl hover
  | scanRelease ht | topRelease ht _ _ _ | runRelease ht =>
      have hover := h.moved _ (by rw [ht]; exact List.mem_singleton_self _)
      refine h.of_step (fun x _ => by simp [State.release]) (by simp [State.release, RunPc.moved])
        (by simp [State.release, RunPc.first]) (by simp [ht, RunPc.Past]) ?_
      rintro k hk
      cases hk
      exact .inl hover
  | exitRelease ht =>
      exact h.of_step (fun x _ => by simp [State.release]) (by simp [State.release, RunPc.moved])
        (by simp [State.release, RunPc.first]) (fun _ => trivial) (fun _ _ => .inr trivial)

/-- A step of a client: the timer thread stays where it is, or is woken. -/
theorem client (h : Settled es s) (hrun : s'.run = s.run ∨ s'.run = s.run.wake)
    (hheap : s'.tmHeap = s.tmHeap) (he : ∀ k, e ≠ .released k)
    (huses : ∀ x, Queued s x → (s'.mem x).uses = (s.mem x).uses)
    (hword : ∀ x, 0 < (s'.mem x).stored →
      (s'.mem x).version = ver (s'.mem x).stored ∨ Over (es ++ [e]) (x, (s'.mem x).stored) ∨
      ((s'.mem x).version = (s.mem x).version ∧ (s'.mem x).stored = (s.mem x).stored)) :
    Settled (es ++ [e]) s' := by
  have hmoved : s'.run.moved = s.run.moved := by
    rcases hrun with hr | hr <;> rw [hr]
    cases s.run <;> rfl
  have hfirst : s'.run.first = s.run.first := by
    rcases hrun with hr | hr <;> rw [hr]
    cases s.run <;> rfl
  have hpast : s.run.Past → s'.run.Past := by
    rcases hrun with hr | hr <;> rw [hr]
    · exact id
    · cases s.run <;> exact id
  refine h.of_step hword (fun x hx => ?_) (fun x hx => ?_) hpast fun k hk => absurd hk (he k)
  · rw [hmoved] at hx
    exact .inr ⟨hx, huses x (h.queued_moved hx)⟩
  · rw [hfirst] at hx
    rw [hheap]
    exact h.first x hx

variable [DecidableEq ι] {t : ι}

theorem addStep (h : Settled es s) (ho : Owned es s) {n : Nat} (hs : AddStep n s t e s') :
    Settled (es ++ [e]) s' := by
  cases hs with
  | call _ _ | bucket _ _ | loadMin _ | cas _ _ | casFail _ | signal _ | ret _ =>
      exact h.client (.inl rfl) rfl (by simp) (fun _ _ => rfl) (fun x _ => .inr (.inr ⟨rfl, rfl⟩))
  | wake _ =>
      exact h.client (.inr rfl) rfl (by simp) (fun _ _ => rfl) (fun x _ => .inr (.inr ⟨rfl, rfl⟩))
  | @acquire _ poolId _ hid =>
      refine h.client (.inl rfl) rfl (by simp) (fun x hx => ?_) (fun x _ => .inr (.inr ?_))
      · have hne : x ≠ low poolId := fun heq =>
          ho.not_pool_of_queued hx (heq ▸ List.mem_map_of_mem hid)
        simp [Function.update_of_ne hne]
      · by_cases hx : x = low poolId
        · subst hx; simp
        · simp [Function.update_of_ne hx]
  | @acquireNew _ slot _ _ _ hnew =>
      refine h.client (.inl rfl) rfl (by simp) (fun x hx => ?_) (fun x _ => .inr (.inr ?_))
      · have hne : x ≠ slot := fun heq => hnew (heq ▸ ho.created_of_queued hx)
        simp [Function.update_of_ne hne]
      · by_cases hx : x = slot
        · subst hx; simp
        · simp [Function.update_of_ne hx]
  | @write id _ _ =>
      refine h.client (.inl rfl) rfl (by simp) (fun x hx => ?_) (fun x _ => .inr (.inr ?_)) <;>
        by_cases hx : x = low id.raw
      · subst hx; simp
      · simp [Function.update_of_ne hx]
      · subst hx; simp
      · simp [Function.update_of_ne hx]
  | @store id _ ht =>
      have hok := ho.client t
      rw [ht] at hok
      have hver := high_raw hok.1.raw
      refine h.client (.inl rfl) rfl (by simp) (fun x hx => ?_) (fun x _ => ?_) <;>
        by_cases hx : x = low id.raw
      · subst hx; simp
      · simp [Function.update_of_ne hx]
      · subst hx
        exact .inl (by simp [hver])
      · simp [Function.update_of_ne hx]

theorem cancelStep (h : Settled es s) (hs : CancelStep s t e s') : Settled (es ++ [e]) s' := by
  cases hs with
  | call _ _ | mismatch _ _ | «match» _ _ | casFail _ _ | load _ =>
      exact h.client (.inl rfl) rfl (by simp) (fun _ _ => rfl) (fun x _ => .inr (.inr ⟨rfl, rfl⟩))
  | @cas id _ _ =>
      refine h.client (.inl rfl) rfl (by simp) (fun x _ => ?_) (fun x _ => ?_) <;>
        by_cases hx : x = low id.raw
      · subst hx; simp [State.clientGoto, State.setVersion]
      · simp [State.clientGoto, State.setVersion, Function.update_of_ne hx]
      · subst hx
        right; left
        exact .inr ⟨id.key, by simp [State.clientGoto, State.setVersion]⟩
      · simp [State.clientGoto, State.setVersion, Function.update_of_ne hx]

theorem stopStep (h : Settled es s) (hs : StopStep s t e s') : Settled (es ++ [e]) s' := by
  cases hs with
  | call _ _ | store _ | signal _ | join _ _ =>
      exact h.client (.inl rfl) rfl (by simp) (fun _ _ => rfl) (fun x _ => .inr (.inr ⟨rfl, rfl⟩))
  | wake _ =>
      exact h.client (.inr rfl) rfl (by simp) (fun _ _ => rfl) (fun x _ => .inr (.inr ⟨rfl, rfl⟩))

theorem step (h : Settled es s) (ho : Owned es s) {n : Nat} (hs : Step n s e s') :
    Settled (es ++ [e]) s' := by
  cases hs with
  | run hs => exact h.runStep ho hs
  | add t hs => exact h.addStep ho hs
  | cancel t hs => exact h.cancelStep hs
  | stop t hs => exact h.stopStep hs

end Settled

/-- In every run, a slot goes back only when its timer was called or hit by a cancel, or
when `Run` has left its loop. -/
theorem run_settled [DecidableEq ι] {n : Nat} {es : List Event} {s : State ι}
    (h : (timerSystem n ι).Run es s) : Settled es s := by
  induction h with
  | @start s h₀ =>
      obtain ⟨hmem, _, _, _, _, _, _, hrun, _⟩ := h₀
      refine ⟨fun x hx => ?_, ?_, ?_, fun k hk => absurd hk List.not_mem_nil⟩
      · rw [(hmem x).2] at hx
        exact absurd hx (Nat.lt_irrefl 0)
      · simp [hrun, RunPc.moved]
      · simp [hrun, RunPc.first]
  | next hr hs ih => exact ih.step (run_owned hr) hs.2

/-! ## Calls and cancels exclude each other -/

/-- Fewer than 2^30 timers have used the slot since the one a successful cancel is for. -/
def FewReuses (s : State ι) : Event → Prop
  | .cancelled k _ => (s.mem k.1).uses < k.2 + 2 ^ 30
  | _ => True

/-- What the version of a slot says about the timer that stored it. -/
def Word (es : List Event) (s : State ι) (x : Nat) : Prop :=
  let g := (s.mem x).stored
  ((s.mem x).version = ver g ∧ calls es (x, g) = 0 ∧ cancels es (x, g) = 0) ∨
    ((s.mem x).version = addVersion (ver g) 1 ∧ calls es (x, g) = 1 ∧ cancels es (x, g) = 0) ∨
    ((s.mem x).version = addVersion (ver g) 2 ∧ ends es (x, g) = 1)

/-- The timer whose `func` runs, and its `base_version`. -/
def RunPc.running : RunPc → List (Nat × Nat)
  | .calling tmp base | .runStore tmp base => [(tmp, base)]
  | _ => []

structure Exclusive (es : List Event) (s : State ι) : Prop where
  word : ∀ x, 0 < (s.mem x).stored → Word es s x
  once : ∀ k, ends es k ≤ 1
  fresh : ∀ k : Key, (s.mem k.1).stored < k.2 → ends es k = 0
  running : ∀ p ∈ s.run.running, (s.mem p.1).version = addVersion (ver (s.mem p.1).stored) 1 ∧
    p.2 = ver (s.mem p.1).stored
  hits : ∀ k hit, Event.cancelled k hit ∈ es → hit = k

theorem ver_ne_one (g : Nat) : addVersion (ver g) 1 ≠ ver g := by
  unfold addVersion ver
  omega

theorem ver_ne_two (g : Nat) : addVersion (ver g) 2 ≠ ver g := by
  unfold addVersion ver
  omega

theorem one_ne_two (v : Nat) : addVersion v 1 ≠ addVersion v 2 := by
  unfold addVersion
  omega

/-- A timer is written, but not its version. -/
theorem update_words {s : State ι} {y : Nat} {m : Timer}
    (hm : m.version = (s.mem y).version ∧ m.stored = (s.mem y).stored) (x : Nat) :
    (Function.update s.mem y m x).version = (s.mem x).version ∧
      (Function.update s.mem y m x).stored = (s.mem x).stored :=
  (Function.forall_update_iff s.mem fun x tm => tm.version = (s.mem x).version ∧
    tm.stored = (s.mem x).stored).mpr ⟨hm, fun _ _ => ⟨rfl, rfl⟩⟩ x

theorem queued_running {s : State ι} {p : Nat × Nat} (hp : p ∈ s.run.running) :
    Queued s p.1 := by
  cases hr : s.run <;> rw [hr] at hp <;> simp [RunPc.running] at hp
  all_goals
    subst hp
    exact .inr (.inr (by simp [hr, RunPc.slots]))

namespace Exclusive

variable {es : List Event} {s s' : State ι} {e : Event}

theorem word_same {x : Nat} (h : Word es s x)
    (hcalls : calls (es ++ [e]) (x, (s.mem x).stored) = calls es (x, (s.mem x).stored))
    (hcancels : cancels (es ++ [e]) (x, (s.mem x).stored) = cancels es (x, (s.mem x).stored))
    (hmem : (s'.mem x).version = (s.mem x).version ∧ (s'.mem x).stored = (s.mem x).stored) :
    Word (es ++ [e]) s' x := by
  simp only [Word, ends, hmem.1, hmem.2, hcalls, hcancels]
  exact h

/-- A step that ends no timer and writes no version. -/
theorem keep (h : Exclusive es s) (hn : e.Neutral)
    (hmem : ∀ x, (s'.mem x).version = (s.mem x).version ∧ (s'.mem x).stored = (s.mem x).stored)
    (hrunning : ∀ p ∈ s'.run.running, p ∈ s.run.running) : Exclusive (es ++ [e]) s' where
  word x hx := word_same (h.word x ((hmem x).2 ▸ hx)) (calls_neutral hn) (cancels_neutral hn)
    (hmem x)
  once k := by rw [ends_neutral hn]; exact h.once k
  fresh k hk := by rw [ends_neutral hn]; exact h.fresh k ((hmem k.1).2 ▸ hk)
  running p hp := by
    rw [(hmem p.1).1, (hmem p.1).2]
    exact h.running p (hrunning p hp)
  hits k hit hk := by
    rcases List.mem_append.mp hk with hk | hk
    · exact h.hits k hit hk
    · have := (hn k).2
      rw [← List.mem_singleton.mp hk] at this
      simp [Event.cancels] at this

theorem pending_of_eq (h : Exclusive es s) {x : Nat} (hpos : 0 < (s.mem x).stored)
    (heq : (s.mem x).version = ver (s.mem x).stored) :
    calls es (x, (s.mem x).stored) = 0 ∧ cancels es (x, (s.mem x).stored) = 0 := by
  rcases h.word x hpos with ⟨_, hzero⟩ | ⟨hv, _⟩ | ⟨hv, _⟩
  · exact hzero
  · exact absurd (hv.symm.trans heq) (ver_ne_one _)
  · exact absurd (hv.symm.trans heq) (ver_ne_two _)

/-- The CAS of `run_and_delete`: the timer was pending. -/
theorem runCas (h : Exclusive es s) (ho : Owned es s) {tmp : Nat} (ht : s.run = .runCas tmp)
    (hv : (s.mem tmp).version = baseVersion (s.mem tmp).timerId) :
    Exclusive (es ++ [.called (s.keyOf tmp)])
      ((s.setVersion tmp (addVersion (baseVersion (s.mem tmp).timerId) 1)).goto
        (.calling tmp (baseVersion (s.mem tmp).timerId))) := by
  obtain ⟨hbase, huses, hpos⟩ := ho.baseVersion (x := tmp)
    (.inr (.inr (by simp [ht, RunPc.slots])))
  have hkey : s.keyOf tmp = (tmp, (s.mem tmp).stored) := by rw [State.keyOf, huses]
  obtain ⟨hcalls, hcancels⟩ := h.pending_of_eq hpos (hv.trans hbase)
  rw [hkey, hbase]
  refine ⟨fun x hx => ?_, fun k => ?_, fun k hk => ?_, fun p hp => ?_, fun k hit hk => ?_⟩
  · by_cases hxt : x = tmp
    · subst hxt
      right; left
      simp [State.goto, State.setVersion, calls_called, cancels_called, hcalls, hcancels]
    · have hmem : (((s.setVersion tmp (addVersion (ver (s.mem tmp).stored) 1)).goto
          (.calling tmp (ver (s.mem tmp).stored))).mem x) = s.mem x := by
        simp [State.goto, State.setVersion, Function.update_of_ne hxt]
      rw [hmem] at hx
      exact word_same (h.word x hx) (calls_called_ne (by simp [hxt])) cancels_called
          (by simp [hmem])
  · by_cases hk : k = (tmp, (s.mem tmp).stored)
    · subst hk
      rw [ends, calls_called, cancels_called, hcalls, hcancels]
    · rw [ends, calls_called_ne hk, cancels_called]
      exact h.once k
  · have hstored : ∀ x, (((s.setVersion tmp (addVersion (ver (s.mem tmp).stored) 1)).goto
        (.calling tmp (ver (s.mem tmp).stored))).mem x).stored = (s.mem x).stored :=
      fun x => (Agree.setVersion s tmp _ x).2.1
    rw [hstored] at hk
    have hne : k ≠ (tmp, (s.mem tmp).stored) := by
      rintro rfl
      exact Nat.lt_irrefl _ hk
    rw [ends, calls_called_ne hne, cancels_called]
    exact h.fresh k hk
  · cases List.mem_singleton.mp hp
    simp [State.goto, State.setVersion]
  · exact h.hits k hit (by simpa using hk)

/-- The store after `func` returned. -/
theorem runStore (h : Exclusive es s) (ho : Owned es s) {tmp base : Nat}
    (ht : s.run = .runStore tmp base) :
    Exclusive (es ++ [.tau]) ((s.setVersion tmp (addVersion base 2)).goto (.runRelease tmp)) := by
  have hpos := (ho.baseVersion (x := tmp) (.inr (.inr (by simp [ht, RunPc.slots])))).2.2
  obtain ⟨hv, hbase⟩ := h.running (tmp, base) (by simp [ht, RunPc.running])
  simp only at hv hbase
  have hn : Event.tau.Neutral := fun k => ⟨by simp, rfl⟩
  have hends : ends es (tmp, (s.mem tmp).stored) = 1 := by
    rcases h.word tmp hpos with ⟨hw, _⟩ | ⟨_, hcalls, hcancels⟩ | ⟨hw, _⟩
    · exact absurd (hv.symm.trans hw) (ver_ne_one _)
    · rw [ends, hcalls, hcancels]
    · exact absurd (hv.symm.trans hw) (one_ne_two _)
  refine ⟨fun x hx => ?_, fun k => ?_, fun k hk => ?_, ?_, fun k hit hk => ?_⟩
  · by_cases hxt : x = tmp
    · subst hxt
      right; right
      simp [State.goto, State.setVersion, hbase, ends_neutral hn, hends]
    · have hmem : ((s.setVersion tmp (addVersion base 2)).goto (.runRelease tmp)).mem x
          = s.mem x := by
        simp [State.goto, State.setVersion, Function.update_of_ne hxt]
      rw [hmem] at hx
      exact word_same (h.word x hx) (calls_neutral hn) (cancels_neutral hn) (by simp [hmem])
  · rw [ends_neutral hn]; exact h.once k
  · rw [ends_neutral hn]
    exact h.fresh k ((Agree.setVersion s tmp _ k.1).2.1 ▸ hk)
  · simp [State.goto, RunPc.running]
  · exact h.hits k hit (by simpa using hk)

theorem runStep (h : Exclusive es s) (ho : Owned es s) {n : Nat} (hs : RunStep n s e s') :
    Exclusive (es ++ [e]) s' := by
  cases hs with
  | stopNotSet ht _ | stopSet ht _ | resetMin ht | drain ht _ | drainEnd ht _ | scanEnd ht
  | scanPush ht _ _ _ | heapEmpty ht _ | clockEarly ht _ | clockDue ht _ _ _ _ | scanMismatch ht _
  | topMatch ht _ _ | topMismatch ht _ _ | runCasFail ht _ | scanRelease ht | topRelease ht _ _ _
  | runRelease ht | exitRelease ht | loadSignal ht | loadMin ht | decideWait ht _
  | decideNoWait ht _ | waitBlock ht _ | waitReturn ht _ | timeout ht | callReturn ht =>
      exact h.keep (fun k => ⟨by simp, rfl⟩) (fun x => ⟨rfl, rfl⟩)
        (by simp [State.goto, State.release, RunPc.running, ht])
  | scanAssert ht | topAssert ht | runAssert ht | exitEnd ht =>
      refine h.keep (fun k => ⟨by simp, rfl⟩) (fun x => ⟨rfl, rfl⟩) ?_
      simp only [State.goto]
      split <;> simp [RunPc.running]
  | runCas ht hv => exact h.runCas ho ht hv
  | runStore ht => exact h.runStore ho ht

variable [DecidableEq ι] {t : ι}

theorem running_wake (p : RunPc) : p.wake.running = p.running := by cases p <;> rfl

/-- A new timer stores its version: it was never called and never cancelled. -/
theorem store (h : Exclusive es s) (ho : Owned es s) {id : TimerId} {r : Nat}
    (ht : s.client t = .addStore id r) :
    Exclusive (es ++ [.tau]) { s with
      mem := Function.update s.mem (low id.raw)
        { s.mem (low id.raw) with version := high id.raw, stored := id.gen }
      client := Function.update s.client t (.addBucket id r) } := by
  have hok := ho.client t
  rw [ht] at hok
  obtain ⟨hheld, hstored, _⟩ := hok
  have hmem : low id.raw ∈ slotsAt s (.client t) := by simp [slotsAt, ht, ClientPc.slots]
  have hver := high_raw hheld.raw
  have hn : Event.tau.Neutral := fun k => ⟨by simp, rfl⟩
  have hnew : ends es (low id.raw, id.gen) = 0 := h.fresh _ (by simp only; omega)
  refine ⟨fun x hx => ?_, fun k => ?_, fun k hk => ?_, fun p hp => ?_, fun k hit hk => ?_⟩
  · by_cases hxt : x = low id.raw
    · subst hxt
      left
      have hzero := Nat.add_eq_zero_iff.mp hnew
      simp [calls_neutral hn, cancels_neutral hn, hver, hzero]
    · simp only [Function.update_of_ne hxt] at hx
      exact word_same (h.word x hx) (calls_neutral hn) (cancels_neutral hn)
        (by simp [Function.update_of_ne hxt])
  · rw [ends_neutral hn]; exact h.once k
  · rw [ends_neutral hn]
    refine h.fresh k ?_
    by_cases hxt : k.1 = low id.raw
    · simp only [hxt, Function.update_self] at hk ⊢
      omega
    · simpa [Function.update_of_ne hxt] using hk
  · have hxt : p.1 ≠ low id.raw := fun heq =>
      ho.not_queued_of_client hmem (heq ▸ queued_running (s := s) hp)
    simpa [Function.update_of_ne hxt] using h.running p hp
  · exact h.hits k hit (by simpa using hk)

theorem addStep (h : Exclusive es s) (ho : Owned es s) {n : Nat} (hs : AddStep n s t e s') :
    Exclusive (es ++ [e]) s' := by
  cases hs with
  | call _ _ | bucket _ _ | loadMin _ | cas _ _ | casFail _ | signal _ | ret _ =>
      exact h.keep (fun k => ⟨by simp, rfl⟩) (fun x => ⟨rfl, rfl⟩) (fun p hp => hp)
  | wake _ =>
      exact h.keep (fun k => ⟨by simp, rfl⟩) (fun x => ⟨rfl, rfl⟩)
        (by simp [running_wake])
  | acquire _ _ | acquireNew _ _ _ _ | write _ =>
      exact h.keep (fun k => ⟨by simp, rfl⟩) (update_words ⟨rfl, rfl⟩) (fun p hp => hp)
  | store ht => exact h.store ho ht

theorem stopStep (h : Exclusive es s) (hs : StopStep s t e s') : Exclusive (es ++ [e]) s' := by
  cases hs with
  | call _ _ | store _ | signal _ | join _ _ =>
      exact h.keep (fun k => ⟨by simp, rfl⟩) (fun x => ⟨rfl, rfl⟩) (fun p hp => hp)
  | wake _ =>
      exact h.keep (fun k => ⟨by simp, rfl⟩) (fun x => ⟨rfl, rfl⟩) (by simp [running_wake])

end Exclusive

/-! ### A cancel -/

section Cancel
variable {es : List Event} {s s' : State ι} {e : Event}

/-- The version of a slot lags behind its use count by one use at most. -/
theorem Owned.stored_le (ho : Owned es s) (x : Nat) : (s.mem x).stored ≤ (s.mem x).uses := by
  by_cases hx : x ∈ s.created
  · obtain ⟨pl, hpl⟩ := (ho.placed.cover x).mp hx
    cases pl with
    | pool =>
        obtain ⟨id, hid, rfl⟩ := List.mem_map.mp hpl
        exact Nat.le_of_eq (ho.pool id hid).2
    | bucket i => exact Nat.le_of_eq (ho.queued x (.inl ⟨i, hpl⟩)).2
    | heap => exact Nat.le_of_eq (ho.queued x (.inr (.inl hpl))).2
    | run => exact Nat.le_of_eq (ho.queued x (.inr (.inr hpl))).2
    | client t =>
        have hok := ho.client t
        simp only [slotsAt] at hpl
        cases hp : s.client t <;> rw [hp] at hok hpl <;> simp [ClientPc.slots] at hpl
        all_goals
          subst hpl
          have hgen := hok.1.gen
          have hstored := hok.2
        · omega
        · have := hstored.1; omega
        · have := hstored.1; omega
  · have := ho.unused x hx
    omega

/-- Within 2^30 uses of a slot, the versions tell the timers and their states apart. -/
theorem ver_inj {g g' d : Nat} (hle : g ≤ g') (hlt : g' < g + 2 ^ 30) (hd : d ≤ 2)
    (heq : ver g = addVersion (ver g') d) : g = g' ∧ d = 0 := by
  obtain ⟨j, rfl⟩ := Nat.exists_eq_add_of_le hle
  -- the words are `3j + d` apart, less than 2^32
  have hsum : 3 * g + (3 * j + d) ≡ 3 * g + 0 [MOD 2 ^ 32] := by
    unfold ver addVersion at heq
    unfold Nat.ModEq
    omega
  have hmod : (3 * j + d) % 2 ^ 32 = 0 := hsum.add_left_cancel'
  rw [Nat.mod_eq_of_lt (by omega)] at hmod
  omega

theorem Known.baseVersion {id : TimerId} (h : Known s id) : baseVersion id.raw = ver id.gen :=
    high_raw h.raw

/-- A successful cancel is for the timer that stored the version it met. -/
theorem Exclusive.hit_eq (h : Exclusive es s) (ho : Owned es s) {id : TimerId}
    (hid : id ∈ s.returned) (hv : (s.mem (low id.raw)).version = baseVersion id.raw)
    (hfew : (s.mem (low id.raw)).uses < id.gen + 2 ^ 30) :
    id.gen = (s.mem (low id.raw)).stored ∧
      (s.mem (low id.raw)).version = ver (s.mem (low id.raw)).stored := by
  obtain ⟨_, hpos, hle⟩ := ho.returned id hid
  have hbase := (ho.returned id hid).baseVersion
  have hlt : (s.mem (low id.raw)).stored < id.gen + 2 ^ 30 :=
    Nat.lt_of_le_of_lt (ho.stored_le _) hfew
  rw [hbase] at hv
  have hself : ∀ g, addVersion (ver g) 0 = ver g := fun g => by
    unfold addVersion ver
    omega
  rcases h.word _ (Nat.lt_of_lt_of_le hpos hle) with ⟨hw, _⟩ | ⟨hw, _⟩ | ⟨hw, _⟩
  · have := ver_inj hle hlt (Nat.zero_le 2) (by rw [hself, ← hv, hw])
    exact ⟨this.1, hw⟩
  · have := ver_inj hle hlt (d := 1) (by decide) (by rw [← hv, hw])
    omega
  · have := ver_inj hle hlt (d := 2) (by decide) (by rw [← hv, hw])
    omega

variable [DecidableEq ι] {t : ι}

theorem Exclusive.cancelCas (h : Exclusive es s) (ho : Owned es s) {id : TimerId}
    (ht : s.client t = .cancelCas id)
    (hv : (s.mem (low id.raw)).version = baseVersion id.raw)
    (hgen : id.gen = (s.mem (low id.raw)).stored) :
    Exclusive (es ++ [.cancelled id.key (low id.raw, (s.mem (low id.raw)).stored)])
      ((s.setVersion (low id.raw) (addVersion (baseVersion id.raw) 2)).clientGoto t .idle) := by
  have hid : id ∈ s.returned := by
    have := ho.client t; rwa [ht] at this
  have hver : (s.mem (low id.raw)).version = ver (s.mem (low id.raw)).stored := by
    rw [hv, ← hgen]
    exact (ho.returned id hid).baseVersion
  have hpos : 0 < (s.mem (low id.raw)).stored := hgen ▸ (ho.returned id hid).pos
  obtain ⟨hcalls, hcancels⟩ := h.pending_of_eq hpos hver
  have hkey : id.key = (low id.raw, (s.mem (low id.raw)).stored) := Prod.ext rfl hgen
  rw [hkey, ← hv, hver]
  generalize low id.raw = x₀ at *
  have hmem : ∀ x, x ≠ x₀ → ((s.setVersion x₀ (addVersion (ver (s.mem x₀).stored) 2)).clientGoto t
      .idle).mem x = s.mem x := fun x hx => by
    simp [State.clientGoto, State.setVersion, Function.update_of_ne hx]
  refine ⟨fun x hx => ?_, fun k => ?_, fun k hk => ?_, fun p hp => ?_, fun k hit hk => ?_⟩
  · by_cases hxt : x = x₀
    · subst hxt
      right; right
      simp [State.clientGoto, State.setVersion, ends, calls_cancelled, cancels_cancelled, hcalls,
        hcancels]
    · rw [hmem x hxt] at hx
      exact Exclusive.word_same (h.word x hx) calls_cancelled (cancels_cancelled_ne (by simp [hxt]))
        (by simp [hmem x hxt])
  · by_cases hk : k = (x₀, (s.mem x₀).stored)
    · subst hk
      rw [ends, calls_cancelled, cancels_cancelled, hcalls, hcancels]
    · rw [ends, calls_cancelled, cancels_cancelled_ne hk]
      exact h.once k
  · have hstored : (((s.setVersion x₀ (addVersion (ver (s.mem x₀).stored) 2)).clientGoto t
        .idle).mem k.1).stored = (s.mem k.1).stored := (Agree.setVersion s x₀ _ k.1).2.1
    rw [hstored] at hk
    have hne : k ≠ (x₀, (s.mem x₀).stored) := by
      rintro rfl
      exact Nat.lt_irrefl _ hk
    rw [ends, calls_cancelled, cancels_cancelled_ne hne]
    exact h.fresh k hk
  · -- the timer that runs is not pending
    have hxt : p.1 ≠ x₀ := by
      rintro rfl
      exact ver_ne_one _ ((h.running p hp).1.symm.trans hver)
    rw [hmem p.1 hxt]
    exact h.running p hp
  · rcases List.mem_append.mp hk with hk | hk
    · exact h.hits k hit hk
    · cases List.mem_singleton.mp hk
      rfl

/-- A successful cancel is on the timer its id is for. -/
def Event.Hits : Event → Prop
  | .cancelled k hit => hit = k
  | _ => True

theorem Exclusive.hits_of_few (h : Exclusive es s) (ho : Owned es s) {n : Nat}
    (hs : Step n s e s') (hfew : FewReuses s e) : e.Hits := by
  cases hs with
  | run hs => cases hs <;> trivial
  | add t hs => cases hs <;> trivial
  | stop t hs => cases hs <;> trivial
  | cancel t hs =>
      cases hs with
      | call _ _ | «match» _ _ | casFail _ _ | mismatch _ _ | load _ => trivial
      | cas ht hv =>
          have hid := ho.client t
          rw [ht] at hid
          exact Prod.ext rfl (h.hit_eq ho hid hv hfew).1.symm

theorem Exclusive.step (h : Exclusive es s) (ho : Owned es s) {n : Nat} (hs : Step n s e s')
    (hits : e.Hits) : Exclusive (es ++ [e]) s' := by
  cases hs with
  | run hs => exact h.runStep ho hs
  | add t hs => exact h.addStep ho hs
  | stop t hs => exact h.stopStep hs
  | cancel t hs =>
      cases hs with
      | call _ _ | «match» _ _ | casFail _ _ | mismatch _ _ | load _ =>
          exact h.keep (fun k => ⟨by simp, rfl⟩) (fun x => ⟨rfl, rfl⟩) (fun p hp => hp)
      | cas ht hv => exact h.cancelCas ho ht hv (congrArg Prod.snd hits).symm

end Cancel

/-! ## Every run -/

/-- No timer is called or cancelled yet. -/
theorem Exclusive.start [DecidableEq ι] {n : Nat} {s : State ι} (h₀ : (timerSystem n ι).init s) :
    Exclusive [] s := by
  obtain ⟨hmem, _, _, _, _, _, _, hrun, _⟩ := h₀
  refine ⟨fun x hx => ?_, fun k => Nat.zero_le _, fun _ _ => rfl, ?_,
    fun k hit hk => absurd hk List.not_mem_nil⟩
  · rw [(hmem x).2] at hx
    exact absurd hx (Nat.lt_irrefl 0)
  · simp [hrun, RunPc.running]

theorem run_exclusive [DecidableEq ι] {n : Nat} {es : List Event} {s : State ι}
    (h : ((timerSystem n ι).when FewReuses).Run es s) : Exclusive es s := by
  induction h with
  | start h₀ => exact .start (n := n) h₀
  | next hr hs ih =>
      have hown := run_owned hr.of_when
      exact ih.step hown hs.1.2 (ih.hits_of_few hown hs.1.2 hs.2)

/-- **Running and cancelling a timer exclude each other.**  For any clients and any order of
`add_timer`, `cancel_timer` and `stop_and_join` calls with the timer thread: the `func` of a
timer is called at most once; at most one `cancel_timer` for it returns 0, and then it is
never called, before or after; the version a successful cancel changes is that of the timer
the id is for, never of a newer one in the slot; and the slot of a timer is released at most
once, after the timer was called or cancelled unless the thread has left its loop. -/
theorem run_cancel_exclusive [DecidableEq ι] {n : Nat} {es : List Event} {s : State ι}
    (h : ((timerSystem n ι).when FewReuses).Run es s) :
    (∀ k, calls es k + cancels es k ≤ 1) ∧
      (∀ k hit, Event.cancelled k hit ∈ es → hit = k) ∧
      (∀ k, es.count (.released k) ≤ 1) ∧
      ∀ k, Event.released k ∈ es → calls es k + cancels es k = 1 ∨ s.run.Past := by
  have hex := run_exclusive h
  have hown := run_owned h.of_when
  refine ⟨hex.once, hex.hits, fun k => ?_, fun k hk => ?_⟩
  · rcases hown.back k with ⟨hone, _⟩ | ⟨hzero, _⟩ <;> omega
  · refine ((run_settled h.of_when).back k hk).imp_left fun hover => ?_
    have hle := hex.once k
    have hpos : 0 < ends es k := by
      rcases hover with hc | ⟨k', hc⟩
      · exact Nat.lt_of_lt_of_le (List.count_pos_iff.mpr hc) (Nat.le_add_right _ _)
      · cases hex.hits k' k hc
        refine Nat.lt_of_lt_of_le (List.countP_pos_iff.mpr ⟨_, hc, ?_⟩) (Nat.le_add_left _ _)
        simp [Event.cancels]
    exact Nat.le_antisymm hle hpos

/-- One client adds a timer for time 5 and cancels it: the cancel returns 0, and the timer
is never called. -/
theorem run_cancel_exclusive_added : ∃ es, ∃ s : State Unit,
    ((timerSystem 1 Unit).when FewReuses).Run es s ∧ Event.added (1, 1) 5 ∈ es ∧
    cancels es (1, 1) = 1 ∧ calls es (1, 1) = 0 := by
  have start : ((timerSystem 1 Unit).when FewReuses).Run [] (.zeroed Unit) :=
    .start (init_zeroed 1 Unit)
  have alive : ∀ tmList, RunPc.top ≠ .aborted tmList := fun _ h => nomatch h
  have held := ((start.next ⟨⟨alive, .add () (.call 5 rfl)⟩, trivial⟩).next
    ⟨⟨alive, .add () (.acquireNew rfl (show 0 < 1 by decide) (by decide) List.not_mem_nil)⟩,
      trivial⟩).next ⟨⟨alive, .add () (.write rfl)⟩, trivial⟩
  have queued := (held.next ⟨⟨alive, .add () (.store rfl)⟩, trivial⟩).next
    ⟨⟨alive, .add () (.bucket (i := 0) rfl (by decide))⟩, trivial⟩
  have waking := ((queued.next ⟨⟨alive, .add () (.loadMin rfl)⟩, trivial⟩).next
    ⟨⟨alive, .add () (.cas rfl rfl)⟩, trivial⟩).next ⟨⟨alive, .add () (.signal rfl)⟩, trivial⟩
  have added := (waking.next ⟨⟨alive, .add () (.wake rfl)⟩, trivial⟩).next
    ⟨⟨alive, .add () (.ret rfl)⟩, trivial⟩
  have run := ((added.next ⟨⟨alive, .cancel () (.call rfl List.mem_cons_self)⟩, trivial⟩).next
    ⟨⟨alive, .cancel () (.match rfl rfl)⟩, trivial⟩).next
    ⟨⟨alive, .cancel () (.cas rfl rfl)⟩, show 1 < 1 + 2 ^ 30 by decide⟩
  have honce := (run_cancel_exclusive run).1 (1, 1)
  refine ⟨_, _, run, by decide, rfl, ?_⟩
  exact Nat.le_zero.mp (Nat.le_of_add_le_add_right honce)

end PBase.TimerControl
