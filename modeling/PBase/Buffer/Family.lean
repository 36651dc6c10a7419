/-
# `PBase.Buffer.Family` — several buffers and their reference counts

A thread works on a finite family of buffers: it appends bytes to them, appends one to another, pops
from them, dumps their refs and releases these, and destroys them.  `State.held` are the blocks of
all refs there are.  A block has as many references as that, and one more if it is on the cache list
(`Exact`).

`acquire_block` drops the cache's reference on a full head.  If it is the last one, `release_block`
puts the block on the list again, at the place `acquire_block` then takes it from: it has a
reference that nobody holds, and is never found again (`counts_leak`).
-/
import PBase.Buffer.Fifo
import PBase.Buffer.Dump

namespace PBase.Buffer

open PBase.Lib

/-! ## The whole of a buffer -/

section
variable {w : World} {L : List Nat} {H : Multiset Nat} {z : ZBuffer}

/-- The loop of `~ZBuffer`. -/
theorem releaseRefs_eq {a : BlockRefArray} {i n : Nat} :
    releaseRefs a i n = releaseAll (a.list i n) := by
  induction n generalizing i with
  | zero => rfl
  | succ n ih =>
      rw [releaseRefs, ih]
      rfl

/-- `~ZBuffer()` -/
theorem destroy_eq : z.destroy = (do
    releaseAll z.list
    z.storage.release) := by
  cases z with
  | two first second =>
      have hone : ∀ ref : BlockRef, releaseAll ([ref].filter (·.block ≠ 0)) = ref.release :=
          fun ref => by
        rcases eq_or_ne ref.block 0 with h0 | hne
        · have hnil : [ref].filter (·.block ≠ 0) = [] := by simp [h0]
          rw [hnil, BlockRef.release, if_pos h0]
          rfl
        · have hone : [ref].filter (·.block ≠ 0) = [ref] := by simp [hne]
          rw [hone]
          simp [releaseAll]
      have hnull : BlockRef.null.release = pure ⟨⟩ := rfl
      rw [ZBuffer.list_two, releaseAll_append, hone, hone]
      simp only [ZBuffer.destroy, ZBuffer.storage, hnull]
      simp
  | array refsNum a firstRef =>
      show releaseRefs a 0 refsNum >>= _ = _
      rw [releaseRefs_eq]
      rfl

/-- Every reference of the buffer is dropped. -/
theorem destroy_holds (hz : z.Shape) (h : Holds w L (z.held + H)) : Returns z.destroy w fun _ w' =>
    ∃ L', Holds w' L' H := by
  have hparts : z.held + H = blocks z.list + (z.base + H) := by
    rw [ZBuffer.held, add_comm z.base, add_assoc]
  rw [hparts] at h
  rw [destroy_eq]
  refine .bind ((h.releaseAll hz.ne_zero).mono fun _ w₁ hw => ?_)
  obtain ⟨L₁, h₁, _⟩ := hw
  refine (storage_spec h₁).mono fun _ w₂ hw => ?_
  obtain ⟨L₂, h₂, _⟩ := hw
  exact ⟨L₂, h₂⟩

/-- The refs that are dumped are held by the queue; the others are dropped. -/
theorem dumpRefsTo_holds (hz : z.Shape) (hlt : z.list.length < 2 ^ 31)
    (h : Holds w L (z.held + H)) :
    Returns z.dumpRefsTo w fun r w' => r.2.1 = .empty ∧ ∃ L', Holds w' L' (blocks r.1 + H) := by
  have hparts : z.held + H = blocks (empties z.list) + (z.base + (blocks (filled z.list) + H)) := by
    rw [ZBuffer.held, ← blocks_parts, add_left_comm (blocks (empties _)), add_assoc, add_assoc]
  rw [hparts] at h
  rw [dumpRefsTo_eq hz hlt]
  refine .bind ((h.releaseAll fun ref href => hz.ne_zero ref (List.mem_of_mem_filter href)).mono
      fun _ w₁ hw => ?_)
  obtain ⟨L₁, h₁, _⟩ := hw
  refine .bind ((storage_spec h₁).mono fun _ w₂ hw => .pure ⟨rfl, ?_⟩)
  obtain ⟨L₂, h₂, _⟩ := hw
  exact ⟨L₂, h₂⟩

end

namespace Family

/-! ## Calls -/

inductive Call (ι : Type) where
  | append (i : ι) (buf : List UInt8)
  /-- `append(const ZBuffer&)` and `append(ZBuffer&&)`, of the buffer `j` to the buffer `i` -/
  | appendCopy (i j : ι)
  | appendMove (i j : ι)
  | popn (i : ι) (count : Nat)
  | dump (i : ι)
  | release (ref : BlockRef)
  /-- The buffer is destroyed, and there is a new one in its place. -/
  | destroy (i : ι)

structure State (ι : Type) where
  world : World
  buffer : ι → ZBuffer
  /-- The refs that were dumped and are not released. -/
  dumped : List BlockRef

variable {ι : Type} [DecidableEq ι]

inductive Step : State ι → Call ι → State ι → Prop
  | append {s : State ι} {i : ι} {buf : List UInt8} {z : ZBuffer} {w : World} :
      ((s.buffer i).append buf).run s.world = some (z, w) →
      Step s (.append i buf) { s with world := w, buffer := Function.update s.buffer i z }
  | appendCopy {s : State ι} {i j : ι} {r : ZBuffer × Nat} {w : World} : i ≠ j →
      ((s.buffer i).appendCopy (s.buffer j)).run s.world = some (r, w) →
      Step s (.appendCopy i j) { s with world := w, buffer := Function.update s.buffer i r.1 }
  | appendMove {s : State ι} {i j : ι} {r : ZBuffer × ZBuffer × Nat} {w : World} : i ≠ j →
      ((s.buffer i).appendMove (s.buffer j)).run s.world = some (r, w) →
      Step s (.appendMove i j)
        { s with
          world := w
          buffer := Function.update (Function.update s.buffer i r.1) j r.2.1 }
  | popn {s : State ι} {i : ι} {count : Nat} {r : List UInt8 × ZBuffer} {w : World} :
      ((s.buffer i).popn count).run s.world = some (r, w) →
      Step s (.popn i count) { s with world := w, buffer := Function.update s.buffer i r.2 }
  | dump {s : State ι} {i : ι} {r : List BlockRef × ZBuffer × Nat} {w : World} :
      (s.buffer i).dumpRefsTo.run s.world = some (r, w) →
      Step s (.dump i)
        { world := w, buffer := Function.update s.buffer i r.2.1, dumped := s.dumped ++ r.1 }
  | release {s : State ι} {ref : BlockRef} {w : World} : ref ∈ s.dumped →
      ref.release.run s.world = some (⟨⟩, w) →
      Step s (.release ref) { s with world := w, dumped := s.dumped.erase ref }
  | destroy {s : State ι} {i : ι} {w : World} : (s.buffer i).destroy.run s.world = some (⟨⟩, w) →
      Step s (.destroy i) { s with world := w, buffer := Function.update s.buffer i .empty }

/-- New buffers and an empty cache. -/
def fresh (env : Env) (s : State ι) : Prop :=
  s.world = .initial env ∧ (∀ i, s.buffer i = .empty) ∧ s.dumped = []

/-- Calls on the buffers, as long as the notes meet `c`. -/
def calls (env : Env) (c : Note → Prop) : System (State ι) (Call ι) where
  init := fresh env
  step s e t := Step s e t ∧ t.world.Only c

/-! ## Counts -/

variable [Fintype ι]

/-- The blocks of the refs in the buffers, of their rings, and of the refs that were dumped. -/
def State.held (s : State ι) : Multiset Nat := (∑ i, (s.buffer i).held) + blocks s.dumped

/-- A block is counted once for every ref, and once for the list; with no refs left, all blocks are
on the list. -/
def Exact (s : State ι) : Prop :=
  ∃ L, Chain s.world.next 0 s.world.head L ∧ (∀ p ∈ L, (s.world.block p).isSome) ∧
    (∀ p b, s.world.block p = some b →
      b.refNum = s.held.count p + (if p ∈ L then 1 else 0)) ∧
    (s.held = 0 → (∀ p, (s.world.block p).isSome → p ∈ L) ∧ s.world.gBlockNumber = L.length)

/-- What is kept of each buffer. -/
structure InUse (z : ZBuffer) : Prop where
  shape : z.Shape
  wide : z.Wide
  slim : z.Slim

structure Inv (s : State ι) : Prop where
  holds : ∃ L, Holds s.world L s.held
  inUse : ∀ i, InUse (s.buffer i)

section
variable {w w' : World} {L : List Nat} {H : Multiset Nat} {z z' : ZBuffer} {k : Nat}
  {bs : List UInt8}
  {ok : Prop} {S : Nat → Prop} {s t : State ι} {i j : ι} {c : Call ι} {es : List (Call ι)}

theorem InUse.empty : InUse .empty := ⟨⟨fun _ => ⟨rfl, rfl⟩, fun _ => rfl⟩, trivial, trivial⟩

theorem InUse.length_lt (h : InUse z) : z.list.length < 2 ^ 31 := h.slim.length_lt h.shape

/-- A buffer that something was added to. -/
theorem InUse.grown {L' : List Nat} {D' : Multiset Nat} (h : InUse z)
    (hgrown : z.Grown w L H (blocks z.list) k bs ok S z' w' L' D') (hc : w'.Only Note.sane) :
    InUse z' ∧ Holds w' L' (z'.held + H) := by
  have hinside : w'.Only Note.inside := fun n hn => (hc n hn).2
  obtain ⟨hshape, hD, _⟩ := hgrown.refs h.shape rfl (.inr fun n hn => (hc n hn).1)
      (.inr ⟨h.slim, hinside⟩)
  have holds := hgrown.holds
  rw [hD, ← add_assoc] at holds
  exact ⟨⟨hshape, hgrown.wide, hgrown.slim h.slim hinside⟩, holds⟩

/-- The references of one buffer, and those that stay. -/
theorem held_one (s : State ι) (i : ι) : ∃ H, s.held = (s.buffer i).held + H ∧
    (∀ w z, State.held { s with world := w, buffer := Function.update s.buffer i z } = z.held + H) ∧
    ∀ k ≠ i, ∀ q ∈ blocks (s.buffer k).list, q ∈ H := by
  refine ⟨outside ZBuffer.held s.buffer {i} + blocks s.dumped, ?_, fun w z => ?_,
      fun k hk q hq => ?_⟩
  · rw [State.held, sum_member, add_assoc]
  · rw [State.held, sum_update, add_assoc]
  · have hk : k ∉ ({i} : Finset ι) := fun hmem => hk (Finset.mem_singleton.mp hmem)
    exact Multiset.mem_add.mpr (.inl (mem_outside hk (Multiset.mem_add.mpr (.inr hq))))

/-- The references of two buffers, and those that stay. -/
theorem held_two (s : State ι) (hij : i ≠ j) : ∃ H,
    s.held = (s.buffer i).held + ((s.buffer j).held + H) ∧
    (∀ w z z', State.held
      { s with world := w, buffer := Function.update (Function.update s.buffer i z) j z' }
        = z.held + (z'.held + H)) ∧
    ∀ k, k ≠ i → k ≠ j → ∀ q ∈ blocks (s.buffer k).list, q ∈ H := by
  refine ⟨outside ZBuffer.held s.buffer {i, j} + blocks s.dumped, ?_, fun w z z' => ?_,
      fun k hi hj q hq => ?_⟩
  · rw [State.held, sum_members _ _ hij, add_assoc, add_assoc]
  · rw [State.held, sum_updates _ _ hij, add_assoc, add_assoc]
  · have hk : k ∉ ({i, j} : Finset ι) := fun hmem => by
      rcases Finset.mem_insert.mp hmem with hmem | hmem
      · exact hi hmem
      · exact hj (Finset.mem_singleton.mp hmem)
    exact Multiset.mem_add.mpr (.inl (mem_outside hk (Multiset.mem_add.mpr (.inr hq))))

omit [Fintype ι] in
/-- One buffer changes, and the others are as they were. -/
theorem inUse_update {b : ι → ZBuffer} (h : ∀ i, InUse (b i)) (hz : InUse z) (k : ι) :
    InUse (Function.update b i z k) := by
  rcases eq_or_ne k i with rfl | hne
  · rwa [Function.update_self]
  · rw [Function.update_of_ne hne]
    exact h k

theorem blocks_erase {l : List BlockRef} {ref : BlockRef} (h : ref ∈ l) :
    blocks l = ref.block ::ₘ blocks (l.erase ref) :=
  Multiset.coe_eq_coe.mpr ((List.perm_cons_erase h).map BlockRef.block)

omit [DecidableEq ι] in
theorem Inv.fresh {env : Env} (h : fresh env s) : Inv s := by
  obtain ⟨hw, hz, hd⟩ := h
  have hheld : s.held = 0 := by
    rw [State.held, hd, blocks_nil, add_zero]
    refine Finset.sum_eq_zero fun i _ => ?_
    rw [hz i]
    rfl
  refine ⟨⟨[], ?_⟩, fun i => hz i ▸ .empty⟩
  rw [hheld, hw]
  exact initial_holds env

/-- A call leaves the references counted, and the buffers in use. -/
theorem Inv.step (h : Inv s) (hs : Step s c t) (hc : t.world.Only Note.sane) : Inv t := by
  obtain ⟨⟨L, holds⟩, hall⟩ := h
  cases hs with
  | @append i buf z w hrun =>
      obtain ⟨H, hheld, hheld', _⟩ := held_one s i
      rw [hheld, ZBuffer.held, add_assoc] at holds
      obtain ⟨_, hcopies⟩ := copies_of_loop hrun
      obtain ⟨L', D', hgrown⟩ := (append_spec holds (hall i).wide hcopies.lt).of_run hrun
      obtain ⟨hz, holds'⟩ := (hall i).grown hgrown hc
      exact ⟨⟨L', hheld' w z ▸ holds'⟩, inUse_update hall hz⟩
  | @appendCopy i j r w hij hrun =>
      obtain ⟨H, hheld, hheld', hothers⟩ := held_one s i
      rw [hheld] at holds
      have hcopy :=
          appendCopy_held (hall j).shape (hall j).slim (hothers j hij.symm) holds (hall i).wide
      obtain ⟨L', D', hgrown⟩ := hcopy.of_run hrun
      obtain ⟨hz, holds'⟩ := (hall i).grown hgrown hc
      exact ⟨⟨L', hheld' w r.1 ▸ holds'⟩, inUse_update hall hz⟩
  | @appendMove i j r w hij hrun =>
      obtain ⟨H, hheld, hheld', _⟩ := held_two s hij
      rw [hheld] at holds
      have hmove := appendMove_held (hall j).shape (hall j).slim holds (hall i).wide
      obtain ⟨⟨L', D', hgrown⟩, hempty⟩ := hmove.of_run hrun
      obtain ⟨hz, holds'⟩ := (hall i).grown hgrown hc
      rw [← hempty.held] at holds'
      have hz' : InUse r.2.1 := ⟨hempty.shape, hempty.wide (hall j).wide, hempty.slim (hall j).slim⟩
      exact ⟨⟨L', hheld' w r.1 r.2.1 ▸ holds'⟩,
        inUse_update (inUse_update hall hz) hz'⟩
  | @popn i count r w hrun =>
      obtain ⟨H, hheld, hheld', _⟩ := held_one s i
      rw [hheld] at holds
      obtain ⟨L', hr⟩ := (popn_spec (hall i).shape holds).of_run hrun
      have hz : InUse r.2 := ⟨hr.shape, hr.wide (hall i).wide, hr.slim (hall i).slim⟩
      exact ⟨⟨L', hheld' w r.2 ▸ hr.holds⟩, inUse_update hall hz⟩
  | @dump i r w hrun =>
      obtain ⟨H, hheld, hheld', _⟩ := held_one s i
      rw [hheld] at holds
      obtain ⟨hempty, L', holds'⟩ :=
        (dumpRefsTo_holds (hall i).shape (hall i).length_lt holds).of_run hrun
      refine ⟨⟨L', ?_⟩, inUse_update hall (hempty ▸ .empty)⟩
      have hsame := hheld' w r.2.1
      have hnone : r.2.1.held = 0 := hempty ▸ rfl
      rw [hnone, zero_add] at hsame
      rw [← hsame] at holds'
      show Holds w L' ((∑ k, (Function.update s.buffer i r.2.1 k).held) + blocks (s.dumped ++ r.1))
      rw [blocks_append, ← add_assoc, add_comm]
      exact holds'
  | @release ref w hmem hrun =>
      have hparts : s.held = ref.block ::ₘ State.held
          { s with world := w, dumped := s.dumped.erase ref } := by
        rw [State.held, blocks_erase hmem, Multiset.add_cons]
        rfl
      rw [hparts] at holds
      have hrelease : ref.release = PBase.Buffer.decRef ref.block :=
        if_neg (holds.ne_zero (.inl (Multiset.mem_cons_self _ _)))
      rw [hrelease] at hrun
      obtain ⟨L', holds', _⟩ := holds.decRef.of_run hrun
      exact ⟨⟨L', holds'⟩, hall⟩
  | @destroy i w hrun =>
      obtain ⟨H, hheld, hheld', _⟩ := held_one s i
      rw [hheld] at holds
      obtain ⟨L', holds'⟩ := (destroy_holds (hall i).shape holds).of_run hrun
      have hsame : State.held { s with world := w, buffer := Function.update s.buffer i .empty } =
          H := by
        rw [hheld']
        exact zero_add H
      exact ⟨⟨L', hsame ▸ holds'⟩, inUse_update hall .empty⟩

theorem run_inv {env : Env} (h : (calls env fun n => n.sane ∧ n.noLeak).Run es s) :
    Inv s ∧ s.world.Only Note.noLeak := by
  refine h.invariant (I := fun s => Inv s ∧ s.world.Only Note.noLeak) (fun s hs => ⟨.fresh hs, ?_⟩)
    fun s c t hs hstep => ?_
  · rw [hs.1]
    intro n hn
    cases hn
  · obtain ⟨hstep, hc⟩ := hstep
    exact ⟨hs.1.step hstep fun n hn => (hc n hn).1, fun n hn => (hc n hn).2⟩

/-- **Counts are exact, and no block is lost**: in every state of every run in which `acquire_block`
does not drop the last reference of a block that would be cached, and rings that grow begin at a
multiple of their new capacity and have their storage inside a block. -/
theorem counts_exact {env : Env} (h : (calls env fun n => n.sane ∧ n.noLeak).Run es s) :
    Exact s := by
  obtain ⟨⟨⟨L, holds⟩, _⟩, hno⟩ := run_inv h
  have hrefs := holds.exact hno
  have hcount : ∀ p, L.count p = if p ∈ L then 1 else 0 := fun p => hrefs.chain.nodup.count
  refine ⟨L, hrefs.chain, hrefs.listed, fun p b hb => ?_, fun hnone => ?_⟩
  · rw [(hrefs.count p b hb).1, hcount p]
    push_cast
    rfl
  · have hlisted : ∀ p, (s.world.block p).isSome → p ∈ L := fun p hp => by
      obtain ⟨b, hb⟩ := Option.isSome_iff_exists.mp hp
      obtain ⟨hnum, hpos⟩ := hrefs.count p b hb
      rw [hnone, Multiset.count_zero] at hnum
      exact List.count_pos_iff.mp (by omega)
    obtain ⟨A, hA, hcard⟩ := hrefs.total
    have hset : A = L.toFinset := Finset.ext fun p => by
      rw [hA, List.mem_toFinset]
      exact ⟨hlisted p, hrefs.listed p⟩
    refine ⟨hlisted, ?_⟩
    rw [hcard, hset, List.toFinset_card_of_nodup hrefs.chain.nodup]

end

/-! ### A block that is lost -/

/-- A call, as a function. -/
def perform (s : State ι) : Call ι → Option (State ι)
  | .append i buf => do
      let (z, w) ← ((s.buffer i).append buf).run s.world
      some { s with world := w, buffer := Function.update s.buffer i z }
  | .appendCopy i j => do
      guard (i ≠ j)
      let (r, w) ← ((s.buffer i).appendCopy (s.buffer j)).run s.world
      some { s with world := w, buffer := Function.update s.buffer i r.1 }
  | .appendMove i j => do
      guard (i ≠ j)
      let (r, w) ← ((s.buffer i).appendMove (s.buffer j)).run s.world
      some { s with world := w, buffer := Function.update (Function.update s.buffer i r.1) j r.2.1 }
  | .popn i count => do
      let (r, w) ← ((s.buffer i).popn count).run s.world
      some { s with world := w, buffer := Function.update s.buffer i r.2 }
  | .dump i => do
      let (r, w) ← (s.buffer i).dumpRefsTo.run s.world
      some { world := w, buffer := Function.update s.buffer i r.2.1, dumped := s.dumped ++ r.1 }
  | .release ref => do
      guard (ref ∈ s.dumped)
      let (_, w) ← ref.release.run s.world
      some { s with world := w, dumped := s.dumped.erase ref }
  | .destroy i => do
      let (_, w) ← (s.buffer i).destroy.run s.world
      some { s with world := w, buffer := Function.update s.buffer i .empty }

section Perform
variable {s t : State ι} {c : Call ι} {cs es : List (Call ι)} {env : Env}

omit [Fintype ι] in
theorem perform_step (h : perform s c = some t) : Step s c t := by
  cases c with
  | append i buf =>
      obtain ⟨⟨z, w⟩, hrun, heq⟩ := Option.bind_eq_some_iff.mp h
      cases heq
      exact .append hrun
  | appendCopy i j =>
      obtain ⟨_, hguard, h⟩ := Option.bind_eq_some_iff.mp h
      obtain ⟨⟨r, w⟩, hrun, heq⟩ := Option.bind_eq_some_iff.mp h
      cases heq
      exact .appendCopy ((Option.guard_eq_some' _).mp hguard) hrun
  | appendMove i j =>
      obtain ⟨_, hguard, h⟩ := Option.bind_eq_some_iff.mp h
      obtain ⟨⟨r, w⟩, hrun, heq⟩ := Option.bind_eq_some_iff.mp h
      cases heq
      exact .appendMove ((Option.guard_eq_some' _).mp hguard) hrun
  | popn i count =>
      obtain ⟨⟨r, w⟩, hrun, heq⟩ := Option.bind_eq_some_iff.mp h
      cases heq
      exact .popn hrun
  | dump i =>
      obtain ⟨⟨r, w⟩, hrun, heq⟩ := Option.bind_eq_some_iff.mp h
      cases heq
      exact .dump hrun
  | release ref =>
      obtain ⟨_, hguard, h⟩ := Option.bind_eq_some_iff.mp h
      obtain ⟨⟨⟨⟩, w⟩, hrun, heq⟩ := Option.bind_eq_some_iff.mp h
      cases heq
      exact .release ((Option.guard_eq_some' _).mp hguard) hrun
  | destroy i =>
      obtain ⟨⟨⟨⟩, w⟩, hrun, heq⟩ := Option.bind_eq_some_iff.mp h
      cases heq
      exact .destroy hrun

/-- The calls, one after the other; the notes must meet `c`. -/
def replay (c : Note → Prop) [DecidablePred c] (cs : List (Call ι)) (s : State ι) :
    Option (State ι) :=
  cs.foldlM (fun s e => do
    let t ← perform s e
    guard (t.world.Only c)
    some t) s

omit [Fintype ι] in
theorem replay_run {c : Note → Prop} [DecidablePred c] (h : (calls env c).Run es s)
    (hreplay : replay c cs s = some t) : (calls env c).Run (es ++ cs) t := by
  refine h.foldlM (fun s e t he => ?_) hreplay
  obtain ⟨t, hperform, he⟩ := Option.bind_eq_some_iff.mp he
  obtain ⟨_, hguard, heq⟩ := Option.bind_eq_some_iff.mp he
  cases heq
  exact ⟨perform_step hperform, (Option.guard_eq_some' _).mp hguard⟩

end Perform

instance : DecidablePred Note.noLeak := fun n =>
  match n with
  | .drop refNum blockNumber =>
      inferInstanceAs (Decidable (¬ (refNum ≤ 1 ∧ blockNumber < kBlockCachedPerThread)))
  | .release _ => isTrue trivial
  | .resize _ _ => isTrue trivial
  | .request _ _ => isTrue trivial

def start : State ι := ⟨.initial .plain, fun _ => .empty, []⟩

omit [Fintype ι] in
theorem start_run {c : Note → Prop} : (calls .plain c).Run [] (start : State ι) :=
  .start ⟨rfl, fun _ => rfl, rfl⟩

/-- Two buffers: a ring of 32 refs that grows and begins at 4, a copy of it in the other buffer,
a large string behind that, what is left of the ring moved, then dumped. -/
def sharing : List (Call Bool) :=
  List.replicate 33 (.append true [7]) ++
    [.popn true 4, .appendCopy false true, .append false (List.replicate 9000 0), .popn false 40,
      .appendMove true false, .dump true, .destroy false]

/-- Two blocks are left. -/
theorem counts_exact_shared : ∃ s : State Bool, Exact s ∧ s.world.gBlockNumber = 2 := by
  have hreplay : (replay (fun n => n.sane ∧ n.noLeak) sharing start).map
      (fun s => s.world.gBlockNumber) = some 2 := by decide +kernel
  obtain ⟨s, hreplay, hnumber⟩ := Option.map_eq_some_iff.mp hreplay
  exact ⟨s, counts_exact (replay_run start_run hreplay), hnumber⟩

/-- A full block, and the ref on it is dropped; then `acquire_block` looks for room. -/
def leaking : List (Call Unit) :=
  List.replicate 7 (.append () (List.replicate 1024 0)) ++
    [.append () (List.replicate 1000 0), .destroy (), .append () [1], .destroy ()]

/-- Then there is a block that is neither held nor on the list. -/
theorem counts_leak : ¬ ∀ (es : List (Call Unit)) (s : State Unit),
    (calls .plain Note.sane).Run es s → Exact s := by
  intro hall
  have hlost : (replay Note.sane leaking start).map (fun s =>
      (s.world.head, s.world.next s.world.head, s.world.gBlockNumber, s.held))
      = some (2, 0, 2, 0) := by decide +kernel
  obtain ⟨s, hreplay, heq⟩ := Option.map_eq_some_iff.mp hlost
  obtain ⟨hhead, heq⟩ := Prod.mk.inj heq
  obtain ⟨hnext, heq⟩ := Prod.mk.inj heq
  obtain ⟨hnumber, hheld⟩ := Prod.mk.inj heq
  obtain ⟨L, hchain, _, _, hlast⟩ := hall _ s (replay_run start_run hreplay)
  -- the list has one block, and there are two
  have hone : Chain s.world.next 0 s.world.head [s.world.head] := by
    refine .cons ?_ ?_
    · rw [hhead]
      decide
    · rw [hnext]
      exact .nil
  have hlength := (hlast hheld).2
  rw [hchain.unique hone, hnumber] at hlength
  cases hlength

end Family

end PBase.Buffer
