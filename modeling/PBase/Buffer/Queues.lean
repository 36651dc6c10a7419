/-
# `PBase.Buffer.Queues` — the buffers of a thread as queues of bytes

A thread may do with its buffers what it likes: append bytes to one, or another buffer, copied or
moved; read into it from a file; take bytes from its front; dump its refs, append these to a buffer
or release them later; destroy it; and look at it in between (`size`, `copy_front`, `map`).  All
these calls work on the blocks of one cache, which the buffers share.  Still a run of them is a run
of `queues`, where every buffer is a queue of bytes of its own, and every piece that was dumped is
as it was until it is released (`buffers_are_queues`).

This is so under the conditions the parts need: a ring that grows begins at a multiple of its new
capacity and has its storage inside a block, with 2048 refs at most (`Note.tame`); nothing is added
to a buffer that was moved from, before it is new again (`Orderly`); and a read does not come to a
block behind the head that has no byte left (`Offers`): its ref would be empty, and `first_.length`
0 says that there is no `first_`.
-/
import PBase.Buffer.Concat
import PBase.Buffer.Sharing

namespace PBase.Buffer

open PBase.Lib

/-- A ring that grows is aligned, given storage inside a block, and not too large. -/
def Note.tame (n : Note) : Prop := n.sane ∧ n.small

/-- What is left of some refs when one of them was passed to `append_ref`. -/
def Pass.left (pass : Pass) (l : List BlockRef) (ref : BlockRef) : List BlockRef :=
  match pass with
  | .copy => l
  | .move => l.erase ref

namespace Queues

open Family (State held_two)

variable {ι : Type} [DecidableEq ι]

/-! ## The queues -/

/-- A call, with what it returns. -/
inductive Event (ι : Type) where
  | append (i : ι) (buf : List UInt8)
  /-- `append(const ZBuffer&)` and `append(ZBuffer&&)`, of the buffer `j` to the buffer `i` -/
  | appendCopy (i j : ι)
  | appendMove (i j : ι)
  /-- `read_from_fd`, with the bytes the kernel read. -/
  | read (i : ι) (count : Nat) (bytes : List UInt8)
  | popn (i : ι) (count : Nat) (out : List UInt8)
  /-- `dump_refs_to`, with the bytes of the refs and the number it returns. -/
  | dump (i : ι) (pieces : List (List UInt8)) (n : Nat)
  /-- `append_ref`, moved or copied, of a ref that was dumped; these are the bytes it has then. -/
  | appendRef (pass : Pass) (i : ι) (piece : List UInt8)
  | release (piece : List UInt8)
  /-- The buffer is destroyed, and there is a new one in its place. -/
  | destroy (i : ι)
  | size (i : ι) (n : Nat)
  | copyFront (i : ι) (count : Nat) (out : List UInt8)
  /-- `map`, with the bytes of each call of the function. -/
  | map (i : ι) (pieces : List (List UInt8))

/-- What is in the queues, and the pieces that were dumped and are not released. -/
structure Queued (ι : Type) where
  queue : ι → List UInt8
  dumped : Multiset (List UInt8)

def Queued.set (q : Queued ι) (i : ι) (bs : List UInt8) : Queued ι :=
  { q with queue := Function.update q.queue i bs }

def queues : System (Queued ι) (Event ι) where
  init q := q = ⟨fun _ => [], 0⟩
  step q e q' :=
    match e with
    | .append i buf => q' = q.set i (q.queue i ++ buf)
    | .appendCopy i j => i ≠ j ∧ q' = q.set i (q.queue i ++ q.queue j)
    | .appendMove i j => i ≠ j ∧ q' = (q.set i (q.queue i ++ q.queue j)).set j []
    | .read i _ bytes => q' = q.set i (q.queue i ++ bytes)
    | .popn i count out => out = (q.queue i).take count ∧ q' = q.set i ((q.queue i).drop count)
    | .dump i pieces n => pieces.flatten = q.queue i ∧ [] ∉ pieces ∧ n = pieces.length ∧
        q' = { q.set i [] with dumped := q.dumped + pieces }
    | .appendRef pass i piece => piece ∈ q.dumped ∧ q' =
        { q.set i (q.queue i ++ piece) with
          dumped := match pass with
            | .copy => q.dumped
            | .move => q.dumped.erase piece }
    | .release piece => piece ∈ q.dumped ∧ q' = { q with dumped := q.dumped.erase piece }
    | .destroy i => q' = q.set i []
    | .size i n => n = (q.queue i).length ∧ q' = q
    | .copyFront i count out => out = (q.queue i).take count ∧ q' = q
    | .map i pieces => pieces.flatten = q.queue i ∧ q' = q

/-! ## The buffers -/

inductive Step (s : State ι) : Event ι → State ι → Prop
  | append {i : ι} {buf : List UInt8} {z : ZBuffer} {w : World} :
      ((s.buffer i).append buf).run s.world = some (z, w) →
      Step s (.append i buf) { s with world := w, buffer := Function.update s.buffer i z }
  | appendCopy {i j : ι} {r : ZBuffer × Nat} {w : World} : i ≠ j →
      ((s.buffer i).appendCopy (s.buffer j)).run s.world = some (r, w) →
      Step s (.appendCopy i j) { s with world := w, buffer := Function.update s.buffer i r.1 }
  | appendMove {i j : ι} {r : ZBuffer × ZBuffer × Nat} {w : World} : i ≠ j →
      ((s.buffer i).appendMove (s.buffer j)).run s.world = some (r, w) →
      Step s (.appendMove i j)
        { s with
          world := w
          buffer := Function.update (Function.update s.buffer i r.1) j r.2.1 }
  | read {i : ι} {count : Nat} {bytes : List UInt8} {z : ZBuffer} {w : World} :
      ((s.buffer i).readFromFd count bytes).run s.world = some (z, w) →
      Step s (.read i count bytes) { s with world := w, buffer := Function.update s.buffer i z }
  | popn {i : ι} {count : Nat} {r : List UInt8 × ZBuffer} {w : World} : count < 2 ^ 63 →
      ((s.buffer i).popn count).run s.world = some (r, w) →
      Step s (.popn i count r.1) { s with world := w, buffer := Function.update s.buffer i r.2 }
  | dump {i : ι} {r : List BlockRef × ZBuffer × Nat} {w : World} :
      (s.buffer i).dumpRefsTo.run s.world = some (r, w) →
      Step s (.dump i (r.1.map (bytes w)) r.2.2)
        { world := w, buffer := Function.update s.buffer i r.2.1, dumped := s.dumped ++ r.1 }
  | appendRef {pass : Pass} {i : ι} {ref : BlockRef} {z : ZBuffer} {w : World} : ref ∈ s.dumped →
      ((s.buffer i).appendRef pass ref).run s.world = some (z, w) →
      Step s (.appendRef pass i (bytes s.world ref))
        { world := w, buffer := Function.update s.buffer i z, dumped := pass.left s.dumped ref }
  | release {ref : BlockRef} {w : World} : ref ∈ s.dumped →
      ref.release.run s.world = some (⟨⟩, w) →
      Step s (.release (bytes s.world ref)) { s with world := w, dumped := s.dumped.erase ref }
  | destroy {i : ι} {w : World} : (s.buffer i).destroy.run s.world = some (⟨⟩, w) →
      Step s (.destroy i) { s with world := w, buffer := Function.update s.buffer i .empty }
  | size {i : ι} : Step s (.size i (s.buffer i).size) s
  | copyFront {i : ι} {count : Nat} {out : List UInt8} {w : World} :
      ((s.buffer i).copyFront count).run s.world = some (out, w) →
      Step s (.copyFront i count out) { s with world := w }
  | map {i : ι} {pieces : List (List UInt8)} {w : World} :
      (s.buffer i).map.run s.world = some (pieces, w) → Step s (.map i pieces) { s with world := w }

/-- Calls on new buffers with an empty cache, as long as the rings are tame. -/
def calls (env : Env) : System (State ι) (Event ι) where
  init := Family.fresh env
  step s e t := Step s e t ∧ t.world.Only Note.tame

/-- If there are bytes to read, no empty area is offered to the kernel. -/
def Offers (s : State ι) : Event ι → Prop
  | .read _ count bytes => bytes ≠ [] →
      ∀ r w, (offerBlocks count).run s.world = some (r, w) → ∀ v ∈ r.2, 0 < v.len
  | _ => True

/-! ### Buffers that were moved from -/

namespace Event

/-- The buffer something is added to. -/
def target : Event ι → Option ι
  | append i _ => some i
  | appendCopy i _ => some i
  | appendMove i _ => some i
  | read i _ _ => some i
  | appendRef _ i _ => some i
  | _ => none

/-- The buffers that were moved from and are not new since. -/
def mark (m : Finset ι) : Event ι → Finset ι
  | appendMove _ j => insert j m
  | dump i _ _ => m.erase i
  | destroy i => m.erase i
  | _ => m

end Event

def moved (es : List (Event ι)) : Finset ι := es.foldl Event.mark ∅

/-- Nothing is added to a buffer that was moved from. -/
def Orderly (es : List (Event ι)) : Prop :=
  ∀ n : Fin es.length, ∀ i ∈ (es.get n).target, i ∉ moved (es.take n)

theorem Orderly.init {es : List (Event ι)} {e : Event ι} (h : Orderly (es ++ [e])) :
    Orderly es ∧ ∀ i ∈ e.target, i ∉ moved es := by
  have hlen : (es ++ [e]).length = es.length + 1 := List.length_append
  refine ⟨fun n i hi => ?_, fun i hi => ?_⟩
  · have hlast := h ⟨n, by omega⟩ i
    rw [List.get_eq_getElem, List.getElem_append_left n.isLt,
        List.take_append_of_le_length n.isLt.le] at hlast
    exact hlast hi
  · have hlast := h ⟨es.length, by omega⟩ i
    rw [List.get_eq_getElem, List.getElem_concat_length rfl, List.take_left'] at hlast
    · exact hlast hi
    · rfl

/-! ## What the calls do -/

/-- The buffer holds the bytes `bs`. -/
structure Has (w : World) (z : ZBuffer) (bs : List UInt8) : Prop where
  ready : Ready w z
  slim : z.Slim
  content : content w z.list = bs

section
variable {w w' : World} {L L' : List Nat} {H D' : Multiset Nat} {S : Nat → Prop} {n count : Nat}
  {z z' rh : ZBuffer} {bs bs' bytes : List UInt8} {ok : Prop} {refs : List BlockRef}

theorem Has.empty : Has w .empty [] := ⟨.empty, trivial, rfl⟩

/-- A buffer that is left alone. -/
theorem Has.evolves (h : Has w z bs) (hs : w.AllSound) (hev : Evolves w L w' L' S)
    (hS : ∀ p ∈ blocks z.list, S p) : Has w' z bs := by
  obtain ⟨hready, hsame⟩ := h.ready.evolves hs hev hS
  exact ⟨hready, h.slim, hsame.trans h.content⟩

/-- A buffer that something is added to. -/
theorem Has.grown (h : Has w z bs) (hc : w'.Only Note.tame) (hok : ok)
    (hgrown : z.Grown w L H (blocks z.list) n bs' ok S z' w' L' D') :
    Holds w' L' (z'.held + H) ∧ Has w' z' (bs ++ bs') ∧ (z.Sealed → z'.Sealed) := by
  have hinside : w'.Only Note.inside := fun m hm => (hc m hm).1.2
  obtain ⟨holds, _, hrest⟩ := h.ready.grown hgrown (.inr fun m hm => (hc m hm).1.1)
      (.inr ⟨h.slim, hinside⟩)
  obtain ⟨hready, hcontent, hseal⟩ := hrest hok
  rw [h.content] at hcontent
  exact ⟨holds, ⟨hready, hgrown.slim h.slim hinside, hcontent⟩, hseal⟩

/-- The refs of another buffer may be added. -/
theorem Has.addable (h : Has w rh bs) (hz : z.Sealed) : Addable w z rh.list :=
  ⟨hz, h.ready.valid, h.ready.pos⟩

theorem Has.length_lt (h : Has w z bs) : z.list.length < 2 ^ 31 := h.slim.length_lt h.ready.shape

/-- A buffer in use has no empty refs. -/
theorem Has.filled (h : Has w z bs) : empties z.list = [] ∧ filled z.list = z.list := by
  have hne : ∀ ref ∈ z.list, ref.length ≠ 0 :=
      fun ref href => Nat.pos_iff_ne_zero.mp (h.ready.pos ref href)
  exact ⟨List.filter_eq_nil_iff.mpr fun ref href => by simpa using hne ref href,
    List.filter_eq_self.mpr fun ref href => by simpa using hne ref href⟩

/-- What a call on one buffer comes to: the buffer is `z` then and holds `bs`, and nobody else lost
a reference. -/
def Becomes (w : World) (L : List Nat) (H : Multiset Nat) (z : ZBuffer) (bs : List UInt8)
    (w' : World) : Prop :=
  ∃ L', Holds w' L' (z.held + H) ∧ (Evolves w L w' L' fun p => p ∈ H) ∧ Has w' z bs

/-- `append(buf, count)` -/
theorem Has.append (h : Has w z bs) (holds : Holds w L (z.held + H)) {buf : List UInt8}
    (hlen : buf.length < 2 ^ 32) :
    Returns (z.append buf) w fun z' w' => w'.Only Note.tame → z.Sealed →
      Becomes w L H z' (bs ++ buf) w' ∧ z'.Sealed := by
  refine (h.ready.append holds hlen).mono fun z' w' hz' hc hsealed => ?_
  obtain ⟨L', D', hgrown⟩ := hz'
  obtain ⟨holds', hz', hseal⟩ := h.grown hc (hsealed.openFor holds buf) hgrown
  exact ⟨⟨L', holds', hgrown.evolves.mono fun p hp => Multiset.mem_add.mpr (.inr hp), hz'⟩,
      hseal hsealed⟩

/-- `append(const ZBuffer&)` -/
theorem Has.appendCopy (h : Has w z bs) (hrh : Has w rh bs') (hmem : ∀ p ∈ blocks rh.list, p ∈ H)
    (holds : Holds w L (z.held + H)) : Returns (z.appendCopy rh) w fun r w' => w'.Only Note.tame →
    z.Sealed →
      Becomes w L H r.1 (bs ++ bs') w' ∧ r.1.Sealed := by
  refine (appendCopy_held hrh.ready.shape hrh.slim hmem holds h.ready.wide).mono
      fun r w' hr hc hsealed => ?_
  obtain ⟨L', D', hgrown⟩ := hr
  obtain ⟨holds', hz', hseal⟩ := h.grown hc (hrh.addable hsealed) hgrown
  rw [hrh.content] at hz'
  exact ⟨⟨L', holds', hgrown.evolves.mono fun p hp => Multiset.mem_add.mpr (.inr hp), hz'⟩,
      hseal hsealed⟩

/-- `append(ZBuffer&&)` -/
theorem Has.appendMove (h : Has w z bs) (hrh : Has w rh bs')
    (holds : Holds w L (z.held + (rh.held + H))) :
    Returns (z.appendMove rh) w fun r w' => w'.Only Note.tame → z.Sealed →
      Becomes w L (r.2.1.held + H) r.1 (bs ++ bs') w' ∧ Has w' r.2.1 [] ∧ r.1.Sealed := by
  refine (appendMove_held hrh.ready.shape hrh.slim holds h.ready.wide).mono
      fun r w' hr hc hsealed => ?_
  obtain ⟨⟨L', D', hgrown⟩, hempty⟩ := hr
  obtain ⟨holds', hz', hseal⟩ := h.grown hc (hrh.addable hsealed) hgrown
  obtain ⟨hready, hcontent⟩ := hempty.ready (w := w') hrh.ready.wide
  rw [hrh.content] at hz'
  rw [← hempty.held] at holds' hgrown
  exact ⟨⟨L', holds', hgrown.evolves.mono fun p hp => Multiset.mem_add.mpr (.inr hp), hz'⟩,
    ⟨hready, hempty.slim hrh.slim, hcontent⟩, hseal hsealed⟩

/-- `append_ref(ref)`, of a ref that is held elsewhere, or passed on. -/
theorem Has.appendRef {pass : Pass} {ref : BlockRef} (h : Has w z bs)
    (holds : Holds w L (pass.given ref + (z.held + H))) (hmem : ref.block ∈ pass.given ref + H)
    (hvalid : Valid w ref)
    (hpos : 0 < ref.length) : Returns (z.appendRef pass ref) w fun z' w' => w'.Only Note.tame →
    z.Sealed →
      Becomes w L H z' (bs ++ Buffer.bytes w ref) w' ∧ z'.Sealed := by
  have hne : ref.block ≠ 0 := holds.ne_zero (.inl (by
    rw [add_left_comm]
    exact Multiset.mem_add.mpr (.inr hmem)))
  have hmem' : ref.block ∈ pass.given ref + (blocks z.list + H) := by
    rw [add_left_comm]
    exact Multiset.mem_add.mpr (.inr hmem)
  rw [ZBuffer.held, add_assoc] at holds
  refine (appendRef_spec (.inl hmem') holds h.ready.wide).mono fun z' w' hz' hc hsealed => ?_
  obtain ⟨L', D', hgrown⟩ := hz'
  obtain ⟨holds', hz', hseal⟩ := h.grown hc ⟨hsealed.isOpen hne, hpos, hvalid⟩ hgrown
  exact ⟨⟨L', holds', hgrown.evolves.mono fun p hp => .inl (Multiset.mem_add.mpr (.inr hp)), hz'⟩,
      hseal hsealed⟩

/-- `popn(buf, count)` -/
theorem Has.popn (h : Has w z bs) (holds : Holds w L (z.held + H)) (hcount : count < 2 ^ 63) :
    Returns (z.popn count) w fun r w' => r.1 = bs.take count ∧
    Becomes w L H r.2 (bs.drop count) w' ∧
      (z.Sealed → r.2.Sealed) := by
  refine (h.ready.popn holds hcount).mono fun r w' hr => ?_
  obtain ⟨L', holds', hev, hready, hslim, hseal, hout, hcontent⟩ := hr
  rw [h.content] at hout hcontent
  exact ⟨hout, ⟨L', holds', hev.mono fun p hp => Multiset.mem_add.mpr (.inr hp), hready,
      hslim h.slim, hcontent⟩, hseal⟩

/-- `~ZBuffer()`, and a new buffer in its place. -/
theorem Has.destroy (h : Has w z bs) (holds : Holds w L (z.held + H)) :
    Returns z.destroy w fun _ w' => Becomes w L H .empty [] w' := by
  have hparts : z.held + H = blocks z.list + (z.base + H) := by
    rw [ZBuffer.held, add_comm z.base, add_assoc]
  have hempty : ZBuffer.empty.held + H = H := zero_add H
  rw [hparts] at holds
  rw [destroy_eq]
  refine .bind ((holds.releaseAll h.ready.shape.ne_zero).mono fun _ w₁ hw => ?_)
  obtain ⟨L₁, h₁, _, hev₁⟩ := hw
  refine (storage_spec h₁).mono fun _ w₂ hw => ?_
  obtain ⟨L₂, h₂, _, hev₂⟩ := hw
  refine ⟨L₂, hempty.symm ▸ h₂, hev₁.trans hev₂ fun p hp => ⟨.inl ?_, .inl hp⟩, .empty⟩
  exact Multiset.mem_add.mpr (.inr hp)

/-- `dump_refs_to(queue)` hands over all refs, and leaves a new buffer. -/
theorem Has.dump (h : Has w z bs) (holds : Holds w L (z.held + H)) :
    Returns z.dumpRefsTo w fun r w' => r = (z.list, .empty, z.list.length) ∧
      ∃ L', Holds w' L' (blocks z.list + H) ∧ Evolves w L w' L' fun p => p ∈ blocks z.list + H := by
  obtain ⟨hempties, hfilled⟩ := h.filled
  rw [dumpRefsTo_eq h.ready.shape h.length_lt, hempties, hfilled]
  rw [ZBuffer.held, add_assoc] at holds
  refine .bind (.pure (.bind ((storage_spec holds).mono fun _ w₁ hw => .pure ⟨rfl, ?_⟩)))
  obtain ⟨L₁, h₁, _, hev₁⟩ := hw
  exact ⟨L₁, h₁, hev₁.mono fun p hp => .inl hp⟩

/-! ### Reads -/

theorem check_run {c : Prop} [Decidable c] {r : Unit} (hrun : (check c).run w = some (r, w')) :
    c ∧ w' = w := by
  rw [check] at hrun
  split at hrun
  · cases hrun
    exact ⟨‹c›, rfl⟩
  · cases hrun

/-- A turn of `while (total)`: the ref it takes is not empty, if no area offered is. -/
theorem takeBody_pos {iov : List Iovec} {b : Nat × Nat × List BlockRef}
    {r : (Nat × Nat × List BlockRef) ⊕ (Nat × List BlockRef)} (hiov : ∀ v ∈ iov, 0 < v.len)
    (hb : 0 < b.2.1 ∧ ∀ ref ∈ b.2.2, 0 < ref.length)
    (hrun : (takeBody iov b).run w = some (r, w')) :
    (∀ b', r = .inl b' → 0 < b'.2.1 ∧ ∀ ref ∈ b'.2.2, 0 < ref.length) ∧
      ∀ a, r = .inr a → ∀ ref ∈ a.2, 0 < ref.length := by
  obtain ⟨p, total, saved⟩ := b
  obtain ⟨d, w₁, _, hrun⟩ := run_bind_some.mp hrun
  cases hget : iov[saved.length]? with
  | none =>
      rw [hget] at hrun
      cases hrun
  | some v =>
      rw [hget] at hrun
      obtain ⟨_, w₂, hcheck, hrun⟩ := run_bind_some.mp hrun
      obtain ⟨_, w₃, _, hrun⟩ := run_bind_some.mp hrun
      have hlen : 0 < min total d.leftSpace := by
        rcases eq_or_ne total (min total d.leftSpace) with heq | hne
        · exact heq ▸ hb.1
        · exact (check_run hcheck).1 hne ▸ hiov v (List.mem_of_getElem? hget)
      have hsaved : ∀ ref ∈ saved ++ [⟨d.offset, min total d.leftSpace, p⟩], 0 < ref.length :=
          fun ref href => by
        rcases List.mem_append.mp href with href | href
        · exact hb.2 ref href
        · exact List.mem_singleton.mp href ▸ hlen
      dsimp only at hrun
      split at hrun
      · obtain ⟨_, w₄, _, hrun⟩ := run_bind_some.mp hrun
        obtain ⟨_, w₅, _, hrun⟩ := run_bind_some.mp hrun
        split at hrun
        · cases hrun
          refine ⟨fun _ hr => absurd hr Sum.inr_ne_inl, fun a ha => ?_⟩
          cases ha
          exact hsaved
        · rename_i hmore
          cases hrun
          refine ⟨fun b' hb' => ?_, fun _ hr => absurd hr Sum.inl_ne_inr⟩
          cases hb'
          exact ⟨Nat.pos_iff_ne_zero.mpr hmore, hsaved⟩
      · obtain ⟨_, w₄, _, hrun⟩ := run_bind_some.mp hrun
        obtain ⟨_, w₅, _, hrun⟩ := run_bind_some.mp hrun
        cases hrun
        refine ⟨fun _ hr => absurd hr Sum.inr_ne_inl, fun a ha => ?_⟩
        cases ha
        exact hsaved

/-- If no empty area is offered, no ref is empty. -/
theorem readRefs_pos (hoffers : bytes ≠ [] →
      ∀ r w₁, (offerBlocks count).run w = some (r, w₁) → ∀ v ∈ r.2, 0 < v.len)
    (hrun : (readRefs count bytes).run w = some (refs, w')) : ∀ ref ∈ refs, 0 < ref.length := by
  obtain ⟨⟨p, iov⟩, w₁, hoffer, hrun⟩ := run_bind_some.mp hrun
  replace hrun : (takeBytes p iov bytes).run w₁ = some (refs, w') := hrun
  rw [takeBytes] at hrun
  split at hrun
  · cases hrun
    exact fun ref href => absurd href List.not_mem_nil
  · rename_i hne
    have hiov := hoffers hne _ w₁ hoffer
    obtain ⟨_, w₂, _, hrun⟩ := run_bind_some.mp hrun
    obtain ⟨_, w₃, _, hrun⟩ := run_bind_some.mp hrun
    obtain ⟨w₄, _, _, hrun⟩ := run_bind_some.mp hrun
    obtain ⟨_, w₅, _, hrun⟩ := run_bind_some.mp hrun
    obtain ⟨⟨head, saved⟩, w₆, hloop, hrun⟩ := run_bind_some.mp hrun
    obtain ⟨_, w₇, _, hrun⟩ := run_bind_some.mp hrun
    obtain ⟨_, w₈, _, hrun⟩ := run_bind_some.mp hrun
    cases hrun
    refine loop_run (I := fun b => 0 < b.2.1 ∧ ∀ ref ∈ b.2.2, 0 < ref.length)
      (Q := fun a => ∀ ref ∈ a.2, 0 < ref.length)
      (fun b s r s' hb hturn => takeBody_pos hiov hb hturn)
      ⟨List.length_pos_iff.mpr hne, fun ref href => absurd href List.not_mem_nil⟩ hloop

/-- `read_from_fd` up to `append_ref`: references are added for the refs it makes. -/
theorem readRefs_holds (holds : Holds w L H) (hfits : ∀ p b, w.block p = some b → b.Fits)
    (hsmall : w.Only Note.small) (hrun : (readRefs count bytes).run w = some (refs, w')) :
    ∃ L', Holds w' L' (blocks refs + H) ∧ (Evolves w L w' L' fun p => p ∈ H) ∧ AllValid w' refs ∧
      content w' refs = bytes := by
  obtain ⟨K, hrefs, hK⟩ := holds.refs
  obtain ⟨L', K', hrefs', hK', hev, hvalid, hcontent, _⟩ :=
      readRefs_run hrefs holds.sound hfits hsmall hrun
  refine ⟨L', ⟨⟨K' + K, ?_, fun hno => ?_⟩, hev.sound holds.sound⟩,
    hev.mono fun p hp => Multiset.mem_add.mpr (.inr hp), hvalid, hcontent⟩
  · rw [add_assoc, add_left_comm K, add_left_comm K']
    exact hrefs'
  · rw [hK' hno, hK (hno.mono hev.notes.suffix), add_zero]

/-- The areas that are offered can be filled. -/
theorem readRefs_returns (holds : Holds w L H) (hfits : ∀ p b, w.block p = some b → b.Fits)
    (hsmall : w.Only Note.small) : Returns (offerBlocks count) w fun offer _ =>
      ∀ bytes : List UInt8, bytes.length ≤ offered offer.2 →
      Returns (readRefs count bytes) w fun _ _ => True := by
  obtain ⟨K, hrefs, _⟩ := holds.refs
  obtain ⟨p, w₁, hacquire, L₁, K₁, h₁, _, ⟨hmem, rfl⟩, _, hev₁⟩ := acquireBlock_spec hrefs
  have hreturns : Returns (offerBlocks count) w fun offer w₂ => offer.1 = w₂.head ∧ ∃ new used rest,
      L₁ ++ new = used ++ rest ∧ Refs w₂ (L₁ ++ new) (K₁ + (K + H)) ∧
      offer.2 = offers w₂ count 0 used ∧
        used.length ≤ kMaxIov ∧ Linked w₁ L₁ w₂ new :=
    .bind ⟨_, w₁, hacquire, offerRest_spec h₁ (List.ne_nil_of_mem hmem)⟩
  obtain ⟨offer, w₂, hoffer, hp, new, used, rest, hsplit, h₂, hiov, hused, hlinked⟩ := hreturns
  have hev₂ := hev₁.trans hlinked.evolves (S := fun p => p ∈ K + H) fun p hp => ⟨hp, trivial⟩
  rw [hsplit] at h₂ hev₂
  have hfits₂ := hev₂.all _ _ closed_fits (fun _ => hfits)
      (Notes.offerBlocks quiet_small w _ w₂ hsmall hoffer)
  refine ⟨offer, w₂, hoffer, fun bytes hlen => .bind ⟨offer, w₂, hoffer, ?_⟩⟩
  exact (takeBytes_spec h₂ (hev₂.sound holds.sound) (fun q _ b hb => (hfits₂ q b hb).offset) hused
      hp hiov hlen).mono
    fun _ _ _ => trivial

/-- `read_from_fd` -/
theorem Has.read (h : Has w z bs) (holds : Holds w L (z.held + H))
    (hfits : ∀ p b, w.block p = some b → b.Fits)
    (hsmall : w.Only Note.small) (hoffers : bytes ≠ [] →
      ∀ r w₁, (offerBlocks count).run w = some (r, w₁) → ∀ v ∈ r.2, 0 < v.len)
    (hrun : (z.readFromFd count bytes).run w = some (z', w')) (hc : w'.Only Note.tame)
    (hsealed : z.Sealed) :
    Becomes w L H z' (bs ++ bytes) w' ∧ z'.Sealed := by
  obtain ⟨refs, w₁, hread, happend⟩ := run_bind_some.mp hrun
  obtain ⟨L₁, h₁, hev₁, hvalid, hcontent⟩ := readRefs_holds holds hfits hsmall hread
  have hz : Has w₁ z bs := h.evolves holds.sound hev₁ fun p hp =>
    Multiset.mem_add.mpr (.inl (Multiset.mem_add.mpr (.inr hp)))
  rw [ZBuffer.held, add_assoc] at h₁
  obtain ⟨L', D', hgrown⟩ := (appendRefs_spec h₁ hz.ready.wide).of_run happend
  obtain ⟨holds', hz', hseal⟩ := hz.grown hc ⟨hsealed, hvalid, readRefs_pos hoffers hread⟩ hgrown
  rw [hcontent] at hz'
  refine ⟨⟨L', holds', hev₁.trans hgrown.evolves fun p hp => ⟨?_, ?_⟩, hz'⟩, hseal hsealed⟩
  · exact Multiset.mem_add.mpr (.inr hp)
  · exact Multiset.mem_add.mpr (.inr hp)

theorem Has.read_returns (h : Has w z bs) (holds : Holds w L (z.held + H))
    (hfits : ∀ p b, w.block p = some b → b.Fits) (hsmall : w.Only Note.small) :
    Returns (offerBlocks count) w fun offer _ => ∀ bytes :
    List UInt8, bytes.length ≤ offered offer.2 →
      Returns (z.readFromFd count bytes) w fun _ _ => True := by
  refine (readRefs_returns holds hfits hsmall).mono fun offer _ hread bytes hlen => ?_
  obtain ⟨refs, w₁, hread, _⟩ := hread bytes hlen
  obtain ⟨L₁, h₁, _⟩ := readRefs_holds holds hfits hsmall hread
  rw [ZBuffer.held, add_assoc] at h₁
  exact .bind ⟨refs, w₁, hread, (appendRefs_spec h₁ h.ready.wide).mono fun _ _ _ => trivial⟩

end

/-! ## Runs -/

/-- The buffers hold what is in the queues, and the refs that were dumped what is in the pieces. -/
structure Refines [Fintype ι] (s : State ι) (q : Queued ι) : Prop where
  holds : ∃ L, Holds s.world L s.held
  has : ∀ i, Has s.world (s.buffer i) (q.queue i)
  valid : AllValid s.world s.dumped
  pos : ∀ ref ∈ s.dumped, 0 < ref.length
  dumped : q.dumped = ↑(s.dumped.map (bytes s.world))
  fits : ∀ p b, s.world.block p = some b → b.Fits

namespace Refines

variable [Fintype ι] {s t : State ι} {q : Queued ι} {i j : ι} {w : World} {L L' : List Nat}
  {S : Nat → Prop}
  {e : Event ι}

omit [DecidableEq ι] in
theorem sound (h : Refines s q) : s.world.AllSound := fun p b hb => (h.fits p b hb).sound

omit [DecidableEq ι] in
theorem fresh {env : Env} (h : Family.fresh env s) : Refines s ⟨fun _ => [], 0⟩ := by
  have hholds := (Family.Inv.fresh h).holds
  obtain ⟨hw, hz, hd⟩ := h
  refine ⟨hholds, fun i => hz i ▸ .empty, ?_, ?_, ?_, ?_⟩
  · rw [hd]
    exact fun ref href => absurd href List.not_mem_nil
  · rw [hd]
    exact fun ref href => absurd href List.not_mem_nil
  · rw [hd]
    rfl
  · rw [hw]
    exact fun p b hb => nomatch hb

omit [DecidableEq ι] in
/-- The refs that were dumped stay as they are. -/
theorem frame (h : Refines s q) {l : List BlockRef} (hl : l ⊆ s.dumped)
    (hev : Evolves s.world L w L' S)
    (hS : ∀ p ∈ blocks l, S p) (hc : w.Only Note.tame) :
    AllValid w l ∧ l.map (bytes w) = l.map (bytes s.world) ∧
      ∀ p b, w.block p = some b → b.Fits := by
  have hall : ∀ ref ∈ l, Valid w ref ∧ bytes w ref = bytes s.world ref := fun ref href =>
    (h.valid ref (hl href)).evolves h.sound hev (hS _ (mem_blocks href))
  exact ⟨fun ref href => (hall ref href).1, List.map_congr_left fun ref href => (hall ref href).2,
    hev.all _ _ closed_fits (fun _ => h.fits) fun n hn => (hc n hn).2⟩

/-- A call on one buffer, that leaves the refs `l` of those that were dumped, and adds some. -/
theorem part (h : Refines s q) (i : ι) : ∃ L R, Holds s.world L
    ((s.buffer i).held + (R + blocks s.dumped)) ∧
    (∀ k ≠ i, ∀ p ∈ blocks (s.buffer k).list, p ∈ R) ∧
    ∀ {w L' l z bs} (l' : List BlockRef), w.Only Note.tame →
      Holds w L' (z.held + (R + blocks (l ++ l'))) →
      (Evolves s.world L w L' fun p => p ∈ R + blocks l) →
      Has w z bs → l ⊆ s.dumped → AllValid w l' → (∀ ref ∈ l', 0 < ref.length) →
      Refines { world := w, buffer := Function.update s.buffer i z, dumped := l ++ l' }
        { q.set i bs with dumped := ↑(l.map (bytes s.world)) + ↑(l'.map (bytes w)) } := by
  obtain ⟨L, holds⟩ := h.holds
  refine ⟨L, outside ZBuffer.held s.buffer {i}, ?_, fun k hk p hp => ?_,
      fun {w L' l z bs} l' hc holds' hev hz hl hl' hpos => ?_⟩
  · rwa [← add_assoc, ← sum_member]
  · exact mem_outside (mt Finset.mem_singleton.mp hk) (Multiset.mem_add.mpr (.inr hp))
  · obtain ⟨hvalid, hsame, hfits⟩ := h.frame hl hev (fun p hp => Multiset.mem_add.mpr (.inr hp)) hc
    refine ⟨⟨L', ?_⟩, fun k => ?_, fun ref href => ?_, fun ref href => ?_, ?_, hfits⟩
    · rw [State.held, sum_update, add_assoc]
      exact holds'
    · rcases eq_or_ne k i with rfl | hk
      · simp only [Queued.set, Function.update_self]
        exact hz
      · simp only [Queued.set, Function.update_of_ne hk]
        refine (h.has k).evolves h.sound hev fun p hp => Multiset.mem_add.mpr (.inl ?_)
        exact mem_outside (mt Finset.mem_singleton.mp hk) (Multiset.mem_add.mpr (.inr hp))
    · exact (List.mem_append.mp href).elim (hvalid ref) (hl' ref)
    · exact (List.mem_append.mp href).elim (fun href => h.pos ref (hl href)) (hpos ref)
    · rw [List.map_append, hsame]
      rfl

/-- A call on one buffer. -/
theorem one (h : Refines s q) (i : ι) : ∃ L H, Holds s.world L ((s.buffer i).held + H) ∧
    (∀ k ≠ i, ∀ p ∈ blocks (s.buffer k).list, p ∈ H) ∧ ∀ z bs w, w.Only Note.tame →
      Becomes s.world L H z bs w →
      Refines { s with world := w, buffer := Function.update s.buffer i z } (q.set i bs) := by
  obtain ⟨L, R, holds, hothers, hpart⟩ := h.part i
  refine ⟨L, _, holds, fun k hk p hp => Multiset.mem_add.mpr (.inl (hothers k hk p hp)),
      fun z bs w hc hbecomes => ?_⟩
  obtain ⟨L', holds', hev, hz⟩ := hbecomes
  have hnil : s.dumped ++ [] = s.dumped := List.append_nil _
  have hrefines := hpart [] hc (hnil.symm ▸ holds') hev hz (List.Subset.refl _)
    (fun ref href => absurd href List.not_mem_nil) fun ref href => absurd href List.not_mem_nil
  rw [hnil, List.map_nil, Multiset.coe_nil, add_zero, ← h.dumped] at hrefines
  exact hrefines

/-- `append(ZBuffer&&)` is about two buffers. -/
theorem two (h : Refines s q) (hij : i ≠ j) : ∃ L H,
    Holds s.world L ((s.buffer i).held + ((s.buffer j).held + H)) ∧ ∀ z z' bs w, w.Only Note.tame →
      Becomes s.world L (z'.held + H) z bs w → Has w z' [] →
      Refines { s with world := w, buffer := Function.update (Function.update s.buffer i z) j z' }
        ((q.set i bs).set j []) := by
  obtain ⟨L, holds⟩ := h.holds
  obtain ⟨H, hheld, hheld', hothers⟩ := held_two s hij
  rw [hheld] at holds
  refine ⟨L, H, holds, fun z z' bs w hc hbecomes hz' => ?_⟩
  obtain ⟨L', holds', hev, hz⟩ := hbecomes
  have hdumped : ∀ p ∈ blocks s.dumped, p ∈ H := fun p hp => by
    rw [← zero_add H, ← zero_add (0 + H), ← show ZBuffer.empty.held = 0 from rfl,
        ← hheld' s.world .empty .empty]
    exact Multiset.mem_add.mpr (.inr hp)
  obtain ⟨hvalid, hsame, hfits⟩ :=
      h.frame (List.Subset.refl _) hev (fun p hp => Multiset.mem_add.mpr (.inr (hdumped p hp))) hc
  refine ⟨⟨L', hheld' w z z' ▸ holds'⟩, fun k => ?_, hvalid, h.pos, ?_, hfits⟩
  · simp only [Queued.set]
    rcases eq_or_ne k j with rfl | hkj
    · rw [Function.update_self, Function.update_self]
      exact hz'
    · rw [Function.update_of_ne hkj, Function.update_of_ne hkj]
      rcases eq_or_ne k i with rfl | hki
      · rw [Function.update_self, Function.update_self]
        exact hz
      · rw [Function.update_of_ne hki, Function.update_of_ne hki]
        exact (h.has k).evolves h.sound hev fun p hp =>
            Multiset.mem_add.mpr (.inr (hothers k hki hkj p hp))
  · rw [hsame]
    exact h.dumped

omit [DecidableEq ι] in
/-- One of the buffers, as `size`, `copy_front` and `map` see it. -/
theorem wellFormed (h : Refines s q) (i : ι) : WellFormed s.world (s.buffer i) := by
  classical
  obtain ⟨L, H, holds, _⟩ := h.one i
  exact (h.has i).ready.wellFormed holds

omit [DecidableEq ι] in
theorem size (h : Refines s q) (i : ι) : (s.buffer i).size = (q.queue i).length := by
  rw [(h.wellFormed i).size_eq, (h.has i).content]

omit [DecidableEq ι] in
theorem copyFront (h : Refines s q) (i : ι) (count : Nat) :
    Returns ((s.buffer i).copyFront count) s.world
    fun out w => out = (q.queue i).take count ∧ w = s.world :=
  ((h.wellFormed i).copyFront (h.has i).content).mono fun _ _ hr => hr.2

omit [DecidableEq ι] in
theorem map (h : Refines s q) (i : ι) : Returns (s.buffer i).map s.world
    fun pieces w => pieces.flatten = q.queue i ∧ w = s.world :=
  (map_spec (h.has i).ready.valid (h.has i).length_lt).mono fun _ _ hr =>
  ⟨hr.2.trans (h.has i).content, hr.1⟩

/-- `dump_refs_to`: every ref has bytes, and together they are those of the buffer. -/
theorem dump (h : Refines s q) (i : ι) : Returns (s.buffer i).dumpRefsTo s.world fun r w =>
    r.2.1 = .empty ∧
    (w.Only Note.tame → (r.1.map (bytes w)).flatten = q.queue i ∧ [] ∉ r.1.map (bytes w) ∧
      r.2.2 = (r.1.map (bytes w)).length ∧
      Refines { world := w, buffer := Function.update s.buffer i .empty, dumped := s.dumped ++ r.1 }
        { q.set i [] with dumped := q.dumped + ↑(r.1.map (bytes w)) }) := by
  obtain ⟨L, R, holds, _, hpart⟩ := h.part i
  have hz := h.has i
  refine (hz.dump holds).mono fun r w hr => ?_
  obtain ⟨rfl, L', holds', hev⟩ := hr
  refine ⟨rfl, fun hc => ?_⟩
  obtain ⟨hvalid, hcontent⟩ := content_evolves hz.ready.valid h.sound hev fun p hp =>
      Multiset.mem_add.mpr (.inl hp)
  refine ⟨hcontent.trans hz.content, fun hnil => ?_, (List.length_map _).symm, ?_⟩
  · obtain ⟨ref, href, hbytes⟩ := List.mem_map.mp hnil
    have hlen := length_bytes (hvalid ref href)
    rw [hbytes] at hlen
    exact (hz.ready.pos ref href).ne hlen
  · have hheld : blocks (s.buffer i).list + (R + blocks s.dumped) =
        ZBuffer.empty.held + (R + blocks (s.dumped ++ (s.buffer i).list)) := by
      rw [blocks_append, show ZBuffer.empty.held = 0 from rfl, zero_add]
      abel
    rw [hheld] at holds'
    have hrefines := hpart _ hc holds' (hev.mono fun p hp => Multiset.mem_add.mpr (.inr hp)) .empty
      (List.Subset.refl _) hvalid hz.ready.pos
    rw [← h.dumped] at hrefines
    exact hrefines

omit [DecidableEq ι] in
theorem dumped_erase (h : Refines s q) {ref : BlockRef} (href : ref ∈ s.dumped) :
    ↑((s.dumped.erase ref).map (bytes s.world)) = q.dumped.erase (bytes s.world ref) := by
  rw [h.dumped, ← Multiset.map_coe, ← Multiset.map_coe, ← Multiset.coe_erase,
    Multiset.map_erase_of_mem _ _ (Multiset.mem_coe.mpr href)]

/-- `append_ref` of a ref that was dumped. -/
theorem appendRef (h : Refines s q) (pass : Pass) (i : ι) {ref : BlockRef} (href : ref ∈ s.dumped) :
    Returns ((s.buffer i).appendRef pass ref) s.world fun z w => w.Only Note.tame →
    (s.buffer i).Sealed →
      (∃ q', queues.step q (.appendRef pass i (bytes s.world ref)) q' ∧
        Refines
          { world := w, buffer := Function.update s.buffer i z, dumped := pass.left s.dumped ref }
          q') ∧
      z.Sealed := by
  obtain ⟨L, R, holds, _, hpart⟩ := h.part i
  have hmem : bytes s.world ref ∈ q.dumped := by
    rw [h.dumped]
    exact Multiset.mem_coe.mpr (List.mem_map_of_mem href)
  have hparts : (s.buffer i).held + (R + blocks s.dumped) =
      pass.given ref + ((s.buffer i).held + (R + blocks (pass.left s.dumped ref))) := by
    cases pass with
    | copy => exact (zero_add _).symm
    | move =>
        rw [Pass.given, Pass.left, Family.blocks_erase href, Multiset.singleton_add,
            Multiset.add_cons,
          Multiset.add_cons]
  have hheld : ref.block ∈ pass.given ref + (R + blocks (pass.left s.dumped ref)) := by
    cases pass with
    | copy => exact Multiset.mem_add.mpr (.inr (Multiset.mem_add.mpr (.inr (mem_blocks href))))
    | move => exact Multiset.mem_add.mpr (.inl (Multiset.mem_singleton_self _))
  rw [hparts] at holds
  refine ((h.has i).appendRef holds hheld (h.valid ref href) (h.pos ref href)).mono
      fun z w hz hc hsealed => ?_
  obtain ⟨⟨L', holds', hev, hz'⟩, hsealed'⟩ := hz hc hsealed
  have hnil : pass.left s.dumped ref ++ [] = pass.left s.dumped ref := List.append_nil _
  have hleft : pass.left s.dumped ref ⊆ s.dumped := by
    cases pass with
    | copy => exact List.Subset.refl _
    | move => exact List.erase_subset
  have hrefines := hpart [] hc (hnil.symm ▸ holds') hev hz' hleft
    (fun r hr => absurd hr List.not_mem_nil) fun r hr => absurd hr List.not_mem_nil
  rw [hnil, List.map_nil, Multiset.coe_nil, add_zero] at hrefines
  refine ⟨⟨_, ⟨hmem, rfl⟩, ?_⟩, hsealed'⟩
  cases pass with
  | copy =>
      rw [h.dumped]
      exact hrefines
  | move =>
      rw [← h.dumped_erase href]
      exact hrefines

omit [DecidableEq ι] in
/-- A ref that was dumped is released; the bytes of the others are as they were. -/
theorem release (h : Refines s q) {ref : BlockRef} (href : ref ∈ s.dumped) :
    Returns ref.release s.world fun _ w =>
    w.Only Note.tame → bytes s.world ref ∈ q.dumped ∧
      Refines { s with world := w, dumped := s.dumped.erase ref }
        { q with dumped := q.dumped.erase (bytes s.world ref) } := by
  obtain ⟨L, holds⟩ := h.holds
  have hheld : ∀ w,
      s.held = ref.block ::ₘ State.held { s with world := w, dumped := s.dumped.erase ref } :=
      fun w => by
    rw [State.held, Family.blocks_erase href, Multiset.add_cons]
    rfl
  rw [hheld s.world] at holds
  have hrelease : ref.release = decRef ref.block :=
    if_neg (holds.ne_zero (.inl (Multiset.mem_cons_self _ _)))
  rw [hrelease]
  refine holds.decRef.mono fun _ w hw hc => ?_
  obtain ⟨L', holds', _, hev⟩ := hw
  obtain ⟨hvalid, hsame, hfits⟩ := h.frame List.erase_subset hev
    (fun p hp => .inl (Multiset.mem_add.mpr (.inr hp))) hc
  refine ⟨?_, ⟨L', holds'⟩, fun k => ?_, hvalid, fun r hr => h.pos r (List.erase_subset hr), ?_,
      hfits⟩
  · rw [h.dumped]
    exact Multiset.mem_coe.mpr (List.mem_map_of_mem href)
  · refine (h.has k).evolves h.sound hev fun p hp => .inl (Multiset.mem_add.mpr (.inl ?_))
    exact Multiset.mem_sum.mpr ⟨k, Finset.mem_univ k, Multiset.mem_add.mpr (.inr hp)⟩
  · rw [hsame]
    exact (h.dumped_erase href).symm

/-- A call is the same on the buffers and on the queues, if the buffer something is added to is
sealed; and all buffers stay so that were not moved from. -/
theorem step (h : Refines s q) (hs : Step s e t) (hc : t.world.Only Note.tame)
    (hsmall : s.world.Only Note.small)
    (hoffers : Offers s e) {m : Finset ι} (hm : ∀ i ∉ m, (s.buffer i).Sealed)
    (htarget : ∀ i ∈ e.target, i ∉ m) :
    (∃ q', queues.step q e q' ∧ Refines t q') ∧ ∀ i ∉ e.mark m, (t.buffer i).Sealed := by
  have hupdate : ∀ {b : ι → ZBuffer} {i : ι} {z : ZBuffer} (k : ι), (k = i → z.Sealed) →
      (k ≠ i → (b k).Sealed) →
      (Function.update b i z k).Sealed := by
    intro b i z k hz hk
    rcases eq_or_ne k i with rfl | hne
    · rw [Function.update_self]
      exact hz rfl
    · rw [Function.update_of_ne hne]
      exact hk hne
  cases hs with
  | @append i buf z w hrun =>
      obtain ⟨L, H, holds, _, hone⟩ := h.one i
      obtain ⟨_, hcopies⟩ := copies_of_loop hrun
      obtain ⟨hz, hsealed⟩ :=
          ((h.has i).append holds hcopies.lt).of_run hrun hc (hm i (htarget i rfl))
      exact ⟨⟨_, rfl, hone _ _ _ hc hz⟩, fun k hk => hupdate k (fun _ => hsealed) fun _ => hm k hk⟩
  | @appendCopy i j r w hij hrun =>
      obtain ⟨L, H, holds, hothers, hone⟩ := h.one i
      obtain ⟨hz, hsealed⟩ :=
          ((h.has i).appendCopy (h.has j) (hothers j hij.symm) holds).of_run hrun hc
        (hm i (htarget i rfl))
      exact ⟨⟨_, ⟨hij, rfl⟩, hone _ _ _ hc hz⟩,
          fun k hk => hupdate k (fun _ => hsealed) fun _ => hm k hk⟩
  | @appendMove i j r w hij hrun =>
      obtain ⟨L, H, holds, htwo⟩ := h.two hij
      obtain ⟨hz, hz', hsealed⟩ :=
          ((h.has i).appendMove (h.has j) holds).of_run hrun hc (hm i (htarget i rfl))
      refine ⟨⟨_, ⟨hij, rfl⟩, htwo _ _ _ _ hc hz hz'⟩, fun k hk => ?_⟩
      obtain ⟨hkj, hkm⟩ := not_or.mp (mt Finset.mem_insert.mpr hk)
      exact hupdate k (fun heq => absurd heq hkj) fun _ => hupdate k (fun _ => hsealed) fun _ =>
          hm k hkm
  | @read i count bytes z w hrun =>
      obtain ⟨L, H, holds, _, hone⟩ := h.one i
      obtain ⟨hz, hsealed⟩ :=
          (h.has i).read holds h.fits hsmall hoffers hrun hc (hm i (htarget i rfl))
      exact ⟨⟨_, rfl, hone _ _ _ hc hz⟩, fun k hk => hupdate k (fun _ => hsealed) fun _ => hm k hk⟩
  | @popn i count r w hcount hrun =>
      obtain ⟨L, H, holds, _, hone⟩ := h.one i
      obtain ⟨hout, hz, hseal⟩ := ((h.has i).popn holds hcount).of_run hrun
      exact ⟨⟨_, ⟨hout, rfl⟩, hone _ _ _ hc hz⟩,
        fun k hk => hupdate k (fun heq => hseal (heq ▸ hm k hk)) fun _ => hm k hk⟩
  | @dump i r w hrun =>
      obtain ⟨hempty, hdump⟩ := (h.dump i).of_run hrun
      obtain ⟨hflatten, hne, hn, hrefines⟩ := hdump hc
      rw [hempty]
      refine ⟨⟨_, ⟨hflatten, hne, hn, rfl⟩, hrefines⟩, fun k hk => ?_⟩
      exact hupdate k (fun _ => trivial) fun hki =>
          hm k fun hkm => hk (Finset.mem_erase.mpr ⟨hki, hkm⟩)
  | @appendRef pass i ref z w href hrun =>
      obtain ⟨hrefines, hsealed⟩ := (h.appendRef pass i href).of_run hrun hc (hm i (htarget i rfl))
      exact ⟨hrefines, fun k hk => hupdate k (fun _ => hsealed) fun _ => hm k hk⟩
  | @release ref w href hrun =>
      obtain ⟨hmem, hrefines⟩ := (h.release href).of_run hrun hc
      exact ⟨⟨_, ⟨hmem, rfl⟩, hrefines⟩, hm⟩
  | @destroy i w hrun =>
      obtain ⟨L, H, holds, _, hone⟩ := h.one i
      have hz := ((h.has i).destroy holds).of_run hrun
      refine ⟨⟨_, rfl, hone _ _ _ hc hz⟩, fun k hk => ?_⟩
      exact hupdate k (fun _ => trivial) fun hki =>
          hm k fun hkm => hk (Finset.mem_erase.mpr ⟨hki, hkm⟩)
  | @size i => exact ⟨⟨q, ⟨h.size i, rfl⟩, h⟩, hm⟩
  | @copyFront i count out w hrun =>
      obtain ⟨hout, rfl⟩ := (h.copyFront i count).of_run hrun
      exact ⟨⟨q, ⟨hout, rfl⟩, h⟩, hm⟩
  | @map i pieces w hrun =>
      obtain ⟨hflatten, rfl⟩ := (h.map i).of_run hrun
      exact ⟨⟨q, ⟨hflatten, rfl⟩, h⟩, hm⟩

end Refines

/-- Every call returns: no loop goes on for ever, no null pointer is followed and no `assert` fails.
-/
structure Returning (s : State ι) : Prop where
  append : ∀ i buf, buf.length < 2 ^ 32 → ∃ t, Step s (.append i buf) t
  appendCopy : ∀ i j, i ≠ j → ∃ t, Step s (.appendCopy i j) t
  appendMove : ∀ i j, i ≠ j → ∃ t, Step s (.appendMove i j) t
  read : ∀ i count, Returns (offerBlocks count) s.world fun offer _ => ∀ bytes : List UInt8,
    bytes.length ≤ offered offer.2 → ∃ t, Step s (.read i count bytes) t
  popn : ∀ i, ∀ count < 2 ^ 63, ∃ out t, Step s (.popn i count out) t
  dump : ∀ i, ∃ pieces n t, Step s (.dump i pieces n) t
  appendRef : ∀ pass i, ∀ ref ∈ s.dumped, ∃ t, Step s (.appendRef pass i (bytes s.world ref)) t
  release : ∀ ref ∈ s.dumped, ∃ t, Step s (.release (bytes s.world ref)) t
  destroy : ∀ i, ∃ t, Step s (.destroy i) t
  copyFront : ∀ i count, ∃ out t, Step s (.copyFront i count out) t
  map : ∀ i, ∃ pieces t, Step s (.map i pieces) t

section Returning
variable [Fintype ι] {env : Env} {s : State ι} {q : Queued ι} {es : List (Event ι)}

theorem Refines.returning (h : Refines s q) (hsmall : s.world.Only Note.small) : Returning s where
  append i buf hlen := by
    obtain ⟨L, H, holds, _⟩ := h.one i
    obtain ⟨z, w, hrun, _⟩ := (h.has i).append holds hlen
    exact ⟨_, .append hrun⟩
  appendCopy i j hij := by
    obtain ⟨L, H, holds, hothers, _⟩ := h.one i
    obtain ⟨r, w, hrun, _⟩ := (h.has i).appendCopy (h.has j) (hothers j hij.symm) holds
    exact ⟨_, .appendCopy hij hrun⟩
  appendMove i j hij := by
    obtain ⟨L, H, holds, _⟩ := h.two hij
    obtain ⟨r, w, hrun, _⟩ := (h.has i).appendMove (h.has j) holds
    exact ⟨_, .appendMove hij hrun⟩
  read i count := by
    obtain ⟨L, H, holds, _⟩ := h.one i
    refine ((h.has i).read_returns holds h.fits hsmall).mono fun offer _ hread bytes hlen => ?_
    obtain ⟨z, w, hrun, _⟩ := hread bytes hlen
    exact ⟨_, .read hrun⟩
  popn i count hcount := by
    obtain ⟨L, H, holds, _⟩ := h.one i
    obtain ⟨r, w, hrun, _⟩ := (h.has i).popn holds hcount
    exact ⟨_, _, .popn hcount hrun⟩
  dump i := by
    obtain ⟨r, w, hrun, _⟩ := h.dump i
    exact ⟨_, _, _, .dump hrun⟩
  appendRef pass i ref href := by
    obtain ⟨z, w, hrun, _⟩ := h.appendRef pass i href
    exact ⟨_, .appendRef href hrun⟩
  release ref href := by
    obtain ⟨_, w, hrun, _⟩ := h.release href
    exact ⟨_, .release href hrun⟩
  destroy i := by
    obtain ⟨L, H, holds, _⟩ := h.one i
    obtain ⟨_, w, hrun, _⟩ := (h.has i).destroy holds
    exact ⟨_, .destroy hrun⟩
  copyFront i count := by
    obtain ⟨out, w, hrun, _⟩ := h.copyFront i count
    exact ⟨_, _, .copyFront hrun⟩
  map i := by
    obtain ⟨pieces, w, hrun, _⟩ := h.map i
    exact ⟨_, _, .map hrun⟩

omit [Fintype ι] in
theorem run_small (h : ((calls env).when Offers).Run es s) : s.world.Only Note.small := by
  refine h.invariant (I := fun s => s.world.Only Note.small) (fun s hs => ?_) fun s e t _ hs n hn =>
      (hs.1.2 n hn).2
  rw [hs.1]
  exact fun n hn => nomatch hn

theorem run_refines (h : ((calls env).when Offers).Run es s) (hes : Orderly es) :
    (∃ q, queues.Run es q ∧ Refines s q) ∧ ∀ i ∉ moved es, (s.buffer i).Sealed := by
  induction h with
  | start h₀ => exact ⟨⟨_, .start rfl, .fresh h₀⟩, fun i _ => h₀.2.1 i ▸ trivial⟩
  | @next es s t e hrun hs ih =>
      obtain ⟨hinit, htarget⟩ := hes.init
      obtain ⟨⟨q, hq, hrefines⟩, hsealed⟩ := ih hinit
      obtain ⟨⟨q', hstep, hrefines'⟩, hsealed'⟩ :=
        hrefines.step hs.1.1 hs.1.2 (run_small hrun) hs.2 hsealed htarget
      refine ⟨⟨q', hq.next hstep, hrefines'⟩, fun i hi => hsealed' i ?_⟩
      rwa [moved, List.foldl_append] at hi

/-- **The buffers of a thread are queues of bytes.**  In every run of calls on any number of
buffers, as long as the rings that grow are tame, no empty area is offered to the kernel and nothing
is added to a buffer that was moved from, every call has the result that the same calls have on
queues of bytes; and every further call returns. -/
theorem buffers_are_queues (h : ((calls env).when Offers).Run es s) (hes : Orderly es) :
    (∃ q, queues.Run es q) ∧ Returning s := by
  obtain ⟨⟨q, hq, hrefines⟩, _⟩ := run_refines h hes
  exact ⟨⟨q, hq⟩, hrefines.returning (run_small h)⟩

end Returning

instance : DecidablePred Note.tame := fun n =>
  match n with
  | .drop _ _ => isTrue ⟨⟨trivial, trivial⟩, trivial⟩
  | .release _ => isTrue ⟨⟨trivial, trivial⟩, trivial⟩
  | .resize begin cap =>
      decidable_of_iff (Note.resize begin cap).sane ⟨fun h => ⟨h, trivial⟩, And.left⟩
  | .request n inside => decidable_of_iff ((Note.request n inside).sane ∧ n ≤ 2048) Iff.rfl

/-- Three bytes are read, and two of them taken. -/
theorem buffers_are_queues_three : ∃ q : Queued Unit,
    queues.Run [.read () 8 [1, 2, 3], .popn () 2 [1, 2]] q := by
  have hoffer : ((offerBlocks 8).run (.initial .plain)).map (fun r => r.1.2.map Iovec.len) =
      some [8] := by
    decide +kernel
  have hcalls : (((ZBuffer.empty.readFromFd 8 [1, 2, 3]).run (.initial .plain)).bind fun p =>
      ((p.1.popn 2).run p.2).bind fun p' =>
        some (p'.1.1, decide (p.2.Only Note.tame), decide (p'.2.Only Note.tame))) =
        some ([1, 2], true, true) := by
    decide +kernel
  obtain ⟨⟨z, w⟩, hread, hcalls⟩ := Option.bind_eq_some_iff.mp hcalls
  obtain ⟨⟨r, w'⟩, hpop, heq⟩ := Option.bind_eq_some_iff.mp hcalls
  obtain ⟨hout, htame⟩ := Prod.mk.inj (Option.some.inj heq)
  obtain ⟨htame, htame'⟩ := Prod.mk.inj htame
  have start : ((calls .plain).when Offers).Run [] (Family.start : State Unit) :=
      .start ⟨rfl, fun _ => rfl, rfl⟩
  have hoffers : Offers (Family.start : State Unit) (.read () 8 [1, 2, 3]) :=
      fun _ r w hrun v hv => by
    replace hrun : (offerBlocks 8).run (.initial .plain) = some (r, w) := hrun
    rw [hrun] at hoffer
    have hlens : r.2.map Iovec.len = [8] := Option.some.inj hoffer
    have hlen : v.len ∈ r.2.map Iovec.len := List.mem_map_of_mem hv
    rw [hlens] at hlen
    rw [List.mem_singleton.mp hlen]
    decide
  have hstep : Step (Family.start : State Unit) (.read () 8 [1, 2, 3]) _ := .read hread
  have one := start.next ⟨⟨hstep, of_decide_eq_true htame⟩, hoffers⟩
  have hcount : 2 < 2 ^ 63 := by norm_num
  have two := one.next ⟨⟨.popn (i := ()) hcount hpop, of_decide_eq_true htame'⟩, trivial⟩
  have horderly : Orderly [Event.read () 8 [1, 2, 3], .popn () 2 r.1] := by
    unfold Orderly
    simp [Fin.forall_fin_succ, Event.target, moved]
  obtain ⟨q, hq⟩ := (buffers_are_queues two horderly).1
  exact ⟨q, hout ▸ hq⟩

end Queues

end PBase.Buffer
