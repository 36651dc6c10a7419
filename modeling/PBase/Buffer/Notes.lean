/-
# `PBase.Buffer.Notes` — which notes the cache writes

`dec_ref` and `acquire_block` note that a block is released or dropped, and only
`acquire_block_ref_array` notes a request.  So a condition on notes that the first two kinds meet
(`Quiet`) is kept by every function of the cache, and by a request that meets it.
-/
import PBase.Buffer.Cache

namespace PBase.Buffer

open PBase.Lib

/-- Notes of drops and releases are fine. -/
structure Quiet (c : Note → Prop) : Prop where
  drop : ∀ r n, c (.drop r n)
  release : ∀ p, c (.release p)

/-- The program adds notes that meet `c` only. -/
def Notes (c : Note → Prop) {α : Type} (m : Program α) : Prop := Preserves (fun w => w.Only c) m

theorem quiet_small : Quiet Note.small := ⟨fun _ _ => trivial, fun _ => trivial⟩

namespace Notes

variable {c : Note → Prop} {α β : Type} {p : Nat}

theorem modify {g : World → World} (h : ∀ w, (g w).notes = w.notes) :
    Notes c (modify g : Program Unit) := Preserves.modify fun w hw n hn => hw n (h w ▸ hn)

theorem load : Notes c (load p) := by
  refine .bind .get fun w => ?_
  split
  · exact .pure _
  · exact .failure

theorem store {b : Block} : Notes c (store p b) := modify fun _ => rfl

theorem note {n : Note} (h : c n) : Notes c (note n) := Preserves.modify fun w hw m hm => by
  rcases List.mem_cons.mp hm with rfl | hm
  · exact h
  · exact hw m hm

theorem check {d : Prop} [Decidable d] : Notes c (check d) := .ite (fun _ => .pure _) fun _ =>
    .failure

theorem createBlock {size : Nat} : Notes c (createBlock size) :=
  .of_returns fun _ hw => returns_createBlock hw

theorem incRef : Notes c (incRef p) := .bind load fun _ => store

theorem readv (iov : List Iovec) (bytes : List UInt8) : Notes c (readv iov bytes) := by
  induction iov generalizing bytes with
  | nil => exact .pure _
  | cons v iov ih => exact .bind load fun _ => .bind store fun _ => ih _

variable (hc : Quiet c)
include hc

theorem releaseBlock : Notes c (releaseBlock p) := by
  refine .bind (note (hc.release p)) fun _ => .bind .get fun w => .ite (fun _ => ?_) fun _ =>
      modify fun _ => rfl
  exact .bind (modify fun _ => rfl) fun _ => .bind incRef fun _ => .bind load fun _ =>
    .bind store fun _ => modify fun _ => rfl

theorem decRef : Notes c (decRef p) :=
  .bind load fun _ => .ite (fun _ => .bind store fun _ => releaseBlock hc) fun _ => store

theorem release {ref : BlockRef} : Notes c ref.release := .ite (fun _ => .pure _) fun _ => decRef hc

theorem acquireBlock : Notes c acquireBlock := by
  refine .bind .get fun _ => .loop (fun _ => .bind .get fun w => .ite (fun _ => ?_) fun _ => ?_) _ _
  · exact .bind createBlock fun _ => .bind (modify fun _ => rfl) fun _ =>
      .bind (modify fun _ => rfl) fun _ => .pure _
  · refine .bind load fun b => .ite (fun _ => ?_) fun _ => .pure _
    exact .bind (note (hc.drop _ _)) fun _ => .bind (decRef hc) fun _ =>
        .bind (modify fun _ => rfl) fun _ =>
      .bind (modify fun _ => rfl) fun _ => .pure _

theorem acquireBlockRef : Notes c acquireBlockRef := by
  refine .bind (.bind .get fun _ =>
      .loop (fun _ => .bind .get fun w => .ite (fun _ => ?_) fun _ => ?_) _ _)
    fun _ => .bind load fun _ => .pure _
  · exact .bind createBlock fun _ => .bind (modify fun _ => rfl) fun _ => .pure _
  · refine .bind load fun b => .bind (modify fun _ => rfl) fun _ => .ite (fun _ => ?_) fun _ =>
      .pure _
    exact .bind (decRef hc) fun _ => .bind (modify fun _ => rfl) fun _ => .pure _

theorem returnBlockRef {ref : BlockRef} : Notes c (returnBlockRef ref) := by
  refine .bind load fun _ => .bind store fun _ => .bind incRef fun _ => .bind load fun _ =>
    .ite (fun _ => decRef hc) fun _ => .bind .get fun w => ?_
  exact .bind store fun _ => .bind (modify fun _ => rfl) fun _ => modify fun _ => rfl

theorem copyIn {buf : List UInt8} : Notes c (copyIn buf) :=
  .bind (acquireBlock hc) fun _ => .bind load fun _ => .bind store fun _ => .pure _

theorem offerBlocks {count : Nat} : Notes c (offerBlocks count) := by
  refine .bind (acquireBlock hc) fun _ => .bind .get fun _ => .bind check fun _ => .bind ?_ fun _ =>
      .pure _
  refine .loop (fun s => .bind (.ite (fun _ => ?_) fun _ => .pure _) fun _ => .bind load fun _ =>
    .ite (fun _ => .pure _) fun _ => .pure _) _ _
  exact .bind createBlock fun _ => .bind load fun _ => .bind store fun _ =>
      .bind (modify fun _ => rfl) fun _ => .pure _

omit hc in
theorem takeBytes {iov : List Iovec} {bytes : List UInt8} : Notes c (takeBytes p iov bytes) := by
  refine .ite (fun _ => .pure _) fun _ => .bind check fun _ => .bind (readv _ _) fun _ =>
      .bind .get fun _ =>
    .bind check fun _ => .bind ?_ fun s => .bind check fun _ => .bind (modify fun _ => rfl) fun _ =>
    .pure _
  refine .loop (fun s => .bind load fun _ => ?_) _ _
  split
  · exact .failure
  · refine .bind check fun _ => .bind check fun _ =>
      .ite (fun _ => .bind store fun _ => .bind (modify fun _ => rfl)
      fun _ => .ite (fun _ => .pure _) fun _ => .pure _) fun _ => .bind store fun _ =>
      .bind check fun _ => .pure _

theorem readRefs {count : Nat} {bytes : List UInt8} : Notes c (readRefs count bytes) :=
  .bind (offerBlocks hc) fun _ => takeBytes

omit hc in
theorem acquireBlockRefArray {n : Nat} (hn : ∀ b, c (.request n b)) :
    Notes c (acquireBlockRefArray n) := by
  have hpush : ∀ size, Notes c (pushNewBlock size) := fun size => .bind createBlock fun _ =>
      .bind load fun _ =>
    .bind .get fun _ => .bind store fun _ => .bind (modify fun _ => rfl) fun _ =>
    .bind (modify fun _ => rfl)
      fun _ => .pure _
  refine .bind (.bind .get fun _ => .ite (fun _ => .bind (.loop (fun q => ?_) _ _) fun _ => ?_)
      fun _ => hpush _)
    fun _ => .bind load fun _ => .bind (note (hn _)) fun _ => .bind store fun _ => .pure _
  · exact .ite (fun _ => .pure _) fun _ => .bind load fun _ => .ite (fun _ => .pure _) fun _ =>
      .pure _
  · exact .ite (fun _ => hpush _) fun _ => .pure _

end Notes

end PBase.Buffer
