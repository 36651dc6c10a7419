/-
# `PBase.Buffer.Ready` — buffers in use

A buffer is `Ready` if its refs cover written bytes, none of them is empty, and it knows its size.
Appending to it and popping from it keep this, and do to the bytes what they should, as long as a
ring that grows is aligned (`Safe`), `refs_num` does not wrap (`Room`), and an empty ring does not
take a ref for one it still has (`OpenFor`).  Whatever is done elsewhere, the bytes stay.
-/
import PBase.Buffer.Forms
import PBase.Buffer.Append

namespace PBase.Buffer

open PBase.Lib

/-- A ring that grows is aligned, and given storage inside a block. -/
def Note.sane (n : Note) : Prop := n.aligned ∧ n.inside

instance : DecidablePred Note.aligned := fun n =>
  match n with
  | .resize begin cap => inferInstanceAs (Decidable (begin = 0 ∨ 0 < cap ∧ begin % cap = 0))
  | .drop _ _ => isTrue trivial
  | .release _ => isTrue trivial
  | .request _ _ => isTrue trivial

instance : DecidablePred Note.inside := fun n =>
  match n with
  | .request _ inside => inferInstanceAs (Decidable (inside = true))
  | .drop _ _ => isTrue trivial
  | .release _ => isTrue trivial
  | .resize _ _ => isTrue trivial

instance : DecidablePred Note.sane := fun n => inferInstanceAs (Decidable (n.aligned ∧ n.inside))

instance {w : World} {c : Note → Prop} [DecidablePred c] : Decidable (w.Only c) :=
  inferInstanceAs (Decidable (∀ n ∈ w.notes, c n))

structure Ready (w : World) (z : ZBuffer) : Prop where
  shape : z.Shape
  sized : z.Sized
  wide : z.Wide
  valid : AllValid w z.list
  pos : ∀ ref ∈ z.list, 0 < ref.length

section
variable {w w' : World} {L L' : List Nat} {H D : Multiset Nat} {z z' : ZBuffer} {S : Nat → Prop}
  {k : Nat} {buf bs : List UInt8} {ok : Prop} {rh : ZBuffer}

theorem Ready.wellFormed (h : Ready w z) (holds : Holds w L (z.held + H)) : WellFormed w z :=
  ⟨h.shape, h.sized, h.valid, L, H, holds⟩

/-- A new buffer. -/
theorem Ready.empty : Ready w .empty where
  shape := ⟨fun _ => ⟨rfl, rfl⟩, fun _ => rfl⟩
  sized := fun _ => rfl
  wide := trivial
  valid _ href := absurd href List.not_mem_nil
  pos _ href := absurd href List.not_mem_nil

/-- Whatever happens, as long as the refs are held. -/
theorem Ready.evolves (h : Ready w z) (hs : w.AllSound) (hev : Evolves w L w' L' S)
    (hS : ∀ p ∈ blocks z.list, S p) : Ready w' z ∧ content w' z.list = content w z.list := by
  obtain ⟨hvalid, hsame⟩ := content_evolves h.valid hs hev hS
  exact ⟨⟨h.shape, h.sized, h.wide, hvalid, h.pos⟩, hsame⟩

/-- A buffer that bytes were added to. -/
theorem Ready.grown {D' : Multiset Nat}
    (hgrown : z.Grown w L H (blocks z.list) k bs ok S z' w' L' D') (h : Ready w z)
    (hsafe : z.Safe w')
    (hroom : z.Room k w') : Holds w' L' (z'.held + H) ∧ z'.list.length ≤ z.list.length + k ∧
      (ok → Ready w' z' ∧ content w' z'.list = content w z.list ++ bs ∧
        (z.Sealed → z'.Sealed)) := by
  obtain ⟨hshape, hD, hlen, hrest⟩ := hgrown.refs h.shape rfl hsafe hroom
  refine ⟨?_, hlen, fun hok => ?_⟩
  · have holds := hgrown.holds
    rwa [hD, ← add_assoc] at holds
  · have ha := hrest h.valid h.sized hok
    exact ⟨⟨hshape, ha.sized, hgrown.wide, ha.valid, ha.pos h.pos⟩, ha.content, ha.isSealed⟩

/-- `append(buf, count)` -/
theorem Ready.append (h : Ready w z) (holds : Holds w L (z.held + H)) (hlen : buf.length < 2 ^ 32) :
    Returns (z.append buf) w fun z' w' => ∃ L' D', z.Grown w L H (blocks z.list)
    (mostRefs buf.length) buf
      (z.OpenFor w buf) (fun q => q ∈ blocks z.list + H) z' w' L' D' := by
  rw [ZBuffer.held, add_assoc] at holds
  exact append_spec holds h.wide hlen

/-- `popn(buf, count)` -/
theorem Ready.popn {count : Nat} (h : Ready w z) (holds : Holds w L (z.held + H))
    (hcount : count < 2 ^ 63) :
    Returns (z.popn count) w fun r w' => ∃ L', Holds w' L' (r.2.held + H) ∧
      (Evolves w L w' L' fun q => q ∈ r.2.held + H) ∧ Ready w' r.2 ∧ (z.Slim → r.2.Slim) ∧
      (z.Sealed → r.2.Sealed) ∧ r.1 = (content w z.list).take count ∧
      content w' r.2.list = (content w z.list).drop count := by
  have hp : z.Poppable count := by
    cases z with
    | two first second => exact .inl hcount
    | array refsNum a firstRef => exact trivial
  refine (popn_spec h.shape holds).mono fun r w' hr => ?_
  obtain ⟨L', hr⟩ := hr
  obtain ⟨hlist, hout, hsized⟩ := hr.rest h.valid h.sized hp
  have hpos := popRefs_pos h.valid holds.sound h.pos count
  obtain ⟨hvalid, hcontent, _⟩ := content_popRefs h.valid holds.sound count
  rw [← hlist] at hvalid hcontent hpos
  obtain ⟨hvalid', hsame⟩ := content_evolves hvalid holds.sound hr.evolves fun p hp =>
    Multiset.mem_add.mpr (.inl (Multiset.mem_add.mpr (.inr hp)))
  exact ⟨L', hr.holds, hr.evolves, ⟨hr.shape, hsized, hr.wide h.wide, hvalid', hpos⟩, hr.slim,
      hr.sealed, hout,
    hsame.trans hcontent⟩

/-- A ring with storage inside a block has fewer refs than an `int` counts. -/
theorem ZBuffer.Slim.length_lt (h : z.Slim) (hz : z.Shape) : z.list.length < 2 ^ 31 := by
  cases z with
  | two first second =>
      have hlen : (ZBuffer.two first second).list.length ≤ 2 := List.length_filter_le ..
      omega
  | array refsNum a firstRef =>
      have hlen : (ZBuffer.array refsNum a firstRef).list.length = refsNum :=
          BlockRefArray.length_list
      have hfits := hz.1.fits
      have hslim : a.capMask + 1 < 2 ^ 28 := h
      omega

/-- `append(const ZBuffer&)`, of a buffer that is held elsewhere. -/
theorem appendCopy_held (hrh : rh.Shape) (hslim : rh.Slim) (hmem : ∀ q ∈ blocks rh.list, q ∈ H)
    (h : Holds w L (z.held + H)) (hz : z.Wide) :
    Returns (z.appendCopy rh) w fun r w' => GrowsAll w L H (blocks z.list) z rh.list r.1 w' := by
  rw [ZBuffer.held, add_assoc] at h
  exact appendCopy_spec hrh (hslim.length_lt hrh) (fun r hr => hmem _ (mem_blocks hr)) h hz

/-- `append(ZBuffer&&)`: the refs go over, and the ring they were in stays. -/
theorem appendMove_held (hrh : rh.Shape) (hslim : rh.Slim) (h : Holds w L (z.held + (rh.held + H)))
    (hz : z.Wide) :
    Returns (z.appendMove rh) w fun r w' =>
      GrowsAll w L (rh.base + H) (blocks z.list) z rh.list r.1 w' ∧ Emptied rh r.2.1 := by
  have hparts :
      z.held + (rh.held + H) = blocks rh.list + (z.base + (blocks z.list + (rh.base + H))) := by
    rw [ZBuffer.held, ZBuffer.held]
    abel
  rw [hparts] at h
  exact appendMove_spec hrh (hslim.length_lt hrh) h hz

theorem Emptied.held (h : Emptied rh z) : z.held = rh.base := by
  rw [ZBuffer.held, h.list, h.base, blocks_nil, add_zero]

/-- A buffer whose refs were moved is a new one, but for the ring. -/
theorem Emptied.ready (h : Emptied rh z) (hwide : rh.Wide) : Ready w z ∧ content w z.list = [] := by
  have hno : ∀ ref, ref ∉ z.list := by
    rw [h.list]
    exact fun _ => List.not_mem_nil
  refine ⟨⟨h.shape, h.sized, h.wide hwide, fun ref href => ?_, fun ref href => ?_⟩, ?_⟩
  · exact absurd href (hno ref)
  · exact absurd href (hno ref)
  · rw [h.list, content_nil]

end

end PBase.Buffer
