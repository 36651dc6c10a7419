/-
# `PBase.Buffer.Dump` — handing over the refs of a buffer

`dump_refs_to` puts the refs that are not empty on a queue, in order, and releases the others and
the storage of the ring.  Nothing is copied: appended to a new buffer, the refs are the content
again.  The loop counts the refs of a ring in an `int`, so a ring of 2 ^ 31 refs or more is
forgotten instead (`dump_refs_iff`).
-/
import PBase.Buffer.Front
import PBase.Buffer.Append

namespace PBase.Buffer

open PBase.Lib

/-! ## Releasing refs -/

section
variable {w w' : World} {L : List Nat} {H : Multiset Nat} {l : List BlockRef}

/-- The references of the refs are given up, and nothing else. -/
theorem releaseAll_refs (h : Refs w L (blocks l + H)) (hne : ∀ ref ∈ l, ref.block ≠ 0) :
    Returns (releaseAll l) w fun _ w' =>
      ∃ L', Refs w' L' H ∧ L ⊆ L' ∧ Evolves w L w' L' fun q => q ∈ H ∨ q ∈ L := by
  induction l generalizing w L with
  | nil =>
      rw [blocks_nil, zero_add] at h
      exact .pure ⟨L, h, List.Subset.refl L, .refl w L _⟩
  | cons ref l ih =>
      rw [blocks_cons, Multiset.cons_add] at h
      have hrelease : ref.release = decRef ref.block := if_neg (hne ref List.mem_cons_self)
      show Returns (ref.release >>= fun _ => releaseAll l) w _
      rw [hrelease]
      refine .bind ((decRef_spec h).mono fun _ w₁ hw => ?_)
      obtain ⟨L₁, h₁, hput, hev⟩ := hw
      refine (ih h₁ fun r hr => hne r (List.mem_cons_of_mem _ hr)).mono fun _ w₂ hw => ?_
      obtain ⟨L₂, h₂, hsub, hev₂⟩ := hw
      refine ⟨L₂, h₂, List.Subset.trans hput.subset hsub, hev.trans hev₂ fun q hq => ⟨?_, ?_⟩⟩
      · exact hq.imp_left fun hq => Multiset.mem_add.mpr (.inr hq)
      · exact hq.imp_right fun hq => hput.subset hq

theorem Holds.releaseAll (h : Holds w L (blocks l + H)) (hne : ∀ ref ∈ l, ref.block ≠ 0) :
    Returns (releaseAll l) w fun _ w' =>
      ∃ L', Holds w' L' H ∧ L ⊆ L' ∧ Evolves w L w' L' fun q => q ∈ H ∨ q ∈ L := by
  obtain ⟨K, hrefs, hK⟩ := h.refs
  rw [add_left_comm] at hrefs
  refine (releaseAll_refs hrefs hne).mono fun _ w' hw => ?_
  obtain ⟨L', hrefs', hsub, hev⟩ := hw
  exact ⟨L', h.of_refs hK hrefs' hev, hsub,
    hev.mono fun q hq => hq.imp_left fun hq => Multiset.mem_add.mpr (.inr hq)⟩

/-- A world has one list, and one count for every block. -/
theorem Refs.unique {L' : List Nat} {H' : Multiset Nat} (h : Refs w L H) (h' : Refs w L' H') :
    L = L' ∧ H = H' := by
  have hL : L = L' := h.chain.unique h'.chain
  subst hL
  refine ⟨rfl, Multiset.ext.mpr fun p => ?_⟩
  cases hb : w.block p with
  | some b =>
      have hcount := (h.count p b hb).1
      have hcount' := (h'.count p b hb).1
      omega
  | none =>
      have hnone : ∀ {K : Multiset Nat}, Refs w L K → K.count p = 0 := fun hK =>
        Multiset.count_eq_zero.mpr fun hp => by
          have := hK.held p hp
          rw [hb] at this
          cases this
      rw [hnone h, hnone h']

end

/-! ## `dump_refs_to` -/

/-- The refs that are not empty, and those that are. -/
def filled (l : List BlockRef) : List BlockRef := l.filter (·.length ≠ 0)

def empties (l : List BlockRef) : List BlockRef := l.filter (·.length = 0)

/-- The ref on the storage of a ring; null for two refs. -/
def ZBuffer.storage : ZBuffer → BlockRef
  | two _ _ => .null
  | array _ _ firstRef => firstRef

section
variable {w w' : World} {L : List Nat} {H : Multiset Nat} {l : List BlockRef} {z : ZBuffer}
  {ref first second : BlockRef} {a : BlockRefArray} {i n : Nat}

theorem blocks_parts (l : List BlockRef) : blocks (empties l) + blocks (filled l) = blocks l := by
  induction l with
  | nil => rfl
  | cons r l ih =>
      rcases Nat.eq_zero_or_pos r.length with h0 | hpos
      · have he : empties (r :: l) = r :: empties l := List.filter_cons_of_pos (by simpa using h0)
        have hf : filled (r :: l) = filled l := List.filter_cons_of_neg (by simpa using h0)
        rw [he, hf, blocks_cons, blocks_cons, Multiset.cons_add, ih]
      · have hne : r.length ≠ 0 := Nat.pos_iff_ne_zero.mp hpos
        have he : empties (r :: l) = empties l := List.filter_cons_of_neg (by simpa using hne)
        have hf : filled (r :: l) = r :: filled l := List.filter_cons_of_pos (by simpa using hne)
        rw [he, hf, blocks_cons, blocks_cons, Multiset.add_cons, ih]

/-- The refs that are left out have no bytes. -/
theorem content_filled (h : AllValid w l) : content w (filled l) = content w l := by
  induction l with
  | nil => rfl
  | cons r l ih =>
      have hl := ih fun r hr => h r (List.mem_cons_of_mem _ hr)
      rcases Nat.eq_zero_or_pos r.length with h0 | hpos
      · have hf : filled (r :: l) = filled l := List.filter_cons_of_neg (by simpa using h0)
        have hnil : bytes w r = [] := List.eq_nil_of_length_eq_zero
          ((length_bytes (h r List.mem_cons_self)).trans h0)
        rw [hf, hl, content_cons, hnil, List.nil_append]
      · have hf : filled (r :: l) = r :: filled l :=
          List.filter_cons_of_pos (by simpa using Nat.pos_iff_ne_zero.mp hpos)
        rw [hf, content_cons, hl, content_cons]

/-- The loop of `dump_refs_to`: the empty refs are released, the others dumped. -/
theorem dumpRefs_eq : dumpRefs a i n =
    releaseAll (empties (a.list i n)) >>= fun _ => pure (filled (a.list i n)) := by
  induction n generalizing i with
  | zero => rfl
  | succ n ih =>
      rw [dumpRefs, ih, BlockRefArray.list_succ]
      simp only [empties, filled]
      split
      · rename_i h0
        rw [List.filter_cons_of_pos (by simpa using h0),
            List.filter_cons_of_neg (by simpa using h0)]
        rw [releaseAll, bind_assoc]
      · rename_i hne
        rw [List.filter_cons_of_neg (by simpa using hne),
            List.filter_cons_of_pos (by simpa using hne)]
        simp only [bind_assoc, pure_bind]

theorem releaseAll_append (l l' : List BlockRef) :
    releaseAll (l ++ l') = releaseAll l >>= fun _ => releaseAll l' := by
  induction l with
  | nil => rfl
  | cons r l ih =>
      show (r.release >>= fun _ => releaseAll (l ++ l')) = (r.release >>= fun _ => releaseAll l) >>=
          _
      rw [ih, bind_assoc]

/-- One of two refs. -/
theorem dumpIfAny_eq (href : ref.block = 0 → ref.length = 0) : ZBuffer.dumpIfAny ref =
    releaseAll (empties ([ref].filter (·.block ≠ 0))) >>= fun _ =>
      pure (filled ([ref].filter (·.block ≠ 0)), .null) := by
  rw [ZBuffer.dumpIfAny]
  rcases eq_or_ne ref.block 0 with h0 | hne
  · have hnil : [ref].filter (·.block ≠ 0) = [] := by simp [h0]
    rw [if_pos (href h0), hnil, BlockRef.release, if_pos h0]
    rfl
  · have hone : [ref].filter (·.block ≠ 0) = [ref] := by simp [hne]
    rw [hone]
    split
    · rename_i h0
      have hempties : empties [ref] = [ref] := List.filter_cons_of_pos (by simpa using h0)
      have hfilled : filled [ref] = [] := List.filter_cons_of_neg (by simpa using h0)
      rw [hempties, hfilled, releaseAll, bind_assoc]
      rfl
    · rename_i hlen
      have hempties : empties [ref] = [] := List.filter_cons_of_neg (by simpa using hlen)
      have hfilled : filled [ref] = [ref] := List.filter_cons_of_pos (by simpa using hlen)
      rw [hempties, hfilled]
      rfl

/-- `dump_refs_to`, of a buffer whose refs the loop counts in an `int`. -/
theorem dumpRefsTo_eq (hz : z.Shape) (hlt : z.list.length < 2 ^ 31) : z.dumpRefsTo = (do
    releaseAll (empties z.list)
    z.storage.release
    pure (filled z.list, .empty, (filled z.list).length)) := by
  cases z with
  | two first second =>
      have hnull : BlockRef.null.release = pure ⟨⟩ := rfl
      simp only [ZBuffer.dumpRefsTo, ZBuffer.storage, dumpIfAny_eq fun h0 => (hz.1 h0).1,
          dumpIfAny_eq hz.2,
        ZBuffer.list_two, empties, filled, List.filter_append, releaseAll_append,
        List.length_append,
        hnull, bind_assoc, pure_bind]
      rfl
  | array refsNum a firstRef =>
      have hturns : intTurns refsNum = refsNum := if_pos (by simpa [ZBuffer.list] using hlt)
      simp only [ZBuffer.dumpRefsTo, hturns, dumpRefs_eq, bind_assoc, pure_bind]
      rfl

/-- From 2 ^ 31 refs on, the `int` is negative. -/
theorem dumpRefsTo_none {refsNum : Nat} {firstRef : BlockRef} (hge : ¬ refsNum < 2 ^ 31) :
    (ZBuffer.array refsNum a firstRef).dumpRefsTo = (do
      firstRef.release
      pure ([], .empty, 0)) := by
  have hturns : intTurns refsNum = 0 := if_neg hge
  simp only [ZBuffer.dumpRefsTo, hturns, dumpRefs, pure_bind]
  rfl

/-! ## Appending what was dumped -/

/-- `append_ref(BlockRef&&)` of one ref after the other. -/
theorem appendRefs_spec {D : Multiset Nat} (h : Holds w L (blocks l + (z.base + (D + H))))
    (hz : z.Wide) :
    Returns (l.foldlM (ZBuffer.appendRef .move) z) w fun z' w' => GrowsAll w L H D z l z' w' := by
  induction l generalizing z w L D with
  | nil =>
      rw [blocks_nil, zero_add] at h
      exact .pure (.nil h hz)
  | cons r l ih =>
      have hmem : ∀ q ∈ r :: l, q.block ∈ Pass.move.given q + H := fun q _ =>
        Multiset.mem_add.mpr (.inl (Multiset.mem_singleton_self _))
      rw [List.foldlM_cons]
      refine .bind ((appendFirst_spec hmem h hz).mono fun z₁ w₁ hz₁ => ?_)
      obtain ⟨L₁, D₁, h₁, hwide, hcons⟩ := hz₁
      exact (ih h₁ hwide).mono fun z₂ w₂ hrest => hcons z₂ w₂ hrest

/-- Appended to a new buffer, refs that are not empty are its content. -/
theorem append_restores (h : Holds w L (blocks l + H)) (hvalid : AllValid w l)
    (hpos : ∀ r ∈ l, 0 < r.length) (hlt : l.length < 2 ^ 32) :
    Returns (l.foldlM (ZBuffer.appendRef .move) .empty) w fun z' w' =>
      content w' z'.list = content w l ∧ WellFormed w' z' := by
  have h₀ : Holds w L (blocks l + (ZBuffer.empty.base + (0 + H))) := by
    rw [ZBuffer.empty, ZBuffer.base, zero_add, zero_add]
    exact h
  refine (appendRefs_spec h₀ trivial).mono fun z' w' hz' => ?_
  obtain ⟨L', D', hgrown⟩ := hz'
  have hnil : ZBuffer.empty.list = [] := rfl
  have hshape : ZBuffer.empty.Shape := ⟨fun _ => ⟨rfl, rfl⟩, fun _ => rfl⟩
  obtain ⟨hshape', hD', _, hrest⟩ := hgrown.refs hshape rfl (.inl rfl)
      (.inl (by simpa [hnil] using hlt))
  have ha := hrest (by simp [hnil, AllValid]) (fun _ => rfl) ⟨trivial, hvalid, hpos⟩
  have hcontent := ha.content
  rw [hnil, content_nil, List.nil_append] at hcontent
  refine ⟨hcontent, hshape', ha.sized, ha.valid, L', H, ?_⟩
  have hholds := hgrown.holds
  rwa [hD', ← add_assoc] at hholds

/-! ## What the caller gets -/

/-- `dump_refs_to` puts the refs that are not empty on the queue, with the content they had, and
returns their number; the references given up are those of the empty refs and of the ring; the
buffer is empty, and appending the refs to a new one restores content and size. -/
def Dumps (w : World) (z : ZBuffer) : Prop :=
  Returns z.dumpRefsTo w fun r w' =>
    r.1 = filled z.list ∧ content w' r.1 = content w z.list ∧ r.2.2 = r.1.length ∧
    r.2.1 = .empty ∧
    (do
      releaseAll (empties z.list)
      z.storage.release).run w = some (⟨⟩, w') ∧
    Returns (r.1.foldlM (ZBuffer.appendRef .move) .empty) w' fun z' w'' =>
      content w'' z'.list = content w z.list ∧ z'.size = z.size ∧ WellFormed w'' z'

/-- `release()` of the storage. -/
theorem storage_spec (h : Holds w L (z.base + H)) : Returns z.storage.release w fun _ w' =>
    ∃ L', Holds w' L' H ∧ L ⊆ L' ∧ Evolves w L w' L' fun q => q ∈ H ∨ q ∈ L := by
  cases z with
  | two first second =>
      rw [ZBuffer.base, zero_add] at h
      exact .pure ⟨L, h, List.Subset.refl L, .refl w L _⟩
  | array refsNum a firstRef =>
      rw [ZBuffer.base, Multiset.singleton_add] at h
      have hne := h.ne_zero (.inl (Multiset.mem_cons_self _ _))
      exact .ite (fun h0 => absurd h0 hne) fun _ => h.decRef

theorem dumps_of_lt (h : WellFormed w z) (hlt : z.list.length < 2 ^ 31) : Dumps w z := by
  obtain ⟨L, H, hholds⟩ := h.holds
  have hparts : z.held + H = blocks (empties z.list) + (z.base + (blocks (filled z.list) + H)) := by
    rw [ZBuffer.held, ← blocks_parts, add_left_comm (blocks (empties _)), add_assoc, add_assoc]
  have hfilled : AllValid w (filled z.list) := fun ref href =>
    h.valid ref (List.mem_of_mem_filter href)
  have hpos : ∀ ref ∈ filled z.list, 0 < ref.length := fun ref href =>
    Nat.pos_of_ne_zero (by simpa using (List.mem_filter.mp href).2)
  rw [hparts] at hholds
  obtain ⟨⟨⟩, w₁, hrun₁, L₁, h₁, _, hev₁⟩ := hholds.releaseAll fun ref href =>
    h.shape.ne_zero ref (List.mem_of_mem_filter href)
  obtain ⟨⟨⟩, w₂, hrun₂, L₂, h₂, _, hev₂⟩ := storage_spec h₁
  obtain ⟨hvalid₁, hsame₁⟩ := content_evolves hfilled h.sound hev₁ fun p hp =>
    .inl (Multiset.mem_add.mpr (.inr (Multiset.mem_add.mpr (.inl hp))))
  obtain ⟨hvalid₂, hsame₂⟩ := content_evolves hvalid₁ h₁.sound hev₂ fun p hp =>
    .inl (Multiset.mem_add.mpr (.inl hp))
  have hcontent : content w₂ (filled z.list) = content w z.list := by
    rw [hsame₂, hsame₁, content_filled h.valid]
  have hlen : (filled z.list).length < 2 ^ 32 :=
    (List.length_filter_le _ _).trans_lt (hlt.trans (by decide))
  have hrelease : (do
      releaseAll (empties z.list)
      z.storage.release).run w = some (⟨⟩, w₂) := run_bind_some.mpr ⟨⟨⟩, w₁, hrun₁, hrun₂⟩
  refine ⟨(filled z.list, .empty, (filled z.list).length), w₂, ?_, rfl, hcontent, rfl, rfl,
      hrelease, ?_⟩
  · rw [dumpRefsTo_eq h.shape hlt]
    exact run_bind_some.mpr ⟨⟨⟩, w₁, hrun₁, run_bind_some.mpr ⟨⟨⟩, w₂, hrun₂, rfl⟩⟩
  · refine (append_restores h₂ hvalid₂ hpos hlen).mono fun z' w' hz' => ?_
    obtain ⟨hrestored, hformed⟩ := hz'
    rw [hcontent] at hrestored
    refine ⟨hrestored, ?_, hformed⟩
    rw [hformed.size_eq, hrestored, h.size_eq]

/-- **A buffer is handed over if and only if it has fewer than 2 ^ 31 refs.** -/
theorem dump_refs_iff (h : WellFormed w z) : Dumps w z ↔ z.list.length < 2 ^ 31 := by
  refine ⟨fun hdumps => ?_, dumps_of_lt h⟩
  by_contra hge
  cases z with
  | two first second =>
      have htwo : (ZBuffer.two first second).list.length ≤ 2 := List.length_filter_le ..
      omega
  | array refsNum a firstRef =>
      have hnum : (ZBuffer.array refsNum a firstRef).list.length = refsNum :=
          BlockRefArray.length_list
      rw [hnum] at hge
      -- nothing is dumped, so all refs must be empty; but then they are to be released
      obtain ⟨r, w', hrun, hqueue, _, _, _, hrelease, _⟩ := hdumps
      rw [dumpRefsTo_none hge] at hrun
      obtain ⟨⟨⟩, w₁, hfirst, hpure⟩ := run_bind_some.mp hrun
      cases hpure
      have hall : empties (ZBuffer.array refsNum a firstRef).list =
          (ZBuffer.array refsNum a firstRef).list :=
        List.filter_eq_self.mpr fun ref href => by
          have hnot := List.filter_eq_nil_iff.mp hqueue.symm ref href
          simpa using hnot
      rw [hall] at hrelease
      obtain ⟨⟨⟩, w₂, hrun₂, hrun₃⟩ := run_bind_some.mp hrelease
      obtain ⟨L, H, hholds⟩ := h.holds
      have hne : firstRef.block ≠ 0 := hholds.ne_zero (.inl (Multiset.mem_add.mpr
        (.inl (Multiset.mem_add.mpr (.inl (Multiset.mem_singleton_self _))))))
      have hone : ({firstRef.block} : Multiset Nat) = if firstRef.block =
          0 then 0 else {firstRef.block} :=
        (if_neg hne).symm
      obtain ⟨K, hrefs, _⟩ := hholds.refs
      have hfirst' : Refs w L ({firstRef.block} + (blocks (a.list 0 refsNum) + (K + H))) := by
        rw [← add_assoc, add_left_comm]
        exact hrefs
      have hlist : Refs w L (blocks (a.list 0 refsNum) + ({firstRef.block} + (K + H))) := by
        rwa [add_left_comm]
      obtain ⟨L₁, h₁, _⟩ := (release_spec hone hfirst').of_run hfirst
      obtain ⟨L₂, h₂, _⟩ := (releaseAll_refs hlist h.shape.2.2).of_run hrun₂
      obtain ⟨L₃, h₃, _⟩ := (release_spec hone h₂).of_run hrun₃
      have hcard := congrArg Multiset.card (h₁.unique h₃).2
      have hblocks : Multiset.card (blocks (a.list 0 refsNum)) = refsNum := by
        rw [blocks, Multiset.coe_card, List.length_map, BlockRefArray.length_list]
      rw [Multiset.card_add, hblocks] at hcard
      omega

end

/-! ### A ring that is too long -/

/-- A block with a byte in it and `n + 1` references. -/
def manyBytes (n : Nat) : World :=
  { World.initial .plain with
    mallocs := 1
    gBlockNumber := 1
    block := Function.update (fun _ => none) 1
      (some { next := 0, refNum := n + 1, offset := 8, capacity := 8168, data := fun _ => 7,
              address := 0, size := 8192 }) }

/-- `n` refs on the byte. -/
def manyRefs (n : Nat) : BlockRefArray := ⟨n, 0, 2 ^ 31 - 1, fun _ => oneRef⟩

theorem manyRefs_list (n : Nat) : (manyRefs n).list 0 n = List.replicate n oneRef := by
  rw [List.eq_replicate_iff]
  refine ⟨BlockRefArray.length_list, fun ref href => ?_⟩
  obtain ⟨_, _, rfl⟩ := BlockRefArray.mem_list.mp href
  rfl

theorem manyBytes_block {n p : Nat} {b : Block} (h : (manyBytes n).block p = some b) :
    p = 1 ∧ b.refNum = n + 1 ∧ b.offset = 8 ∧ b.capacity = 8168 := by
  rcases eq_or_ne p 1 with rfl | hp
  · cases h
    exact ⟨rfl, rfl, rfl, rfl⟩
  · have hnone : (manyBytes n).block p = none := by simp [manyBytes, Function.update_of_ne hp]
    cases hnone.symm.trans h

theorem manyBytes_holds (n : Nat) : Holds (manyBytes n) [] (Multiset.replicate (n + 1) 1) := by
  have hsome : ((manyBytes n).block 1).isSome := rfl
  refine ⟨⟨0, ⟨.nil, by simp, ?_, fun p b hb => ?_, fun p hp => ?_, ⟨{1}, fun p => ?_, rfl⟩⟩,
    fun _ => rfl⟩, fun p b hb => ?_⟩
  · intro p hp
    rw [zero_add] at hp
    exact Multiset.eq_of_mem_replicate hp ▸ hsome
  · obtain ⟨rfl, hnum, _⟩ := manyBytes_block hb
    rw [hnum, zero_add, Multiset.count_replicate_self, List.count_nil]
    exact ⟨by simp, by omega⟩
  · obtain ⟨b, hb⟩ := Option.isSome_iff_exists.mp hp
    obtain ⟨rfl, _⟩ := manyBytes_block hb
    exact ⟨Nat.one_pos, Nat.le_refl _⟩
  · refine ⟨fun hp => Finset.mem_singleton.mp hp ▸ hsome, fun hp => ?_⟩
    obtain ⟨b, hb⟩ := Option.isSome_iff_exists.mp hp
    exact Finset.mem_singleton.mpr (manyBytes_block hb).1
  · obtain ⟨_, _, hoff, hcap⟩ := manyBytes_block hb
    refine ⟨?_, ?_, ?_, .inl ?_⟩
    · rw [hcap]; decide
    · rw [hcap]; decide
    · rw [hcap]; decide
    · rw [hoff, hcap]; decide

theorem manyRefs_wellFormed {n : Nat} (hn : n ≤ 2 ^ 31) :
    WellFormed (manyBytes n) (.array n (manyRefs n) oneRef) where
  shape := by
    have hcap : (manyRefs n).capMask + 1 = 2 ^ 31 := by norm_num [manyRefs]
    refine ⟨⟨⟨31, by decide, hcap⟩, hcap ▸ hn⟩, by omega, fun ref href => ?_⟩
    obtain ⟨_, _, rfl⟩ := BlockRefArray.mem_list.mp href
    exact Nat.one_ne_zero
  sized := by
    show n = lengths ((manyRefs n).list 0 n)
    rw [manyRefs_list]
    simp [lengths, oneRef]
  valid := fun ref href => by
    obtain ⟨_, _, rfl⟩ := BlockRefArray.mem_list.mp href
    exact ⟨_, rfl, show 0 + 1 ≤ 8 by decide, show 8 ≤ 8168 by decide⟩
  holds := by
    refine ⟨[], 0, ?_⟩
    have hheld : (ZBuffer.array n (manyRefs n) oneRef).held = Multiset.replicate (n + 1) 1 := by
      show {1} + blocks ((manyRefs n).list 0 n) = _
      rw [manyRefs_list, blocks, List.map_replicate, Multiset.replicate_succ,
          Multiset.singleton_add,
        Multiset.coe_replicate]
      rfl
    rw [hheld, add_zero]
    exact manyBytes_holds n

theorem manyRefs_not_dumped {n : Nat} (hge : ¬ n < 2 ^ 31) :
    ¬ Dumps (manyBytes n) (.array n (manyRefs n) oneRef) := by
  rintro ⟨r, w', hrun, hqueue, _⟩
  rw [dumpRefsTo_none hge] at hrun
  obtain ⟨⟨⟩, w₁, hfirst, hpure⟩ := run_bind_some.mp hrun
  cases hpure
  have hmem : oneRef ∈ (ZBuffer.array n (manyRefs n) oneRef).list := by
    show oneRef ∈ (manyRefs n).list 0 n
    rw [manyRefs_list]
    exact List.mem_replicate.mpr ⟨by omega, rfl⟩
  exact absurd (List.filter_eq_nil_iff.mp hqueue.symm oneRef hmem) (by decide)

/-- A ring of 2 ^ 31 refs is forgotten. -/
theorem dump_refs_forgets : ¬ ∀ (w : World) (z : ZBuffer), WellFormed w z → Dumps w z := fun hall =>
  manyRefs_not_dumped (Nat.lt_irrefl (2 ^ 31))
  (hall _ _ (manyRefs_wellFormed (Nat.le_refl (2 ^ 31))))

/-- Four refs, from a ring of five; the empty one is released. -/
theorem dump_refs_four : Dumps ringBytes (.array 5 wrapped ⟨16, 544, 1⟩) :=
  (dump_refs_iff wrapped_wellFormed).mpr (by decide)

end PBase.Buffer
