/-
# `PBase.Buffer.Append` — adding refs and bytes to a buffer

`append_ref` stores a ref, or extends the last one; when the two refs are used it moves to a
ring, and when the ring is full the ring grows.  `Grown` is the specification of all of these and
of `append`: what becomes of the references, and, as long as the rings that grow are aligned and
the first ref is not merged into a slot that is not live, the list of refs and its content.
`Grown.trans` chains them, so a loop of appends is `Grown` by induction.
-/
import PBase.Buffer.Content

namespace PBase.Buffer

open PBase.Lib

/-! ## Adding to a list -/

theorem content_snoc {w : World} {l l' : List BlockRef} {ref : BlockRef} (hl : AllValid w l)
    (href : Valid w ref) (hs : w.AllSound) (h : Snoc l ref l') :
    AllValid w l' ∧ content w l' = content w l ++ bytes w ref ∧
      lengths l' = lengths l + ref.length := by
  cases h with
  | stored =>
      refine ⟨fun r hr => ?_, by simp, by simp⟩
      rcases List.mem_append.mp hr with hr | hr
      · exact hl r hr
      · exact List.mem_singleton.mp hr ▸ href
  | @merged t last ref' heq hm =>
      subst heq
      obtain ⟨hblock, hadj, rfl⟩ := merge_eq hm
      have hlast := hl last (List.mem_append_right t (List.mem_singleton_self last))
      have hlt := hlast.length_lt hs
      have hlt' := href.length_lt hs
      obtain ⟨b, hb, hle, hcap⟩ := href
      have hlen : (last.length + ref.length) % 2 ^ 32 = last.length + ref.length := by omega
      have hoff : last.offset + last.length = ref.offset := by omega
      have hlastb : w.block last.block = some b := hblock ▸ hb
      have hbytes : bytes w { last with length := (last.length + ref.length) % 2 ^ 32 }
          = bytes w last ++ bytes w ref := by
        rw [bytes_eq hlastb, bytes_eq hb, ← hoff, ← readBytes_add, hlen]
        exact @bytes_eq w { last with length := last.length + ref.length } b hlastb
      refine ⟨fun r hr => ?_, ?_, ?_⟩
      · rcases List.mem_append.mp hr with hr | hr
        · exact hl r (List.mem_append_left _ hr)
        · rw [List.mem_singleton.mp hr]
          refine ⟨b, hblock ▸ hb, ?_, hcap⟩
          simp only [hlen]
          omega
      · rw [content_append, content_append, content_cons, content_cons, hbytes, content_nil,
          List.append_nil, List.append_nil, List.append_assoc]
      · simp only [lengths_append, lengths_cons, lengths_nil, hlen]
        omega

/-- Refs that are not empty stay so. -/
theorem Snoc.pos {w : World} {l l' : List BlockRef} {ref : BlockRef} (h : Snoc l ref l')
    (hs : w.AllSound) (hl : AllValid w l) (href : Valid w ref) (hpos : ∀ r ∈ l, 0 < r.length)
    (hlen : 0 < ref.length) : ∀ r ∈ l', 0 < r.length := by
  intro r hr
  cases h with
  | stored =>
      rcases List.mem_append.mp hr with hr | hr
      · exact hpos r hr
      · exact List.mem_singleton.mp hr ▸ hlen
  | @merged t last ref' heq hm =>
      subst heq
      rcases List.mem_append.mp hr with hr | hr
      · exact hpos r (List.mem_append_left _ hr)
      · obtain ⟨_, _, hmerged⟩ := merge_eq hm
        have hlt := (hl last (List.mem_append_right t (List.mem_singleton_self last))).length_lt hs
        have hlt' := href.length_lt hs
        rw [List.mem_singleton.mp hr, hmerged]
        simp only
        omega

namespace ZBuffer

/-! ## What is asked of a buffer -/

/-- A ring that grows begins at a multiple of its new capacity. -/
def Safe (z : ZBuffer) (w : World) : Prop := z.begin = 0 ∨ w.Only Note.aligned

theorem Safe.mono {z : ZBuffer} {w w' : World} (h : z.Safe w') (hn : w.notes <:+ w'.notes) :
    z.Safe w := h.imp_right fun h => h.mono hn

/-- `refs_num` has room for `k` refs more: they are too few to wrap it, or the storage of the rings
is inside blocks. -/
def Room (z : ZBuffer) (k : Nat) (w : World) : Prop :=
  z.list.length + k < 2 ^ 32 ∨ z.Slim ∧ w.Only Note.inside

theorem Room.mono {z : ZBuffer} {w w' : World} {k k' : Nat} (h : z.Room k' w') (hk : k ≤ k')
    (hn : w.notes <:+ w'.notes) : z.Room k w :=
  h.imp (fun h => by omega) fun h => ⟨h.1, h.2.mono hn⟩

/-- So there is room for one ref. -/
theorem Room.lt {z : ZBuffer} {w : World} (h : z.Room 1 w) (hz : z.Shape) :
    z.list.length + 1 < 2 ^ 32 := by
  rcases h with hlt | ⟨hslim, _⟩
  · exact hlt
  · cases z with
    | two first second =>
        have hlen : (two first second).list.length ≤ 2 := List.length_filter_le ..
        omega
    | array refsNum a firstRef =>
        have hlen : (array refsNum a firstRef).list.length = refsNum := BlockRefArray.length_list
        have hfits := hz.1.fits
        have hslim : a.capMask + 1 < 2 ^ 28 := hslim
        omega

/-- The bytes `bs` were added to a buffer, in `k` refs at most. -/
structure Added (w : World) (z : ZBuffer) (k : Nat) (bs : List UInt8) (z' : ZBuffer) (w' : World) :
    Prop where
  valid : AllValid w' z'.list
  content : content w' z'.list = content w z.list ++ bs
  sized : z'.Sized
  isSealed : z.Sealed → z'.Sealed
  nonempty : 0 < k ∨ z.list ≠ [] → z'.list ≠ []
  pos : (∀ ref ∈ z.list, 0 < ref.length) → ∀ ref ∈ z'.list, 0 < ref.length

/-- What `append_ref` and its callers do to a buffer: at most `k` refs are added, with the bytes
`bs`, if `ok`. -/
structure Grown (w : World) (L : List Nat) (H D : Multiset Nat) (z : ZBuffer) (k : Nat)
    (bs : List UInt8) (ok : Prop) (S : Nat → Prop) (z' : ZBuffer) (w' : World) (L' : List Nat)
    (D' : Multiset Nat) : Prop where
  holds : Holds w' L' (z'.base + (D' + H))
  wide : z'.Wide
  slim : z.Slim → w'.Only Note.inside → z'.Slim
  begin : z'.begin = z.begin
  evolves : Evolves w L w' L' S
  keeps : ∀ p ∈ D, p ∈ D'
  refs : z.Shape → D = blocks z.list → z.Safe w' → z.Room k w' →
    z'.Shape ∧ D' = blocks z'.list ∧ z'.list.length ≤ z.list.length + k ∧
      (AllValid w z.list → z.Sized → ok → Added w z k bs z' w')

namespace Grown

variable {w w₁ w₂ : World} {L L₁ L₂ : List Nat} {H D D₁ D₂ : Multiset Nat} {z z₁ z₂ : ZBuffer}
  {k k₁ k₂ : Nat} {bs bs₁ bs₂ : List UInt8} {ok ok₁ ok₂ : Prop} {S S₁ S₂ : Nat → Prop}

theorem refl (h : Holds w L (z.base + (D + H))) (hz : z.Wide) :
    Grown w L H D z 0 [] ok S z w L D :=
  ⟨h, hz, fun hz _ => hz, rfl, .refl w L S, fun _ hp => hp, fun hshape hD _ _ =>
    ⟨hshape, hD, Nat.le_refl _, fun hv hs _ => ⟨hv, (List.append_nil _).symm, hs, fun hz => hz,
      fun hne => hne.resolve_left (Nat.lt_irrefl 0), fun hpos => hpos⟩⟩⟩

/-- One after the other. -/
theorem trans {H₁ : Multiset Nat} (h₁ : Grown w L H₁ D z k₁ bs₁ ok S₁ z₁ w₁ L₁ D₁)
    (h₂ : Grown w₁ L₁ H D₁ z₁ k₂ bs₂ ok₂ S₂ z₂ w₂ L₂ D₂) (hS : ∀ q, S q → S₁ q ∧ S₂ q)
    (hok : ok → (z.Sealed → z₁.Sealed) → (0 < k₁ ∨ z.list ≠ [] → z₁.list ≠ []) → ok₂) :
    Grown w L H D z (k₁ + k₂) (bs₁ ++ bs₂) ok S z₂ w₂ L₂ D₂ := by
  refine ⟨h₂.holds, h₂.wide, fun hz hno => ?_, h₂.begin.trans h₁.begin,
    h₁.evolves.trans h₂.evolves hS, fun p hp => h₂.keeps p (h₁.keeps p hp),
    fun hshape hD hsafe hroom => ?_⟩
  · exact h₂.slim (h₁.slim hz (hno.mono h₂.evolves.notes.suffix)) hno
  · have hsuffix := h₂.evolves.notes.suffix
    obtain ⟨hshape₁, hD₁, hlen₁, hrest₁⟩ := h₁.refs hshape hD (hsafe.mono hsuffix)
      (hroom.mono (Nat.le_add_right _ _) hsuffix)
    have hroom₂ : z₁.Room k₂ w₂ := hroom.imp (fun hlt => by omega) fun hslim =>
      ⟨h₁.slim hslim.1 (hslim.2.mono hsuffix), hslim.2⟩
    have hsafe₂ : z₁.Safe w₂ := by
      rw [Safe, h₁.begin]
      exact hsafe
    obtain ⟨hshape₂, hD₂, hlen₂, hrest₂⟩ := h₂.refs hshape₁ hD₁ hsafe₂ hroom₂
    refine ⟨hshape₂, hD₂, by omega, fun hvalid hsized hyp => ?_⟩
    have ha₁ := hrest₁ hvalid hsized hyp
    have ha₂ := hrest₂ ha₁.valid ha₁.sized (hok hyp ha₁.isSealed ha₁.nonempty)
    refine ⟨ha₂.valid, ?_, ha₂.sized, fun hz => ha₂.isSealed (ha₁.isSealed hz),
        fun hne => ha₂.nonempty ?_,
      fun hpos => ha₂.pos (ha₁.pos hpos)⟩
    · rw [ha₂.content, ha₁.content, List.append_assoc]
    · rcases Nat.eq_zero_or_pos k₂ with h0 | hpos
      · exact .inr (ha₁.nonempty (hne.imp_left fun hpos => by omega))
      · exact .inl hpos

theorem weaken (h : Grown w L H D z k₁ bs₁ ok₁ S z₁ w₁ L₁ D₁) (hk : k₁ ≤ k)
    (hpos : ok → 0 < k → 0 < k₁) (hok : ok → ok₁ ∧ bs₁ = bs) :
    Grown w L H D z k bs ok S z₁ w₁ L₁ D₁ := by
  refine ⟨h.holds, h.wide, h.slim, h.begin, h.evolves, h.keeps, fun hshape hD hsafe hroom => ?_⟩
  obtain ⟨hshape', hD', hlen, hrest⟩ := h.refs hshape hD hsafe (hroom.mono hk List.suffix_rfl)
  refine ⟨hshape', hD', hlen.trans (Nat.add_le_add_left hk _), fun hvalid hsized hyp => ?_⟩
  have ha := hrest hvalid hsized (hok hyp).1
  exact ⟨ha.valid, (hok hyp).2 ▸ ha.content, ha.sized, ha.isSealed,
    fun hor => ha.nonempty (hor.imp_left (hpos hyp)), ha.pos⟩

/-- Before it, the cache is used for something else. -/
theorem after (h : Grown w₁ L₁ H D z k bs ok₁ S₁ z₂ w₂ L₂ D₂) (hs : w.AllSound)
    (hev : Evolves w L w₁ L₁ S₂) (hS : ∀ q, S q → S₂ q ∧ S₁ q) (hD : ∀ q ∈ D, S₂ q)
    (hok : ok → ok₁) : Grown w L H D z k bs ok S z₂ w₂ L₂ D₂ := by
  refine ⟨h.holds, h.wide, h.slim, h.begin, hev.trans h.evolves hS, h.keeps,
    fun hshape heq hsafe hlt => ?_⟩
  obtain ⟨hshape', hD', hlen, hrest⟩ := h.refs hshape heq hsafe hlt
  refine ⟨hshape', hD', hlen, fun hvalid hsized hyp => ?_⟩
  obtain ⟨hvalid₁, hsame⟩ := content_evolves hvalid hs hev fun p hp => hD p (heq ▸ hp)
  have ha := hrest hvalid₁ hsized (hok hyp)
  exact ⟨ha.valid, ha.content.trans (by rw [hsame]), ha.sized, ha.isSealed, ha.nonempty, ha.pos⟩

/-- A ref is added to the list. -/
theorem of_snoc {w' : World} {L' : List Nat} {D' : Multiset Nat} {z' : ZBuffer} {ref : BlockRef}
    {S₀ : Nat → Prop} (hs : w.AllSound) (holds : Holds w' L' (z'.base + (D' + H)))
    (wide : z'.Wide) (slim : z.Slim → w'.Only Note.inside → z'.Slim) (begin : z'.begin = z.begin)
    (hev : Evolves w L w' L' S₀) (hS : ∀ q, S q → S₀ q) (hD : ∀ p ∈ D', S₀ p)
    (keeps : ∀ p ∈ D, p ∈ D')
    (hlist : z.Shape → D = blocks z.list → z.Safe w' → z.list.length + 1 < 2 ^ 32 →
      z'.Shape ∧ D' = blocks z'.list ∧ z'.list.length ≤ z.list.length + 1 ∧
        (z.Open ref → Snoc z.list ref z'.list) ∧
        (z.Sized → 0 < ref.length → lengths z'.list = lengths z.list + ref.length →
          lengths z'.list < 2 ^ 64 → z'.Sized)) :
    Grown w L H D z 1 (bytes w ref) (z.Open ref ∧ 0 < ref.length ∧ Valid w ref) S z' w' L' D' := by
  refine ⟨holds, wide, slim, begin, hev.mono hS, keeps, fun hshape heq hsafe hroom => ?_⟩
  have hlt := hroom.lt hshape
  obtain ⟨hshape', hD', hlen, hsnoc, hsized'⟩ := hlist hshape heq hsafe hlt
  refine ⟨hshape', hD', hlen, fun hvalid hsized hok => ?_⟩
  obtain ⟨hopen, hpos, href⟩ := hok
  obtain ⟨hvalid', hcontent, hlengths⟩ := content_snoc hvalid href hs (hsnoc hopen)
  obtain ⟨hvalid₂, hsame⟩ := content_evolves hvalid' hs hev fun p hp => hD p (hD' ▸ hp)
  have hbound := hvalid'.lengths_le hs
  have hne := (hsnoc hopen).ne_nil
  refine ⟨hvalid₂, hsame.trans hcontent, hsized' hsized hpos hlengths ?_, fun _ => .of_ne_nil hne,
    fun _ => hne, fun hall => (hsnoc hopen).pos hs hvalid href hall hpos⟩
  omega

end Grown

end ZBuffer

/-! ## `append_ref` -/

/-- The reference a ref is passed with. -/
def Pass.given (pass : Pass) (ref : BlockRef) : Multiset Nat :=
  match pass with
  | .copy => 0
  | .move => {ref.block}

section Calls
variable {w : World} {L : List Nat} {H X : Multiset Nat} {pass : Pass} {ref firstRef : BlockRef}
  {a : BlockRefArray}

theorem merged_spec (h : Holds w L (pass.given ref + X)) : Returns (pass.merged ref) w fun _ w' =>
    ∃ L', Holds w' L' X ∧ L ⊆ L' ∧ Evolves w L w' L' fun q => q ∈ X ∨ q ∈ L := by
  cases pass with
  | copy =>
      rw [Pass.given, zero_add] at h
      exact .pure ⟨L, h, List.Subset.refl _, .refl w L _⟩
  | move =>
      rw [Pass.given, Multiset.singleton_add] at h
      have hne := h.ne_zero (.inl (Multiset.mem_cons_self _ _))
      exact .ite (fun h0 => absurd h0 hne) fun _ => h.decRef

theorem stored_spec (hmem : ref.block ∈ pass.given ref + X ∨ ref.block ∈ L)
    (h : Holds w L (pass.given ref + X)) : Returns (pass.stored ref) w fun _ w' =>
      Holds w' L (ref.block ::ₘ X) ∧ Evolves w L w' L fun _ => True := by
  cases pass with
  | copy =>
      rw [Pass.given, zero_add] at h hmem
      exact h.incRef hmem
  | move =>
      rw [Pass.given, Multiset.singleton_add] at h
      exact .pure ⟨h, .refl w L _⟩

/-- `array_resize()` -/
theorem arrayResize_spec (hwide : 32 ∣ a.capMask + 1) (h : Holds w L (firstRef.block ::ₘ X)) :
    Returns (arrayResize a firstRef) w fun r w' => ∃ L' memory,
      r.1 = a.grow memory ((a.capMask + 1) * 2 % 2 ^ 32) ∧ Holds w' L' (r.2.block ::ₘ X) ∧ L ⊆ L' ∧
      (Evolves w L w' L' fun q => q ∈ X ∨ q ∈ L) ∧
      (w'.Only Note.inside → (a.capMask + 1) * 2 % 2 ^ 32 < 2 ^ 28) ∧
      .resize a.begin ((a.capMask + 1) * 2 % 2 ^ 32) ∈ w'.notes := by
  have hcap : 32 ∣ (a.capMask + 1) * 2 % 2 ^ 32 ∨ (a.capMask + 1) * 2 % 2 ^ 32 ≤ 2048 := by
    refine .inl ?_
    omega
  have hnote : Evolves w L
      { w with notes := .resize a.begin ((a.capMask + 1) * 2 % 2 ^ 32) :: w.notes } L
      fun _ => True :=
    .of_eq rfl (.cons .rfl fun _ _ heq => nomatch heq) fun _ _ hp => hp
  refine .bind (returns_note (.bind ?_))
  have h₁ : Holds { w with notes := .resize a.begin ((a.capMask + 1) * 2 % 2 ^ 32) :: w.notes } L
      (firstRef.block ::ₘ X) := h.congr rfl rfl rfl rfl (List.suffix_cons _ _)
  refine (h₁.acquireBlockRefArray hcap).mono fun r w₂ hr => ?_
  obtain ⟨L₂, h₂, hsub₂, hev₂, hinside⟩ := hr
  refine .bind (h₂.arrayMemory.mono fun memory w₃ hm => .bind ?_)
  obtain ⟨h₃, hev₃⟩ := hm
  rw [Multiset.cons_swap] at h₃
  refine h₃.decRef.mono fun _ w₄ hw => .pure ?_
  obtain ⟨L₄, h₄, hsub₄, hev₄⟩ := hw
  have hev : Evolves w L w₄ L₄ fun q => q ∈ X ∨ q ∈ L := by
    refine ((hnote.trans hev₂ (S := fun _ => True) fun _ _ => ⟨trivial, trivial⟩).trans hev₃
        (S := fun _ => True)
      fun _ _ => ⟨trivial, trivial⟩).trans hev₄ fun q hq => ⟨trivial, ?_⟩
    exact hq.imp (fun hq => Multiset.mem_cons_of_mem hq) fun hq => hsub₂ hq
  refine ⟨L₄, memory, rfl, h₄, List.Subset.trans hsub₂ hsub₄, hev, fun hno => hinside (hno.mono ?_),
      ?_⟩
  · exact hev₃.notes.suffix.trans hev₄.notes.suffix
  · exact (hev₂.notes.suffix.trans (hev₃.notes.suffix.trans hev₄.notes.suffix)).subset
      List.mem_cons_self

/-! ### In a ring -/

variable {D : Multiset Nat} {refsNum : Nat}

/-- The ref is merged into the last slot. -/
theorem array_merged {last : BlockRef} {nbytes : Nat}
    (hm : (a.refAt ((refsNum + (2 ^ 32 - 1)) % 2 ^ 32)).merge ref = some last)
    (hshape : (ZBuffer.array refsNum a firstRef).Shape) :
    let z' := ZBuffer.array refsNum
      ({ a with nbytes := nbytes }.setRefAt ((refsNum + (2 ^ 32 - 1)) % 2 ^ 32) last) firstRef
    z'.Shape ∧ blocks (a.list 0 refsNum) = blocks z'.list ∧ z'.list.length = refsNum ∧
      ((ZBuffer.array refsNum a firstRef).Open ref → Snoc (a.list 0 refsNum) ref z'.list) := by
  intro z'
  obtain ⟨hring, hnum, hne⟩ := hshape
  obtain ⟨hblock, _, rfl⟩ := merge_eq hm
  have hring' : ({ a with nbytes := nbytes } : BlockRefArray).Ring refsNum :=
      ⟨hring.pow, hring.fits⟩
  cases refsNum with
  | zero =>
      refine ⟨⟨hring'.set, hnum, fun r hr => absurd hr List.not_mem_nil⟩, rfl, rfl, fun hopen => ?_⟩
      cases (hopen rfl).symm.trans hm
  | succ n =>
      have hlist : z'.list = a.list 0 n ++ [_] := hring'.list_set_last
      have hold := hring.list_last
      refine ⟨⟨hring'.set, hnum, fun r hr => ?_⟩, ?_, by simp [hlist], fun _ => ?_⟩
      · have hr : r ∈ z'.list := hr
        rw [hlist] at hr
        rcases List.mem_append.mp hr with hr | hr
        · exact hne r (hold ▸ List.mem_append_left _ hr)
        · have hmem : a.refAt ((n + 1 + (2 ^ 32 - 1)) % 2 ^ 32) ∈ a.list 0 (n + 1) := by
            rw [hold]
            exact List.mem_append_right _ (List.mem_singleton_self _)
          have hblock' := hne _ hmem
          rw [List.mem_singleton.mp hr]
          exact hblock'
      · rw [hold, hlist, blocks_append, blocks_append]
        rfl
      · rw [hlist]
        exact .merged hold hm

/-- The ref is put into the next slot. -/
theorem array_stored (firstRef : BlockRef) (hring : a.Ring refsNum) (hlt : refsNum < a.capMask + 1)
    (hnum : refsNum + 1 < 2 ^ 32) (hne : ∀ r ∈ a.list 0 refsNum, r.block ≠ 0)
    (href : ref.block ≠ 0) :
    let z' := ZBuffer.array ((refsNum + 1) % 2 ^ 32) (a.setRefAt refsNum ref) firstRef
    z'.Shape ∧ z'.list = a.list 0 refsNum ++ [ref] := by
  intro z'
  have hmod : (refsNum + 1) % 2 ^ 32 = refsNum + 1 := Nat.mod_eq_of_lt hnum
  have hlist : z'.list = a.list 0 refsNum ++ [ref] := by
    show BlockRefArray.list _ 0 ((refsNum + 1) % 2 ^ 32) = _
    rw [hmod]
    exact hring.list_set hlt
  refine ⟨⟨⟨hring.pow, ?_⟩, Nat.mod_lt _ (by decide), fun r hr => ?_⟩, hlist⟩
  · rw [hmod]
    exact hlt
  · have hr : r ∈ z'.list := hr
    rw [hlist] at hr
    rcases List.mem_append.mp hr with hr | hr
    · exact hne r hr
    · exact List.mem_singleton.mp hr ▸ href

/-- What `append_ref` does to a buffer, as a postcondition. -/
def Grows (w : World) (L : List Nat) (H D : Multiset Nat) (z : ZBuffer) (ref : BlockRef)
    (z' : ZBuffer) (w' : World) : Prop :=
  ∃ L' D', z.Grown w L H D 1 (bytes w ref) (z.Open ref ∧ 0 < ref.length ∧ Valid w ref)
    (fun q => q ∈ D + H ∨ q ∈ L) z' w' L' D'

/-- The ring has room for the ref. -/
theorem arrayStore_spec {w₀ : World} {L₀ : List Nat} {a₀ : BlockRefArray} {f : BlockRef}
    {S₀ : Nat → Prop}
    (hmem : ref.block ∈ pass.given ref + (D + H) ∨ ref.block ∈ L)
    (h : Holds w L (pass.given ref + ({firstRef.block} + (D + H)))) (hs : w₀.AllSound)
    (hev : Evolves w₀ L₀ w L S₀) (hS : ∀ q, q ∈ D + H ∨ q ∈ L₀ → S₀ q) (href : S₀ ref.block)
    (hwide : 32 ∣ a.capMask + 1) (hbegin : a.begin = a₀.begin)
    (hslim : (ZBuffer.array refsNum a₀ f).Slim → w.Only Note.inside → a.capMask + 1 < 2 ^ 28)
    (hnbytes : a.nbytes = (a₀.nbytes + ref.length) % 2 ^ 64)
    (hring : (ZBuffer.array refsNum a₀ f).Shape → (ZBuffer.array refsNum a₀ f).Safe w →
      a.Ring refsNum ∧ refsNum < a.capMask + 1 ∧ a.list 0 refsNum = a₀.list 0 refsNum) :
    Returns (do
      pass.stored ref
      pure (ZBuffer.array ((refsNum + 1) % 2 ^ 32) (a.setRefAt refsNum ref) firstRef)) w
      fun z' w' => Grows w₀ L₀ H D (.array refsNum a₀ f) ref z' w' := by
  have hmem' : ref.block ∈ pass.given ref + ({firstRef.block} + (D + H)) ∨ ref.block ∈ L := by
    refine hmem.imp_left fun hmem => ?_
    rw [add_left_comm]
    exact Multiset.mem_add.mpr (.inr hmem)
  have hne : ref.block ≠ 0 := h.ne_zero hmem'
  refine .bind ((stored_spec hmem' h).mono fun _ w' hw => .pure ?_)
  obtain ⟨h', hev'⟩ := hw
  refine ⟨L, ref.block ::ₘ D,
      .of_snoc hs ?_ hwide (fun hz hno => hslim hz (hno.mono hev'.notes.suffix))
    hbegin (hev.trans hev' fun q hq => ⟨hq, trivial⟩) hS (fun p hp => ?_)
    (fun p hp => Multiset.mem_cons_of_mem hp) fun hshape heq hsafe hlt => ?_⟩
  · rw [Multiset.cons_add, Multiset.add_cons]
    exact h'
  · rcases Multiset.mem_cons.mp hp with rfl | hp
    · exact href
    · exact hS p (.inl (Multiset.mem_add.mpr (.inl hp)))
  · obtain ⟨hring', hroom, hlist⟩ := hring hshape (hsafe.mono hev'.notes.suffix)
    have hlt : refsNum + 1 < 2 ^ 32 := by
      have hlen : (ZBuffer.array refsNum a₀ f).list.length = refsNum := BlockRefArray.length_list
      rwa [hlen] at hlt
    obtain ⟨hshape', hlist'⟩ := array_stored firstRef hring' hroom hlt
      (fun r hr => hshape.2.2 r (hlist ▸ hr)) hne
    have hold : a.list 0 refsNum = (ZBuffer.array refsNum a₀ f).list := hlist
    refine ⟨hshape', ?_, ?_, fun _ => ?_, fun hsized _ hlen hbound => ?_⟩
    · rw [hlist', blocks_append, heq, hold, blocks_cons, blocks_nil, Multiset.add_cons, add_zero]
    · rw [hlist', hold, List.length_append, List.length_singleton]
    · rw [hlist', hold]
      exact .stored
    · show a.nbytes = lengths _
      have hsized : a₀.nbytes = lengths (ZBuffer.array refsNum a₀ f).list := hsized
      rw [hnbytes, hsized, ← hlen]
      exact Nat.mod_eq_of_lt hbound

/-- `refs_array->nbytes += ref.length` -/
def BlockRefArray.counted (a : BlockRefArray) (ref : BlockRef) : BlockRefArray :=
  { a with nbytes := (a.nbytes + ref.length) % 2 ^ 64 }

theorem arrayAppendRef_merged {last : BlockRef}
    (hm : (a.refAt ((refsNum + (2 ^ 32 - 1)) % 2 ^ 32)).merge ref = some last) :
    arrayAppendRef pass refsNum a firstRef ref = (do
      pass.merged ref
      pure (.array refsNum ((a.counted ref).setRefAt ((refsNum + (2 ^ 32 - 1)) % 2 ^ 32) last)
        firstRef)) := by
  have hm' : ((a.counted ref).refAt ((refsNum + (2 ^ 32 - 1)) % 2 ^ 32)).merge ref = some last := hm
  simp only [BlockRefArray.counted] at hm'
  simp only [arrayAppendRef, hm', BlockRefArray.counted]

theorem arrayAppendRef_stored
    (hm : (a.refAt ((refsNum + (2 ^ 32 - 1)) % 2 ^ 32)).merge ref = none) :
    arrayAppendRef pass refsNum a firstRef ref =
      ((if refsNum > a.capMask then arrayResize (a.counted ref) firstRef
        else pure (a.counted ref, firstRef)) >>= fun r => do
          pass.stored ref
          pure (.array ((refsNum + 1) % 2 ^ 32) (r.1.setRefAt refsNum ref) r.2)) := by
  have hm' : ((a.counted ref).refAt ((refsNum + (2 ^ 32 - 1)) % 2 ^ 32)).merge ref = none := hm
  simp only [BlockRefArray.counted] at hm'
  simp only [arrayAppendRef, hm', BlockRefArray.counted]
  split
  · rfl
  · rfl

/-- A full ring is at most half as large as the largest. -/
theorem cap_le_of_full (hring : a.Ring refsNum) (hnum : refsNum < 2 ^ 32)
    (hfull : refsNum > a.capMask) :
    a.capMask + 1 ≤ 2 ^ 31 := by
  have hfits := hring.fits
  obtain ⟨j, hj, hpow⟩ := hring.pow
  have hlt : 2 ^ j < 2 ^ 32 := by omega
  have hj : j ≤ 31 := Nat.le_of_lt_succ ((Nat.pow_lt_pow_iff_right (by decide)).mp hlt)
  exact hpow ▸ Nat.pow_le_pow_right (by decide) hj

/-- A full ring that grows safely begins at a multiple of twice its capacity. -/
theorem grow_aligned (hring : a.Ring refsNum) (hnum : refsNum < 2 ^ 32)
    (hfull : refsNum > a.capMask)
    (hsafe : (ZBuffer.array refsNum a firstRef).Safe w)
    (hnote : .resize a.begin ((a.capMask + 1) * 2 % 2 ^ 32) ∈ w.notes) :
    a.capMask + 1 ≤ 2 ^ 31 ∧ (a.capMask + 1) * 2 ∣ a.begin := by
  have hcap := cap_le_of_full hring hnum hfull
  refine ⟨hcap, ?_⟩
  rcases hsafe with h0 | haligned
  · have h0 : a.begin = 0 := h0
    rw [h0]
    exact dvd_zero _
  · rcases haligned _ hnote with h0 | ⟨hpos, hmod⟩
    · rw [h0]
      exact dvd_zero _
    · have hcap' : (a.capMask + 1) * 2 % 2 ^ 32 = (a.capMask + 1) * 2 := by omega
      rw [hcap'] at hmod
      exact Nat.dvd_of_mod_eq_zero hmod

/-- `array_append_ref(ref)` -/
theorem arrayAppendRef_spec (hmem : ref.block ∈ pass.given ref + (D + H) ∨ ref.block ∈ L)
    (h : Holds w L (pass.given ref + ({firstRef.block} + (D + H)))) (hwide : 32 ∣ a.capMask + 1) :
    Returns (arrayAppendRef pass refsNum a firstRef ref) w
      fun z' w' => Grows w L H D (.array refsNum a firstRef) ref z' w' := by
  cases hm : (a.refAt ((refsNum + (2 ^ 32 - 1)) % 2 ^ 32)).merge ref with
  | some last =>
      rw [arrayAppendRef_merged hm]
      refine .bind ((merged_spec h).mono fun _ w' hw => .pure ?_)
      obtain ⟨L', h', _, hev⟩ := hw
      refine ⟨L', D, .of_snoc h.sound h' hwide (fun hz _ => hz) rfl hev (fun q hq => ?_)
        (fun p hp => ?_) (fun _ hp => hp) fun hshape heq _ hlt => ?_⟩
      · exact hq.imp_left fun hq => Multiset.mem_add.mpr (.inr hq)
      · exact .inl (Multiset.mem_add.mpr (.inr (Multiset.mem_add.mpr (.inl hp))))
      · obtain ⟨hshape', hblocks, hlen, hsnoc⟩ := array_merged hm hshape
        refine ⟨hshape', heq.trans hblocks, ?_, hsnoc, fun hsized _ hsum hbound => ?_⟩
        · exact hlen.le.trans (BlockRefArray.length_list.symm.le.trans (Nat.le_succ _))
        · have hsized : a.nbytes = lengths (ZBuffer.array refsNum a firstRef).list := hsized
          show (a.nbytes + ref.length) % 2 ^ 64 = lengths _
          rw [hsized, ← hsum]
          exact Nat.mod_eq_of_lt hbound
  | none =>
      rw [arrayAppendRef_stored hm]
      refine .bind (.ite (fun hfull => ?_) fun hroom => .pure ?_)
      · have h' : Holds w L (firstRef.block ::ₘ (pass.given ref + (D + H))) := by
          rw [← Multiset.singleton_add, add_left_comm]
          exact h
        have hresize : Returns (arrayResize (a.counted ref) firstRef) w _ :=
            arrayResize_spec hwide h'
        refine hresize.mono fun r w₁ hr => ?_
        obtain ⟨a₁, f₁⟩ := r
        obtain ⟨L₁, memory, hgrow, h₁, hsub, hev, hinside, hnote⟩ := hr
        replace hgrow : a₁ = (a.counted ref).grow memory ((a.capMask + 1) * 2 % 2 ^ 32) := hgrow
        replace hinside : w₁.Only Note.inside → (a.capMask + 1) * 2 % 2 ^ 32 < 2 ^ 28 := hinside
        have hmask : a₁.capMask = ((a.capMask + 1) * 2 % 2 ^ 32 + (2 ^ 32 - 1)) % 2 ^ 32 := by
          rw [hgrow, BlockRefArray.grow]
        have hbegin : a₁.begin = a.begin := by rw [hgrow, BlockRefArray.grow_begin]; rfl
        refine arrayStore_spec (hmem.imp_right fun hL => hsub hL) ?_ h.sound hev
          (fun q hq => hq.imp_left fun hq => Multiset.mem_add.mpr (.inr hq)) hmem ?_ hbegin
          (fun hslim hno => ?_) (by rw [hgrow, BlockRefArray.grow]; rfl) fun hshape hsafe => ?_
        · rw [add_left_comm, Multiset.singleton_add]
          exact h₁
        · rw [hmask]
          omega
        · have hslim : a.capMask + 1 < 2 ^ 28 := hslim
          have := hinside hno
          rw [hmask]
          omega
        · obtain ⟨hring, hnum, _⟩ := hshape
          obtain ⟨hcap, hdvd⟩ := grow_aligned hring hnum hfull hsafe hnote
          have hring' : (a.counted ref).Ring refsNum := ⟨hring.pow, hring.fits⟩
          rw [hgrow]
          refine ⟨BlockRefArray.grow_ring hring' hcap, ?_, BlockRefArray.list_grow hring' hcap hdvd⟩
          have hgrown : ((a.counted ref).grow memory ((a.capMask + 1) * 2 % 2 ^ 32)).capMask + 1
              = (a.capMask + 1) * 2 := BlockRefArray.grow_cap hcap
          have := hring.fits
          show refsNum < ((a.counted ref).grow memory ((a.capMask + 1) * 2 % 2 ^ 32)).capMask + 1
          rw [hgrown]
          omega
      · refine arrayStore_spec hmem h h.sound
          (.refl w L (fun q => q ∈ pass.given ref + (D + H) ∨ q ∈ L))
          (fun q hq => hq.imp_left fun hq => Multiset.mem_add.mpr (.inr hq)) hmem hwide rfl
          (fun hz _ => hz) rfl fun hshape _ => 
            ⟨⟨hshape.1.pow, hshape.1.fits⟩, Nat.lt_succ_of_le (not_lt.mp hroom), rfl⟩

/-! ### In two refs -/

variable {first second first' second' : BlockRef}

/-- The ref is stored in one of the two places. -/
theorem two_stored (hmem : ref.block ∈ pass.given ref + (D + H) ∨ ref.block ∈ L)
    (h : Holds w L (pass.given ref + (D + H)))
    (hlist : ref.block ≠ 0 → (ZBuffer.two first second).Shape → (ZBuffer.two first' second').Shape ∧
      (ZBuffer.two first' second').list = (ZBuffer.two first second).list ++ [ref] ∧
      ((ZBuffer.two first second).Sized → 0 < ref.length → (ZBuffer.two first' second').Sized)) :
    Returns (do
      pass.stored ref
      pure (ZBuffer.two first' second')) w
      fun z' w' => Grows w L H D (.two first second) ref z' w' := by
  refine .bind ((stored_spec hmem h).mono fun _ w' hw => .pure ?_)
  obtain ⟨h', hev⟩ := hw
  refine ⟨L, ref.block ::ₘ D, .of_snoc h.sound ?_ trivial (fun _ _ => trivial) rfl hev
    (fun _ _ => trivial) (fun _ _ => trivial) (fun p hp => Multiset.mem_cons_of_mem hp)
    fun hshape heq _ _ => ?_⟩
  · rw [ZBuffer.base, zero_add, Multiset.cons_add]
    exact h'
  · obtain ⟨hshape', hlist', hsized⟩ := hlist (h.ne_zero hmem) hshape
    refine ⟨hshape', ?_, ?_, fun _ => hlist' ▸ .stored, fun hs hpos _ _ => hsized hs hpos⟩
    · rw [hlist', blocks_append, heq, blocks_cons, blocks_nil, Multiset.add_cons, add_zero]
    · rw [hlist', List.length_append, List.length_singleton]

/-- The ref is merged into the last of the two. -/
theorem two_merged {last ref' : BlockRef} {t : List BlockRef}
    (h : Holds w L (pass.given ref + (D + H))) (hm : last.merge ref = some ref')
    (hlist : (ZBuffer.two first second).list = t ++ [last])
    (hlist' : (ZBuffer.two first' second').list = t ++ [ref'])
    (hshape : (ZBuffer.two first second).Shape → (ZBuffer.two first' second').Shape)
    (hsized : (ZBuffer.two first second).Sized → 0 < ref.length →
      lengths (t ++ [ref']) = lengths (t ++ [last]) + ref.length →
      (ZBuffer.two first' second').Sized) :
    Returns (do
      pass.merged ref
      pure (ZBuffer.two first' second')) w
      fun z' w' => Grows w L H D (.two first second) ref z' w' := by
  refine .bind ((merged_spec h).mono fun _ w' hw => .pure ?_)
  obtain ⟨L', h', _, hev⟩ := hw
  refine ⟨L', D, .of_snoc h.sound ?_ trivial (fun _ _ => trivial) rfl hev (fun _ hq => hq)
    (fun p hp => .inl (Multiset.mem_add.mpr (.inl hp))) (fun _ hp => hp) fun hs heq _ _ => ?_⟩
  · rw [ZBuffer.base, zero_add]
    exact h'
  · obtain ⟨_, _, href'⟩ := merge_eq hm
    refine ⟨hshape hs, ?_, ?_, fun _ => ?_, fun hz hpos hlen _ => hsized hz hpos ?_⟩
    · rw [heq, hlist, hlist', blocks_append, blocks_append, href']
      rfl
    · rw [hlist, hlist', List.length_append, List.length_append]
      exact Nat.le_succ _
    · rw [hlist']
      exact .merged hlist hm
    · rw [← hlist, ← hlist']
      exact hlen

theorem ring_of_capMask {n : Nat} (hcap : a.capMask = 31) (hn : n ≤ 32) : a.Ring n :=
  ⟨⟨5, by decide, by rw [hcap]; rfl⟩, hcap ▸ hn⟩

theorem list_two_refs (hcap : a.capMask = 31) :
    ((((a.setRefAt 0 first).counted first).setRefAt 1 second).counted second).list 0 2
      = [first, second] := by
  have hone : (a.setRefAt 0 first).list 0 1 = [first] :=
    (ring_of_capMask hcap (Nat.zero_le _)).list_set (by rw [hcap]; decide)
  have hring : ((a.setRefAt 0 first).counted first).Ring 1 := ring_of_capMask hcap (by decide)
  have htwo : (((a.setRefAt 0 first).counted first).setRefAt 1 second).list 0 2
      = ((a.setRefAt 0 first).counted first).list 0 1 ++ [second] :=
    hring.list_set (by show 1 < a.capMask + 1; rw [hcap]; decide)
  exact htwo.trans (by rw [show ((a.setRefAt 0 first).counted first).list 0 1 = _ from hone]; rfl)

/-- `transfor_to_array()`, of two refs -/
theorem transforToArray_spec (hfirst : first.block ≠ 0) (hsecond : second.block ≠ 0)
    (h : Holds w L X) : Returns (transforToArray first second) w fun r w' => ∃ L',
      Holds w' L' (r.2.2.block ::ₘ X) ∧ L ⊆ L' ∧ (Evolves w L w' L' fun _ => True) ∧
      r.1 = 2 ∧ r.2.1.capMask = 31 ∧ r.2.1.begin = 0 ∧
      r.2.1.nbytes = (first.length % 2 ^ 64 + second.length) % 2 ^ 64 ∧
      r.2.1.list 0 2 = [first, second] := by
  have hput : ∀ memory :
      Nat → BlockRef, put second (put first (0, .new memory kInitBlockRefArraySize))
      = (2, (((BlockRefArray.new memory kInitBlockRefArraySize).setRefAt 0 first).counted first
          |>.setRefAt 1 second).counted second) := fun memory => by
    simp only [put, if_neg hfirst, if_neg hsecond]
    rfl
  have hroom : 32 ∣ kInitBlockRefArraySize ∨ kInitBlockRefArraySize ≤ 2048 := .inr (by decide)
  refine .bind ((h.acquireBlockRefArray hroom).mono fun r w₁ hr => ?_)
  obtain ⟨L₁, h₁, hsub, hev, _⟩ := hr
  refine .bind (h₁.arrayMemory.mono fun memory w₂ hm => ?_)
  obtain ⟨h₂, hev₂⟩ := hm
  simp only [hput]
  refine .pure ⟨L₁, h₂, hsub, hev.trans hev₂ fun _ _ => ⟨trivial, trivial⟩, rfl, rfl, rfl, ?_, ?_⟩
  · show ((0 + first.length) % 2 ^ 64 + second.length) % 2 ^ 64 = _
    rw [Nat.zero_add]
  · exact list_two_refs (a := .new memory kInitBlockRefArraySize) rfl

theorem appendRef_two (pass : Pass) (first second ref : BlockRef) :
    (ZBuffer.two first second).appendRef pass ref =
      (if first.block = 0 then do
        pass.stored ref
        pure (.two ref second)
      else if second.block = 0 then
        match first.merge ref with
        | some merged => do
            pass.merged ref
            pure (.two merged second)
        | none => do
            pass.stored ref
            pure (.two first ref)
      else
        match second.merge ref with
        | some merged => do
            pass.merged ref
            pure (.two first merged)
        | none => do
            let r ← transforToArray first second
            arrayAppendRef pass r.1 r.2.1 r.2.2 ref) := rfl

/-- Two refs go to a ring, and the ref after them. -/
theorem transfor_append_spec (hmem : ref.block ∈ pass.given ref + (D + H) ∨ ref.block ∈ L)
    (h : Holds w L (pass.given ref + (D + H))) (hfirst : first.block ≠ 0)
    (hsecond : second.block ≠ 0) :
    Returns (do
      let r ← transforToArray first second
      arrayAppendRef pass r.1 r.2.1 r.2.2 ref) w
      fun z' w' => Grows w L H D (.two first second) ref z' w' := by
  refine .bind ((transforToArray_spec hfirst hsecond h).mono fun r w₁ hr => ?_)
  obtain ⟨n, a, f⟩ := r
  obtain ⟨L₁, h₁, hsub, hev, rfl, hcap, hbegin, hnbytes, hlist⟩ := hr
  have h₁' : Holds w₁ L₁ (pass.given ref + ({f.block} + (D + H))) := by
    rw [add_left_comm, Multiset.singleton_add]
    exact h₁
  have hwide : 32 ∣ a.capMask + 1 := by
    rw [show a.capMask = 31 from hcap]
  refine (arrayAppendRef_spec (hmem.imp_right fun hL => hsub hL) h₁' hwide).mono fun z' w₂ hz => ?_
  obtain ⟨L₂, D₂, hgrown⟩ := hz
  have hpair : (ZBuffer.array 2 a f).list = (ZBuffer.two first second).list :=
    Eq.trans hlist (ZBuffer.list_both hfirst hsecond).symm
  have hpre : (ZBuffer.two first second).Shape → (ZBuffer.array 2 a f).Shape := fun _ => by
    refine ⟨ring_of_capMask hcap (by decide), by decide, fun r hr => ?_⟩
    rw [show a.list 0 2 = _ from hlist] at hr
    rcases List.mem_pair.mp hr with rfl | rfl
    · exact hfirst
    · exact hsecond
  refine ⟨L₂, D₂, hgrown.holds, hgrown.wide, fun _ hno => hgrown.slim ?_ hno, ?_, ?_, hgrown.keeps,
    fun hshape heq hsafe hroom => ?_⟩
  · show a.capMask + 1 < 2 ^ 28
    rw [show a.capMask = 31 from hcap]
    decide
  · exact hgrown.begin.trans hbegin
  · exact hev.trans hgrown.evolves fun q hq => ⟨trivial, hq.imp_right fun hL => hsub hL⟩
  · obtain ⟨hshape', hD', hlen, hrest⟩ := hgrown.refs (hpre hshape) (heq.trans (by rw [hpair]))
      (.inl hbegin) (.inl (by rw [hpair]; exact hroom.lt hshape))
    rw [hpair] at hlen
    refine ⟨hshape', hD', hlen, fun hvalid hsized hok => ?_⟩
    obtain ⟨_, hpos, href⟩ := hok
    obtain ⟨href₁, hbytes⟩ := href.evolves h.sound hev trivial
    obtain ⟨hvalid₁, hsame⟩ := content_evolves hvalid h.sound hev fun _ _ => trivial
    have hv := hvalid.of_two
    have hlt₁ := (hv.1 hfirst).length_lt h.sound
    have hlt₂ := (hv.2 hsecond).length_lt h.sound
    have hsized₁ : (ZBuffer.array 2 a f).Sized := by
      show a.nbytes = lengths (a.list 0 2)
      rw [show a.nbytes = _ from hnbytes, show a.list 0 2 = _ from hlist, lengths_cons,
          lengths_cons,
        lengths_nil]
      omega
    rw [← hpair] at hvalid₁
    have ha := hrest hvalid₁ hsized₁ ⟨(fun h0 => nomatch h0), hpos, href₁⟩
    have hne := ha.nonempty (.inl Nat.one_pos)
    refine ⟨ha.valid, ?_, ha.sized, fun _ => .of_ne_nil hne, fun _ => hne,
        fun hall => ha.pos (hpair ▸ hall)⟩
    rw [← hsame, ← hbytes, ← hpair]
    exact ha.content

/-- `append_ref(ref)` -/
theorem appendRef_spec {z : ZBuffer} (hmem : ref.block ∈ pass.given ref + (D + H) ∨ ref.block ∈ L)
    (h : Holds w L (pass.given ref + (z.base + (D + H)))) (hz : z.Wide) :
    Returns (z.appendRef pass ref) w fun z' w' => Grows w L H D z ref z' w' := by
  cases z with
  | array refsNum a firstRef => exact arrayAppendRef_spec hmem h hz
  | two first second =>
      rw [ZBuffer.base, zero_add] at h
      rw [appendRef_two]
      refine .ite (fun hnull => ?_) fun hfirst => .ite (fun hnull => ?_) fun hsecond => ?_
      · refine two_stored hmem h fun hne hshape => ⟨⟨fun h0 => absurd h0 hne, hshape.2⟩, ?_, ?_⟩
        · have hnone := (hshape.1 hnull).2
          rw [ZBuffer.list_none hnull hnone, ZBuffer.list_first hne hnone, List.nil_append]
        · exact fun _ hpos h0 => absurd h0 (Nat.pos_iff_ne_zero.mp hpos)
      · cases hm : first.merge ref with
        | some merged =>
            obtain ⟨_, _, rfl⟩ := merge_eq hm
            refine two_merged h hm (t := []) (ZBuffer.list_first hfirst hnull)
              (ZBuffer.list_first hfirst hnull) (fun hshape => ?_) fun _ hpos hlen h0 => ?_
            · exact ⟨fun h0 => absurd h0 hfirst, hshape.2⟩
            · simp only [List.nil_append, lengths_cons, lengths_nil] at hlen h0
              omega
        | none =>
            refine two_stored hmem h fun hne hshape =>
              ⟨⟨fun h0 => absurd h0 hfirst, fun h0 => absurd h0 hne⟩, ?_, fun hs _ => hs⟩
            rw [ZBuffer.list_first hfirst hnull, ZBuffer.list_both hfirst hne]
            rfl
      · cases hm : second.merge ref with
        | some merged =>
            obtain ⟨_, _, rfl⟩ := merge_eq hm
            exact two_merged h hm (t := [first]) (ZBuffer.list_both hfirst hsecond)
              (ZBuffer.list_both hfirst hsecond)
              (fun _ => ⟨fun h0 => absurd h0 hfirst, fun h0 => absurd h0 hsecond⟩) fun hs _ _ => hs
        | none => exact transfor_append_spec hmem h hfirst hsecond

/-! ## `append` -/

/-- The slot before the first one, if it is looked at, does not take the bytes `acquire_block`
has room for. -/
def ZBuffer.OpenFor (z : ZBuffer) (w : World) (buf : List UInt8) : Prop :=
  buf ≠ [] → ∀ ref w₁, (copyIn buf).run w = some (ref, w₁) → z.Open ref

/-- A turn of the loop of `append`. -/
theorem appendTurn_spec {z : ZBuffer} {buf : List UInt8} (h : Holds w L (z.base + (D + H)))
    (hz : z.Wide) (hpos : 0 < buf.length) (hlen : buf.length < 2 ^ 32) :
    Returns (do
      let ref ← copyIn buf
      let z ← z.appendRef .copy ref
      pure (Sum.inl (z, buf.drop ref.length) : (ZBuffer × List UInt8) ⊕ ZBuffer)) w fun r w' =>
      ∃ z' n L' D', r = .inl (z', buf.drop n) ∧ 0 < n ∧ n ≤ buf.length ∧ (n = buf.length ∨ 8 ≤ n) ∧
        z.Grown w L H D 1 (buf.take n) (z.OpenFor w buf) (fun q => q ∈ D + H) z' w' L' D' := by
  obtain ⟨ref, w₁, hrun, L₁, h₁, hmem, hev, hle, hlength, hwritten, _⟩ := h.copyIn buf
  have hcopy : Returns (copyIn buf) w fun r w' => r = ref ∧ w' = w₁ := ⟨ref, w₁, hrun, rfl, rfl⟩
  refine .bind (hcopy.mono fun r w' hr => ?_)
  obtain ⟨rfl, rfl⟩ := hr
  have hadd : Returns (z.appendRef .copy r) w' _ :=
    appendRef_spec (.inr hmem) (by rwa [Pass.given, zero_add]) hz
  refine .bind (hadd.mono fun z' w₂ hz' => .pure ?_)
  obtain ⟨L₂, D₂, hgrown⟩ := hz'
  have hlength := hlength hlen
  have hpos' : 0 < r.length := by omega
  obtain ⟨b, hb, hcov, hfits, hdata⟩ := hwritten
  have hvalid : Valid w' r := ⟨b, hb, hcov, hfits⟩
  have hbytes : bytes w' r = buf.take r.length := (bytes_eq hb).trans hdata
  rw [hbytes] at hgrown
  refine ⟨z', r.length, L₂, D₂, rfl, hpos', hle, hlength, hgrown.after h.sound hev (fun q hq => ?_)
    (fun q hq => ?_) fun hopen => ⟨hopen (List.length_pos_iff.mp hpos) r w' hrun, hpos', hvalid⟩⟩
  · exact ⟨Multiset.mem_add.mpr (.inr hq), .inl hq⟩
  · exact Multiset.mem_add.mpr (.inr (Multiset.mem_add.mpr (.inl hq)))

/-- The most refs `append` adds for `n` bytes: all but the last have 8 bytes or more. -/
def mostRefs (n : Nat) : Nat := (n + 7) / 8

/-- `append(buf, count)` -/
theorem append_spec {z : ZBuffer} {buf : List UInt8} (h : Holds w L (z.base + (D + H)))
    (hz : z.Wide) (hlen : buf.length < 2 ^ 32) :
    Returns (z.append buf) w fun z' w' => ∃ L' D',
      z.Grown w L H D (mostRefs buf.length) buf (z.OpenFor w buf)
      (fun q => q ∈ D + H) z' w' L' D' := by
  -- the invariant of the loop: the first `m` bytes are in the buffer, in `j` refs
  let I : Nat → ZBuffer × List UInt8 → World → Prop := fun n s w₁ => ∃ m j L₁ D₁,
    s.2 = buf.drop m ∧ m ≤ buf.length ∧ n = buf.length - m ∧
    (m < buf.length → 8 * j ≤ m) ∧ 8 * j ≤ m + 7 ∧ (0 < m → 0 < j) ∧
    z.Grown w L H D j (buf.take m) (z.OpenFor w buf) (fun q => q ∈ D + H) s.1 w₁ L₁ D₁ ∧
    (m = 0 → s.1 = z ∧ w₁ = w)
  refine .loop (I := I) (fun n s w₁ hI => ?_)
    ⟨0, 0, L, D, rfl, Nat.zero_le _, rfl, fun _ => Nat.zero_le _, Nat.zero_le _, id, .refl h hz,
      fun _ => ⟨rfl, rfl⟩⟩ (Nat.lt_succ_self _)
  obtain ⟨m, j, L₁, D₁, hrest, hm, rfl, hmore, hmost, hsome, hgrown, hstart⟩ := hI
  obtain ⟨z₁, rest⟩ := s
  replace hrest : rest = buf.drop m := hrest
  subst hrest
  refine .ite (fun hnil => .pure ?_) fun hne => ?_
  · refine ⟨(fun _ hr => nomatch hr), fun z' hz' => ?_⟩
    cases hz'
    have hend : m = buf.length := Nat.le_antisymm hm (List.drop_eq_nil_iff.mp hnil)
    rw [hend, List.take_length] at hgrown
    refine ⟨L₁, D₁, hgrown.weaken ?_ (fun _ hpos => hsome ?_) fun hopen => ⟨hopen, rfl⟩⟩
    · simp only [mostRefs]
      omega
    · simp only [mostRefs] at hpos
      omega
  · have hlength : (buf.drop m).length = buf.length - m := List.length_drop
    have hpos : 0 < (buf.drop m).length := List.length_pos_iff.mpr hne
    refine (appendTurn_spec hgrown.holds hgrown.wide hpos (by omega)).mono fun r w₂ hr => ?_
    obtain ⟨z₂, n, L₂, D₂, rfl, hn, hle, hlast, hturn⟩ := hr
    have hmore := hmore (by omega)
    refine ⟨fun s hs => ⟨buf.length - (m + n), by omega, m + n, j + 1, L₂, D₂, ?_, by omega, rfl,
      fun hlt => by omega, by omega, fun _ => Nat.succ_pos j, ?_, fun h0 => by omega⟩,
      fun _ hs => nomatch hs⟩
    · cases hs
      exact List.drop_drop
    · cases hs
      rw [List.take_add]
      refine hgrown.trans hturn (fun q hq => ⟨hq, ?_⟩) fun hopen _ hlist => ?_
      · exact Multiset.mem_add.mpr ((Multiset.mem_add.mp hq).imp_left (hgrown.keeps q))
      · rcases Nat.eq_zero_or_pos m with h0 | hpos
        · obtain ⟨hz₁, hw₁⟩ := hstart h0
          cases hz₁
          cases hw₁
          rw [h0, List.drop_zero]
          exact hopen
        · exact fun _ ref _ _ => .of_ne_nil (hlist (.inl (hsome hpos))) ref

/-! ## `append` of a buffer -/

/-- What is asked of the refs of another buffer, and of the one they are added to. -/
structure Addable (w : World) (z : ZBuffer) (l : List BlockRef) : Prop where
  isSealed : z.Sealed
  valid : AllValid w l
  pos : ∀ ref ∈ l, 0 < ref.length

theorem Addable.of_cons {z : ZBuffer} {l : List BlockRef} (h : Addable w z (ref :: l)) :
    Valid w ref ∧ 0 < ref.length ∧ AllValid w l ∧ ∀ r ∈ l, 0 < r.length :=
  ⟨h.valid ref List.mem_cons_self, h.pos ref List.mem_cons_self,
    fun r hr => h.valid r (List.mem_cons_of_mem _ hr),
    fun r hr => h.pos r (List.mem_cons_of_mem _ hr)⟩

/-- The references of the refs, as they are passed. -/
def Pass.givenAll (pass : Pass) (l : List BlockRef) : Multiset Nat :=
  match pass with
  | .copy => 0
  | .move => blocks l

theorem givenAll_cons (l : List BlockRef) :
    pass.givenAll (ref :: l) = pass.given ref + pass.givenAll l := by
  cases pass with
  | copy => rfl
  | move =>
      show blocks (ref :: l) = {ref.block} + blocks l
      rw [blocks_cons, Multiset.singleton_add]

/-- The refs of a list are added one after the other: what is left of a loop or a sequence of
`append_ref`. -/
def GrowsAll (w : World) (L : List Nat) (H D : Multiset Nat) (z : ZBuffer) (l : List BlockRef)
    (z' : ZBuffer) (w' : World) : Prop :=
  ∃ L' D', z.Grown w L H D l.length (content w l) (Addable w z l) (fun q => q ∈ D + H) z' w' L' D'

/-- One ref, then the others. -/
theorem GrowsAll.cons {z z₁ z₂ : ZBuffer} {w₁ w₂ : World} {L₁ : List Nat} {D₁ : Multiset Nat}
    {l : List BlockRef} (hs : w.AllSound) (hne : ref.block ≠ 0)
    (hl : ∀ r ∈ l, r.block ∈ pass.givenAll l + H)
    (h₁ : z.Grown w L (pass.givenAll l + H) D 1 (bytes w ref)
      (z.Open ref ∧ 0 < ref.length ∧ Valid w ref)
      (fun q => q ∈ D + (pass.givenAll l + H) ∨ q ∈ L) z₁ w₁ L₁ D₁)
    (h₂ : GrowsAll w₁ L₁ H D₁ z₁ l z₂ w₂) : GrowsAll w L H D z (ref :: l) z₂ w₂ := by
  obtain ⟨L₂, D₂, h₂⟩ := h₂
  have hkeep : ∀ q ∈ blocks l, q ∈ D + (pass.givenAll l + H) ∨ q ∈ L := fun q hq => by
    obtain ⟨r, hr, rfl⟩ := List.mem_map.mp (Multiset.mem_coe.mp hq)
    exact .inl (Multiset.mem_add.mpr (.inr (hl r hr)))
  have hrest : z₁.Grown w₁ L₁ H D₁ l.length (content w l)
      (Addable w₁ z₁ l ∧ content w₁ l = content w l) (fun q => q ∈ D₁ + H) z₂ w₂ L₂ D₂ :=
    h₂.weaken (Nat.le_refl _) (fun _ hpos => hpos) fun hok => hok
  have hfirst : z.Grown w L (pass.givenAll l + H) D 1 (bytes w ref) (Addable w z (ref :: l))
      (fun q => q ∈ D + (pass.givenAll l + H) ∨ q ∈ L) z₁ w₁ L₁ D₁ :=
    h₁.weaken (Nat.le_refl _) (fun _ hpos => hpos) fun hok =>
      ⟨⟨hok.isSealed.isOpen hne, hok.of_cons.2.1, hok.of_cons.1⟩, rfl⟩
  refine ⟨L₂, D₂, ?_⟩
  rw [List.length_cons, Nat.add_comm]
  refine hfirst.trans hrest (fun q hq => ?_) fun hok hseal _ => ?_
  · refine ⟨.inl ?_, Multiset.mem_add.mpr ((Multiset.mem_add.mp hq).imp_left (h₁.keeps q))⟩
    exact Multiset.mem_add.mpr ((Multiset.mem_add.mp hq).imp_right fun hq =>
      Multiset.mem_add.mpr (.inr hq))
  · obtain ⟨hvalid, hsame⟩ := content_evolves hok.of_cons.2.2.1 hs h₁.evolves hkeep
    exact ⟨⟨hseal hok.isSealed, hvalid, hok.of_cons.2.2.2⟩, hsame⟩

theorem GrowsAll.nil {z : ZBuffer} (h : Holds w L (z.base + (D + H))) (hz : z.Wide) :
    GrowsAll w L H D z [] z w := ⟨L, D, .refl h hz⟩

/-- A ref of a list that is passed: it is moved, or somebody else holds it. -/
theorem mem_givenAll {r : BlockRef} {l : List BlockRef} (hr : r ∈ l)
    (hmem : r.block ∈ pass.given r + H) : r.block ∈ pass.givenAll l + H := by
  cases pass with
  | copy => exact hmem
  | move => exact Multiset.mem_add.mpr (.inl (mem_blocks hr))

/-- `append_ref` of the first ref of a list. -/
theorem appendFirst_spec {z : ZBuffer} {l : List BlockRef}
    (hmem : ∀ r ∈ ref :: l, r.block ∈ pass.given r + H)
    (h : Holds w L (pass.givenAll (ref :: l) + (z.base + (D + H)))) (hz : z.Wide) :
    Returns (z.appendRef pass ref) w fun z₁ w₁ => ∃ L₁ D₁,
      Holds w₁ L₁ (pass.givenAll l + (z₁.base + (D₁ + H))) ∧ z₁.Wide ∧
      ∀ z₂ w₂, GrowsAll w₁ L₁ H D₁ z₁ l z₂ w₂ → GrowsAll w L H D z (ref :: l) z₂ w₂ := by
  have hassoc : ∀ z D, pass.givenAll l + (ZBuffer.base z + (D + H))
      = z.base + (D + (pass.givenAll l + H)) := fun z D => by
    rw [add_left_comm, add_left_comm (pass.givenAll l)]
  rw [givenAll_cons, add_assoc, hassoc] at h
  have hfirst := hmem ref List.mem_cons_self
  have hmem' : ref.block ∈ pass.given ref + (D + (pass.givenAll l + H)) := by
    rw [add_left_comm, add_left_comm (pass.given ref), add_left_comm D]
    exact Multiset.mem_add.mpr (.inr (Multiset.mem_add.mpr (.inr hfirst)))
  have hne : ref.block ≠ 0 := by
    refine h.ne_zero (.inl ?_)
    rw [add_left_comm]
    exact Multiset.mem_add.mpr (.inr hmem')
  refine (appendRef_spec (.inl hmem') h hz).mono fun z₁ w₁ hz₁ => ?_
  obtain ⟨L₁, D₁, hgrown⟩ := hz₁
  refine ⟨L₁, D₁, ?_, hgrown.wide,
      fun z₂ w₂ hrest => .cons h.sound hne (fun r hr => ?_) hgrown hrest⟩
  · rw [hassoc]
    exact hgrown.holds
  · exact mem_givenAll hr (hmem r (List.mem_cons_of_mem _ hr))

/-- The loop of `append(const ZBuffer&)`. -/
theorem copyRefs_spec {z : ZBuffer} {i n : Nat} (hmem : ∀ r ∈ a.list i n, r.block ∈ H)
    (h : Holds w L (z.base + (D + H))) (hz : z.Wide) :
    Returns (copyRefs z a i n) w fun z' w' => GrowsAll w L H D z (a.list i n) z' w' := by
  induction n generalizing i z w L D with
  | zero => exact .pure (.nil h hz)
  | succ n ih =>
      have hmem' : ∀ r ∈ a.refAt i :: a.list (i + 1) n, r.block ∈ Pass.copy.given r + H := by
        intro r hr
        rw [Pass.given, zero_add]
        exact hmem r hr
      have h' : Holds w L (Pass.copy.givenAll (a.refAt i :: a.list (i + 1) n) +
          (z.base + (D + H))) := by
        rwa [Pass.givenAll, zero_add]
      refine .bind ((appendFirst_spec hmem' h' hz).mono fun z₁ w₁ hz₁ => ?_)
      obtain ⟨L₁, D₁, h₁, hwide, hcons⟩ := hz₁
      rw [Pass.givenAll, zero_add] at h₁
      exact (ih (fun r hr => hmem r (List.mem_cons_of_mem _ hr)) h₁ hwide).mono hcons

/-- The loop of `append(ZBuffer&&)`. -/
theorem moveRefs_spec {z : ZBuffer} {i n : Nat} (hring : a.Ring (i + n))
    (h : Holds w L (blocks (a.list i n) + (z.base + (D + H)))) (hz : z.Wide) :
    Returns (moveRefs z a i n) w fun r w' =>
      GrowsAll w L H D z (a.list i n) r.1 w' ∧ r.2.capMask = a.capMask := by
  induction n generalizing i a z w L D with
  | zero =>
      rw [BlockRefArray.list_zero, blocks_nil, zero_add] at h
      exact .pure ⟨.nil h hz, rfl⟩
  | succ n ih =>
      have hmem : ∀ r ∈ a.refAt i :: a.list (i + 1) n, r.block ∈ Pass.move.given r + H :=
        fun r _ => Multiset.mem_add.mpr (.inl (Multiset.mem_singleton_self _))
      have hfirst : Returns (z.appendRef .move (a.refAt i)) w _ := appendFirst_spec hmem h hz
      refine .bind (hfirst.mono fun z₁ w₁ hz₁ => ?_)
      obtain ⟨L₁, D₁, h₁, hwide, hcons⟩ := hz₁
      have hlist : (a.setRefAt i .null).list (i + 1) n = a.list (i + 1) n := hring.list_set_before
      have hring' : (a.setRefAt i .null).Ring (i + 1 + n) := by
        rw [Nat.add_right_comm, Nat.add_assoc]
        exact hring.set
      have h₁' : Holds w₁ L₁ (blocks ((a.setRefAt i .null).list (i + 1) n) +
          (z₁.base + (D₁ + H))) := by
        rw [hlist]
        exact h₁
      refine (ih hring' h₁' hwide).mono fun r w₂ hr => ⟨hcons _ _ ?_, hr.2⟩
      rw [← hlist]
      exact hr.1

/-- One ref of the two-ref form, if it is not empty. -/
theorem appendIfAny_spec {z : ZBuffer} {l : List BlockRef} (href : ref.block = 0 → ref.length = 0)
    (hmem : ∀ r ∈ [ref].filter (·.block ≠ 0) ++ l, r.block ∈ pass.given r + H)
    (h : Holds w L (pass.givenAll ([ref].filter (·.block ≠ 0) ++ l) + (z.base + (D + H))))
    (hz : z.Wide) : Returns (z.appendIfAny pass ref) w fun z₁ w₁ => ∃ L₁ D₁,
      Holds w₁ L₁ (pass.givenAll l + (z₁.base + (D₁ + H))) ∧ z₁.Wide ∧
      ∀ z₂ w₂, GrowsAll w₁ L₁ H D₁ z₁ l z₂ w₂ →
        GrowsAll w L H D z ([ref].filter (·.block ≠ 0) ++ l) z₂ w₂ := by
  rcases eq_or_ne ref.block 0 with h0 | hne
  · have hnil : [ref].filter (·.block ≠ 0) = [] := by simp [h0]
    have hrelease : ref.release = pure ⟨⟩ := if_pos h0
    rw [hnil, List.nil_append] at h ⊢
    refine .ite (fun _ => ?_) fun hlen => absurd (href h0) hlen
    cases pass with
    | copy => exact .bind (.pure (.pure ⟨L, D, h, hz, fun _ _ hrest => hrest⟩))
    | move =>
        show Returns (ref.release >>= fun _ => pure z) w _
        rw [hrelease]
        exact .bind (.pure (.pure ⟨L, D, h, hz, fun _ _ hrest => hrest⟩))
  · have hone : [ref].filter (·.block ≠ 0) = [ref] := by simp [hne]
    rw [hone, List.singleton_append] at h hmem ⊢
    refine .ite (fun h0 => ?_) fun _ => appendFirst_spec hmem h hz
    -- an empty ref is left out: the list is not one that `Addable` allows
    have hnot : ¬ Addable w z (ref :: l) := fun hok =>
      absurd h0 (Nat.pos_iff_ne_zero.mp hok.of_cons.2.1)
    cases pass with
    | copy =>
        refine .bind (.pure (.pure ⟨L, D, h, hz, fun z₂ w₂ hrest => ?_⟩))
        obtain ⟨L₂, D₂, hgrown⟩ := hrest
        exact ⟨L₂, D₂, hgrown.weaken (Nat.le_succ _) (fun hok => absurd hok hnot)
          fun hok => absurd hok hnot⟩
    | move =>
        have hrelease : ref.release = decRef ref.block := if_neg hne
        show Returns (ref.release >>= fun _ => pure z) w _
        rw [givenAll_cons, Pass.given, Multiset.singleton_add, Multiset.cons_add] at h
        rw [hrelease]
        refine .bind (h.decRef.mono fun _ w₁ hw => .pure ?_)
        obtain ⟨L₁, h₁, _, hev⟩ := hw
        refine ⟨L₁, D, h₁, hz, fun z₂ w₂ hrest => ?_⟩
        obtain ⟨L₂, D₂, hgrown⟩ := hrest
        have hbelow : ∀ q ∈ D + H, q ∈ Pass.move.givenAll l + (z.base + (D + H)) := fun q hq =>
          Multiset.mem_add.mpr (.inr (Multiset.mem_add.mpr (.inr hq)))
        have hafter :
            z.Grown w L H D l.length (content w₁ l) False (fun q => q ∈ D + H) z₂ w₂ L₂ D₂ :=
          hgrown.after h.sound hev (fun q hq => ⟨.inl (hbelow q hq), hq⟩)
            (fun q hq => .inl (hbelow q (Multiset.mem_add.mpr (.inl hq)))) False.elim
        exact ⟨L₂, D₂, hafter.weaken (Nat.le_succ _) (fun hok => absurd hok hnot)
          fun hok => absurd hok hnot⟩

/-- Both refs of the two-ref form, before something else. -/
theorem appendBoth_spec {α : Type} {k : ZBuffer → Program α} {Q : α → World → Prop} {z : ZBuffer}
    (hrh : (ZBuffer.two first second).Shape)
    (hmem : ∀ r ∈ (ZBuffer.two first second).list, r.block ∈ pass.given r + H)
    (h : Holds w L (pass.givenAll (ZBuffer.two first second).list + (z.base + (D + H))))
    (hz : z.Wide)
    (hk : ∀ z' w', GrowsAll w L H D z (ZBuffer.two first second).list z' w' → Returns (k z') w' Q) :
    Returns (do
      let z ← z.appendIfAny pass first
      let z ← z.appendIfAny pass second
      k z) w Q := by
  rw [ZBuffer.list_two] at hmem h hk
  refine .bind ((appendIfAny_spec (fun h0 => (hrh.1 h0).1) hmem h hz).mono fun z₁ w₁ hz₁ => ?_)
  obtain ⟨L₁, D₁, h₁, hwide, hrest⟩ := hz₁
  rw [← List.append_nil ([second].filter (·.block ≠ 0))] at hmem h₁ hrest hk
  have hsecond : ∀ r ∈ [second].filter (·.block ≠ 0) ++ [], r.block ∈ pass.given r + H :=
    fun r hr => hmem r (List.mem_append_right _ hr)
  refine .bind ((appendIfAny_spec hrh.2 hsecond h₁ hwide).mono fun z₂ w₂ hz₂ => ?_)
  obtain ⟨L₂, D₂, h₂, hwide₂, hrest₂⟩ := hz₂
  have h₂' : Holds w₂ L₂ (z₂.base + (D₂ + H)) := by
    cases pass with
    | copy => rwa [Pass.givenAll, zero_add] at h₂
    | move => rwa [Pass.givenAll, blocks_nil, zero_add] at h₂
  exact hk _ _ (hrest _ _ (hrest₂ _ _ (.nil h₂' hwide₂)))

/-- `append(const ZBuffer&)`, of a buffer whose refs the loop counts in an `int`. -/
theorem appendCopy_spec {z rh : ZBuffer} (hrh : rh.Shape) (hlt : rh.list.length < 2 ^ 31)
    (hmem : ∀ r ∈ rh.list, r.block ∈ H) (h : Holds w L (z.base + (D + H))) (hz : z.Wide) :
    Returns (z.appendCopy rh) w fun r w' => GrowsAll w L H D z rh.list r.1 w' := by
  cases rh with
  | array refsNum a firstRef =>
      have hturns : intTurns refsNum = refsNum := if_pos (by simpa [ZBuffer.list] using hlt)
      refine .bind (Returns.mono ?_ fun z' w' hz' => .pure hz')
      rw [hturns]
      exact copyRefs_spec hmem h hz
  | two first second =>
      have hgiven : ∀ r ∈ (ZBuffer.two first second).list, r.block ∈ Pass.copy.given r + H :=
        fun r hr => by
          rw [Pass.given, zero_add]
          exact hmem r hr
      have h' : Holds w L (Pass.copy.givenAll (ZBuffer.two first second).list +
          (z.base + (D + H))) := by
        rwa [Pass.givenAll, zero_add]
      exact appendBoth_spec hrh hgiven h' hz fun z' w' hz' => .pure hz'

/-- What `append(ZBuffer&&)` leaves of the other buffer: a ring stays, without refs. -/
structure Emptied (rh rh' : ZBuffer) : Prop where
  list : rh'.list = []
  base : rh'.base = rh.base
  shape : rh'.Shape
  wide : rh.Wide → rh'.Wide
  slim : rh.Slim → rh'.Slim
  begin : rh'.begin = 0
  sized : rh'.Sized

/-- `append(ZBuffer&&)` -/
theorem appendMove_spec {z rh : ZBuffer} (hrh : rh.Shape) (hlt : rh.list.length < 2 ^ 31)
    (h : Holds w L (blocks rh.list + (z.base + (D + H)))) (hz : z.Wide) :
    Returns (z.appendMove rh) w fun r w' => GrowsAll w L H D z rh.list r.1 w' ∧
    Emptied rh r.2.1 := by
  cases rh with
  | array refsNum a firstRef =>
      have hturns : intTurns refsNum = refsNum := if_pos (by simpa [ZBuffer.list] using hlt)
      have hring : a.Ring (0 + refsNum) := by
        rw [Nat.zero_add]
        exact hrh.1
      have hmove : Returns (moveRefs z a 0 refsNum) w _ := moveRefs_spec hring h hz
      rw [← hturns] at hmove
      refine .bind (hmove.mono fun r w' hr => .pure ⟨hturns ▸ hr.1, ?_⟩)
      obtain ⟨z', a'⟩ := r
      have hcap : a'.capMask = a.capMask := hr.2
      refine ⟨rfl, rfl, ⟨⟨hcap ▸ hrh.1.pow, Nat.zero_le _⟩, by
        decide, fun r hr => absurd hr List.not_mem_nil⟩,
        fun hwide => ?_, fun hslim => ?_, rfl, rfl⟩
      · show 32 ∣ a'.capMask + 1
        rw [hcap]
        exact hwide
      · show a'.capMask + 1 < 2 ^ 28
        rw [hcap]
        exact hslim
  | two first second =>
      have hgiven : ∀ r ∈ (ZBuffer.two first second).list, r.block ∈ Pass.move.given r + H :=
        fun r _ => Multiset.mem_add.mpr (.inl (Multiset.mem_singleton_self _))
      exact appendBoth_spec hrh hgiven h hz fun z' w' hz' => .pure
        ⟨hz', rfl, rfl, ⟨fun _ => ⟨rfl, rfl⟩, fun _ => rfl⟩, fun _ => trivial, fun _ => trivial,
          rfl,
          fun _ => rfl⟩

end Calls

end PBase.Buffer
