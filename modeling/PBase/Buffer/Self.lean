/-
# `PBase.Buffer.Self` — a buffer appended to itself

`append(const ZBuffer&)` reads the refs of `rh` while it adds to the buffer, and the two may be the
same.  Of a ring with room it then reads its own slots, one after the other, and they are what they
were, unless the first `append_ref` extends the last slot: that is read last, with the bytes it got.
On the list of refs the loop is `joinSelf`.

Of two refs, `second_` is read when it is already a copy of `first_`, or `first_ref` of a new ring;
so the bytes of the ring become data, or `refs_array` is taken for a block.
-/
import PBase.Buffer.Front
import PBase.Buffer.Append

namespace PBase.Buffer

open PBase.Lib

/-! ## On lists -/

/-- The list after `append_ref`. -/
def join (l : List BlockRef) (ref : BlockRef) : List BlockRef :=
  match l.getLast? with
  | none => [ref]
  | some last =>
      match last.merge ref with
      | some merged => l.dropLast ++ [merged]
      | none => l ++ [ref]

/-- The refs from the `i`-th on, `n` of them, are joined to the list they are in. -/
def joinSelf (l : List BlockRef) (i : Nat) : Nat → List BlockRef
  | 0 => l
  | n + 1 =>
      match l[i]? with
      | none => l
      | some ref => joinSelf (join l ref) (i + 1) n

section Lists
variable {w : World} {l m t added : List BlockRef} {ref last merged r : BlockRef} {i k n : Nat}

theorem join_merged (h : last.merge ref = some merged) :
    join (t ++ [last]) ref = t ++ [merged] := by
  simp [join, h]

theorem join_stored (h : last.merge ref = none) :
    join (t ++ [last]) ref = t ++ [last] ++ [ref] := by
  simp [join, h]

theorem snoc_join (l : List BlockRef) (ref : BlockRef) : Snoc l ref (join l ref) := by
  rcases List.eq_nil_or_concat' l with rfl | ⟨t, last, rfl⟩
  · exact .stored
  · cases hm : last.merge ref with
    | some merged =>
        rw [join_merged hm]
        exact .merged rfl hm
    | none =>
        rw [join_stored hm]
        exact .stored

/-- What is before the tail is left alone. -/
theorem join_append (hm : m ≠ []) : join (l ++ m) ref = l ++ join m ref := by
  rcases List.eq_nil_or_concat' m with rfl | ⟨t, last, rfl⟩
  · exact absurd rfl hm
  · rw [← List.append_assoc]
    cases hmerge : last.merge ref with
    | some merged => rw [join_merged hmerge, join_merged hmerge, List.append_assoc]
    | none =>
        rw [join_stored hmerge, join_stored hmerge]
        simp only [List.append_assoc]

theorem length_join (l : List BlockRef) (ref : BlockRef) : (join l ref).length ≤ l.length + 1 := by
  rcases List.eq_nil_or_concat' l with rfl | ⟨t, last, rfl⟩
  · exact Nat.le_refl _
  · cases hm : last.merge ref with
    | some merged => simp [join_merged hm]
    | none => simp [join_stored hm]

theorem AllValid.append (hl : AllValid w l) (hm : AllValid w m) : AllValid w (l ++ m) := fun r hr =>
  (List.mem_append.mp hr).elim (hl r) (hm r)

/-- Once something is added, the refs are read as they were. -/
theorem joinSelf_append (hl : AllValid w l) (hs : w.AllSound) (hm : AllValid w m) (hne : m ≠ [])
    (hle : i + n ≤ l.length) : ∃ added, joinSelf (l ++ m) i n = l ++ added ∧
      AllValid w added ∧ content w added = content w m ++ content w ((l.drop i).take n) := by
  induction n generalizing m i with
  | zero => exact ⟨m, rfl, hm, by rw [List.take_zero, content_nil, List.append_nil]⟩
  | succ n ih =>
      have hi : i < l.length := by omega
      have hget : (l ++ m)[i]? = some l[i] := by
        rw [List.getElem?_append_left hi, List.getElem?_eq_getElem hi]
      have hvalid := hl l[i] (List.getElem_mem hi)
      obtain ⟨hjoin, hcontent, _⟩ := content_snoc hm hvalid hs (snoc_join m l[i])
      obtain ⟨added, heq, hadded, hsum⟩ := ih hjoin (snoc_join m l[i]).ne_nil (i := i + 1)
          (by omega)
      refine ⟨added, ?_, hadded, ?_⟩
      · rw [joinSelf]
        simp only [hget]
        rw [join_append hne, heq]
      · rw [hsum, hcontent, List.drop_eq_getElem_cons hi, List.take_succ_cons, content_cons,
          List.append_assoc]

/-- The last ref does not end where the first begins. -/
def Apart (l : List BlockRef) : Prop :=
  ∀ first ∈ l.head?, ∀ last ∈ l.getLast?, last.merge first = none

/-- Then the list is doubled. -/
theorem joinSelf_apart (hl : AllValid w l) (hs : w.AllSound) (h : Apart l) :
    ∃ added, joinSelf l 0 l.length = l ++ added ∧ AllValid w added ∧
    content w added = content w l := by
  cases l with
  | nil => exact ⟨[], rfl, hl, rfl⟩
  | cons r l =>
      obtain ⟨t, last, heq⟩ := (List.eq_nil_or_concat' (r :: l)).resolve_left (List.cons_ne_nil r l)
      have hnone : last.merge r = none := h r rfl last (by simp [heq])
      have hr : AllValid w [r] := fun q hq => List.mem_singleton.mp hq ▸ hl r List.mem_cons_self
      obtain ⟨added, hadded, hvalid, hcontent⟩ := joinSelf_append (n := l.length) (i := 1) hl hs hr
        (List.cons_ne_nil r []) (by rw [List.length_cons]; omega)
      refine ⟨added, ?_, hvalid, ?_⟩
      · rw [← hadded, List.length_cons, joinSelf]
        simp only [List.getElem?_cons_zero]
        rw [heq, join_stored hnone]
      · rw [hcontent, List.drop_succ_cons, List.drop_zero, List.take_length, content_cons,
          content_nil,
          List.append_nil, content_cons]

/-- A ref that is in the list stays, or is extended. -/
theorem join_grows (hl : AllValid w l) (hs : w.AllSound) (href : Valid w ref)
    (hget : l[k]? = some r) :
    ∃ r', (join l ref)[k]? = some r' ∧ r.length ≤ r'.length := by
  have hk : k < l.length := (List.getElem?_eq_some_iff.mp hget).1
  obtain ⟨t, last, rfl⟩ := (List.eq_nil_or_concat' l).resolve_left fun h0 => by
    rw [h0] at hk
    cases hk
  cases hm : last.merge ref with
  | none =>
      rw [join_stored hm, List.getElem?_append_left hk]
      exact ⟨r, hget, Nat.le_refl _⟩
  | some merged =>
      rw [join_merged hm]
      rw [List.length_append, List.length_singleton] at hk
      rcases Nat.lt_or_eq_of_le (Nat.le_of_lt_succ hk) with hlt | rfl
      · rw [List.getElem?_append_left hlt] at hget ⊢
        exact ⟨r, hget, Nat.le_refl _⟩
      · rw [List.getElem?_concat_length] at hget ⊢
        cases hget
        obtain ⟨_, _, rfl⟩ := merge_eq hm
        have hlast := (hl r (List.mem_append_right t (List.mem_singleton_self r))).length_lt hs
        have hlt := href.length_lt hs
        refine ⟨_, rfl, ?_⟩
        simp only
        omega

theorem joinSelf_grows (hl : AllValid w l) (hs : w.AllSound) (hget : l[k]? = some r) :
    ∃ r', (joinSelf l i n)[k]? = some r' ∧ r.length ≤ r'.length := by
  induction n generalizing l i r with
  | zero => exact ⟨r, hget, Nat.le_refl _⟩
  | succ n ih =>
      rw [joinSelf]
      cases hi : l[i]? with
      | none => exact ⟨r, hget, Nat.le_refl _⟩
      | some ref =>
          have href := hl ref (List.mem_of_getElem? hi)
          obtain ⟨r₁, hget₁, hle₁⟩ := join_grows hl hs href hget
          obtain ⟨r₂, hget₂, hle₂⟩ :=
              ih (content_snoc hl href hs (snoc_join l ref)).1 hget₁ (i := i + 1)
          exact ⟨r₂, hget₂, hle₁.trans hle₂⟩

/-- If it does end there, the last ref is extended, and the list is not the old one and more. -/
theorem joinSelf_not_apart (hl : AllValid w l) (hs : w.AllSound)
    (hpos : ∀ ref ∈ l.head?, 0 < ref.length)
    (h : ¬ Apart l) : joinSelf l 0 l.length ≠ l ++ added := by
  cases l with
  | nil => exact absurd (fun first hf => by cases hf) h
  | cons r l =>
      obtain ⟨t, last, heq⟩ := (List.eq_nil_or_concat' (r :: l)).resolve_left (List.cons_ne_nil r l)
      have hlast : last ∈ r :: l := heq ▸ List.mem_append_right t (List.mem_singleton_self last)
      cases hm : last.merge r with
      | none =>
          refine absurd (fun first hf last' hl' => ?_) h
          cases hf
          have heq' : last' = last := by simpa [heq, eq_comm] using hl'
          rw [heq', hm]
      | some merged =>
          obtain ⟨_, _, hmerged⟩ := merge_eq hm
          have hr := (hl r List.mem_cons_self).length_lt hs
          have hlast' := (hl last hlast).length_lt hs
          have hr0 : 0 < r.length := hpos r rfl
          have hlong : last.length < merged.length := by
            rw [hmerged]
            simp only
            omega
          have hjoin := (content_snoc hl (hl r List.mem_cons_self) hs (snoc_join (r :: l) r)).1
          rw [heq, join_merged hm] at hjoin
          obtain ⟨r', hget, hle⟩ := joinSelf_grows (i := 1) (n := l.length) hjoin hs
            (List.getElem?_concat_length (l := t) (a := merged))
          intro hsame
          rw [List.length_cons, joinSelf] at hsame
          simp only [List.getElem?_cons_zero] at hsame
          rw [heq, join_merged hm] at hsame
          rw [hsame, List.getElem?_append_left (by simp), List.getElem?_concat_length] at hget
          cases hget
          omega

end Lists

/-! ## In a ring with room -/

/-- Every block that is there has its count raised by the refs the buffer has more than before. -/
def Balanced (w : World) (l : List BlockRef) (w' : World) (l' : List BlockRef) : Prop :=
  ∀ p b, w.block p = some b → ∃ b', w'.block p = some b' ∧
    b'.refNum + (blocks l).count p = b.refNum + (blocks l').count p

/-- Refs of the buffer were appended to it, and the list is `l` now. -/
structure Copied (w : World) (L : List Nat) (H : Multiset Nat) (z : ZBuffer) (l : List BlockRef)
    (z' : ZBuffer) (w' : World) : Prop where
  list : z'.list = l
  shape : z'.Shape
  sized : z'.Sized
  holds : Holds w' L (z'.held + H)
  evolves : Evolves w L w' L fun _ => True
  balanced : Balanced w z.list w' z'.list

section Rings
variable {w w₁ w' : World} {L : List Nat} {H : Multiset Nat} {z z₁ z' : ZBuffer} {l : List BlockRef}
  {ref firstRef : BlockRef} {a : BlockRefArray} {refsNum i n s : Nat}

theorem Balanced.refl : Balanced w l w l := fun _ b hb => ⟨b, hb, rfl⟩

theorem Balanced.trans {l₁ l' : List BlockRef} (h : Balanced w l w₁ l₁)
    (h' : Balanced w₁ l₁ w' l') :
    Balanced w l w' l' := by
  intro p b hb
  obtain ⟨b₁, hb₁, hcount₁⟩ := h p b hb
  obtain ⟨b', hb', hcount⟩ := h' p b₁ hb₁
  exact ⟨b', hb', by omega⟩

theorem Copied.trans (h : Copied w L H z l z₁ w₁) {l' : List BlockRef}
    (h' : Copied w₁ L H z₁ l' z' w') :
    Copied w L H z l' z' w' :=
  ⟨h'.list, h'.shape, h'.sized, h'.holds, h.evolves.trans h'.evolves fun _ _ => ⟨trivial, trivial⟩,
    h.balanced.trans h'.balanced⟩

/-- With room, what is read is what was there. -/
theorem arrayAppendRefAt_eq {place : ZBuffer.Place} (hroom : ¬ refsNum > a.capMask)
    (hplace : ∀ n, (ZBuffer.array refsNum { a with nbytes := n } firstRef).refAt place = pure ref) :
    ZBuffer.arrayAppendRefAt place refsNum a firstRef =
    arrayAppendRef .copy refsNum a firstRef ref := by
  have hplace₀ : (ZBuffer.array refsNum a firstRef).refAt place = pure ref := hplace a.nbytes
  simp only [ZBuffer.arrayAppendRefAt, arrayAppendRef, hplace₀, pure_bind, Pass.merged, Pass.stored]
  split
  · rfl
  · simp only [if_neg hroom, pure_bind, hplace]

theorem incRef_balanced {p : Nat} {u : Unit} (h : Holds w L H) (hp : p ∈ H)
    (hrun : (incRef p).run w = some (u, w')) : ∀ q b, w.block q = some b → ∃ b',
      w'.block q = some b' ∧ b'.refNum = b.refNum + ({p} : Multiset Nat).count q := by
  obtain ⟨c, hc⟩ := h.exists_block (.inl hp)
  have hw : w' = w.setBlock p { c with refNum := c.refNum + 1 } :=
    (returns_incRef (Q := fun _ w' => w' = w.setBlock p { c with refNum := c.refNum + 1 }) hc
      rfl).of_run hrun
  intro q b hb
  rw [hw]
  rcases eq_or_ne q p with rfl | hne
  · cases hc.symm.trans hb
    exact ⟨_, setBlock_self, by simp⟩
  · exact ⟨b, (setBlock_of_ne hne).trans hb, by simp [hne]⟩

/-- `array_append_ref` of a ref the buffer holds. -/
theorem arrayCopy_spec (hz : (ZBuffer.array refsNum a firstRef).Shape)
    (hsized : (ZBuffer.array refsNum a firstRef).Sized)
    (hvalid : AllValid w (ZBuffer.array refsNum a firstRef).list)
    (h : Holds w L ((ZBuffer.array refsNum a firstRef).held + H)) (hroom : refsNum < a.capMask + 1)
    (hlt : refsNum + 1 < 2 ^ 32) (href : ref ∈ a.list 0 refsNum) :
    Returns (arrayAppendRef .copy refsNum a firstRef ref) w fun z' w' => ∃ n' a',
      z' = .array n' a' firstRef ∧ n' ≤ refsNum + 1 ∧ refsNum ≤ n' ∧ a'.capMask = a.capMask ∧
      Copied w L H (.array refsNum a firstRef) (join (a.list 0 refsNum) ref) z' w' := by
  obtain ⟨m, rfl⟩ : ∃ m, refsNum = m + 1 := by
    cases refsNum with
    | zero => cases href
    | succ m => exact ⟨m, rfl⟩
  have hring := hz.1
  have hlast := hring.list_last
  have hrefv := hvalid ref href
  have hheld : ref.block ∈ (ZBuffer.array (m + 1) a firstRef).held + H :=
    Multiset.mem_add.mpr (.inl (Multiset.mem_add.mpr (.inr (mem_blocks href))))
  have hnbytes : (a.nbytes + ref.length) % 2 ^ 64 = lengths (join (a.list 0 (m + 1)) ref) := by
    obtain ⟨hvalid', _, hlengths⟩ := content_snoc hvalid hrefv h.sound (snoc_join _ ref)
    have hbound := hvalid'.lengths_le h.sound
    have hlen := length_join (ZBuffer.array (m + 1) a firstRef).list ref
    have hnum : (ZBuffer.array (m + 1) a firstRef).list.length = m + 1 := BlockRefArray.length_list
    have hsized : a.nbytes = lengths (ZBuffer.array (m + 1) a firstRef).list := hsized
    rw [hsized]
    exact (Nat.mod_eq_of_lt (by omega)).trans hlengths.symm
  cases hm : (a.refAt ((m + 1 + (2 ^ 32 - 1)) % 2 ^ 32)).merge ref with
  | some merged =>
      have hset := @array_merged ref firstRef a (m + 1) merged
          ((a.nbytes + ref.length) % 2 ^ 64) hm hz
      obtain ⟨hshape, hblocks, _⟩ := hset
      have hjoin : join (a.list 0 (m + 1)) ref = a.list 0 m ++ [merged] := by
        rw [hlast, join_merged hm]
      have hring' : (a.counted ref).Ring (m + 1) := ⟨hring.pow, hring.fits⟩
      have hlist : ((a.counted ref).setRefAt ((m + 1 + (2 ^ 32 - 1)) % 2 ^ 32) merged).list 0
          (m + 1)
          = a.list 0 m ++ [merged] := hring'.list_set_last
      rw [arrayAppendRef_merged hm]
      refine .bind (.pure
          (.pure ⟨_, _, rfl, Nat.le_succ _, Nat.le_refl _, rfl, hlist.trans hjoin.symm, hshape,
        ?_, ?_, .refl w L _, fun p b hb => ⟨b, hb, ?_⟩⟩))
      · show (a.nbytes + ref.length) % 2 ^ 64 = lengths _
        rw [hnbytes, hjoin]
        exact congrArg lengths hlist.symm
      · have hsame : (ZBuffer.array (m + 1) a firstRef).held = _ :=
          congrArg ({firstRef.block} + ·) hblocks
        rw [hsame] at h
        exact h
      · have hsame := congrArg (Multiset.count p) hblocks
        show b.refNum + ((blocks (a.list 0 (m + 1))).count p : Int) = _
        rw [hsame]
        rfl
  | none =>
      have hring' : (a.counted ref).Ring (m + 1) := ⟨hring.pow, hring.fits⟩
      have hjoin : join (a.list 0 (m + 1)) ref = a.list 0 (m + 1) ++ [ref] := by
        rw [hlast, join_stored hm]
      obtain ⟨hshape, hlist⟩ :=
          array_stored firstRef hring' hroom hlt hz.2.2 (h.ne_zero (.inl hheld))
      replace hlist :
          (ZBuffer.array ((m + 1 + 1) % 2 ^ 32) ((a.counted ref).setRefAt (m + 1) ref)
          firstRef).list
          = a.list 0 (m + 1) ++ [ref] := hlist
      have hblocks :
          blocks (ZBuffer.array ((m + 1 + 1) % 2 ^ 32) ((a.counted ref).setRefAt (m + 1) ref)
          firstRef).list = blocks (a.list 0 (m + 1)) + {ref.block} := by
        rw [hlist, blocks_append]
        rfl
      have hmod : (m + 1 + 1) % 2 ^ 32 = m + 1 + 1 := Nat.mod_eq_of_lt hlt
      rw [arrayAppendRef_stored hm, if_neg (by omega)]
      obtain ⟨⟨⟩, w', hrun, h', hev⟩ := h.incRef (.inl hheld)
      refine .bind (.pure
          (.bind ⟨⟨⟩, w', hrun, .pure ⟨_, _, rfl, hmod.le, ?_, rfl, hlist.trans hjoin.symm, hshape,
        ?_, ?_, hev, fun p b hb => ?_⟩⟩))
      · rw [hmod]
        exact Nat.le_succ _
      · show (a.nbytes + ref.length) % 2 ^ 64 = lengths _
        rw [hnbytes, hjoin, ← hlist]
        rfl
      · have hsame :
          (ZBuffer.array ((m + 1 + 1) % 2 ^ 32) ((a.counted ref).setRefAt (m + 1) ref)
          firstRef).held + H
            = ref.block ::ₘ ((ZBuffer.array (m + 1) a firstRef).held + H) := by
          rw [ZBuffer.held, hblocks, ← Multiset.singleton_add]
          show {firstRef.block} + (blocks (a.list 0 (m + 1)) + {ref.block}) + H
            = {ref.block} + ({firstRef.block} + blocks (a.list 0 (m + 1)) + H)
          abel
        exact hsame ▸ h'
      · obtain ⟨b', hb', hcount⟩ := incRef_balanced h hheld hrun p b hb
        refine ⟨b', hb', ?_⟩
        show b'.refNum + ((blocks (a.list 0 (m + 1))).count p : Int) = b.refNum + ((blocks
          (ZBuffer.array ((m + 1 + 1) % 2 ^ 32) ((a.counted ref).setRefAt (m + 1) ref)
            firstRef).list).count p : Int)
        rw [hcount, hblocks, Multiset.count_add]
        push_cast
        ring

/-- The loop of `append(const ZBuffer&)`, over the ring it adds to. -/
theorem copySelf_spec (hz : (ZBuffer.array refsNum a firstRef).Shape)
    (hsized : (ZBuffer.array refsNum a firstRef).Sized)
    (hvalid : AllValid w (ZBuffer.array refsNum a firstRef).list)
    (h : Holds w L ((ZBuffer.array refsNum a firstRef).held + H)) (hle : i + n ≤ refsNum)
    (hroom : refsNum + n ≤ a.capMask + 1) (hlt : refsNum + n < 2 ^ 32) :
    Returns (ZBuffer.copySelf (.array refsNum a firstRef) i n) w fun z' w' =>
      Copied w L H (.array refsNum a firstRef) (joinSelf (a.list 0 refsNum) i n) z' w' := by
  induction n generalizing refsNum a i w with
  | zero => exact .pure ⟨rfl, hz, hsized, h, .refl w L _, .refl⟩
  | succ n ih =>
      have hget : (a.list 0 refsNum)[i]? = some (a.refAt i) := by
        simp [BlockRefArray.list, show i < refsNum by omega]
      have href := List.mem_of_getElem? hget
      have hslot : ZBuffer.arrayAppendRefAt (.slot (a.slot i)) refsNum a firstRef
          = arrayAppendRef .copy refsNum a firstRef (a.refAt i) :=
        arrayAppendRefAt_eq (by omega) fun _ => rfl
      have hturn := arrayCopy_spec hz hsized hvalid h (by omega) (by omega) href
      rw [← hslot] at hturn
      refine .bind (hturn.mono fun z₁ w₁ hz₁ => ?_)
      obtain ⟨n', a', rfl, hup, hdown, hcap, hcopied⟩ := hz₁
      have hjoin := hcopied.list
      have hvalid₁ : AllValid w₁ (ZBuffer.array n' a' firstRef).list := by
        rw [hjoin]
        refine (content_evolves ?_ h.sound hcopied.evolves fun _ _ => trivial).1
        exact (content_snoc hvalid (hvalid _ href) h.sound (snoc_join _ _)).1
      refine (ih hcopied.shape hcopied.sized hvalid₁ hcopied.holds (by omega) (by omega)
          (by omega)).mono
        fun z₂ w₂ hz₂ => hcopied.trans ?_
      rw [joinSelf]
      simp only [hget]
      rw [← hjoin]
      exact hz₂

end Rings

/-! ## A buffer after itself -/

/-- A ring has room for its refs once more. -/
def ZBuffer.HasRoom : ZBuffer → Prop
  | two _ _ => True
  | array refsNum a _ => refsNum + refsNum ≤ a.capMask + 1

/-- The buffer holds its bytes twice, after refs it has got, and these are counted. -/
def Doubles (w : World) (z : ZBuffer) : Prop :=
  Returns z.appendSelf w fun r w' =>
    content w' r.1.list = content w z.list ++ content w z.list ∧ r.1.size = 2 * z.size ∧
    ∃ added, r.1.list = z.list ++ added ∧ ∀ p b, w.block p = some b → ∃ b', w'.block p = some b' ∧
      b'.refNum = b.refNum + (blocks added).count p

/-- When it does. -/
def ZBuffer.Doubling : ZBuffer → Prop
  | two first _ => first.length = 0
  | array refsNum a _ => refsNum < 2 ^ 31 ∧ Apart (a.list 0 refsNum)

section Doubles
variable {w w' : World} {L : List Nat} {H : Multiset Nat} {z z' : ZBuffer}
  {first second firstRef : BlockRef}
  {a : BlockRefArray} {refsNum : Nat}

theorem two_doubles (h : WellFormed w (.two first second)) (h0 : first.length = 0) :
    Doubles w (.two first second) := by
  have hnull := h.sized h0
  have hsecond := (h.shape.1 hnull).2
  have hlength := h.shape.2 hsecond
  have hnil : (ZBuffer.two first second).list = [] := ZBuffer.list_none hnull hsecond
  refine ⟨(.two first second, 0), w, ?_, ?_, ?_, [], (List.append_nil _).symm,
      fun p b hb => ⟨b, hb, ?_⟩⟩
  · simp only [ZBuffer.appendSelf, h0, hlength, if_true, ZBuffer.refAt, pure_bind]
    rfl
  · rw [hnil]
    rfl
  · simp [ZBuffer.size, h0, hlength]
  · simp

theorem array_doubles (h : WellFormed w (.array refsNum a firstRef))
    (hroom : (ZBuffer.array refsNum a firstRef).HasRoom) (hlt : refsNum < 2 ^ 31)
    (hapart : Apart (a.list 0 refsNum)) : Doubles w (.array refsNum a firstRef) := by
  obtain ⟨L, H, hholds⟩ := h.holds
  have hturns : intTurns refsNum = refsNum := if_pos hlt
  have hvalid : AllValid w (a.list 0 refsNum) := h.valid
  obtain ⟨added, hlist, hadded, hcontent⟩ := joinSelf_apart hvalid h.sound hapart
  rw [BlockRefArray.length_list] at hlist
  have hloop :=
      copySelf_spec h.shape h.sized h.valid hholds (show 0 + refsNum ≤ refsNum by omega) hroom
    (show refsNum + refsNum < 2 ^ 32 by omega)
  rw [hlist] at hloop
  refine .bind (.mono (?_ : Returns (ZBuffer.copySelf _ 0 (intTurns refsNum)) w fun z' w' =>
    Copied w L H (.array refsNum a firstRef) (a.list 0 refsNum ++ added) z' w') fun z' w' hz' =>
    .pure ?_)
  · rw [hturns]
    exact hloop
  · obtain ⟨hvalid', hsame⟩ := content_evolves (hvalid.append hadded) h.sound hz'.evolves fun _ _ =>
      trivial
    have hformed : WellFormed w' z' := ⟨hz'.shape, hz'.sized, hz'.list ▸ hvalid', L, H, hz'.holds⟩
    have hdouble :
        content w' z'.list = content w (a.list 0 refsNum) ++ content w (a.list 0 refsNum) := by
      rw [hz'.list, hsame, content_append, hcontent]
    refine ⟨hdouble, ?_, added, hz'.list, fun p b hb => ?_⟩
    · rw [hformed.size_eq, hdouble, h.size_eq, List.length_append]
      exact (Nat.two_mul _).symm
    · obtain ⟨b', hb', hcount⟩ := hz'.balanced p b hb
      refine ⟨b', hb', ?_⟩
      rw [hz'.list, blocks_append, Multiset.count_add] at hcount
      have hcount : b'.refNum + ((blocks (a.list 0 refsNum)).count p : Int)
        = b.refNum + ((blocks (a.list 0 refsNum)).count p + (blocks added).count p : Nat) := hcount
      push_cast at hcount
      omega

/-! ### When it does not -/

/-- The storage of the ring of two refs has 544 bytes. -/
theorem transfor_length {r : Nat × BlockRefArray × BlockRef}
    (h : (transforToArray first second).run w = some (r, w')) : r.2.2.length = 544 := by
  obtain ⟨q, w₁, hstorage, h⟩ := run_bind_some.mp h
  obtain ⟨memory, w₂, _, hpure⟩ := run_bind_some.mp h
  cases hpure
  obtain ⟨p, w₃, _, hstorage⟩ := run_bind_some.mp hstorage
  obtain ⟨b, w₄, _, hstorage⟩ := run_bind_some.mp hstorage
  obtain ⟨_, w₅, _, hstorage⟩ := run_bind_some.mp hstorage
  obtain ⟨_, w₆, _, hpure⟩ := run_bind_some.mp hstorage
  cases hpure
  rfl

/-- Two refs go to a ring, and after them what is in the place of `second_` then. -/
theorem transfor_first_ref {L : List Nat} {X : Multiset Nat} (h : Holds w L X)
    (hfirst : first.block ≠ 0)
    (hsecond : second.block ≠ 0) (hlt : first.length < 2 ^ 16) (hlt' : second.length < 2 ^ 31)
    (hrun : (transforToArray first second >>= fun r =>
      ZBuffer.arrayAppendRefAt .second r.1 r.2.1 r.2.2).run w = some (z', w')) :
    z'.size = first.length + second.length + 544 ∧
      ∃ ref, z'.list[1]? = some ref ∧ second.length ≤ ref.length := by
  obtain ⟨⟨n, a, f⟩, w₁, hring, hrun⟩ := run_bind_some.mp hrun
  have hlength : f.length = 544 := transfor_length hring
  obtain ⟨L₁, _, _, _, hn, hcap, _, hnbytes, hlist⟩ :=
      (transforToArray_spec hfirst hsecond h).of_run hring
  replace hn : n = 2 := hn
  replace hcap : a.capMask = 31 := hcap
  replace hnbytes : a.nbytes = (first.length % 2 ^ 64 + second.length) % 2 ^ 64 := hnbytes
  replace hlist : a.list 0 2 = [first, second] := hlist
  subst hn
  have hsum : (a.nbytes + f.length) % 2 ^ 64 = first.length + second.length + 544 := by omega
  have htwo : a.Ring 2 := ring_of_capMask hcap (by decide)
  have hring' : (a.counted f).Ring 2 := ring_of_capMask hcap (by decide)
  replace hrun : (ZBuffer.arrayAppendRefAt .second 2 a f).run w₁ = some (z', w') := hrun
  have hplace : ZBuffer.arrayAppendRefAt .second 2 a f = arrayAppendRef .copy 2 a f f :=
    arrayAppendRefAt_eq (by rw [hcap]; decide) fun _ => rfl
  rw [hplace] at hrun
  cases hm : (a.refAt ((2 + (2 ^ 32 - 1)) % 2 ^ 32)).merge f with
  | some merged =>
      rw [arrayAppendRef_merged hm] at hrun
      obtain ⟨_, w₂, _, hpure⟩ := run_bind_some.mp hrun
      cases hpure
      refine ⟨hsum, merged, ?_, ?_⟩
      · have hset : ((a.counted f).setRefAt ((1 + 1 + (2 ^ 32 - 1)) % 2 ^ 32) merged).list 0 (1 + 1)
            = (a.counted f).list 0 1 ++ [merged] := hring'.list_set_last
        show (((a.counted f).setRefAt ((1 + 1 + (2 ^ 32 - 1)) % 2 ^ 32) merged).list 0 (1 + 1))[1]?
            = _
        rw [hset]
        rfl
      · have hlast := htwo.list_last
        rw [hlist] at hlast
        have hlast : a.refAt ((2 + (2 ^ 32 - 1)) % 2 ^ 32) = second := by
          have := congrArg List.getLast? hlast
          simpa [eq_comm] using this
        obtain ⟨_, _, rfl⟩ := merge_eq hm
        simp only [hlast]
        omega
  | none =>
      rw [arrayAppendRef_stored hm, if_neg (by rw [hcap]; decide)] at hrun
      obtain ⟨_, w₂, hsame, hrun⟩ := run_bind_some.mp hrun
      cases hsame
      obtain ⟨_, w₃, _, hpure⟩ := run_bind_some.mp hrun
      cases hpure
      refine ⟨hsum, second, ?_, Nat.le_refl _⟩
      have hset : ((a.counted f).setRefAt 2 f).list 0 (2 + 1) = a.list 0 2 ++ [f] :=
        hring'.list_set (by show 2 < a.capMask + 1; rw [hcap]; decide)
      show (((a.counted f).setRefAt 2 f).list 0 (2 + 1))[1]? = _
      rw [hset, hlist]
      rfl

theorem merge_self {ref : BlockRef} (hpos : 0 < ref.length) (hlt : ref.length < 2 ^ 32) :
    ref.merge ref = none := by
  rw [BlockRef.merge, if_neg]
  rintro ⟨_, hadj⟩
  omega

/-- After the first `append_ref` the second place has a copy of `first_`, or `second_` extended by
it. -/
theorem appendRefAt_first (h : Holds w L (blocks (ZBuffer.two first second).list + H))
    (hfirst : first.block ≠ 0) (hself : first.merge first = none)
    (hrun : ((ZBuffer.two first second).appendRefAt .first).run w = some (z', w')) :
    ∃ x, z' = .two first x ∧ Holds w' L (blocks z'.list + H) ∧
      (second.block = 0 ∧ x = first ∨ second.block ≠ 0 ∧ second.merge first = some x) := by
  simp only [ZBuffer.appendRefAt, ZBuffer.refAt, pure_bind, if_neg hfirst, hself] at hrun
  split at hrun
  · rename_i h0
    obtain ⟨⟨⟩, w₁, hinc, hpure⟩ := run_bind_some.mp hrun
    cases hpure
    rw [ZBuffer.list_first hfirst h0, blocks_cons, blocks_nil, Multiset.cons_add] at h
    obtain ⟨h', _⟩ := (h.incRef (.inl (Multiset.mem_cons_self _ _))).of_run hinc
    refine ⟨first, rfl, ?_, .inl ⟨h0, rfl⟩⟩
    rw [ZBuffer.list_both hfirst hfirst, blocks_cons, blocks_cons, blocks_nil, Multiset.cons_add,
      Multiset.cons_add]
    exact h'
  · rename_i hsecond
    cases hm : second.merge first with
    | some merged =>
        rw [hm] at hrun
        cases hrun
        obtain ⟨hblock, _, hmerged⟩ := merge_eq hm
        have hx : merged.block = second.block := by rw [hmerged]
        refine ⟨merged, rfl, ?_, .inr ⟨hsecond, rfl⟩⟩
        rw [ZBuffer.list_both hfirst hsecond] at h
        rw [ZBuffer.list_both hfirst (hx ▸ hsecond), blocks_cons, blocks_cons, hx]
        exact h
    | none =>
        -- `first_` is not a ref any more
        rw [hm] at hrun
        obtain ⟨r, w₁, _, hrun⟩ := run_bind_some.mp hrun
        obtain ⟨ref, w₂, hnone, _⟩ := run_bind_some.mp hrun
        cases hnone

/-- Two refs that are not both null are not doubled. -/
theorem two_not_doubled (h : WellFormed w (.two first second)) (hne : first.length ≠ 0) :
    ¬ Doubles w (.two first second) := by
  rintro ⟨r, w', hrun, _, hsize, added, hlist, _⟩
  have hfirst : first.block ≠ 0 := fun h0 => hne (h.shape.1 h0).1
  obtain ⟨L, H, hholds⟩ := h.holds
  rw [ZBuffer.held_two] at hholds
  have hlt := (h.valid.of_two.1 hfirst).length_lt h.sound
  have hself : first.merge first = none := merge_self (Nat.pos_of_ne_zero hne) (by omega)
  simp only [ZBuffer.appendSelf, if_neg hne] at hrun
  obtain ⟨z₁, w₁, hturn, hrun⟩ := run_bind_some.mp hrun
  obtain ⟨x, rfl, h₁, hx⟩ := appendRefAt_first hholds hfirst hself hturn
  -- what is read in the second place is not the ref that was there
  have hxs : x.block ≠ 0 ∧ first.length ≤ x.length ∧ x.length < 2 ^ 17 := by
    rcases hx with ⟨_, rfl⟩ | ⟨hsecond, hm⟩
    · exact ⟨hfirst, Nat.le_refl _, by omega⟩
    · obtain ⟨hblock, _, rfl⟩ := merge_eq hm
      have hlt' := (h.valid.of_two.2 hsecond).length_lt h.sound
      refine ⟨hsecond, ?_, ?_⟩ <;> simp only <;> omega
  obtain ⟨hxb, hle, hxlt⟩ := hxs
  have hxself : x.merge x = none := merge_self (by omega) (by omega)
  simp only [ZBuffer.refAt, pure_bind, if_neg (show x.length ≠ 0 by omega), ZBuffer.appendRefAt,
    if_neg hfirst, if_neg hxb, hxself] at hrun
  obtain ⟨z₂, w₂, hring, hpure⟩ := run_bind_some.mp hrun
  cases hpure
  obtain ⟨hsize₂, ref, hget, hlong⟩ := transfor_first_ref h₁ hfirst hxb (by omega) (by omega) hring
  rcases hx with ⟨hsecond, hx⟩ | ⟨hsecond, hm⟩
  · have hnull := h.shape.2 hsecond
    have hold : (ZBuffer.two first second).size = (first.length + second.length) % 2 ^ 32 := rfl
    simp only [hx] at hsize hsize₂
    omega
  · obtain ⟨_, _, rfl⟩ := merge_eq hm
    have hlt' := (h.valid.of_two.2 hsecond).length_lt h.sound
    rw [hlist, ZBuffer.list_both hfirst hsecond] at hget
    cases hget
    simp only at hlong
    omega

/-- Nor is a ring whose last ref is extended, or one that is too long to be counted. -/
theorem array_not_doubled (h : WellFormed w (.array refsNum a firstRef))
    (hlead : (ZBuffer.array refsNum a firstRef).Leads)
    (hroom : (ZBuffer.array refsNum a firstRef).HasRoom)
    (hnot : ¬ (refsNum < 2 ^ 31 ∧ Apart (a.list 0 refsNum))) :
    ¬ Doubles w (.array refsNum a firstRef) := by
  rintro ⟨r, w', hrun, _, hsize, added, hlist, _⟩
  obtain ⟨z', w₁, hloop, hpure⟩ := run_bind_some.mp hrun
  cases hpure
  by_cases hlt : refsNum < 2 ^ 31
  · have hturns : intTurns refsNum = refsNum := if_pos hlt
    obtain ⟨L, H, hholds⟩ := h.holds
    rw [hturns] at hloop
    have hcopied :=
        (copySelf_spec h.shape h.sized h.valid hholds (show 0 + refsNum ≤ refsNum by omega)
      hroom (show refsNum + refsNum < 2 ^ 32 by omega)).of_run hloop
    have hnum : (a.list 0 refsNum).length = refsNum := BlockRefArray.length_list
    have hjoin : z'.list = joinSelf (a.list 0 refsNum) 0 (a.list 0 refsNum).length := by
      rw [hnum]
      exact hcopied.list
    exact joinSelf_not_apart h.valid h.sound hlead (fun hapart => hnot ⟨hlt, hapart⟩)
        (hjoin.symm.trans hlist)
  · -- no turn: the size is what it was, and that is not 0
    have hturns : intTurns refsNum = 0 := if_neg hlt
    rw [hturns] at hloop
    cases hloop
    have hsize : a.nbytes = 2 * a.nbytes := hsize
    have hsized : a.nbytes = lengths (a.list 0 refsNum) := h.sized
    obtain ⟨m, rfl⟩ : ∃ m, refsNum = m + 1 := ⟨refsNum - 1, by omega⟩
    have hpos : 0 < (a.refAt 0).length := hlead _ rfl
    rw [BlockRefArray.list_succ, lengths_cons] at hsized
    omega

/-- **A buffer is doubled if and only if** it has two places for refs and no ref, or it is a ring of
fewer than 2 ^ 31 refs whose last does not end where its first begins. -/
theorem append_self_iff (h : WellFormed w z) (hlead : z.Leads) (hroom : z.HasRoom) :
    Doubles w z ↔ z.Doubling := by
  cases z with
  | two first second =>
      refine ⟨fun hdouble => ?_, two_doubles h⟩
      by_contra hne
      exact two_not_doubled h hne hdouble
  | array refsNum a firstRef =>
      refine ⟨fun hdouble => ?_, fun hd => array_doubles h hroom hd.1 hd.2⟩
      by_contra hnot
      exact array_not_doubled h hlead hroom hnot hdouble

end Doubles

/-- A ring of five refs. -/
theorem append_self_five : Doubles ringBytes (.array 5 wrapped ⟨16, 544, 1⟩) := by
  refine (append_self_iff wrapped_wellFormed (fun ref href => ?_)
    (show 5 + 5 ≤ 31 + 1 by decide)).mpr ⟨by decide, fun first hf last hl => ?_⟩
  · cases href
    exact Nat.two_pos
  · cases hf
    cases hl
    decide

/-- A buffer of one ref is not doubled. -/
theorem append_self_differs : ¬ ∀ (w : World) (z : ZBuffer), WellFormed w z → z.Leads → z.HasRoom →
    Doubles w z := by
  intro hall
  refine two_not_doubled two_wellFormed (by decide)
      (hall oneByte (.two oneRef .null) two_wellFormed ?_ trivial)
  intro ref href
  rw [ZBuffer.list_first (by decide) rfl] at href
  cases href
  exact Nat.one_pos

end PBase.Buffer
