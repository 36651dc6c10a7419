/-
# `PBase.Buffer.Pop` — taking bytes from the front

`popn`, `copy_front` and `map` on a buffer, in terms of its list of refs.  `array_popn` walks the
ring from its first slot; the slots it leaves behind are null (`Popped`), the last of them is the
slot before the first one afterwards.  What a request of 2 ^ 63 bytes or more does depends on the
form of the buffer (`Poppable`).
-/
import PBase.Buffer.Content

namespace PBase.Buffer

open PBase.Lib

section Lists
variable {w : World} {l : List BlockRef} {r : BlockRef} {count : Nat}

/-- The first bytes are those of a part of the first ref. -/
theorem take_content_part (hr : Valid w r) (hle : count ≤ r.length) :
    (content w (r :: l)).take count = (bytes w r).take count := by
  rw [content_cons, List.take_append_of_le_length ((length_bytes hr).symm ▸ hle)]

/-- The first bytes are those of the first ref, and some of the others. -/
theorem take_content_whole (hr : Valid w r) (hge : r.length ≤ count) :
    (content w (r :: l)).take count = bytes w r ++ (content w l).take (count - r.length) := by
  rw [content_cons, List.take_append, length_bytes hr,
    List.take_of_length_le (l := bytes w r) ((length_bytes hr).symm ▸ hge)]

theorem popRefs_subset {p : Nat} (h : p ∈ blocks (popRefs l count)) : p ∈ blocks l := by
  induction l generalizing count with
  | nil => exact h
  | cons r l ih =>
      rw [popRefs] at h
      split at h
      · exact h
      · exact Multiset.mem_cons_of_mem (ih h)

theorem content_popRefs (h : AllValid w l) (hs : w.AllSound) (count : Nat) :
    AllValid w (popRefs l count) ∧ content w (popRefs l count) = (content w l).drop count ∧
      lengths (popRefs l count) = lengths l - count := by
  induction l generalizing count with
  | nil => exact ⟨h, (List.drop_nil).symm, (Nat.zero_sub _).symm⟩
  | cons r l ih =>
      have hr := h r List.mem_cons_self
      have hl : AllValid w l := fun r hr => h r (List.mem_cons_of_mem _ hr)
      rw [popRefs]
      split
      · rename_i hlt
        obtain ⟨hvalid, hbytes, hlen⟩ := hr.drop hs (Nat.le_of_lt hlt)
        refine ⟨fun q hq => ?_, ?_, ?_⟩
        · rcases List.mem_cons.mp hq with rfl | hq
          · exact hvalid
          · exact hl q hq
        · rw [content_cons, content_cons, hbytes,
            List.drop_append_of_le_length ((length_bytes hr).symm ▸ Nat.le_of_lt hlt)]
        · rw [lengths_cons, lengths_cons, hlen]
          omega
      · rename_i hge
        obtain ⟨hvalid, hcontent, hlen⟩ := ih hl (count - r.length)
        refine ⟨hvalid, ?_, ?_⟩
        · rw [hcontent, content_cons, List.drop_append, length_bytes hr,
            List.drop_of_length_le (l := bytes w r) (by rw [length_bytes hr]; omega),
            List.nil_append]
        · rw [hlen, lengths_cons]
          omega

/-- The refs that are left are not empty. -/
theorem popRefs_pos (h : AllValid w l) (hs : w.AllSound) (hpos : ∀ ref ∈ l, 0 < ref.length)
    (count : Nat) :
    ∀ ref ∈ popRefs l count, 0 < ref.length := by
  induction l generalizing count with
  | nil => exact hpos
  | cons r l ih =>
      have hl := ih (fun r hr => h r (List.mem_cons_of_mem _ hr)) fun r hr =>
          hpos r (List.mem_cons_of_mem _ hr)
      intro ref href
      rw [popRefs] at href
      split at href
      · rename_i hlt
        rcases List.mem_cons.mp href with rfl | href
        · have hlen := ((h r List.mem_cons_self).drop hs (Nat.le_of_lt hlt)).2.2
          omega
        · exact hpos ref (List.mem_cons_of_mem _ href)
      · exact hl _ ref href

/-- All of a ref is read, and its reference is dropped. -/
theorem takeRef_spec {α : Type} {L : List Nat} {H : Multiset Nat} {ref : BlockRef}
    {f : List UInt8 → Program α} {Q : α → World → Prop} (h : Holds w L (ref.block ::ₘ H))
    (hne : ref.block ≠ 0) (hQ : ∀ w₁ L₁, Holds w₁ L₁ H → L ⊆ L₁ →
      (Evolves w L w₁ L₁ fun q => q ∈ H ∨ q ∈ L) → Returns (f (bytes w ref)) w₁ Q) :
    Returns (ref.read ref.length >>= fun r => ref.release >>= fun _ => f r) w Q := by
  obtain ⟨b, hb⟩ := h.exists_block (.inl (Multiset.mem_cons_self _ _))
  refine .bind ((read_spec hb).mono fun r w' hr => ?_)
  obtain ⟨rfl, -, hbytes⟩ := hr
  have hlength : (bytes w' ref).length ≤ ref.length := by rw [bytes_eq hb, length_readBytes]
  rw [hbytes le_rfl, List.take_of_length_le hlength]
  have hrelease : ref.release = decRef ref.block := if_neg hne
  rw [hrelease]
  refine .bind (h.decRef.mono fun _ w₁ hw => ?_)
  obtain ⟨L₁, h₁, hsub, hev⟩ := hw
  exact hQ w₁ L₁ h₁ hsub hev

end Lists

/-! ## Rings -/

/-- `array_popn` has gone from the index `i` to the index `i'`. -/
structure Popped (a : BlockRefArray) (i n count : Nat) (a' : BlockRefArray) (i' : Nat) : Prop where
  le : i ≤ i' ∧ i' ≤ i + n
  capMask : a'.capMask = a.capMask
  begin : a'.begin = a.begin
  nbytes : a'.nbytes = a.nbytes
  rest : a'.list i' (i + n - i') = popRefs (a.list i n) count
  null : ∀ k, i ≤ k → k < i' → a'.refAt k = .null
  before : ∀ k < i, a'.refAt k = a.refAt k
  none : n = 0 → a' = a

section Rings
variable {w : World} {L : List Nat} {H : Multiset Nat} {a a' : BlockRefArray} {i i' n count : Nat}

theorem Popped.refl : Popped a i 0 count a i :=
  ⟨⟨Nat.le_refl _, Nat.le_refl _⟩, rfl, rfl, rfl, by simp [popRefs],
    fun _ hk hk' => absurd hk (not_le.mpr hk'), fun _ _ => rfl, fun _ => rfl⟩

theorem Popped.partly (hring : a.Ring (i + (n + 1))) (hlt : (a.refAt i).length > count) :
    Popped a i (n + 1) count (a.setRefAt i ((a.refAt i).drop count)) i := by
  have hfits := hring.fits
  refine ⟨⟨Nat.le_refl _, Nat.le_add_right _ _⟩, rfl, rfl, rfl, ?_, fun k hk hk' => ?_,
    fun k hk => ?_, (fun h0 => nomatch h0)⟩
  · rw [Nat.add_sub_cancel_left, BlockRefArray.list_succ, BlockRefArray.list_succ, popRefs,
      if_pos hlt, hring.list_set_before, hring.refAt_set (by omega) (by omega), if_pos rfl]
  · omega
  · rw [hring.refAt_set (by omega) (by omega), if_neg (by omega)]

theorem Popped.next (hring : a.Ring (i + (n + 1))) (hge : ¬ (a.refAt i).length > count)
    (h : Popped (a.setRefAt i .null) (i + 1) n (count - (a.refAt i).length) a' i') :
    Popped a i (n + 1) count a' i' := by
  have hfits := hring.fits
  have hle := h.le
  refine ⟨by omega, h.capMask, h.begin, h.nbytes, ?_, fun k hk hk' => ?_, fun k hk => ?_,
    (fun h0 => nomatch h0)⟩
  · have hlist : (a.setRefAt i .null).list (i + 1) n = _ := hring.list_set_before
    rw [BlockRefArray.list_succ, popRefs, if_neg hge, ← hlist, ← h.rest]
    congr 1
    omega
  · rcases Nat.eq_or_lt_of_le hk with rfl | hk
    · rw [h.before _ (Nat.lt_succ_self _), hring.refAt_set (by omega) (by omega), if_pos rfl]
    · exact h.null k hk hk'
  · rw [h.before k (by omega), hring.refAt_set (by omega) (by omega), if_neg (by omega)]

/-- A ring that is popped to its end leaves null slots behind; so it is sealed, if it was. -/
theorem Popped.isSealed {firstRef : BlockRef} (h : Popped a 0 n count a' i') (hring : a'.Ring n)
    (nbytes : Nat) (hsealed : (ZBuffer.array n a firstRef).Sealed) :
    (ZBuffer.array (n - i') { a' with nbytes := nbytes, begin := (a'.begin + i') % 2 ^ 32 }
      firstRef).Sealed := by
  intro h0
  have hend : n - i' = 0 := h0
  have hle := h.le
  rw [BlockRefArray.refAt_advance hring]
  rcases Nat.eq_zero_or_pos n with hzero | hpos
  · have hi : i' = 0 := by omega
    rw [h.none hzero, hi, Nat.zero_add]
    exact hsealed hzero
  · -- the slot before the first is the one of the last ref that went
    have hi : i' = n := by omega
    have hslot : a'.refAt (i' + (2 ^ 32 - 1)) = a'.refAt (i' - 1) := by
      have hcongr : i' + (2 ^ 32 - 1) ≡ i' - 1 [MOD 2 ^ 32] := by
        show (i' + (2 ^ 32 - 1)) % 2 ^ 32 = (i' - 1) % 2 ^ 32
        omega
      rw [BlockRefArray.refAt, BlockRefArray.refAt, hring.slot_congr hcongr]
    rw [hslot, h.null (i' - 1) (Nat.zero_le _) (by omega)]
    rfl

/-- The loop of `array_popn`. -/
theorem arrayPopnFrom_spec (hring : a.Ring (i + n)) (hne : ∀ ref ∈ a.list i n, ref.block ≠ 0)
    (h : Holds w L (blocks (a.list i n) + H)) :
    Returns (arrayPopnFrom a i count n) w fun r w' => ∃ L',
      Holds w' L' (blocks (popRefs (a.list i n) count) + H) ∧ L ⊆ L' ∧
      (Evolves w L w' L' fun q => q ∈ blocks (popRefs (a.list i n) count) + H) ∧
      Popped a i n count r.2.1 r.2.2 ∧
      (AllValid w (a.list i n) → r.1 = (content w (a.list i n)).take count) := by
  induction n generalizing a i count w L with
  | zero =>
      refine .pure ⟨L, h, List.Subset.refl _, .refl w L _, .refl,
        fun _ => List.take_nil.symm⟩
  | succ n ih =>
      have hfirst : (a.refAt i).block ∈ blocks (a.list i (n + 1)) + H :=
        Multiset.mem_add.mpr (.inl (mem_blocks (l := a.list i (n + 1)) List.mem_cons_self))
      obtain ⟨b, hb⟩ := h.exists_block (.inl hfirst)
      refine .ite (fun hlt => ?_) fun hge => ?_
      · refine .bind ((read_spec hb).mono fun r w' hr => .pure ?_)
        obtain ⟨rfl, _, hbytes⟩ := hr
        have hpop : popRefs (a.list i (n + 1)) count
            = (a.refAt i).drop count :: a.list (i + 1) n := by
          rw [BlockRefArray.list_succ, popRefs, if_pos hlt]
        refine ⟨L, ?_, List.Subset.refl _, .refl _ L _, .partly hring hlt, fun hvalid => ?_⟩
        · rw [hpop]
          exact h
        · rw [hbytes (Nat.le_of_lt hlt), BlockRefArray.list_succ,
            take_content_part (hvalid _ List.mem_cons_self) (Nat.le_of_lt hlt)]
      · rw [BlockRefArray.list_succ, blocks_cons, Multiset.cons_add] at h
        refine takeRef_spec h (hne _ List.mem_cons_self) fun w₁ L₁ h₁ hsub₁ hev₁ => ?_
        have hring' : (a.setRefAt i .null).Ring (i + 1 + n) := by
          rw [Nat.add_right_comm, Nat.add_assoc]
          exact hring.set
        have hlist : (a.setRefAt i .null).list (i + 1) n = _ := hring.list_set_before
        rw [← hlist] at h₁
        have hne' : ∀ ref ∈ (a.setRefAt i .null).list (i + 1) n, ref.block ≠ 0 := by
          rw [hlist]
          exact fun ref href => hne ref (List.mem_cons_of_mem _ href)
        have hloop := @ih w₁ L₁ (a.setRefAt i .null) (i + 1)
            (count - (a.refAt i).length) hring' hne' h₁
        refine .bind (hloop.mono fun s w₂ hs => .pure ?_)
        obtain ⟨L₂, h₂, hsub₂, hev₂, hpopped, hrest⟩ := hs
        have hpop : popRefs (a.list i (n + 1)) count
            = popRefs ((a.setRefAt i .null).list (i + 1) n) (count - (a.refAt i).length) := by
          rw [BlockRefArray.list_succ, popRefs, if_neg hge, hlist]
        have hkeep : ∀ q, q ∈ blocks (popRefs ((a.setRefAt i .null).list (i + 1) n)
            (count - (a.refAt i).length)) + H → q ∈ blocks (a.list (i + 1) n) + H := fun q hq =>
          Multiset.mem_add.mpr
          ((Multiset.mem_add.mp hq).imp_left fun hq => hlist ▸ popRefs_subset hq)
        rw [hpop]
        refine ⟨L₂, h₂, List.Subset.trans hsub₁ hsub₂,
            hev₁.trans hev₂ fun q hq => ⟨.inl (hkeep q hq), hq⟩,
          .next hring hge hpopped, fun hvalid => ?_⟩
        have hl : AllValid _ (a.list (i + 1) n) := fun r hr => hvalid r (List.mem_cons_of_mem _ hr)
        obtain ⟨hl', hsame⟩ := content_evolves hl h.sound hev₁ fun p hp =>
          .inl (Multiset.mem_add.mpr (.inl hp))
        show bytes w (a.refAt i) ++ s.1 = _
        rw [hrest (hlist ▸ hl'), hlist, hsame, BlockRefArray.list_succ,
          take_content_whole (hvalid _ List.mem_cons_self) (Nat.not_lt.mp hge)]

end Rings

/-! ## Two refs -/

/-- The two forms agree on the request. -/
def ZBuffer.Poppable (z : ZBuffer) (count : Nat) : Prop :=
  match z with
  | .two first _ => count < 2 ^ 63 ∨ first.block = 0
  | .array _ _ _ => True

theorem int64_of_lt {n : Nat} (h : n < 2 ^ 63) : int64 n = n := if_pos h

section Calls
variable {w : World} {L : List Nat} {H : Multiset Nat} {first second : BlockRef} {count : Nat}

/-- What `popn` leaves: the references of the refs that are left, and, if the refs are valid and
the request is one the forms agree on, the rest of the list. -/
structure PopnResult (w : World) (L : List Nat) (H : Multiset Nat) (z : ZBuffer) (count : Nat)
    (out : List UInt8) (z' : ZBuffer) (w' : World) (L' : List Nat) : Prop where
  holds : Holds w' L' (z'.held + H)
  shape : z'.Shape
  grows : L ⊆ L'
  evolves : Evolves w L w' L' fun q => q ∈ z'.held + H
  rest : AllValid w z.list → z.Sized → z.Poppable count →
    z'.list = popRefs z.list count ∧ out = (content w z.list).take count ∧ z'.Sized
  sealed : z.Sealed → z'.Sealed
  wide : z.Wide → z'.Wide
  slim : z.Slim → z'.Slim

/-- `simple_popn(buf, count)` -/
theorem simplePopn_spec (hz : (ZBuffer.two first second).Shape)
    (h : Holds w L ((ZBuffer.two first second).held + H)) :
    Returns (simplePopn first second count) w fun r w' => ∃ L',
      PopnResult w L H (.two first second) count r.1 r.2 w' L' := by
  obtain ⟨hfirst, hsecond⟩ := hz
  refine .ite (fun h0 => .pure ⟨L, h, ⟨hfirst, hsecond⟩, List.Subset.refl _, .refl w L _,
    fun _ hsized _ => ?_, fun hs => hs, fun _ => trivial, fun _ => trivial⟩) fun hpos => ?_
  · have hnull := hsized h0
    rw [ZBuffer.list_none hnull (hfirst hnull).2]
    exact ⟨rfl, List.take_nil.symm, hsized⟩
  have hne : first.block ≠ 0 := fun h0 => hpos (hfirst h0).1
  have hlist := ZBuffer.list_cons first second hne
  rw [ZBuffer.held_two, hlist, blocks_cons] at h
  obtain ⟨b, hb⟩ := h.exists_block (.inl (Multiset.mem_add.mpr (.inl (Multiset.mem_cons_self _ _))))
  have hsmall : (ZBuffer.two first second).Poppable count → count < 2 ^ 63 := fun hp =>
    hp.resolve_right hne
  refine .ite (fun hlt => ?_) fun hge => ?_
  · -- a part of the first ref
    refine .bind ((read_spec hb).mono fun r w' hr => .pure ?_)
    obtain ⟨rfl, _, hbytes⟩ := hr
    have hlist' := ZBuffer.list_cons (first.drop count) second hne
    refine ⟨L, ?_, ⟨fun h0 => absurd h0 hne, hsecond⟩, List.Subset.refl _, .refl _ L _,
      fun hvalid _ hp => ?_, fun hs => hs, fun _ => trivial, fun _ => trivial⟩
    · rw [ZBuffer.held_two, hlist']
      exact h
    · rw [int64_of_lt (hsmall hp)] at hlt
      have hlt : first.length > count := by omega
      rw [hlist] at hvalid
      have hv := hvalid first List.mem_cons_self
      refine ⟨?_, ?_, fun h0 => ?_⟩
      · rw [hlist', hlist, popRefs, if_pos hlt]
      · rw [hbytes (Nat.le_of_lt hlt), hlist, take_content_part hv (Nat.le_of_lt hlt)]
      · have hlen := (hv.drop h.sound (Nat.le_of_lt hlt)).2.2
        omega
  · rw [Multiset.cons_add] at h
    refine takeRef_spec h hne fun w₁ L₁ h₁ hsub₁ hev₁ => ?_
    have hnull : (ZBuffer.two .null .null).Shape := ⟨fun _ => ⟨rfl, rfl⟩, fun _ => rfl⟩
    have hlength : count < 2 ^ 63 → ¬ first.length > count ∧ count - first.length < 2 ^ 63 :=
        fun hc =>
      ⟨fun hlt => hge (by rw [int64_of_lt hc]; omega), by omega⟩
    refine .ite (fun h0 => .pure ?_) fun hne' => ?_
    · -- the first ref was the only one
      have hrest : [second].filter (·.block ≠ 0) = [] := by simp [h0]
      have hempty : (ZBuffer.two .null second).list = [] := ZBuffer.list_none rfl h0
      rw [hrest, blocks_nil] at h₁ hev₁
      refine ⟨L₁, ?_, ⟨fun _ => ⟨rfl, h0⟩, hsecond⟩, hsub₁, hev₁.mono fun q hq => .inl ?_,
        fun hvalid _ hp => ?_, fun hs => hs, fun _ => trivial, fun _ => trivial⟩
      · rwa [ZBuffer.held_two, hempty]
      · rwa [ZBuffer.held_two, hempty] at hq
      · rw [hlist, hrest] at hvalid ⊢
        obtain ⟨hge, _⟩ := hlength (hsmall hp)
        refine ⟨?_, ?_, fun _ => rfl⟩
        · rw [hempty, popRefs, if_neg hge, popRefs]
        · rw [take_content_whole (hvalid first List.mem_cons_self) (Nat.not_lt.mp hge), content_nil,
            List.take_nil,
            List.append_nil]
    · have hrest : [second].filter (·.block ≠ 0) = [second] := by simp [hne']
      rw [hrest] at h₁ hev₁ hlist
      obtain ⟨c, hc⟩ := h₁.exists_block
        (.inl (Multiset.mem_add.mpr (.inl (Multiset.mem_cons_self second.block 0))))
      have hkept : ∀ {l : List BlockRef}, AllValid _ (first :: l) → l = [second] →
          AllValid w₁ [second] ∧ content w₁ [second] = content _ [second] := fun hvalid hl =>
        content_evolves (fun r hr => hvalid r (List.mem_cons_of_mem _ (hl ▸ hr))) h.sound hev₁
          fun p hp => .inl (Multiset.mem_add.mpr (.inl hp))
      refine .ite (fun hall => ?_) fun hpart => ?_
      · -- and the second ref too
        rw [blocks_cons, blocks_nil, Multiset.cons_add] at h₁
        refine takeRef_spec h₁ hne' fun w₃ L₂ h₂ hsub₂ hev₂ => .pure ?_
        refine ⟨L₂, h₂, hnull, List.Subset.trans hsub₁ hsub₂,
            hev₁.trans hev₂ fun q hq => ⟨.inl ?_, .inl hq⟩,
          fun hvalid _ hp => ?_, fun hs => hs, fun _ => trivial, fun _ => trivial⟩
        · rw [blocks_cons, Multiset.cons_add]
          exact Multiset.mem_cons_of_mem hq
        · rw [hlist] at hvalid ⊢
          obtain ⟨hge, hcount⟩ := hlength (hsmall hp)
          rw [int64_of_lt hcount] at hall
          have hall : ¬ second.length > count - first.length := by omega
          obtain ⟨hv₁, hsame⟩ := hkept hvalid rfl
          refine ⟨?_, ?_, fun _ => rfl⟩
          · rw [popRefs, if_neg hge, popRefs, if_neg hall, popRefs]
            rfl
          · rw [take_content_whole (hvalid first List.mem_cons_self) (Nat.not_lt.mp hge), ← hsame,
              take_content_whole (hv₁ second List.mem_cons_self) (Nat.not_lt.mp hall), content_nil,
              List.take_nil,
              List.append_nil]
      · -- and a part of the second
        refine .bind ((read_spec hc).mono fun s w₂ hs => .pure ?_)
        obtain ⟨rfl, _, hbytes₂⟩ := hs
        have hlist' : (ZBuffer.two (second.drop (count - first.length)) .null).list
            = [second.drop (count - first.length)] := ZBuffer.list_first hne' rfl
        refine ⟨L₁, ?_, ⟨fun h0 => absurd h0 hne', fun _ => rfl⟩, hsub₁,
            hev₁.mono fun q hq => .inl ?_,
          fun hvalid _ hp => ?_, fun hs => hs, fun _ => trivial, fun _ => trivial⟩
        · rw [ZBuffer.held_two, hlist']
          exact h₁
        · rw [ZBuffer.held_two, hlist'] at hq
          exact hq
        · rw [hlist] at hvalid ⊢
          obtain ⟨hge, hcount⟩ := hlength (hsmall hp)
          rw [int64_of_lt hcount] at hpart
          have hpart : second.length > count - first.length := by omega
          obtain ⟨hv₁, hsame⟩ := hkept hvalid rfl
          have hv₂ := hv₁ second List.mem_cons_self
          refine ⟨?_, ?_, fun h0 => ?_⟩
          · rw [hlist', popRefs, if_neg hge, popRefs, if_pos hpart]
          · show bytes w first ++ s = _
            rw [hbytes₂ (Nat.le_of_lt hpart),
                take_content_whole (hvalid first List.mem_cons_self) (Nat.not_lt.mp hge),
              ← hsame, take_content_part hv₂ (Nat.le_of_lt hpart)]
          · have hlen := (hv₂.drop h₁.sound (Nat.le_of_lt hpart)).2.2
            omega

/-- `popn(buf, count)` -/
theorem popn_spec {z : ZBuffer} (hz : z.Shape) (h : Holds w L (z.held + H)) :
    Returns (z.popn count) w fun r w' => ∃ L', PopnResult w L H z count r.1 r.2 w' L' := by
  cases z with
  | two first second => exact simplePopn_spec hz h
  | array refsNum a firstRef =>
      obtain ⟨hring, hnum, hne⟩ := hz
      have hring₀ : a.Ring (0 + refsNum) := by rwa [Nat.zero_add]
      have h₀ : Holds w L (blocks (a.list 0 refsNum) + ({firstRef.block} + H)) := by
        rw [← add_assoc, add_comm (blocks _)]
        exact h
      have hloop : Returns (arrayPopnFrom a 0 count refsNum) w _ := arrayPopnFrom_spec hring₀ hne h₀
      refine .bind (hloop.mono fun r w' hr => .pure ?_)
      obtain ⟨out, a', i⟩ := r
      obtain ⟨L', h', hsub, hev, hpopped, hout⟩ := hr
      replace hpopped : Popped a 0 refsNum count a' i := hpopped
      replace hout : AllValid w (a.list 0 refsNum) → out = _ := hout
      have hle := hpopped.le
      have hring' : a'.Ring refsNum := ⟨hpopped.capMask ▸ hring.pow, hpopped.capMask ▸ hring.fits⟩
      have hrest := hpopped.rest
      rw [Nat.zero_add] at hrest
      have hlist := (BlockRefArray.list_advance (k := i) (hring'.mono (Nat.sub_le refsNum i))
        ((a'.nbytes + (2 ^ 64 - out.length)) % 2 ^ 64)).trans hrest
      have hheld : ∀ M : Multiset Nat, ({firstRef.block} + M) + H = M + ({firstRef.block} + H) :=
        fun M => by rw [← add_assoc, add_comm M]
      have hsame : (ZBuffer.array (refsNum - i)
          { a' with
            nbytes := (a'.nbytes + (2 ^ 64 - out.length)) % 2 ^ 64
            begin := (a'.begin + i) % 2 ^ 32 } firstRef).held + H
          = blocks (popRefs (a.list 0 refsNum) count) + ({firstRef.block} + H) := by
        rw [← hheld, ← hlist]
        rfl
      refine ⟨L', ?_, ⟨⟨hring'.pow, ?_⟩, ?_, fun ref href => ?_⟩, hsub, ?_,
        fun hvalid hsized _ => ⟨hlist, hout hvalid, ?_⟩, fun hsealed h0 => ?_, fun hwide =>
        ?_, fun hslim => ?_⟩
      · rw [hsame]
        exact h'
      · exact (Nat.sub_le _ _).trans hring'.fits
      · exact (Nat.sub_le _ _).trans_lt hnum
      · rw [hlist] at href
        obtain ⟨r, hr, heq⟩ := List.mem_map.mp (popRefs_subset (mem_blocks href))
        exact heq ▸ hne r hr
      · rw [hsame]
        exact hev
      · -- the counter is lowered by what was copied
        obtain ⟨hvalid', hcontent, hlengths⟩ := content_popRefs hvalid h.sound count
        have hbytes : a.nbytes = lengths (a.list 0 refsNum) := hsized
        have hbound : lengths (a.list 0 refsNum) ≤ (a.list 0 refsNum).length * 2 ^ 16 :=
          hvalid.lengths_le h.sound
        have hle := hring.le
        have hout := congrArg List.length (hout hvalid)
        have hlen : (content w (a.list 0 refsNum)).length = _ := length_content hvalid
        rw [List.length_take, hlen] at hout
        show (a'.nbytes + (2 ^ 64 - out.length)) % 2 ^ 64 = lengths _
        rw [BlockRefArray.length_list] at hbound
        have hlengths : lengths (popRefs (a.list 0 refsNum) count) = _ := hlengths
        rw [hlist, hlengths, hpopped.nbytes, hbytes]
        show _ = lengths (a.list 0 refsNum) - count
        omega
      · exact hpopped.isSealed hring' _ hsealed h0
      · show 32 ∣ a'.capMask + 1
        rw [hpopped.capMask]
        exact hwide
      · show a'.capMask + 1 < 2 ^ 28
        rw [hpopped.capMask]
        exact hslim

/-! ## Reading -/

/-- The loop of `copy_front`. -/
theorem copyFrontFrom_spec {a : BlockRefArray} {i n : Nat} (hvalid : AllValid w (a.list i n)) :
    Returns (copyFrontFrom a i count n) w fun r w' =>
      w' = w ∧ r = (content w (a.list i n)).take count := by
  induction n generalizing i count with
  | zero => exact .pure ⟨rfl, List.take_nil.symm⟩
  | succ n ih =>
      obtain ⟨b, hb, _⟩ := hvalid _ List.mem_cons_self
      have hv := hvalid _ List.mem_cons_self
      have hlen := length_bytes hv
      rw [BlockRefArray.list_succ]
      refine .ite (fun hge => ?_) fun hlt => ?_
      · refine (read_spec hb).mono fun r w' hr => ⟨hr.1, ?_⟩
        rw [hr.2.2 hge, take_content_part hv hge]
      · refine .bind ((read_spec hb).mono fun r w' hr => ?_)
        obtain ⟨rfl, _, hbytes⟩ := hr
        have hrest := @ih (count - (a.refAt i).length) (i + 1) fun r hr =>
          hvalid r (List.mem_cons_of_mem _ hr)
        refine .bind (hrest.mono fun s w₂ hs => .pure ⟨hs.1, ?_⟩)
        rw [hs.2, hbytes (Nat.le_refl _), List.take_of_length_le hlen.le,
            take_content_whole hv (by omega)]

/-- `copy_front(buf, count)` -/
theorem copyFront_spec {z : ZBuffer} (hz : z.Shape) (hvalid : AllValid w z.list) :
    Returns (z.copyFront count) w fun r w' => w' = w ∧ r = (content w z.list).take count := by
  cases z with
  | array refsNum a firstRef => exact copyFrontFrom_spec hvalid
  | two first second =>
      obtain ⟨hfirst, hsecond⟩ := hz
      obtain ⟨hv₁, hv₂⟩ := hvalid.of_two
      have hnull : first.block = 0 → first.length = 0 := fun h0 => (hfirst h0).1
      have hlen : (content w ([first].filter (·.block ≠ 0))).length = first.length := by
        rcases eq_or_ne first.block 0 with h0 | hne
        · simp [h0, hnull h0]
        · simp [hne, length_bytes (hv₁ hne)]
      have hlen₂ : (content w ([second].filter (·.block ≠ 0))).length = second.length := by
        rcases eq_or_ne second.block 0 with h0 | hne
        · simp [h0, hsecond h0]
        · simp [hne, length_bytes (hv₂ hne)]
      rw [ZBuffer.list_two, content_append]
      refine .ite (fun hge => ?_) fun hlt => ?_
      · refine (read_part_spec hnull hv₁ hge).mono fun r w' hr => ⟨hr.1, ?_⟩
        rw [hr.2, List.take_append_of_le_length (hlen.symm ▸ hge)]
      · refine .bind ((read_part_spec hnull hv₁ (Nat.le_refl _)).mono fun r w' hr => ?_)
        obtain ⟨rfl, hr⟩ := hr
        have hle : (if second.length ≥ count - first.length then count - first.length
            else second.length) ≤ second.length := by
          split
          · assumption
          · exact Nat.le_refl _
        refine .bind ((read_part_spec hsecond hv₂ hle).mono fun s w₂ hs => .pure ⟨hs.1, ?_⟩)
        rw [hr, hs.2, List.take_append, hlen, List.take_of_length_le hlen.le,
          List.take_of_length_le (i := count) (by omega)]
        congr 1
        split
        · rfl
        · rw [List.take_of_length_le hlen₂.le, List.take_of_length_le (by omega)]

/-- The loop of `map`. -/
theorem mapFrom_spec {a : BlockRefArray} {i n : Nat} (hvalid : AllValid w (a.list i n)) :
    Returns (mapFrom a i n) w fun r w' => w' = w ∧ r.flatten = content w (a.list i n) := by
  induction n generalizing i with
  | zero => exact .pure ⟨rfl, rfl⟩
  | succ n ih =>
      obtain ⟨b, hb, _⟩ := hvalid _ List.mem_cons_self
      have hlen := length_bytes (hvalid _ List.mem_cons_self)
      refine .bind ((read_spec hb).mono fun r w' hr => ?_)
      obtain ⟨rfl, _, hbytes⟩ := hr
      have hrest := ih (i := i + 1) fun r hr => hvalid r (List.mem_cons_of_mem _ hr)
      refine .bind (hrest.mono fun s w₂ hs => .pure ⟨hs.1, ?_⟩)
      rw [List.flatten_cons, hs.2, hbytes (Nat.le_refl _), List.take_of_length_le hlen.le]
      rfl

theorem mapIfAny_spec {ref : BlockRef} (hvalid : ref.block ≠ 0 → Valid w ref) :
    Returns (ZBuffer.mapIfAny ref) w fun r w' =>
      w' = w ∧ r.flatten = content w ([ref].filter (·.block ≠ 0)) := by
  refine .ite (fun h0 => .pure ⟨rfl, by simp [h0]⟩) fun hne => ?_
  obtain ⟨b, hb, _⟩ := hvalid hne
  refine .bind ((read_spec hb).mono fun r w' hr => .pure ⟨hr.1, ?_⟩)
  rw [hr.2.2 (Nat.le_refl _), List.take_of_length_le (length_bytes (hvalid hne)).le]
  simp [hne]

/-- `map(f, arg)`: one after the other, the calls are passed the content. -/
theorem map_spec {z : ZBuffer} (hvalid : AllValid w z.list) (hlt : z.list.length < 2 ^ 31) :
    Returns z.map w fun r w' => w' = w ∧ r.flatten = content w z.list := by
  cases z with
  | array refsNum a firstRef =>
      have hturns : intTurns refsNum = refsNum := if_pos (by simpa [ZBuffer.list] using hlt)
      show Returns (mapFrom a 0 (intTurns refsNum)) w _
      rw [hturns]
      exact mapFrom_spec hvalid
  | two first second =>
      obtain ⟨hv₁, hv₂⟩ := hvalid.of_two
      refine .bind ((mapIfAny_spec hv₁).mono fun r w' hr => ?_)
      obtain ⟨rfl, hr⟩ := hr
      refine .bind ((mapIfAny_spec hv₂).mono fun s w₂ hs => .pure ⟨hs.1, ?_⟩)
      rw [List.flatten_append, hr, hs.2, ZBuffer.list_two, content_append]

end Calls

end PBase.Buffer
