/-
# `PBase.Buffer.Push` — the ring of refs as a queue

`array_append_ref` looks at the slot `refs_num - 1`, which is the last one in use, or, if none is,
the slot before `begin`.  What is found there in the second case depends on the calls before: a ring
starts with a ref in it, and whoever takes the last one leaves a null slot (`Popped.isSealed`).  So
in every run of `array_append_ref` and `array_popn` an empty ring is sealed (`run_inv`), and with
room for one more ref a call of `array_append_ref` is a push (`append_pushes`).

A ring of 2 ^ 32 slots has a `capacity()` of 0, and storage for none; `refs_num` would wrap in it.
-/
import PBase.Lib.System
import PBase.Buffer.Front
import PBase.Buffer.Append

namespace PBase.Buffer

open PBase.Lib

/-- `capacity()` -/
def BlockRefArray.capacity (a : BlockRefArray) : Nat := (a.capMask + 1) % 2 ^ 32

namespace Push

/-! ## Runs -/

inductive Call where
  | append (pass : Pass) (ref : BlockRef)
  | popn (count : Nat)

/-- A call that returns.  Between two calls anything may be done with the blocks. -/
inductive Step : ZBuffer → Call → ZBuffer → Prop
  | append {refsNum : Nat} {a : BlockRefArray} {firstRef ref : BlockRef} {pass : Pass} {z : ZBuffer}
      {w w' : World} : (arrayAppendRef pass refsNum a firstRef ref).run w = some (z, w') →
      Step (.array refsNum a firstRef) (.append pass ref) z
  | popn {refsNum count : Nat} {a : BlockRefArray} {firstRef : BlockRef} {z : ZBuffer}
      {out : List UInt8} {w w' : World} :
      (arrayPopn refsNum a firstRef count).run w = some ((out, z), w') →
      Step (.array refsNum a firstRef) (.popn count) z

/-- The ring, from a time on when it has a ref. -/
def arrays : System ZBuffer Call where
  init z := ∃ refsNum a firstRef, z = .array refsNum a firstRef ∧ a.Ring refsNum ∧ 0 < refsNum ∧
    refsNum < 2 ^ 32
  step := Step

/-- A ring that is not too large is sealed when it is empty. -/
structure Inv (refsNum : Nat) (a : BlockRefArray) (firstRef : BlockRef) : Prop where
  ring : a.Ring refsNum
  num : refsNum < 2 ^ 32
  isSealed : 0 < a.capacity → (ZBuffer.array refsNum a firstRef).Sealed

section Steps
variable {w w' : World} {refsNum i n count : Nat} {a : BlockRefArray} {firstRef ref : BlockRef}
  {pass : Pass} {z z' : ZBuffer} {c : Call}

theorem Inv.start (hring : a.Ring refsNum) (hpos : 0 < refsNum) (hnum : refsNum < 2 ^ 32) :
    Inv refsNum a firstRef :=
  ⟨hring, hnum, fun _ h0 => absurd h0 (Nat.pos_iff_ne_zero.mp hpos)⟩

/-- The slot before the first one gets longer, and stays null. -/
theorem Inv.merged {last : BlockRef} (h : Inv refsNum a firstRef)
    (hm : (a.refAt ((refsNum + (2 ^ 32 - 1)) % 2 ^ 32)).merge ref = some last) :
    Inv refsNum ((a.counted ref).setRefAt ((refsNum + (2 ^ 32 - 1)) % 2 ^ 32) last) firstRef := by
  refine ⟨⟨h.ring.pow, h.ring.fits⟩, h.num, fun hcap h0 => ?_⟩
  subst h0
  obtain ⟨_, _, rfl⟩ := merge_eq hm
  have hnull : (a.refAt (2 ^ 32 - 1)).block = 0 := h.isSealed hcap rfl
  have hlast : (0 + (2 ^ 32 - 1)) % 2 ^ 32 = 2 ^ 32 - 1 := by norm_num
  rw [hlast, BlockRefArray.refAt_setRefAt]
  exact hnull

/-- The next slot is used. -/
theorem Inv.stored (hring : a.Ring refsNum) (hroom : refsNum < a.capMask + 1) :
    Inv ((refsNum + 1) % 2 ^ 32) (a.setRefAt refsNum ref) firstRef := by
  have hmod : (refsNum + 1) % 2 ^ 32 ≤ refsNum + 1 := Nat.mod_le _ _
  refine ⟨⟨hring.pow, hmod.trans hroom⟩, Nat.mod_lt _ (by decide), fun hcap h0 => ?_⟩
  have hle : a.capMask + 1 ≤ 2 ^ 32 := Nat.le_of_dvd (by decide) hring.dvd
  have hcap : 0 < (a.capMask + 1) % 2 ^ 32 := hcap
  omega

/-- What `array_resize` makes of a full ring. -/
theorem arrayResize_run {r : BlockRefArray × BlockRef}
    (h : (arrayResize a firstRef).run w = some (r, w')) :
    ∃ memory, r.1 = a.grow memory ((a.capMask + 1) * 2 % 2 ^ 32) := by
  obtain ⟨_, w₁, _, h⟩ := run_bind_some.mp h
  obtain ⟨_, w₂, _, h⟩ := run_bind_some.mp h
  obtain ⟨memory, w₃, _, h⟩ := run_bind_some.mp h
  obtain ⟨_, w₄, _, hpure⟩ := run_bind_some.mp h
  cases hpure
  exact ⟨memory, rfl⟩

/-- `array_append_ref(ref)` -/
theorem Inv.append (h : Inv refsNum a firstRef)
    (hrun : (arrayAppendRef pass refsNum a firstRef ref).run w = some (z, w')) :
    ∃ n a' f, z = .array n a' f ∧ Inv n a' f := by
  cases hm : (a.refAt ((refsNum + (2 ^ 32 - 1)) % 2 ^ 32)).merge ref with
  | some last =>
      rw [arrayAppendRef_merged hm] at hrun
      obtain ⟨_, w₁, _, hpure⟩ := run_bind_some.mp hrun
      cases hpure
      exact ⟨_, _, _, rfl, h.merged hm⟩
  | none =>
      rw [arrayAppendRef_stored hm] at hrun
      obtain ⟨r, w₁, hgrow, hrun⟩ := run_bind_some.mp hrun
      obtain ⟨_, w₂, _, hpure⟩ := run_bind_some.mp hrun
      cases hpure
      refine ⟨_, _, _, rfl, ?_⟩
      have hring : (a.counted ref).Ring refsNum := ⟨h.ring.pow, h.ring.fits⟩
      have hfits := h.ring.fits
      have hnum := h.num
      split at hgrow
      · rename_i hfull
        obtain ⟨memory, hr⟩ := arrayResize_run hgrow
        have hcap : (a.counted ref).capMask + 1 ≤ 2 ^ 31 := cap_le_of_full hring hnum hfull
        rw [hr]
        refine .stored (BlockRefArray.grow_ring hring hcap) ?_
        rw [BlockRefArray.grow_cap hcap]
        show refsNum < (a.capMask + 1) * 2
        omega
      · rename_i hroom
        cases hgrow
        exact .stored hring (Nat.lt_succ_of_le (not_lt.mp hroom))

/-- The loop of `array_popn`, when it returns. -/
theorem arrayPopnFrom_run {r : List UInt8 × BlockRefArray × Nat} (hring : a.Ring (i + n))
    (h : (arrayPopnFrom a i count n).run w = some (r, w')) : Popped a i n count r.2.1 r.2.2 := by
  induction n generalizing a i count w r with
  | zero =>
      cases h
      exact .refl
  | succ n ih =>
      rw [arrayPopnFrom] at h
      split at h
      · rename_i hlt
        obtain ⟨bytes, w₁, _, hpure⟩ := run_bind_some.mp h
        cases hpure
        exact .partly hring hlt
      · rename_i hge
        obtain ⟨bytes, w₁, _, h⟩ := run_bind_some.mp h
        obtain ⟨_, w₂, _, h⟩ := run_bind_some.mp h
        obtain ⟨s, w₃, hloop, hpure⟩ := run_bind_some.mp h
        cases hpure
        have hring' : (a.setRefAt i .null).Ring (i + 1 + n) := by
          rw [Nat.add_right_comm, Nat.add_assoc]
          exact hring.set
        have hpopped := ih hring' hloop
        exact .next hring hge hpopped

/-- `array_popn(buf, count)` -/
theorem Inv.popn {out : List UInt8} (h : Inv refsNum a firstRef)
    (hrun : (arrayPopn refsNum a firstRef count).run w = some ((out, z), w')) :
    ∃ n a' f, z = .array n a' f ∧ Inv n a' f := by
  obtain ⟨⟨bytes, a', k⟩, w₁, hloop, hpure⟩ := run_bind_some.mp hrun
  cases hpure
  have hring₀ : a.Ring (0 + refsNum) := by
    rw [Nat.zero_add]
    exact h.ring
  have hpopped : Popped a 0 refsNum count a' k := arrayPopnFrom_run hring₀ hloop
  have hring' : a'.Ring refsNum := ⟨hpopped.capMask ▸ h.ring.pow, hpopped.capMask ▸ h.ring.fits⟩
  refine ⟨_, _, _, rfl, ⟨hring'.pow, (Nat.sub_le _ _).trans hring'.fits⟩,
      (Nat.sub_le _ _).trans_lt h.num,
    fun hcap => hpopped.isSealed hring' _ (h.isSealed ?_)⟩
  have hcap : 0 < a'.capacity := hcap
  rwa [BlockRefArray.capacity, hpopped.capMask] at hcap

/-- Every ring of a run is sealed when it is empty. -/
theorem run_inv {es : List Call} (h : arrays.Run es z) :
    ∃ refsNum a firstRef, z = .array refsNum a firstRef ∧ Inv refsNum a firstRef := by
  refine h.invariant (I := fun z => ∃ refsNum a firstRef, z = .array refsNum a firstRef ∧
    Inv refsNum a firstRef) (fun z hz => ?_) fun z c z' hz hs => ?_
  · obtain ⟨refsNum, a, firstRef, rfl, hring, hpos, hnum⟩ := hz
    exact ⟨refsNum, a, firstRef, rfl, .start hring hpos hnum⟩
  · obtain ⟨refsNum, a, firstRef, rfl, hinv⟩ := hz
    cases hs with
    | append hrun => exact hinv.append hrun
    | popn hrun => exact hinv.popn hrun

end Steps

/-! ## One call -/

/-- The ref ends where the other one begins, in the same block. -/
def Meets (last ref : BlockRef) : Prop :=
  last.block = ref.block ∧ last.offset + last.length = ref.offset

instance (last ref : BlockRef) : Decidable (Meets last ref) :=
  inferInstanceAs (Decidable (last.block = ref.block ∧ last.offset + last.length = ref.offset))

/-- A ref is pushed on a list: the last ref is extended by it, if they meet, or else it is put
at the end. -/
inductive Pushed (l : List BlockRef) (ref : BlockRef) : Bool → List BlockRef → Prop
  | merged {t : List BlockRef} {last : BlockRef} : l = t ++ [last] → Meets last ref →
      Pushed l ref true (t ++ [{ last with length := last.length + ref.length }])
  | stored : (∀ t last, l = t ++ [last] → ¬ Meets last ref) → Pushed l ref false (l ++ [ref])

/-- What becomes of `ref_num`: a copy is counted, unless it is merged, and a moved ref that is
merged is dropped. -/
def delta : Pass → Bool → Int
  | .copy, true => 0
  | .copy, false => 1
  | .move, true => -1
  | .move, false => 0

/-- The effect of `array_append_ref`, on the refs and on the blocks. -/
structure Pushes (w : World) (pass : Pass) (refsNum : Nat) (a : BlockRefArray) (ref : BlockRef)
    (merged : Bool) (n : Nat) (a' : BlockRefArray) (w' : World) : Prop where
  list : Pushed (a.list 0 refsNum) ref merged (a'.list 0 n)
  nbytes : a'.nbytes = a.nbytes + ref.length
  begin : a'.begin = a.begin
  capMask : a'.capMask = a.capMask
  /-- Only the slot of the last ref is written. -/
  slots : ∀ i, a'.refs i ≠ a.refs i → ∃ k, n = k + 1 ∧ i = a'.slot k
  counted : ∃ b, w.block ref.block = some b ∧
    w' = w.setBlock ref.block { b with refNum := b.refNum + delta pass merged }

section Call
variable {w w' : World} {L : List Nat} {H : Multiset Nat} {refsNum : Nat} {a : BlockRefArray}
  {firstRef ref : BlockRef} {pass : Pass} {b : Block}

/-- There is no block at `nullptr`. -/
theorem block_ne_zero {p : Nat} (h : Holds w L H) (hb : w.block p = some b) : p ≠ 0 := by
  obtain ⟨K, hrefs, _⟩ := h.refs
  exact Nat.pos_iff_ne_zero.mp (hrefs.fresh p (by rw [hb]; rfl)).1

theorem setBlock_same {p : Nat} (hb : w.block p = some b) :
    w.setBlock p { b with refNum := b.refNum + 0 } = w := by
  have hsame : Function.update w.block p (some b) = w.block := by
    rw [← hb, Function.update_eq_self]
  rw [add_zero, World.setBlock, hsame]

/-- What happens to the block when the ref is stored. -/
theorem stored_counts (hb : w.block ref.block = some b) : Returns (pass.stored ref) w fun _ w' =>
    w' = w.setBlock ref.block { b with refNum := b.refNum + delta pass false } := by
  cases pass with
  | copy => exact returns_incRef hb rfl
  | move => exact .pure (setBlock_same hb).symm

/-- And when it is merged: the buffer has another reference on the block. -/
theorem merged_counts (hb : w.block ref.block = some b)
    (h : Holds w L (ref.block ::ₘ (pass.given ref + H))) :
    Returns (pass.merged ref) w fun _ w' =>
      w' = w.setBlock ref.block { b with refNum := b.refNum + delta pass true } := by
  cases pass with
  | copy => exact .pure (setBlock_same hb).symm
  | move =>
      have hne := h.ne_zero (.inl (Multiset.mem_cons_self _ _))
      have hrelease : ref.release = decRef ref.block := if_neg hne
      obtain ⟨K, hrefs, _⟩ := h.refs
      have hcount := (hrefs.count _ b hb).1
      rw [Pass.given, Multiset.count_add, Multiset.count_cons_self, Multiset.singleton_add,
        Multiset.count_cons_self] at hcount
      show Returns ref.release w _
      rw [hrelease]
      exact decRef_shared hb (by omega) rfl

/-- `merge`, of refs so short that nothing wraps. -/
theorem merge_short {last : BlockRef} (hs : w.AllSound) (hv : Valid w last)
    (hlen : ref.length < 2 ^ 16) :
    last.merge ref =
      if Meets last ref then some { last with length := last.length + ref.length } else none := by
  have hlt := hv.length_lt hs
  have hend : (last.offset + last.length) % 2 ^ 32 = last.offset + last.length := by omega
  have hsum : (last.length + ref.length) % 2 ^ 32 = last.length + ref.length := by omega
  rw [BlockRef.merge, hend, hsum]
  rfl

/-- The refs a ring has are valid, and so few that `nbytes` does not wrap. -/
theorem nbytes_eq (h : WellFormed w (.array refsNum a firstRef)) (hlen : ref.length < 2 ^ 16) :
    (a.nbytes + ref.length) % 2 ^ 64 = a.nbytes + ref.length := by
  have hsized : a.nbytes = lengths (ZBuffer.array refsNum a firstRef).list := h.sized
  have hbound := h.valid.lengths_le h.sound
  have hnum : (ZBuffer.array refsNum a firstRef).list.length = refsNum := BlockRefArray.length_list
  have hlt := h.shape.2.1
  omega

/-- One slot is written. -/
theorem slot_of_ne {k i : Nat} (h : (a.setRefAt k ref).refs i ≠ a.refs i) : i = a.slot k := by
  by_contra hne
  exact h (Function.update_of_ne hne ..)

/-- The last ref is one of the ring's. -/
theorem last_valid (hz : WellFormed w (.array (refsNum + 1) a firstRef)) :
    Valid w (a.refAt ((refsNum + 1 + (2 ^ 32 - 1)) % 2 ^ 32)) := by
  refine hz.valid _ ?_
  show _ ∈ a.list 0 (refsNum + 1)
  rw [hz.shape.1.list_last]
  exact List.mem_append_right _ (List.mem_singleton_self _)

/-- The last ref is extended. -/
theorem merged_pushes (hz : WellFormed w (.array (refsNum + 1) a firstRef))
    (hb : w.block ref.block = some b) (hlen : ref.length < 2 ^ 16)
    (hheld : Holds w L ((ZBuffer.array (refsNum + 1) a firstRef).held + (pass.given ref + H)))
    (hmeet : Meets (a.refAt ((refsNum + 1 + (2 ^ 32 - 1)) % 2 ^ 32)) ref) :
    Returns (arrayAppendRef pass (refsNum + 1) a firstRef ref) w fun z' w' => ∃ merged n a',
      z' = .array n a' firstRef ∧ Pushes w pass (refsNum + 1) a ref merged n a' w' := by
  have hring := hz.shape.1
  have hring' : (a.counted ref).Ring (refsNum + 1) := ⟨hring.pow, hring.fits⟩
  have hlist := hring.list_last
  have hm := merge_short hz.sound (last_valid hz) hlen
  rw [if_pos hmeet] at hm
  -- the last ref holds the block too
  have hheld' : Holds w L (ref.block ::ₘ (pass.given ref +
      ({firstRef.block} + blocks (a.list 0 refsNum) + H))) := by
    have hsame : (ZBuffer.array (refsNum + 1) a firstRef).held + (pass.given ref + H)
        = ref.block ::ₘ (pass.given ref + ({firstRef.block} + blocks (a.list 0 refsNum) + H)) := by
      show {firstRef.block} + blocks (a.list 0 (refsNum + 1)) + (pass.given ref + H) = _
      rw [hlist, blocks_append, blocks_cons, blocks_nil, hmeet.1, ← Multiset.singleton_add,
        ← Multiset.singleton_add]
      abel
    rwa [hsame] at hheld
  rw [arrayAppendRef_merged hm]
  refine .bind ((merged_counts hb hheld').mono fun _ w' hw => .pure
    ⟨true, refsNum + 1, _, rfl, ?_, nbytes_eq hz hlen, rfl, rfl, fun i hi => ⟨refsNum, rfl, ?_⟩, b,
      hb, hw⟩)
  · exact hring'.list_set_last ▸ .merged hlist hmeet
  · have hslot := slot_of_ne (a := a.counted ref) hi
    exact hslot.trans (hring.slot_pred refsNum.succ_pos)

/-- The ref is put into the next slot. -/
theorem stored_pushes (hz : WellFormed w (.array refsNum a firstRef)) (hcap : 0 < a.capacity)
    (hroom : refsNum ≤ a.capMask) (hb : w.block ref.block = some b) (hlen : ref.length < 2 ^ 16)
    (hm : (a.refAt ((refsNum + (2 ^ 32 - 1)) % 2 ^ 32)).merge ref = none) :
    Returns (arrayAppendRef pass refsNum a firstRef ref) w fun z' w' => ∃ merged n a',
      z' = .array n a' firstRef ∧ Pushes w pass refsNum a ref merged n a' w' := by
  have hring := hz.shape.1
  have hring' : (a.counted ref).Ring refsNum := ⟨hring.pow, hring.fits⟩
  have hle : a.capMask + 1 ≤ 2 ^ 32 := Nat.le_of_dvd (by decide) hring.dvd
  have hmod : (refsNum + 1) % 2 ^ 32 = refsNum + 1 := by
    have hcap : 0 < (a.capMask + 1) % 2 ^ 32 := hcap
    omega
  have hfull : ¬ refsNum > a.capMask := not_lt.mpr hroom
  rw [arrayAppendRef_stored hm, if_neg hfull, pure_bind, hmod]
  refine .bind ((stored_counts hb).mono fun _ w' hw => .pure
    ⟨false, refsNum + 1, _, rfl, ?_, nbytes_eq hz hlen, rfl, rfl, fun i hi => ⟨refsNum, rfl, ?_⟩, b,
      hb, hw⟩)
  · have hpush : Pushed (a.list 0 refsNum) ref false (a.list 0 refsNum ++ [ref]) := by
      refine .stored fun t last heq hmeet => ?_
      -- a last ref that met this one would have been found and extended
      cases refsNum with
      | zero => simp at heq
      | succ n =>
          rw [hring.list_last] at heq
          obtain ⟨_, hlast⟩ := List.append_inj' heq rfl
          cases hlast
          have hmerged := merge_short hz.sound (last_valid hz) hlen
          rw [if_pos hmeet] at hmerged
          cases hm.symm.trans hmerged
    exact (hring'.list_set (Nat.lt_succ_of_le hroom)).symm ▸ hpush
  · exact slot_of_ne (a := a.counted ref) hi

/-- **With room for one more ref, `array_append_ref` is a push**, on every well-formed ring a run of
`array_append_ref` and `array_popn` has left: the ref is put at the end, or extends the last one,
and its block is counted once more, or not, or once less. -/
theorem append_pushes {es : List Call} (hrun : arrays.Run es (.array refsNum a firstRef))
    (hz : WellFormed w (.array refsNum a firstRef)) (hcap : 0 < a.capacity)
    (hroom : refsNum ≤ a.capMask)
    (hb : w.block ref.block = some b) (hin : ref.offset + ref.length ≤ b.capacity)
    (hheld : Holds w L ((ZBuffer.array refsNum a firstRef).held + (pass.given ref + H))) :
    Returns (arrayAppendRef pass refsNum a firstRef ref) w fun z' w' => ∃ merged n a',
      z' = .array n a' firstRef ∧ Pushes w pass refsNum a ref merged n a' w' := by
  have hlen : ref.length < 2 ^ 16 := by
    have := (hz.sound _ b hb).capacity
    omega
  obtain ⟨_, _, _, heq, hinv⟩ := run_inv hrun
  cases heq
  cases hm : (a.refAt ((refsNum + (2 ^ 32 - 1)) % 2 ^ 32)).merge ref with
  | none => exact stored_pushes hz hcap hroom hb hlen hm
  | some last =>
      cases refsNum with
      | zero =>
          -- the slot before the first one is null, and the ref has a block
          have hne : ref.block ≠ 0 := block_ne_zero hheld hb
          have hopen := (hinv.isSealed hcap).isOpen hne rfl
          cases hopen.symm.trans hm
      | succ n =>
          refine merged_pushes hz hb hlen hheld ?_
          by_contra hnot
          have hnone := merge_short hz.sound (last_valid hz) hlen
          rw [if_neg hnot] at hnone
          cases hnone.symm.trans hm

end Call

/-- The ring of one ref, after `array_popn` of its byte. -/
def drained : BlockRefArray := ⟨0, 1, 31, Function.update (fun _ => oneRef) 0 .null⟩

theorem drained_run : arrays.Run [.popn 1] (.array 0 drained oneRef) := by
  have hstart : arrays.Run [] (.array 1 oneRing oneRef) :=
    .start ⟨1, oneRing, oneRef, rfl, ring_wellFormed.shape.1, by decide, by decide⟩
  have hpopn : (arrayPopn 1 oneRing oneRef 1).run oneByte
      = some (([7], .array 0 drained oneRef), oneByte.setBlock 1 _) := rfl
  exact hstart.next (.popn hpopn)

/-- A ref is pushed on it. -/
theorem append_pushes_drained : Returns (arrayAppendRef .move 0 drained oneRef oneRef) oneByte
    fun z' w' => ∃ merged n a', z' = .array n a' oneRef ∧
      Pushes oneByte .move 0 drained oneRef merged n a' w' := by
  have hz : WellFormed oneByte (.array 0 drained oneRef) :=
    { shape := ⟨⟨⟨5, by decide, rfl⟩, by decide⟩, by
      decide, fun ref href => absurd href List.not_mem_nil⟩
      sized := rfl
      valid := fun ref href => absurd href List.not_mem_nil
      holds := ⟨[], {1, 1}, oneByte_holds⟩ }
  exact append_pushes (H := {1}) drained_run hz (by decide) (by decide) rfl (by decide)
    oneByte_holds

end Push

end PBase.Buffer
