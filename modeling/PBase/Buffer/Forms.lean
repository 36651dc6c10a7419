/-
# `PBase.Buffer.Forms` — the two forms of a buffer

A buffer holds its bytes in two refs or in a ring, and its users see the same: `popn` and
`copy_front` return the same prefix and leave the same rest (`Serves`).  The ring does so for
every request (`array_serves`); the two refs for requests below 2 ^ 63, and for larger ones only
if there is nothing to take (`two_serves_iff`).
-/
import PBase.Buffer.Pop

namespace PBase.Buffer

open PBase.Lib

/-- A buffer as its user has it: its refs cover written bytes, and every one is counted. -/
structure WellFormed (w : World) (z : ZBuffer) : Prop where
  shape : z.Shape
  sized : z.Sized
  valid : AllValid w z.list
  holds : ∃ L H, Holds w L (z.held + H)

/-- From a buffer that holds `bs`, `popn` and `copy_front` of `count` bytes return as many bytes
as there are, these bytes are the first of `bs`, and the rest stays. -/
def Serves (w : World) (z : ZBuffer) (bs : List UInt8) (count : Nat) : Prop :=
  (Returns (z.popn count) w fun r w' => r.1.length = min count z.size ∧ r.1 = bs.take count ∧
    content w' r.2.list = bs.drop count ∧ WellFormed w' r.2) ∧
  Returns (z.copyFront count) w fun r w' => r.length = min count z.size ∧ r = bs.take count ∧ w' = w

section
variable {w : World} {z : ZBuffer} {first second : BlockRef} {bs : List UInt8} {count : Nat}

theorem WellFormed.sound (h : WellFormed w z) : w.AllSound := by
  obtain ⟨L, H, hholds⟩ := h.holds
  exact hholds.sound

theorem length_two (hnull : (ZBuffer.two first second).Shape) :
    lengths (ZBuffer.two first second).list = first.length + second.length := by
  obtain ⟨hfirst, hsecond⟩ := hnull
  have hone : ∀ ref : BlockRef, (ref.block = 0 → ref.length = 0) →
      lengths ([ref].filter (·.block ≠ 0)) = ref.length := by
    intro ref href
    rcases eq_or_ne ref.block 0 with h0 | hne
    · simp [h0, href h0]
    · simp [hne]
  rw [ZBuffer.list_two, lengths_append, hone first fun h0 => (hfirst h0).1, hone second hsecond]

/-- `size()` -/
theorem WellFormed.size_eq (h : WellFormed w z) : z.size = (content w z.list).length := by
  rw [length_content h.valid]
  have hbound := h.valid.lengths_le h.sound
  cases z with
  | array refsNum a firstRef => exact h.sized
  | two first second =>
      have hlen := length_two h.shape
      have htwo : (ZBuffer.two first second).list.length ≤ 2 := List.length_filter_le ..
      rw [hlen] at hbound ⊢
      exact Nat.mod_eq_of_lt (by omega)

theorem WellFormed.copyFront (h : WellFormed w z) (hbs : content w z.list = bs) :
    Returns (z.copyFront count) w fun r w' =>
      r.length = min count z.size ∧ r = bs.take count ∧ w' = w := by
  rw [h.size_eq, hbs]
  refine (copyFront_spec h.shape h.valid).mono fun r w' hr => ?_
  rw [hbs] at hr
  exact ⟨by rw [hr.2, List.length_take], hr.2, hr.1⟩

/-- What the two forms agree on. -/
theorem WellFormed.serves (h : WellFormed w z) (hbs : content w z.list = bs)
    (hp : z.Poppable count) : Serves w z bs count := by
  obtain ⟨L, H, hholds⟩ := h.holds
  refine ⟨(popn_spec h.shape hholds).mono fun r w' hr => ?_, h.copyFront hbs⟩
  obtain ⟨L', hresult⟩ := hr
  obtain ⟨hlist, hout, hsized⟩ := hresult.rest h.valid h.sized hp
  obtain ⟨hvalid, hcontent, _⟩ := content_popRefs h.valid h.sound count
  rw [← hlist] at hvalid hcontent
  obtain ⟨hvalid', hsame⟩ := content_evolves hvalid h.sound hresult.evolves fun p hp =>
    Multiset.mem_add.mpr (.inl (Multiset.mem_add.mpr (.inr hp)))
  rw [hbs] at hout hcontent
  refine ⟨?_, hout, hsame.trans hcontent, hresult.shape, hsized, hvalid', L', H, hresult.holds⟩
  rw [hout, List.length_take, h.size_eq, hbs]

theorem array_serves {refsNum : Nat} {a : BlockRefArray} {firstRef : BlockRef}
    (h : WellFormed w (.array refsNum a firstRef))
    (hbs : content w (ZBuffer.array refsNum a firstRef).list = bs) :
    Serves w (.array refsNum a firstRef) bs count := h.serves hbs trivial

/-- A count whose `int64_t` is negative takes more bytes than there are. -/
theorem two_overruns (h : WellFormed w (.two first second)) (hcount : count < 2 ^ 64)
    (hge : 2 ^ 63 ≤ count) (hne : content w (ZBuffer.two first second).list ≠ []) :
    Returns ((ZBuffer.two first second).popn count) w fun r _ => r.1.length = count := by
  obtain ⟨L, H, hholds⟩ := h.holds
  have hblock : first.block ≠ 0 := fun h0 => hne (by
    rw [ZBuffer.list_none h0 (h.shape.1 h0).2, content_nil])
  have hlen : first.length ≠ 0 := fun h0 => hblock (h.sized h0)
  obtain ⟨b, hb, _⟩ := (h.valid.of_two).1 hblock
  have hneg : (first.length : Int) > int64 count := by
    rw [int64, if_neg (not_lt.mpr hge)]
    omega
  refine .ite (fun h0 => absurd h0 hlen) fun _ => .ite (fun _ => ?_) fun hle => absurd hneg hle
  exact .bind ((read_spec hb).mono fun r w' hr => .pure hr.2.1)

theorem two_serves_iff (h : WellFormed w (.two first second))
    (hbs : content w (ZBuffer.two first second).list = bs) (hcount : count < 2 ^ 64) :
    Serves w (.two first second) bs count ↔ count < 2 ^ 63 ∨ bs = [] := by
  rw [← hbs]
  constructor
  · intro hs
    by_contra hnot
    obtain ⟨hge, hne⟩ := not_or.mp hnot
    obtain ⟨r, w', hrun, hlen, _⟩ := hs.1
    have hover := (two_overruns h hcount (not_lt.mp hge) hne).of_run hrun
    have hbound := h.valid.lengths_le h.sound
    have htwo : (ZBuffer.two first second).list.length ≤ 2 := List.length_filter_le ..
    rw [h.size_eq, length_content h.valid] at hlen
    omega
  · rintro (hlt | hnil)
    · exact h.serves rfl (.inl hlt)
    · refine h.serves rfl (.inr ?_)
      by_contra hblock
      have hlen := length_content h.valid
      rw [hnil, length_two h.shape] at hlen
      exact hblock (h.sized (Nat.eq_zero_of_add_eq_zero_right hlen.symm))

end

/-- Two buffers, one of each form, that hold the same bytes, serve a request of any size the same
way if and only if the request is below 2 ^ 63 or there is nothing to take. -/
theorem forms_agree_iff {w w' : World} {first second firstRef : BlockRef} {refsNum : Nat}
    {a : BlockRefArray} {bs : List UInt8} {count : Nat}
    (h : WellFormed w (.two first second)) (h' : WellFormed w' (.array refsNum a firstRef))
    (hbs : content w (ZBuffer.two first second).list = bs)
    (hbs' : content w' (ZBuffer.array refsNum a firstRef).list = bs) (hcount : count < 2 ^ 64) :
    Serves w (.two first second) bs count ∧ Serves w' (.array refsNum a firstRef) bs count ↔
      count < 2 ^ 63 ∨ bs = [] := by
  rw [← two_serves_iff h hbs hcount]
  exact and_iff_left (array_serves h' hbs')

/-! ### One byte in each form -/

/-- A block with a byte in it and three references. -/
def oneByte : World :=
  { World.initial .plain with
    mallocs := 1
    gBlockNumber := 1
    block := Function.update (fun _ => none) 1
      (some { next := 0, refNum := 3, offset := 8, capacity := 8168, data := fun _ => 7,
              address := 0, size := 8192 }) }

def oneRef : BlockRef := ⟨0, 1, 1⟩

def oneRing : BlockRefArray := ⟨1, 0, 31, fun _ => oneRef⟩

theorem oneByte_block {p : Nat} {b : Block} (h : oneByte.block p = some b) :
    p = 1 ∧ b.refNum = 3 ∧ b.offset = 8 ∧ b.capacity = 8168 := by
  rcases eq_or_ne p 1 with rfl | hp
  · cases h
    exact ⟨rfl, rfl, rfl, rfl⟩
  · have hnone : oneByte.block p = none := by simp [oneByte, Function.update_of_ne hp]
    cases hnone.symm.trans h

theorem oneByte_holds : Holds oneByte [] {1, 1, 1} := by
  have hsome : (oneByte.block 1).isSome := rfl
  refine ⟨⟨0, ⟨.nil, by simp, ?_, fun p b hb => ?_, fun p hp => ?_, ⟨{1}, fun p => ?_, rfl⟩⟩,
    fun _ => rfl⟩, fun p b hb => ?_⟩
  · intro p hp
    have hp : p = 1 := by simpa using hp
    exact hp ▸ hsome
  · obtain ⟨rfl, hnum, _⟩ := oneByte_block hb
    rw [hnum]
    exact ⟨by decide, by decide⟩
  · obtain ⟨b, hb⟩ := Option.isSome_iff_exists.mp hp
    obtain ⟨rfl, _⟩ := oneByte_block hb
    exact ⟨Nat.one_pos, Nat.le_refl _⟩
  · refine ⟨fun hp => Finset.mem_singleton.mp hp ▸ hsome, fun hp => ?_⟩
    obtain ⟨b, hb⟩ := Option.isSome_iff_exists.mp hp
    exact Finset.mem_singleton.mpr (oneByte_block hb).1
  · obtain ⟨_, _, hoff, hcap⟩ := oneByte_block hb
    refine ⟨?_, ?_, ?_, .inl ?_⟩
    · rw [hcap]; decide
    · rw [hcap]; decide
    · rw [hcap]; decide
    · rw [hoff, hcap]; decide

theorem oneRef_valid : Valid oneByte oneRef := ⟨_, rfl, by decide, by decide⟩

theorem two_wellFormed : WellFormed oneByte (.two oneRef .null) where
  shape := ⟨(fun h0 => nomatch h0), fun _ => rfl⟩
  sized := (fun h0 => nomatch h0)
  valid := fun ref href => by
    rw [ZBuffer.list_first (by decide) rfl] at href
    exact List.mem_singleton.mp href ▸ oneRef_valid
  holds := ⟨[], {1, 1}, oneByte_holds⟩

theorem ring_wellFormed : WellFormed oneByte (.array 1 oneRing oneRef) where
  shape := ⟨⟨⟨5, by decide, rfl⟩, by decide⟩, by decide, fun ref href => by
    obtain ⟨_, _, rfl⟩ := BlockRefArray.mem_list.mp href
    exact Nat.one_ne_zero⟩
  sized := rfl
  valid := fun ref href => by
    obtain ⟨_, _, rfl⟩ := BlockRefArray.mem_list.mp href
    exact oneRef_valid
  holds := ⟨[], {1}, oneByte_holds⟩

/-- For one byte, a request of 2 ^ 63 bytes is too large. -/
theorem forms_differ : ¬ ∀ (w w' : World) (first second firstRef : BlockRef) (refsNum : Nat)
    (a : BlockRefArray) (bs : List UInt8) (count : Nat), WellFormed w (.two first second) →
      WellFormed w' (.array refsNum a firstRef) →
      content w (ZBuffer.two first second).list = bs →
      content w' (ZBuffer.array refsNum a firstRef).list = bs → count < 2 ^ 64 →
      Serves w (.two first second) bs count ∧ Serves w' (.array refsNum a firstRef) bs count := by
  intro hall
  have hs := (hall oneByte oneByte oneRef .null oneRef 1 oneRing [7] (2 ^ 63) two_wellFormed
    ring_wellFormed rfl rfl (by decide)).1
  rcases (two_serves_iff two_wellFormed rfl (by decide)).mp hs with hlt | hnil
  · exact absurd hlt (by decide)
  · cases hnil

/-! ### Seven bytes in each form -/

/-- A heap whose block at `p` is the `p`-th of the list: its count, its offset, and the bytes at
its front. -/
def storing (l : List (Nat × Nat × List UInt8)) : World :=
  { World.initial .plain with
    mallocs := l.length
    gBlockNumber := l.length
    block := fun p => if p = 0 then none else l[p - 1]?.map fun x =>
      { next := 0, refNum := x.1, offset := x.2.1, capacity := 8168,
        data := fun i => x.2.2.getD i 0, address := p * 2 ^ 20, size := 8192 } }

theorem storing_block {l : List (Nat × Nat × List UInt8)} {p : Nat} {b : Block}
    (h : (storing l).block p = some b) :
    ∃ i, ∃ hi : i < l.length, p = i + 1 ∧ b.refNum = l[i].1 ∧ b.offset = l[i].2.1 ∧
      b.capacity = 8168 := by
  have h : (if p = 0 then none else l[p - 1]?.map _) = some b := h
  split at h
  · cases h
  · rename_i hp
    obtain ⟨x, hx, rfl⟩ := Option.map_eq_some_iff.mp h
    obtain ⟨hi, rfl⟩ := List.getElem?_eq_some_iff.mp hx
    exact ⟨p - 1, hi, by omega, rfl, rfl, rfl⟩

theorem storing_isSome {l : List (Nat × Nat × List UInt8)} {p : Nat} :
    ((storing l).block p).isSome ↔ p ∈ Finset.Icc 1 l.length := by
  show (if p = 0 then none else l[p - 1]?.map _).isSome ↔ _
  rw [Finset.mem_Icc]
  split
  · simp only [Option.isSome_none, Bool.false_eq_true, false_iff]
    omega
  · rw [Option.isSome_map, isSome_getElem?]
    omega

/-- If every block is counted, the references held are all there are. -/
theorem storing_holds {l : List (Nat × Nat × List UInt8)} {H : Multiset Nat}
    (hmem : ∀ p ∈ H, p ∈ Finset.Icc 1 l.length)
    (hcount : ∀ i (hi : i < l.length), 0 < l[i].1 ∧ l[i].1 = H.count (i + 1) ∧ l[i].2.1 ≤ 8168) :
    Holds (storing l) [] H := by
  refine ⟨⟨0, ⟨.nil, by simp, fun p hp => ?_, fun p b hb => ?_, fun p hp => ?_,
    ⟨Finset.Icc 1 l.length, fun p => storing_isSome.symm, ?_⟩⟩, fun _ => rfl⟩, fun p b hb => ?_⟩
  · rw [zero_add] at hp
    exact storing_isSome.mpr (hmem p hp)
  · obtain ⟨i, hi, rfl, hnum, _⟩ := storing_block hb
    obtain ⟨hpos, hcount, _⟩ := hcount i hi
    rw [hnum, zero_add, ← hcount]
    exact ⟨by simp, by exact_mod_cast hpos⟩
  · obtain ⟨hpos, hle⟩ := Finset.mem_Icc.mp (storing_isSome.mp hp)
    exact ⟨hpos, hle⟩
  · rw [Nat.card_Icc]
    rfl
  · obtain ⟨i, hi, _, _, hoff, hcap⟩ := storing_block hb
    obtain ⟨_, _, hle⟩ := hcount i hi
    refine ⟨?_, ?_, ?_, .inl ?_⟩
    · rw [hcap]; decide
    · rw [hcap]; decide
    · rw [hcap]; decide
    · rw [hoff, hcap]; exact hle

/-- Four bytes and three, in two blocks. -/
def sevenBytes : World := storing [(1, 8, [1, 2, 3, 4]), (1, 8, [5, 6, 7])]

theorem sevenBytes_wellFormed : WellFormed sevenBytes (.two ⟨0, 4, 1⟩ ⟨0, 3, 2⟩) where
  shape := ⟨(fun h0 => by cases h0), fun h0 => by cases h0⟩
  sized := fun h0 => by cases h0
  valid := by
    intro ref href
    rw [show (ZBuffer.two ⟨0, 4, 1⟩ ⟨0, 3, 2⟩).list = [⟨0, 4, 1⟩, ⟨0, 3, 2⟩] from rfl,
      List.mem_pair] at href
    obtain rfl | rfl := href
    · exact ⟨_, rfl, by decide, by decide⟩
    · exact ⟨_, rfl, by decide, by decide⟩
  holds := ⟨[], 0, storing_holds (by decide) (by decide)⟩

/-- The same bytes in a ring of five refs, one of them empty, that begins at the last slot but one.
Its storage lies in the first block, behind the bytes. -/
def ringBytes : World := storing [(4, 560, [1, 2, 0, 0, 0, 0, 0, 0, 3, 7]), (2, 8, [4, 5, 6])]

def wrapped : BlockRefArray where
  nbytes := 7
  begin := 30
  capMask := 31
  refs := fun i =>
    if i = 30 then ⟨0, 2, 1⟩ else if i = 31 then ⟨8, 1, 1⟩ else if i = 0 then ⟨3, 0, 2⟩
    else if i = 1 then ⟨0, 3, 2⟩ else if i = 2 then ⟨9, 1, 1⟩ else .null

theorem wrapped_list :
    wrapped.list 0 5 = [⟨0, 2, 1⟩, ⟨8, 1, 1⟩, ⟨3, 0, 2⟩, ⟨0, 3, 2⟩, ⟨9, 1, 1⟩] := by decide

theorem wrapped_wellFormed : WellFormed ringBytes (.array 5 wrapped ⟨16, 544, 1⟩) where
  shape := by
    refine ⟨⟨⟨5, by decide, rfl⟩, by decide⟩, by decide, ?_⟩
    rw [wrapped_list]
    decide
  sized := by
    show 7 = lengths (wrapped.list 0 5)
    rw [wrapped_list]
    rfl
  valid := by
    show AllValid _ (wrapped.list 0 5)
    rw [wrapped_list]
    simp only [AllValid, List.mem_cons, List.not_mem_nil, or_false, forall_eq_or_imp, forall_eq]
    exact ⟨⟨_, rfl, by decide, by decide⟩, ⟨_, rfl, by decide, by decide⟩,
      ⟨_, rfl, by decide, by decide⟩, ⟨_, rfl, by decide, by decide⟩,
      ⟨_, rfl, by decide, by decide⟩⟩
  holds := ⟨[], 0, storing_holds (by decide) (by decide)⟩

/-- A request for five of the bytes. -/
theorem forms_agree_seven :
    Serves sevenBytes (.two ⟨0, 4, 1⟩ ⟨0, 3, 2⟩) [1, 2, 3, 4, 5, 6, 7] 5 ∧
    Serves ringBytes (.array 5 wrapped ⟨16, 544, 1⟩) [1, 2, 3, 4, 5, 6, 7] 5 :=
  (forms_agree_iff sevenBytes_wellFormed wrapped_wellFormed rfl rfl (by decide)).mpr
    (.inl (by decide))

end PBase.Buffer
