/-
# `PBase.Buffer.Lending` — blocks in a caller's hands

`acquire_block_ref` takes a block off the cache list and hands out the space in it; the caller
has the list's reference until `return_block_ref` puts the block back, which counts a reference
of the list's own.  A block that is handed out is `Lent`: it is not on the list, and nobody
moves its offset.

`block_number_` is meant to count the blocks on the list and the blocks handed out.
`pop_front` takes a block off the list without counting it down, so the block stays counted
while it is out; `push_front` counts it up again, or drops it, if it is full, without counting
it down.  Each way a return leaves the counter one too high (`Counted`).
-/
import PBase.Lib.System
import PBase.Buffer.Cache

namespace PBase.Buffer

open PBase.Lib

/-- The counter is above the length of the list by `c`, as a `uint32_t`. -/
def Counted (w : World) (L : List Nat) (c : Nat) : Prop :=
  w.blockNumber = (L.length + c) % 2 ^ 32

/-- The ref was handed out: its block is not on the list, and all the space in it is the ref. -/
structure Lent (w : World) (L : List Nat) (ref : BlockRef) : Prop where
  unlisted : ref.block ∉ L
  block : ∃ b, w.block ref.block = some b ∧ b.full = false ∧ ref.offset = b.offset ∧
    ref.length = b.leftSpace

section Functions
variable {w w' : World} {L L' : List Nat} {H : Multiset Nat} {S : Nat → Prop} {p : Nat} {b : Block}

theorem Lent.evolves {ref : BlockRef} (h : Lent w L ref) (hev : Evolves w L w' L' S)
    (hS : S ref.block) : Lent w' L' ref := by
  obtain ⟨b, hb, hfull, hoff, hlen⟩ := h.block
  obtain ⟨b', hb', hcap, _, hsame⟩ := hev.kept _ hS b hb
  obtain ⟨hnot, hoff'⟩ := hsame h.unlisted
  refine ⟨hnot, b', hb', ?_, hoff.trans hoff'.symm, ?_⟩
  · rw [Block.full, hoff', hcap]
    exact hfull
  · rw [Block.leftSpace, hoff', hcap]
    exact hlen

/-! ## `pop_front` and `push_front` -/

/-- The head leaves the list; its reference is in the caller's hands. -/
theorem Refs.pop {t : List Nat} (h : Refs w (p :: t) H) (hb : w.block p = some b) :
    Refs { w with head := b.next } t (p ::ₘ H) := by
  obtain ⟨hpt, _⟩ := List.nodup_cons.mp h.chain.nodup
  obtain ⟨_, htail⟩ := h.chain.of_cons
  rw [next_eq hb] at htail
  have hcount := h.count p b hb
  rw [List.count_cons_self] at hcount
  have hblock : w.block = Function.update w.block p (some b) := by
    rw [← hb, Function.update_eq_self]
  refine h.update (by rw [hb]; rfl) hblock rfl rfl htail ?_ fun q hq => ⟨?_, ?_⟩
  · rw [Multiset.count_cons_self]
    omega
  · rw [Multiset.count_cons_of_ne hq]
  · rw [List.count_cons_of_ne (Ne.symm hq)]

theorem Block.not_full_of_reset (h : b.Sound) {b' : Block} (hoff : b'.offset = 0)
    (hcap : b'.capacity = b.capacity) : b'.full = false := by
  have hpos := h.pos
  simp only [Block.full, hoff, hcap, decide_eq_false_iff_not]
  omega

/-- `pop_front()`: the block it returns is off the list and not full. -/
theorem popFront_spec (h : Refs w L H) (hs : w.AllSound) : Returns popFront w fun p w' => ∃ L',
    Refs w' L' (p ::ₘ H) ∧ p ∉ L' ∧ (p ∈ H → p ∈ L) ∧
      (∃ b, w'.block p = some b ∧ b.full = false) ∧
      (∀ c, Counted w L c → Counted w' L' (c + 1)) ∧ Evolves w L w' L' fun q => q ∈ H := by
  -- the invariant of the loop: at most `n` blocks are on the list, or the first of it has space
  let I : Nat → Unit → World → Prop := fun n _ w' => ∃ L', Refs w' L' H ∧ L' ⊆ L ∧
    (L'.length ≤ n ∨ ∃ b, w'.block w'.head = some b ∧ b.full = false) ∧
    (∀ c, Counted w L c → Counted w' L' c) ∧ Evolves w L w' L' fun q => q ∈ H
  have hstart : I L.length () w :=
    ⟨L, h, List.Subset.refl L, .inl (Nat.le_refl _), fun _ hc => hc, .refl w L _⟩
  refine .bind (.get (.loop (I := I) (fun n _ w₁ hI => ?_) hstart
    (Nat.lt_succ_of_le h.length_le)))
  obtain ⟨L₁, h₁, hsub, hturns, hcounted, hev⟩ := hI
  refine .bind (.get (.ite (fun h0 => ?_) fun hne => ?_))
  · have hnil : L₁ = [] := h₁.chain.eq_nil_iff.mpr h0
    subst hnil
    obtain ⟨hH, _⟩ := h₁.count_fresh
    refine .bind (returns_createBlock (.bind (.modify (.pure ?_))))
    refine ⟨(by simp), fun p hp => ?_⟩
    cases hp
    refine ⟨[], ?_, List.not_mem_nil, fun hmem => ?_, ⟨_, setBlock_self, ?_⟩, fun c hc => ?_,
      hev.trans ?_ fun _ hq => ⟨hq, hq⟩⟩
    · refine h₁.create rfl rfl rfl rfl ?_ ?_ fun q hq => ⟨?_, rfl⟩
      · show Chain _ 0 w₁.head []
        rw [h0]
        exact .nil
      · simp [hH, Block.create]
      · rw [Multiset.count_cons_of_ne hq]
    · exact absurd hmem (Multiset.count_eq_zero.mp hH)
    · simp [Block.full, Block.create, kNormalBlockSize, sizeofBlock]
    · have := hcounted c hc
      simp only [Counted, List.length_nil, World.setBlock] at this ⊢
      omega
    · exact .create h₁.fresh_none rfl .rfl (fun _ _ hc _ => hc.normal _ _)
        fun q _ _ _ => List.not_mem_nil
  · obtain ⟨t, hL, _⟩ := h₁.chain.of_ne hne
    subst hL
    obtain ⟨b, hb⟩ := h₁.exists_block (.inr List.mem_cons_self)
    obtain ⟨hpt, _⟩ := List.nodup_cons.mp h₁.chain.nodup
    have hpop := h₁.pop hb
    have hpopped : Evolves w₁ (w₁.head :: t) { w₁ with head := b.next } t fun q => q ∈ H :=
      .of_eq rfl .rfl fun q _ hnot => List.not_mem_of_not_mem_cons hnot
    refine .bind (returns_load hb
        (.bind (returns_setHead (.ite (fun hfull => ?_) fun hfull => ?_))))
    · have hlen : t.length + 1 ≤ n := hturns.resolve_right fun hfirst => by
        obtain ⟨b', hb', hnot⟩ := hfirst
        cases hb.symm.trans hb'
        exact absurd (hnot.symm.trans hfull) Bool.false_ne_true
      refine .bind ((decRef_spec hpop).mono fun _ w₂ hw => .bind (.modify (.pure
        ⟨fun _ _ => ⟨n - 1, by omega, ?_⟩, by simp⟩)))
      · obtain ⟨L₂, h₂, hput, hev₂⟩ := hw
        have hstep := hev.trans (hpopped.trans hev₂ fun q hq => ⟨hq, .inl hq⟩)
          fun q hq => ⟨hq, hq⟩
        have hsame : Evolves w₂ L₂
            { w₂ with blockNumber := (w₂.blockNumber + (2 ^ 32 - 1)) % 2 ^ 32 } L₂ (· ∈ H) :=
          .of_eq rfl .rfl fun _ _ hnot => hnot
        refine ⟨L₂, h₂.congr rfl rfl rfl rfl, ?_, ?_, fun c hc => ?_,
          hstep.trans hsame fun q hq => ⟨hq, hq⟩⟩
        · rcases hput with ⟨rfl, _⟩ | ⟨rfl, _⟩
          · exact fun q hq => hsub (List.mem_cons_of_mem _ hq)
          · exact hsub
        · rcases hput with ⟨rfl, _⟩ | ⟨rfl, _, _, hhead, c, c', hc, hc', hoff, hcap⟩
          · exact .inl (by omega)
          · refine .inr ⟨c', ?_, Block.not_full_of_reset (hev.sound hs _ c hc) hoff hcap⟩
            show w₂.block w₂.head = some c'
            rw [hhead]
            exact hc'
        · have hnum := hcounted c hc
          rcases hput with ⟨rfl, hsame, _⟩ | ⟨rfl, hsame, _⟩
          · simp only [Counted, List.length_cons] at hnum hsame ⊢
            omega
          · simp only [Counted, List.length_cons] at hnum hsame ⊢
            omega
    · refine .pure ⟨(by simp), fun p hp => ?_⟩
      cases hp
      refine ⟨t, hpop, hpt, fun _ => hsub List.mem_cons_self, ⟨b, hb, Bool.not_eq_true _ ▸ hfull⟩,
        fun c hc => ?_, hev.trans hpopped fun q hq => ⟨hq, hq⟩⟩
      have := hcounted c hc
      simp only [Counted, List.length_cons] at this ⊢
      omega

/-- The block of a ref that is returned, with the reference for the list. -/
def Block.givenBack (b : Block) (n : Nat) : Block :=
  { b with offset := (b.offset + n) % 2 ^ 32, refNum := b.refNum + 1 }

/-- What `return_block_ref` does after that: the block stays off the list, if it is full. -/
theorem returns_returnBlockRef {ref : BlockRef} {Q : Unit → World → Prop}
    (hb : w.block ref.block = some b) (hnum : 0 < b.refNum)
    (hfull : (b.givenBack ref.length).full = true →
      Q ⟨⟩ (w.setBlock ref.block { b.givenBack ref.length with refNum := b.refNum }))
    (hpush : (b.givenBack ref.length).full = false →
      Q ⟨⟩ { w.setBlock ref.block { b.givenBack ref.length with next := w.head } with
        head := ref.block, blockNumber := (w.blockNumber + 1) % 2 ^ 32 }) :
    Returns (returnBlockRef ref) w Q := by
  refine .bind (returns_load hb (.bind (returns_store (.bind (returns_incRef setBlock_self ?_)))))
  refine .bind (returns_load setBlock_self (.ite (fun hf => ?_) fun hf => ?_))
  · refine decRef_shared setBlock_self (Int.lt_add_of_pos_left 1 hnum) ?_
    have h := hfull hf
    simpa [World.setBlock, Block.givenBack] using h
  · refine .bind (.get (.bind (returns_store (.bind (returns_setHead (.modify ?_))))))
    have h := hpush (Bool.not_eq_true _ ▸ hf)
    simpa [World.setBlock, Block.givenBack] using h

/-- `return_block_ref(ref)`, of a ref not longer than what was handed out: the counter is one
too high, since the block was counted all the time. -/
theorem returnBlockRef_spec {ref : BlockRef} (h : Refs w L (ref.block ::ₘ H))
    (hp : ref.block ∉ L) (hb : w.block ref.block = some b) (hs : b.Sound) (hnot : b.full = false)
    (hlen : ref.length ≤ b.leftSpace) : Returns (returnBlockRef ref) w fun _ w' => ∃ L' b',
      Refs w' L' (ref.block ::ₘ H) ∧ L' ⊆ ref.block :: L ∧
      (∀ c, Counted w L c → Counted w' L' c) ∧
      (w'.block ref.block = some b' ∧ b'.offset = b.offset + ref.length ∧
        b'.capacity = b.capacity ∧ b'.data = b.data) ∧
      Evolves w (ref.block :: L) w' L' fun _ => True := by
  have hlt := b.lt_of_not_full hs hnot
  have hcap := hs.capacity
  have hspace := b.leftSpace_eq (by omega) (by omega : b.offset ≤ b.capacity)
  have hoff : (b.givenBack ref.length).offset = b.offset + ref.length := by
    show (b.offset + ref.length) % 2 ^ 32 = _
    omega
  have hlater : ∀ {b' : Block}, b'.offset = (b.givenBack ref.length).offset →
      b'.capacity = b.capacity → b'.data = b.data → b.Later b' := fun hoff' hcap' hdata =>
    ⟨by omega, by omega, fun i _ => congrFun hdata i⟩
  have hgood : ∀ c Good, Closed c Good → ∀ r x, Good b →
      Good ({ b with offset := (b.offset + ref.length) % 2 ^ 32 }.relink r x) :=
    fun _ _ hc r x hgood => hc.relink _ r x (hc.advance b ref.length hgood (by omega) hlen)
  have hcount := h.count _ b hb
  refine returns_returnBlockRef hb hcount.2 (fun _ => ?_) fun _ => ?_
  · refine ⟨L, _, ?_, List.subset_cons_self _ _, fun _ hc => hc, ⟨setBlock_self, hoff, rfl, rfl⟩,
      ?_⟩
    · exact h.update (by rw [hb]; rfl) rfl rfl rfl (h.chain_same hb rfl rfl) hcount
        fun _ _ => ⟨rfl, rfl⟩
    · exact .update hb rfl .rfl (fun c Good hc _ hg => hgood c Good hc b.refNum b.next hg)
        (fun _ => ⟨rfl, fun _ _ => hlater rfl rfl rfl, fun hmem => absurd List.mem_cons_self hmem⟩)
        fun q _ _ hmem => List.not_mem_of_not_mem_cons hmem
  · refine ⟨ref.block :: L, _, ?_, List.Subset.refl _, fun c hc => ?_,
      ⟨setBlock_self, hoff, rfl, rfl⟩, ?_⟩
    · refine h.update (by rw [hb]; rfl) rfl rfl rfl ?_ ?_ fun q hq => ⟨rfl, ?_⟩
      · refine .cons (Nat.pos_iff_ne_zero.mp (h.fresh _ (by rw [hb]; rfl)).1) ?_
        rw [next_update rfl, Function.update_self]
        refine h.chain.frame fun x hx => Function.update_of_ne (fun heq => hp ?_) ..
        rwa [← heq]
      · have hnum : ({ b.givenBack ref.length with next := w.head } : Block).refNum
            = b.refNum + 1 := rfl
        rw [hnum, List.count_cons_self]
        omega
      · exact List.count_cons_of_ne (Ne.symm hq)
    · simp only [Counted, List.length_cons] at hc ⊢
      omega
    · exact .update hb rfl .rfl (fun c Good hc _ hg => hgood c Good hc (b.refNum + 1) w.head hg)
        (fun _ => ⟨rfl, fun _ _ => hlater rfl rfl rfl, fun hmem => absurd List.mem_cons_self hmem⟩)
        fun q _ _ hmem => hmem

/-- `acquire_block_ref(ref)` -/
theorem acquireBlockRef_spec (h : Refs w L H) (hs : w.AllSound) :
    Returns acquireBlockRef w fun ref w' => ∃ L', Refs w' L' (ref.block ::ₘ H) ∧
      Lent w' L' ref ∧ (ref.block ∈ H → ref.block ∈ L) ∧
      (∀ c, Counted w L c → Counted w' L' (c + 1)) ∧ Evolves w L w' L' fun q => q ∈ H := by
  refine .bind ((popFront_spec h hs).mono fun p w' hp => ?_)
  obtain ⟨L', hrefs, hnot, hfrom, ⟨b, hb, hfull⟩, hcounted, hev⟩ := hp
  exact .bind (returns_load hb (.pure
    ⟨L', hrefs, ⟨hnot, b, hb, hfull, rfl, rfl⟩, hfrom, hcounted, hev⟩))

end Functions

/-! ## Handing out and taking back -/

namespace Lending

/-- The refs handed out, and those returned and not released yet. -/
structure State where
  world : World
  lent : Multiset BlockRef
  held : Multiset BlockRef
  /-- How often `return_block_ref` was called. -/
  returns : Nat

inductive Call where
  | acquire (ref : BlockRef)
  /-- The first `n` bytes of the ref are returned. -/
  | giveBack (ref : BlockRef) (n : Nat)
  | release (ref : BlockRef)

inductive Step (s : State) : Call → State → Prop
  | acquire {ref : BlockRef} {w : World} : acquireBlockRef.run s.world = some (ref, w) →
      Step s (.acquire ref) { s with world := w, lent := ref ::ₘ s.lent }
  | giveBack {ref : BlockRef} {n : Nat} {w : World} : ref ∈ s.lent → n ≤ ref.length →
      (returnBlockRef { ref with length := n }).run s.world = some (⟨⟩, w) →
      Step s (.giveBack ref n)
        { world := w, lent := s.lent.erase ref, held := { ref with length := n } ::ₘ s.held,
          returns := s.returns + 1 }
  | release {ref : BlockRef} {w : World} : ref ∈ s.held → ref.release.run s.world = some (⟨⟩, w) →
      Step s (.release ref) { s with world := w, held := s.held.erase ref }

/-- From an empty cache. -/
def system (env : Env) : System State Call where
  init s := s = { world := .initial env, lent := 0, held := 0, returns := 0 }
  step := Step

/-- The blocks of the refs. -/
def blocks (M : Multiset BlockRef) : Multiset Nat := M.map BlockRef.block

/-- The counter is too high by the number of returns. -/
structure Inv (s : State) (L : List Nat) : Prop where
  refs : Refs s.world L (blocks s.lent + blocks s.held)
  sound : s.world.AllSound
  lent : ∀ ref ∈ s.lent, Lent s.world L ref
  nodup : (blocks s.lent).Nodup
  counted : Counted s.world L (s.lent.card + s.returns)

variable {env : Env} {s t : State} {L : List Nat} {ref : BlockRef}

theorem blocks_cons (ref : BlockRef) (M : Multiset BlockRef) :
    blocks (ref ::ₘ M) = ref.block ::ₘ blocks M := Multiset.map_cons ..

theorem mem_blocks {M : Multiset BlockRef} (h : ref ∈ M) : ref.block ∈ blocks M :=
  Multiset.mem_map_of_mem _ h

theorem Inv.start (env : Env) :
    Inv { world := .initial env, lent := 0, held := 0, returns := 0 } [] where
  refs := by simpa [blocks] using Refs.initial env
  sound := by simp [World.AllSound, World.initial]
  lent := by simp
  nodup := by simp [blocks]
  counted := by simp [Counted, World.initial]

/-- `acquire_block_ref` keeps the invariant, and returns. -/
theorem Inv.acquire (h : Inv s L) : Returns acquireBlockRef s.world fun ref w =>
    ∃ L', Inv { s with world := w, lent := ref ::ₘ s.lent } L' := by
  refine (acquireBlockRef_spec h.refs h.sound).mono fun ref w hw => ?_
  obtain ⟨L', hrefs, hlent, hfrom, hcounted, hev⟩ := hw
  refine ⟨L', ?_, hev.sound h.sound, fun r hr => ?_, ?_, ?_⟩
  · rw [blocks_cons, Multiset.cons_add]
    exact hrefs
  · rcases Multiset.mem_cons.mp hr with rfl | hr
    · exact hlent
    · exact (h.lent r hr).evolves hev (Multiset.mem_add.mpr (.inl (mem_blocks hr)))
  · -- a block that is out is not on the list, so it is not handed out again
    rw [blocks_cons, Multiset.nodup_cons]
    refine ⟨fun hmem => ?_, h.nodup⟩
    obtain ⟨r, hr, heq⟩ := Multiset.mem_map.mp hmem
    exact (h.lent r hr).unlisted (heq ▸ hfrom (Multiset.mem_add.mpr (.inl hmem)))
  · have := hcounted _ h.counted
    rw [Multiset.card_cons, Nat.add_right_comm]
    exact this

/-- `return_block_ref` keeps the invariant, and returns. -/
theorem Inv.giveBack (h : Inv s L) (hmem : ref ∈ s.lent) {n : Nat} (hn : n ≤ ref.length) :
    Returns (returnBlockRef { ref with length := n }) s.world fun _ w => ∃ L', Inv
      { world := w, lent := s.lent.erase ref, held := { ref with length := n } ::ₘ s.held,
        returns := s.returns + 1 } L' := by
  obtain ⟨hnot, b, hb, hfull, hoff, hlen⟩ := h.lent ref hmem
  have hcons : s.lent = ref ::ₘ s.lent.erase ref := (Multiset.cons_erase hmem).symm
  have hblocks : blocks s.lent = ref.block ::ₘ blocks (s.lent.erase ref) := by
    rw [← blocks_cons, ← hcons]
  have hnodup := h.nodup
  rw [hblocks, Multiset.nodup_cons] at hnodup
  have hrefs := h.refs
  rw [hblocks, Multiset.cons_add] at hrefs
  have hspec : Returns (returnBlockRef { ref with length := n }) s.world _ :=
    returnBlockRef_spec hrefs hnot hb (h.sound _ b hb) hfull (hn.trans (Nat.le_of_eq hlen))
  refine hspec.mono fun _ w hw => ?_
  obtain ⟨L', b', hrefs', hsub, hcounted, hb', hev⟩ := hw
  refine ⟨L', ?_, hev.sound h.sound, fun r hr => ?_, hnodup.2, ?_⟩
  · rw [blocks_cons, Multiset.add_cons]
    exact hrefs'
  · have hne : r.block ≠ ref.block := fun heq => hnodup.1 (heq ▸ mem_blocks hr)
    obtain ⟨hr', hblock⟩ := h.lent r (Multiset.mem_of_mem_erase hr)
    exact Lent.evolves ⟨List.not_mem_cons_of_ne_of_not_mem hne hr', hblock⟩ hev trivial
  · have hcard : s.lent.card = (s.lent.erase ref).card + 1 := by
      rw [← Multiset.card_cons, ← hcons]
    have hnum := hcounted _ h.counted
    rw [hcard] at hnum
    rw [← Nat.add_assoc, Nat.add_right_comm]
    exact hnum

/-- Releasing a returned ref keeps the invariant, and returns. -/
theorem Inv.release (h : Inv s L) (hmem : ref ∈ s.held) : Returns ref.release s.world fun _ w =>
    ∃ L', Inv { s with world := w, held := s.held.erase ref } L' ∧
      Returned s.world L ref.block w L' := by
  have hrefs := h.refs
  rw [← Multiset.cons_erase hmem, blocks_cons, Multiset.add_cons] at hrefs
  have hne : ref.block ≠ 0 := Nat.pos_iff_ne_zero.mp
    (hrefs.fresh _ (hrefs.held _ (Multiset.mem_cons_self _ _))).1
  rw [BlockRef.release, if_neg hne]
  refine (decRef_spec hrefs).mono fun _ w hw => ?_
  obtain ⟨L', hrefs', hput, hev⟩ := hw
  refine ⟨L', ⟨hrefs', hev.sound h.sound, fun r hr => ?_, h.nodup, ?_⟩, hput⟩
  · exact (h.lent r hr).evolves hev (.inl (Multiset.mem_add.mpr (.inl (mem_blocks hr))))
  · have hnum := h.counted
    rcases hput with ⟨rfl, hsame, _⟩ | ⟨rfl, hsame, _⟩
    · exact hsame.trans hnum
    · simp only [Counted, List.length_cons] at hnum hsame ⊢
      omega

theorem Inv.step (h : Inv s L) {c : Call} (hs : Step s c t) : ∃ L', Inv t L' := by
  cases hs with
  | acquire hrun => exact h.acquire.of_run hrun
  | giveBack hmem hn hrun => exact (h.giveBack hmem hn).of_run hrun
  | release hmem hrun =>
      obtain ⟨L', h', _⟩ := (h.release hmem).of_run hrun
      exact ⟨L', h'⟩

theorem run_inv {es : List Call} (h : (system env).Run es s) : ∃ L, Inv s L := by
  refine System.Run.invariant (I := fun s => ∃ L, Inv s L) (fun s hs => ?_)
    (fun s c t hs hstep => ?_) h
  · cases hs
    exact ⟨[], .start env⟩
  · obtain ⟨L, hL⟩ := hs
    exact hL.step hstep

theorem Inv.exact_iff (h : Inv s L) : s.world.blockNumber = L.length + s.lent.card ↔
    2 ^ 32 ∣ s.returns ∧ L.length + s.lent.card < 2 ^ 32 := by
  have hnum : s.world.blockNumber = (L.length + (s.lent.card + s.returns)) % 2 ^ 32 := h.counted
  refine ⟨fun heq => ⟨?_, ?_⟩, fun hret => ?_⟩
  · omega
  · omega
  · obtain ⟨hdvd, hlt⟩ := hret
    omega

/-- The block of a held ref that has no other reference. -/
def Last (w : World) (ref : BlockRef) : Prop := ∃ b, w.block ref.block = some b ∧ b.refNum = 1

/-- After any calls: the counter is the number of blocks on the list and in the caller's hands
if and only if the number of returns is a multiple of 2 ^ 32 (and the number of blocks a
`uint32_t`); and a block whose last ref is released goes to the cache if and only if the blocks
and the returns together are fewer than `kBlockCachedPerThread`, modulo 2 ^ 32. -/
theorem block_number_iff {es : List Call} (h : (system env).Run es s)
    (hL : Chain s.world.next 0 s.world.head L) :
    (s.world.blockNumber = L.length + s.lent.card ↔
      2 ^ 32 ∣ s.returns ∧ L.length + s.lent.card < 2 ^ 32) ∧
    ∀ ref ∈ s.held, Last s.world ref → Returns ref.release s.world fun _ w =>
      ∃ L', Chain w.next 0 w.head L' ∧ (ref.block ∈ L' ↔
        (L.length + s.lent.card + s.returns) % 2 ^ 32 < kBlockCachedPerThread) := by
  obtain ⟨L₀, hinv⟩ := run_inv h
  cases hinv.refs.chain.unique hL
  refine ⟨hinv.exact_iff, fun ref hmem hlast => ?_⟩
  obtain ⟨b, hb, hone⟩ := hlast
  refine (hinv.release hmem).mono fun _ w hw => ?_
  obtain ⟨L', hinv', hput⟩ := hw
  refine ⟨L', hinv'.refs.chain, ?_⟩
  have hnum : s.world.blockNumber = (L.length + (s.lent.card + s.returns)) % 2 ^ 32 := hinv.counted
  rw [Nat.add_assoc, ← hnum]
  rcases hput with ⟨rfl, _, hlimit⟩ | ⟨rfl, _, hlimit, _⟩
  · have hrefs := hinv.refs
    rw [← Multiset.cons_erase hmem, blocks_cons, Multiset.add_cons] at hrefs
    refine ⟨fun hin => absurd hin (hrefs.not_listed hb hone.le).1, fun hlt => ?_⟩
    exact absurd hlt (hlimit b hb hone.le)
  · exact ⟨fun _ => hlimit, fun _ => List.mem_cons_self⟩

/-- Two blocks are handed out, and the first is returned full.  The counter is one too high; the
block still goes to the cache when its ref is released. -/
theorem block_number_two : ∃ s : State,
    (system .plain).Run [.acquire ⟨0, 8168, 1⟩, .acquire ⟨0, 8168, 2⟩,
      .giveBack ⟨0, 8168, 1⟩ 8168] s ∧
    s.world.blockNumber ≠ s.lent.card ∧
    Returns (BlockRef.release ⟨0, 8168, 1⟩) s.world fun _ w =>
      ∃ L, Chain w.next 0 w.head L ∧ 1 ∈ L := by
  obtain ⟨w₁, hfirst, w₂, hsecond, w₃, hback, hhead, b, hb, hone⟩ :
      ∃ w₁, acquireBlockRef.run (.initial .plain) = some (⟨0, 8168, 1⟩, w₁) ∧
      ∃ w₂, acquireBlockRef.run w₁ = some (⟨0, 8168, 2⟩, w₂) ∧
      ∃ w₃, (returnBlockRef ⟨0, 8168, 1⟩).run w₂ = some (⟨⟩, w₃) ∧ w₃.head = 0 ∧
      ∃ b, w₃.block 1 = some b ∧ b.refNum = 1 :=
    ⟨_, rfl, _, rfl, _, rfl, rfl, _, rfl, rfl⟩
  have h₂ := ((System.Run.start rfl : (system .plain).Run [] _).next (.acquire hfirst)).next
    (.acquire hsecond)
  have hmem : (⟨0, 8168, 1⟩ : BlockRef) ∈ (⟨0, 8168, 2⟩ ::ₘ ⟨0, 8168, 1⟩ ::ₘ 0 :
      Multiset BlockRef) := by decide
  have h₃ := h₂.next (.giveBack hmem (Nat.le_refl 8168) hback)
  have hheld : (⟨0, 8168, 1⟩ : BlockRef) ∈ (⟨0, 8168, 1⟩ ::ₘ 0 : Multiset BlockRef) :=
    Multiset.mem_cons_self _ _
  have hL : Chain w₃.next 0 w₃.head [] := hhead ▸ .nil
  obtain ⟨hnumber, hrelease⟩ := block_number_iff h₃ hL
  refine ⟨_, h₃, fun heq => ?_, ?_⟩
  · have hdvd := (hnumber.mp (heq.trans (Nat.zero_add _).symm)).1
    exact absurd (Nat.le_of_dvd Nat.one_pos hdvd) (by decide)
  · refine (hrelease _ hheld ⟨b, hb, hone⟩).mono fun _ w hw => ?_
    obtain ⟨L, hchain, hiff⟩ := hw
    exact ⟨L, hchain, hiff.mpr (show (0 + 1 + 1) % 2 ^ 32 < kBlockCachedPerThread by decide)⟩

/-- Every call that is allowed returns. -/
theorem calls_return {es : List Call} (h : (system env).Run es s) :
    (∃ ref t, Step s (.acquire ref) t) ∧
    (∀ ref ∈ s.lent, ∀ n ≤ ref.length, ∃ t, Step s (.giveBack ref n) t) ∧
    ∀ ref ∈ s.held, ∃ t, Step s (.release ref) t := by
  obtain ⟨L, hinv⟩ := run_inv h
  refine ⟨?_, fun ref hmem n hn => ?_, fun ref hmem => ?_⟩
  · obtain ⟨ref, w, hrun, _⟩ := hinv.acquire
    exact ⟨ref, _, .acquire hrun⟩
  · obtain ⟨_, w, hrun, _⟩ := hinv.giveBack hmem hn
    exact ⟨_, .giveBack hmem hn hrun⟩
  · obtain ⟨_, w, hrun, _⟩ := hinv.release hmem
    exact ⟨_, .release hmem hrun⟩

/-- One block handed out and returned is counted twice. -/
theorem block_number_drifts : ¬ ∀ (es : List Call) (s : State) (L : List Nat),
    (system .plain).Run es s → Chain s.world.next 0 s.world.head L →
      s.world.blockNumber = L.length + s.lent.card := by
  intro hall
  have h₀ : (system .plain).Run []
      { world := .initial .plain, lent := 0, held := 0, returns := 0 } :=
    .start rfl
  obtain ⟨ref, w, hrun, _⟩ := (Inv.start .plain).acquire
  have h₁ := h₀.next (.acquire hrun)
  have hmem : ref ∈ ref ::ₘ (0 : Multiset BlockRef) := Multiset.mem_cons_self _ _
  obtain ⟨t, hback⟩ := (calls_return h₁).2.1 ref hmem ref.length (Nat.le_refl _)
  have h₂ := h₁.next hback
  obtain ⟨L, hinv⟩ := run_inv h₂
  have hret : t.returns = 1 := by
    cases hback
    rfl
  have hdvd := (hinv.exact_iff.mp (hall _ t L h₂ hinv.refs.chain)).1
  rw [hret] at hdvd
  exact absurd (Nat.le_of_dvd Nat.one_pos hdvd) (by decide)

end Lending

end PBase.Buffer
