/-
# `PBase.Buffer.Sharing` — blocks shared by many refs

One cache, and the refs on its blocks: what was appended, read, handed out and returned, the storage
of rings, copies of these and what was merged.  A block is written above its offset only, and its
offset grows as long as somebody holds a ref on it; so what a ref covers stays what was stored, and
no two writes overlap (`Sharing.held_immutable`).

All of this needs offsets that are not above the capacity.  A ring of more than 2048 refs breaks it:
`Block(uint16_t cap)` truncates the size, and the block stays on the list with an offset far above
its capacity (`Block.Fits`, `Sharing.storage_inside`).
-/
import PBase.Lib.System
import PBase.Buffer.Append
import PBase.Buffer.Notes
import PBase.Buffer.Reading

namespace PBase.Buffer

open PBase.Lib

/-! ## Blocks that fit -/

/-- The capacity is what was allocated, without the block's own fields, and the offset is not above
it. -/
structure Block.Fits (b : Block) : Prop where
  sound : b.Sound
  offset : b.offset ≤ b.capacity
  size : b.capacity + sizeofBlock = b.size
  address : 16 ∣ b.address

/-- Requests for 2048 refs at most keep it. -/
theorem closed_fits : Closed Note.small Block.Fits where
  relink b r x h := ⟨closed_sound.relink b r x h.sound, h.offset, h.size, h.address⟩
  reset b x h := ⟨closed_sound.reset b x h.sound, Nat.zero_le _, h.size, h.address⟩
  normal env p := by
    refine ⟨closed_sound.normal env p, Nat.zero_le _, ?_, env.aligned p⟩
    norm_num [Block.create, kNormalBlockSize, sizeofBlock]
  take b n h hspace _ := by
    have hcap := h.sound.capacity
    refine ⟨closed_sound.take b n h.sound hspace trivial, ?_, h.size, h.address⟩
    rw [b.leftSpace_eq (by omega) h.offset] at hspace
    have hoff := h.offset
    simp only [Block.take]
    omega
  big env p n hn hlarge hsmall := by
    have hsmall : n ≤ 2048 := hsmall
    refine ⟨closed_sound.big env p n hn hlarge trivial, ?_, ?_, env.aligned p⟩
    · simp only [Block.take, Block.create, sizeofBlock, arrayBytes_eq]
      omega
    · simp only [Block.take, Block.create, sizeofBlock, arrayBytes_eq]
      omega
  fill b left data h hfull hleft := by
    have hlt := b.lt_of_not_full h.sound hfull
    have hcap := h.sound.capacity
    have hdvd := h.sound.dvd
    refine ⟨closed_sound.fill b left data h.sound hfull hleft, ?_, h.size, h.address⟩
    rw [b.leftSpace_eq (by omega) h.offset] at hleft
    simp only
    omega
  write b data h := ⟨closed_sound.write b data h.sound, h.offset, h.size, h.address⟩
  advance b n h hle hn := by
    have hcap := h.sound.capacity
    refine ⟨closed_sound.advance b n h.sound hle hn, ?_, h.size, h.address⟩
    rw [b.leftSpace_eq (by omega) hle] at hn
    simp only
    omega

/-- A new block for at most 2048 refs has space for them. -/
theorem newBlock_room {env : Env} {p n : Nat} (hn : n ≤ 2048) :
    arrayBytes n ≤ (Block.create env p (newBlockSize n % 2 ^ 32)).capacity := by
  have hsize : newBlockSize n = if n * 16 + 32 < 8168 then 8192 else n * 16 + 56 := rfl
  rw [hsize]
  simp only [Block.create, sizeofBlock, arrayBytes_eq]
  split
  · omega
  · omega

/-- The block chosen for a ring of at most 2048 refs has space for it. -/
theorem Chosen.room {w : World} {n : Nat} {b : Block} (h : Chosen w n b) (hn : n ≤ 2048)
    (hfits : ∀ p b, w.block p = some b → b.Fits) : b.offset + arrayBytes n ≤ b.capacity := by
  rcases h with ⟨_, p, hb, hspace⟩ | ⟨x, rfl⟩
  · have hb := hfits p b hb
    have hcap := hb.sound.capacity
    rw [b.leftSpace_eq (by omega) hb.offset] at hspace
    have hoff := hb.offset
    omega
  · have hroom := @newBlock_room w.env (w.mallocs + 1) n hn
    show 0 + arrayBytes n ≤ _
    rw [Nat.zero_add]
    exact hroom

/-- Storage with space for one ref more than the ring has is inside the block. -/
theorem storage_in_block {b : Block} {n : Nat} (hroom : b.offset + arrayBytes n ≤ b.capacity)
    (hsize : b.capacity + sizeofBlock = b.size) : b.holdsArray n = true := by
  refine decide_eq_true ?_
  simp only [Block.arrayAddress, sizeofBlock, sizeofBlockRefArray, sizeofBlockRef,
      arrayBytes_eq] at hroom hsize ⊢
  omega

/-! ## `read_from_fd`, from any list -/

section Reads
variable {w w' : World} {L : List Nat} {H : Multiset Nat} {count : Nat} {bytes : List UInt8}
  {refs : List BlockRef}

theorem length_of_takeBytes {p : Nat} {iov : List Iovec}
    (hrun : (takeBytes p iov bytes).run w = some (refs, w')) : bytes.length ≤ offered iov := by
  rw [takeBytes] at hrun
  split at hrun
  · rename_i hnil
    rw [hnil]
    exact Nat.zero_le _
  · obtain ⟨_, w₁, hcheck, _⟩ := run_bind_some.mp hrun
    rw [check] at hcheck
    split at hcheck
    · assumption
    · cases hcheck

/-- The refs on what was read lie above what anybody held of their blocks, each in another block. -/
theorem readRefs_run (h : Refs w L H) (hs : w.AllSound) (hfits : ∀ p b, w.block p = some b → b.Fits)
    (hsmall : w.Only Note.small) (hrun : (readRefs count bytes).run w = some (refs, w')) : ∃ L' K,
    Refs w' L' (blocks refs + (K + H)) ∧ (w'.Only Note.noLeak → K = 0) ∧
      (Evolves w L w' L' fun q => q ∈ H) ∧ AllValid w' refs ∧ content w' refs = bytes ∧
      (refs.map BlockRef.block).Nodup ∧ ∀ ref ∈ refs, Above w H ref := by
  obtain ⟨⟨p, iov⟩, w₂, hoffer, htake⟩ := run_bind_some.mp hrun
  have hsmall₂ : w₂.Only Note.small := Notes.offerBlocks quiet_small w _ w₂ hsmall hoffer
  obtain ⟨q, w₁, hacquire, hrest⟩ := run_bind_some.mp hoffer
  obtain ⟨L₁, K, h₁, hK, ⟨hqL, rfl⟩, _, hev₁⟩ := (acquireBlock_spec h).of_run hacquire
  obtain ⟨hp, new, used, rest, hsplit, h₂, hiov, hused, hlinked⟩ :=
    (offerRest_spec h₁ (List.ne_nil_of_mem hqL)).of_run hrest
  have hev₂ := hev₁.trans hlinked.evolves (S := fun q => q ∈ H) fun q hq => ⟨hq, trivial⟩
  rw [hsplit] at h₂ hev₂
  have hfits₂ := hev₂.all _ _ closed_fits (fun _ => hfits) hsmall₂
  obtain ⟨L', haccounts, _, hev₃, hoffset, _⟩ := (takeBytes_spec h₂ (hev₂.sound hs)
    (fun q _ b hb => (hfits₂ q b hb).offset) hused hp hiov (length_of_takeBytes htake)).of_run htake
  refine ⟨L', K, haccounts.counts, fun hno => hK ?_, hev₂.trans hev₃ fun q hq => ⟨hq, trivial⟩,
    haccounts.valid, haccounts.bytes, ?_, fun ref href b hH hb hsound hle => ?_⟩
  · exact hno.mono (hlinked.evolves.notes.suffix.trans hev₃.notes.suffix)
  · rw [haccounts.blocks]
    exact h₂.chain.nodup.sublist (List.take_sublist _ _)
  · obtain ⟨b₂, hb₂, _, hlater, _⟩ := hev₂.kept _ hH b hb
    rw [hoffset ref href, offset_eq hb₂]
    exact (hlater hsound hle).offset

end Reads

/-! ## The system -/

namespace BlockRef

/-- The offset is one of those the ref covers. -/
def Covers (ref : BlockRef) (o : Nat) : Prop := ref.offset ≤ o ∧ o < ref.offset + ref.length

/-- No place is covered by both. -/
def Apart (ref ref' : BlockRef) : Prop :=
  ref.block = ref'.block → ∀ o, ¬ (ref.Covers o ∧ ref'.Covers o)

end BlockRef

namespace Sharing

/-- A ref somebody holds, the bytes that were stored when it was produced, and for each of them the
write that stored it. -/
structure Item where
  ref : BlockRef
  bytes : List UInt8
  writes : List Nat
  deriving DecidableEq

/-- A ref on the bytes of one write. -/
def Item.one (ref : BlockRef) (bytes : List UInt8) (i : Nat) : Item :=
  ⟨ref, bytes, List.replicate ref.length i⟩

/-- The refs of `read_from_fd`, on the bytes read, each with a write of its own. -/
def Item.several : List BlockRef → List UInt8 → Nat → List Item
  | [], _, _ => []
  | ref :: refs, bytes, i =>
      .one ref (bytes.take ref.length) i :: several refs (bytes.drop ref.length) (i + 1)

structure State where
  world : World
  /-- Handed out by `acquire_block_ref`, and not returned. -/
  lent : Multiset BlockRef
  held : Multiset Item
  /-- The next write. -/
  write : Nat

inductive Call where
  | append (buf : List UInt8)
  | read (count : Nat) (bytes : List UInt8)
  | lend
  /-- The caller writes to a block it was handed out. -/
  | fill (ref : BlockRef) (data : List UInt8)
  /-- The first `n` bytes of the ref are returned. -/
  | giveBack (ref : BlockRef) (n : Nat)
  | array (n : Nat)
  | copy (x : Item)
  | merge (x y : Item)
  | release (x : Item)

/-- Storage for 2048 refs at most. -/
def Call.Small : Call → Prop
  | array n => n ≤ 2048
  | _ => True

/-- `append_ref` counts the ref that `append` copied bytes for. -/
def appendCopied (buf : List UInt8) : Program BlockRef := do
  let ref ← copyIn buf
  incRef ref.block
  pure ref

/-- `memcpy(ref.begin(), data, length of data)` -/
def fillRef (ref : BlockRef) (data : List UInt8) : Program Unit := do
  let b ← load ref.block
  store ref.block { b with data := writeBytes b.data ref.offset data }

inductive Step (s : State) : Call → State → Prop
  | append {buf : List UInt8} {ref : BlockRef} {w : World} :
      (appendCopied buf).run s.world = some (ref, w) →
      Step s (.append buf) { s with
        world := w, held := .one ref (buf.take ref.length) s.write ::ₘ s.held
        write := s.write + 1 }
  | read {count : Nat} {bytes : List UInt8} {refs : List BlockRef} {w : World} :
      (readRefs count bytes).run s.world = some (refs, w) →
      Step s (.read count bytes) { s with
        world := w, held := Item.several refs bytes s.write + s.held,
        write := s.write + refs.length }
  | lend {ref : BlockRef} {w : World} : acquireBlockRef.run s.world = some (ref, w) →
      Step s .lend { s with world := w, lent := ref ::ₘ s.lent }
  | fill {ref : BlockRef} {data : List UInt8} {w : World} : ref ∈ s.lent →
      data.length ≤ ref.length → (fillRef ref data).run s.world = some (⟨⟩, w) →
      Step s (.fill ref data) { s with world := w }
  | giveBack {ref : BlockRef} {n : Nat} {w : World} : ref ∈ s.lent → n ≤ ref.length →
      (returnBlockRef { ref with length := n }).run s.world = some (⟨⟩, w) →
      Step s (.giveBack ref n)
        { world := w, lent := s.lent.erase ref, write := s.write + 1
          held := .one { ref with length := n }
            (Buffer.bytes s.world { ref with length := n }) s.write ::ₘ s.held }
  | array {n address : Nat} {ref : BlockRef} {w : World} : 32 ∣ n ∨ n ≤ 2048 →
      (acquireBlockRefArray n).run s.world = some ((address, ref), w) →
      Step s (.array n) { s with
        world := w, held := .one ref (Buffer.bytes w ref) s.write ::ₘ s.held, write := s.write + 1 }
  | copy {x : Item} {w : World} : x ∈ s.held → (incRef x.ref.block).run s.world = some (⟨⟩, w) →
      Step s (.copy x) { s with world := w, held := x ::ₘ s.held }
  | merge {x y : Item} {ref : BlockRef} {w : World} : x ∈ s.held → y ∈ s.held.erase x →
      x.ref.merge y.ref = some ref → y.ref.release.run s.world = some (⟨⟩, w) →
      Step s (.merge x y) { s with
        world := w
        held := ⟨ref, x.bytes ++ y.bytes, x.writes ++ y.writes⟩ ::ₘ (s.held.erase x).erase y }
  | release {x : Item} {w : World} : x ∈ s.held → x.ref.release.run s.world = some (⟨⟩, w) →
      Step s (.release x) { s with world := w, held := s.held.erase x }

/-- From an empty cache. -/
def system (env : Env) : System State Call where
  init s := s = { world := .initial env, lent := 0, held := 0, write := 0 }
  step := Step

/-! ### What holds of the refs -/

/-- The blocks of the refs that are held. -/
def refs (M : Multiset Item) : Multiset Nat := M.map fun x => x.ref.block

/-- The write that stored the byte at the offset `o`. -/
def Item.writeAt (x : Item) (o : Nat) : Option Nat := x.writes[o - x.ref.offset]?

/-- Where both refs are, the same write was. -/
def Item.Agrees (x y : Item) : Prop :=
  x.ref.block = y.ref.block → ∀ o, x.ref.Covers o → y.ref.Covers o → x.writeAt o = y.writeAt o

/-- The ref covers what was stored, by writes before `i`. -/
structure Item.Sound (w : World) (i : Nat) (x : Item) : Prop where
  valid : Valid w x.ref
  bytes : Buffer.bytes w x.ref = x.bytes
  length : x.writes.length = x.ref.length
  before : ∀ k ∈ x.writes, k < i

structure Inv (s : State) (L : List Nat) : Prop where
  holds : Holds s.world L (Lending.blocks s.lent + refs s.held)
  small : s.world.Only Note.small
  fits : ∀ p b, s.world.block p = some b → b.Fits
  lent : ∀ ref ∈ s.lent, Lent s.world L ref
  nodup : (Lending.blocks s.lent).Nodup
  items : ∀ x ∈ s.held, x.Sound s.world s.write
  agree : ∀ x ∈ s.held, ∀ y ∈ s.held, x.Agrees y

section Items
variable {w w' : World} {L L' : List Nat} {S : Nat → Prop} {H : Multiset Nat} {M N : Multiset Item}
  {x y z : Item} {ref : BlockRef} {i k : Nat} {b : List UInt8}

@[simp] theorem refs_zero : refs 0 = 0 := rfl

@[simp] theorem refs_cons : refs (x ::ₘ M) = x.ref.block ::ₘ refs M := Multiset.map_cons ..

@[simp] theorem refs_add : refs (M + N) = refs M + refs N := Multiset.map_add ..

theorem mem_refs (h : x ∈ M) : x.ref.block ∈ refs M := Multiset.mem_map_of_mem _ h

theorem refs_erase (h : x ∈ M) : refs M = x.ref.block ::ₘ refs (M.erase x) := by
  rw [← refs_cons, Multiset.cons_erase h]

namespace Item

theorem Agrees.refl (x : Item) : x.Agrees x := fun _ _ _ _ => rfl

theorem Agrees.symm (h : x.Agrees y) : y.Agrees x := fun heq o hy hx => (h heq.symm o hx hy).symm

/-- A ref that starts where the other has ended. -/
theorem Agrees.of_above (h : y.ref.block = x.ref.block →
    y.ref.offset + y.ref.length ≤ x.ref.offset) :
    x.Agrees y := by
  intro heq o hx hy
  have hend := h heq.symm
  exact absurd (hy.2.trans_le (hend.trans hx.1)) (lt_irrefl o)

/-- Two refs that were stored by different writes cover different places. -/
theorem Agrees.apart (h : x.Agrees y) (hx : x.Sound w i) (hdis : x.writes.Disjoint y.writes) :
    x.ref.Apart y.ref := by
  rintro heq o ⟨hxo, hyo⟩
  have hlt : o - x.ref.offset < x.writes.length := by
    rw [hx.length]
    have := hxo.1
    have := hxo.2
    omega
  have hsome : x.writeAt o = some x.writes[o - x.ref.offset] := List.getElem?_eq_getElem hlt
  have hother := (h heq o hxo hyo).symm.trans hsome
  exact hdis (List.getElem_mem hlt) (List.mem_of_getElem? hother)

theorem Sound.mono (h : x.Sound w i) (hle : i ≤ k) : x.Sound w k :=
  ⟨h.valid, h.bytes, h.length, fun j hj => (h.before j hj).trans_le hle⟩

theorem Sound.evolves (h : x.Sound w i) (hs : w.AllSound) (hev : Evolves w L w' L' S)
    (hS : S x.ref.block) : x.Sound w' i := by
  obtain ⟨hvalid, hbytes⟩ := h.valid.evolves hs hev hS
  exact ⟨hvalid, hbytes.trans h.bytes, h.length, h.before⟩

theorem Sound.one (hvalid : Valid w ref) (hbytes : Buffer.bytes w ref = b) :
    (one ref b i).Sound w (i + 1) where
  valid := hvalid
  bytes := hbytes
  length := List.length_replicate
  before _ hk := (List.eq_of_mem_replicate hk).symm ▸ Nat.lt_succ_self i

/-- The ref of what was merged. -/
theorem Sound.merge (hx : x.Sound w i) (hy : y.Sound w i) (hs : w.AllSound)
    (hm : x.ref.merge y.ref = some ref) :
    (⟨ref, x.bytes ++ y.bytes, x.writes ++ y.writes⟩ : Item).Sound w i := by
  have hl : AllValid w [x.ref] := fun r hr => List.mem_singleton.mp hr ▸ hx.valid
  obtain ⟨hvalid, hcontent, hlen⟩ := content_snoc hl hy.valid hs (.merged (t := []) rfl hm)
  simp only [List.nil_append, content_cons, content_nil, List.append_nil, lengths_cons, lengths_nil,
    Nat.add_zero] at hcontent hlen
  refine ⟨hvalid ref List.mem_cons_self, ?_, ?_, fun k hk => ?_⟩
  · rw [hcontent, hx.bytes, hy.bytes]
  · rw [List.length_append, hx.length, hy.length, hlen]
  · exact (List.mem_append.mp hk).elim (hx.before k) (hy.before k)

/-- It agrees with whatever the two agree with. -/
theorem Agrees.merge (hx : x.Sound w i) (hy : y.Sound w i) (hs : w.AllSound)
    (hm : x.ref.merge y.ref = some ref) (hxz : x.Agrees z) (hyz : y.Agrees z) :
    (⟨ref, x.bytes ++ y.bytes, x.writes ++ y.writes⟩ : Item).Agrees z := by
  have hlx := hx.valid.length_lt hs
  have hly := hy.valid.length_lt hs
  obtain ⟨hblock, hadj, rfl⟩ := merge_eq hm
  intro heq o ho hz
  have heq : x.ref.block = z.ref.block := heq
  have hlo : x.ref.offset ≤ o := ho.1
  have hhi : o < x.ref.offset + (x.ref.length + y.ref.length) % 2 ^ 32 := ho.2
  rw [Nat.mod_eq_of_lt (by omega)] at hadj
  show (x.writes ++ y.writes)[o - x.ref.offset]? = _
  rcases Nat.lt_or_ge o (x.ref.offset + x.ref.length) with hlt | hge
  · rw [List.getElem?_append_left (by rw [hx.length]; omega)]
    exact hxz heq o ⟨hlo, hlt⟩ hz
  · rw [List.getElem?_append_right (by rw [hx.length]; omega)]
    have hcover : y.ref.Covers o := ⟨by omega, by omega⟩
    rw [← hyz (hblock.symm.trans heq) o hcover hz, writeAt, hx.length, ← hadj, Nat.sub_sub]

theorem several_refs (l : List BlockRef) (b : List UInt8) (i : Nat) :
    (several l b i).map Item.ref = l := by
  induction l generalizing b i with
  | nil => rfl
  | cons r l ih => rw [several, List.map_cons, ih]; rfl

theorem Sound.several {l : List BlockRef} (hvalid : AllValid w l) (hcontent : content w l = b) :
    ∀ x ∈ several l b i, x.Sound w (i + l.length) := by
  induction l generalizing b i with
  | nil => intro x hx; cases hx
  | cons r l ih =>
      intro x hx
      have hlen := length_bytes (hvalid r List.mem_cons_self)
      rw [content_cons] at hcontent
      rw [List.length_cons]
      rcases List.mem_cons.mp hx with rfl | hx
      · refine (Sound.one (hvalid r List.mem_cons_self) ?_).mono (by omega)
        rw [← hcontent, List.take_left' hlen]
      · rw [Nat.add_comm l.length 1, ← Nat.add_assoc]
        refine ih (fun r hr => hvalid r (List.mem_cons_of_mem _ hr)) ?_ x hx
        rw [← hcontent, List.drop_left' hlen]

end Item

end Items

end Sharing

/-! ## The calls on a cache that may have leaked blocks -/

section Calls
variable {w : World} {L : List Nat} {H : Multiset Nat} {ref : BlockRef} {b : Block}

theorem Above.mono {H' : Multiset Nat} (h : Above w H ref) (hsub : ∀ q ∈ H', q ∈ H) :
    Above w H' ref :=
  fun b hq => h b (hsub _ hq)

/-- The space that is handed out is above what is held of the block. -/
theorem Lent.above (h : Lent w L ref) : Above w H ref := by
  intro c _ hc _ _
  obtain ⟨b, hb, _, hoff, _⟩ := h.block
  cases hb.symm.trans hc
  exact hoff.ge

theorem Holds.acquireBlockRef (h : Holds w L H) : Returns acquireBlockRef w fun ref w' => ∃ L',
    Holds w' L' (ref.block ::ₘ H) ∧ Lent w' L' ref ∧ (ref.block ∈ H → ref.block ∈ L) ∧
      Evolves w L w' L' fun q => q ∈ H := by
  obtain ⟨K, hrefs, hK⟩ := h.refs
  refine (acquireBlockRef_spec hrefs h.sound).mono fun ref w' hw => ?_
  obtain ⟨L', hrefs', hlent, hfrom, _, hev⟩ := hw
  have hin : ∀ q ∈ H, q ∈ K + H := fun q hq => Multiset.mem_add.mpr (.inr hq)
  refine ⟨L', h.of_refs hK ?_ hev, hlent, fun hq => hfrom (hin _ hq), hev.mono hin⟩
  rwa [Multiset.add_cons]

/-- `return_block_ref`, of the first `n` bytes of what was handed out. -/
theorem Holds.returnBlockRef (h : Holds w L (ref.block ::ₘ H)) (hl : Lent w L ref) {n : Nat}
    (hn : n ≤ ref.length) : Returns (returnBlockRef { ref with length := n }) w fun _ w' => ∃ L',
      Holds w' L' (ref.block ::ₘ H) ∧ L' ⊆ ref.block :: L ∧ Valid w' { ref with length := n } ∧
      bytes w' { ref with length := n } = bytes w { ref with length := n } ∧
      Evolves w (ref.block :: L) w' L' fun _ => True := by
  obtain ⟨K, hrefs, hK⟩ := h.refs
  obtain ⟨hnot, b, hb, hfull, hoff, hlen⟩ := hl
  have hs := h.sound _ b hb
  have hlt := b.lt_of_not_full hs hfull
  have hcap := hs.capacity
  have hspace := b.leftSpace_eq (by omega) (by omega : b.offset ≤ b.capacity)
  rw [Multiset.add_cons] at hrefs
  have hspec : Returns (PBase.Buffer.returnBlockRef { ref with length := n }) w _ :=
    returnBlockRef_spec hrefs hnot hb hs hfull (hn.trans hlen.le)
  refine hspec.mono fun _ w' hw => ?_
  obtain ⟨L', b', hrefs', hsub, _, ⟨hb', hoff', hcap', hdata⟩, hev⟩ := hw
  refine ⟨L', h.of_refs hK ?_ hev, hsub, ⟨b', hb', ?_, ?_⟩, ?_, hev⟩
  · rw [Multiset.add_cons]
    exact hrefs'
  · simp only at hoff' ⊢
    omega
  · simp only at hoff'
    omega
  · rw [@bytes_eq w' { ref with length := n } b' hb', @bytes_eq w { ref with length := n } b hb,
      hdata]

/-- The caller writes to a block it was handed out, from the offset on. -/
theorem fillRef_spec (h : Holds w L H) (hl : Lent w L ref) (data : List UInt8) :
    Returns (Sharing.fillRef ref data) w fun _ w' => Holds w' L H ∧
    Evolves w L w' L fun _ => True := by
  obtain ⟨K, hrefs, hK⟩ := h.refs
  obtain ⟨hnot, b, hb, hfull, hoff, hlen⟩ := hl
  refine .bind (returns_load hb (returns_store ?_))
  have hev : Evolves w L (w.setBlock ref.block { b with data := writeBytes b.data ref.offset data })
      L
      fun _ => True := by
    refine .update hb rfl .rfl (fun _ _ hc _ hgood => hc.write b _ hgood)
      (fun _ => ⟨rfl, fun _ hle => ⟨le_rfl, hle, fun i hi => ?_⟩, fun _ => ⟨hnot, rfl⟩⟩) fun q _ _
      hq => hq
    simp only [writeBytes]
    rw [if_neg (by omega)]
  refine ⟨h.of_refs hK ?_ hev, hev⟩
  exact hrefs.update (by rw [hb]; rfl) rfl rfl rfl (hrefs.chain_same hb rfl rfl)
      (hrefs.count _ b hb)
    fun _ _ => ⟨rfl, rfl⟩

/-- What `append` copied, and the reference on it. -/
theorem appendCopied_spec (h : Holds w L H) (buf : List UInt8) :
    Returns (Sharing.appendCopied buf) w fun ref w' => ∃ L', Holds w' L' (ref.block ::ₘ H) ∧
      (Evolves w L w' L' fun q => q ∈ H) ∧ Valid w' ref ∧ bytes w' ref = buf.take ref.length ∧
      Above w H ref := by
  refine .bind ((h.copyIn buf).mono fun ref w₁ hw => ?_)
  obtain ⟨L₁, h₁, hmem, hev₁, _, _, ⟨b, hb, hcovered, hfits, hdata⟩, habove⟩ := hw
  refine .bind ((h₁.incRef (.inr hmem)).mono fun _ w₂ hw => .pure ?_)
  obtain ⟨h₂, hev₂⟩ := hw
  have hvalid : Valid w₁ ref := ⟨b, hb, hcovered, hfits⟩
  obtain ⟨hvalid₂, hsame⟩ := hvalid.evolves h₁.sound hev₂ trivial
  exact ⟨L₁, h₂, hev₁.trans hev₂ fun q hq => ⟨hq, trivial⟩, hvalid₂,
    hsame.trans ((bytes_eq hb).trans hdata), habove⟩

/-- Storage for at most 2048 refs, as a ref on it. -/
theorem storage_ref (h : Holds w L H) (hfits : ∀ p b, w.block p = some b → b.Fits) {n : Nat}
    (hn : n ≤ 2048) : Returns (acquireBlockRefArray n) w fun r w' => ∃ L',
      Holds w' L' (r.2.block ::ₘ H) ∧ (Evolves w L w' L' fun _ => True) ∧ Valid w' r.2 ∧
      Above w H r.2 := by
  refine (h.acquireStorage (.inr hn)).mono fun r w' hr => ?_
  obtain ⟨L', b, h', _, hev, hstored⟩ := hr
  have hroom := hstored.chosen.room hn hfits
  obtain ⟨b', hb', _, _, hcap, hoff⟩ := hstored.after
  have hcap' := (h'.sound _ b' hb').capacity
  have hmod : (b.offset + arrayBytes n) % 2 ^ 32 = b.offset + arrayBytes n :=
      Nat.mod_eq_of_lt (by omega)
  have hlen : arrayBytes n % 2 ^ 32 = arrayBytes n := Nat.mod_eq_of_lt (by omega)
  have href := hstored.ref
  refine ⟨L', h', hev, ⟨b', hb', ?_, ?_⟩, fun c _ hc _ _ => ?_⟩
  · rw [href, hoff, hmod]
    exact Nat.add_le_add_left hlen.le _
  · rw [hoff, hmod, hcap]
    exact hroom
  · rw [href]
    rcases hstored.before with hsome | hnone
    · cases hsome.symm.trans hc
      exact le_rfl
    · cases hnone.symm.trans hc

end Calls

/-! ## What every call keeps -/

namespace Sharing

/-- A block that is held before and after was not released in between, and its offset did not go
down. -/
def Stays (s t : State) : Prop := ∀ p ∈ refs s.held, p ∈ refs t.held →
  (∃ ns, t.world.notes = ns ++ s.world.notes ∧ Note.release p ∉ ns) ∧
    ∃ b b', s.world.block p = some b ∧ t.world.block p = some b' ∧ b.offset ≤ b'.offset

section Invariant
variable {s t : State} {L L₀ L' : List Nat} {S : Nat → Prop} {x y : Item} {ref : BlockRef} {n : Nat}

namespace Inv

theorem sound (h : Inv s L) : s.world.AllSound := fun p b hb => (h.fits p b hb).sound

theorem start (env : Env) : Inv { world := .initial env, lent := 0, held := 0, write := 0 } [] where
  holds := ⟨⟨0, by simpa [Lending.blocks, refs] using Refs.initial env, fun _ => rfl⟩,
      fun p b hb => by cases hb⟩
  small n hn := absurd hn List.not_mem_nil
  fits p b hb := by cases hb
  lent ref href := absurd href (Multiset.notMem_zero ref)
  nodup := Multiset.nodup_zero
  items x hx := absurd hx (Multiset.notMem_zero x)
  agree x hx := absurd hx (Multiset.notMem_zero x)

/-- What all calls have in common. -/
theorem next (h : Inv s L) (hev : Evolves s.world L₀ t.world L' S)
    (hS : ∀ p ∈ refs s.held, p ∈ refs t.held → S p)
    (holds : Holds t.world L' (Lending.blocks t.lent + refs t.held))
    (small : t.world.Only Note.small)
    (lent : ∀ ref ∈ t.lent, Lent t.world L' ref) (nodup : (Lending.blocks t.lent).Nodup)
    (items : ∀ x ∈ t.held, x.Sound t.world t.write)
    (agree : ∀ x ∈ t.held, ∀ y ∈ t.held, x.Agrees y) : Inv t L' ∧ Stays s t := by
  have hfits := hev.all _ _ closed_fits (fun _ => h.fits) small
  refine ⟨⟨holds, small, hfits, lent, nodup, items, agree⟩, fun p hp hp' => ?_⟩
  obtain ⟨ns, hns, hrel⟩ := hev.notes
  obtain ⟨b, hb⟩ := h.holds.exists_block (.inl (Multiset.mem_add.mpr (.inr hp)))
  obtain ⟨b', hb', _, hlater, _⟩ := hev.kept p (hS p hp hp') b hb
  have hb₀ := h.fits p b hb
  exact ⟨⟨ns, hns, hrel p (hS p hp hp')⟩, b, b', hb, hb', (hlater hb₀.sound hb₀.offset).offset⟩

/-- Refs are produced, above what is held of their blocks. -/
theorem produce (h : Inv s L) (hev : Evolves s.world L₀ t.world L' S) (hS : ∀ p ∈ refs s.held, S p)
    (holds : Holds t.world L' (Lending.blocks t.lent + refs t.held))
    (small : t.world.Only Note.small)
    (lent : ∀ ref ∈ t.lent, Lent t.world L' ref) (nodup : (Lending.blocks t.lent).Nodup)
    {M : Multiset Item}
    (hheld : t.held = M + s.held) (hwrite : s.write ≤ t.write)
    (hnew : ∀ x ∈ M, x.Sound t.world t.write) (hself : ∀ x ∈ M, ∀ y ∈ M, x.Agrees y)
    (habove : ∀ x ∈ M, Above s.world (refs s.held) x.ref) : Inv t L' ∧ Stays s t := by
  have hother : ∀ x ∈ M, ∀ y ∈ s.held, x.Agrees y := by
    intro x hx y hy
    refine .of_above fun heq => ?_
    obtain ⟨b, hb, hend, hcap⟩ := (h.items y hy).valid
    rw [heq] at hb
    exact hend.trans (habove x hx b (heq ▸ mem_refs hy) hb (h.sound _ b hb) hcap)
  refine h.next hev (fun p hp _ => hS p hp) holds small lent nodup (fun x hx => ?_) fun x hx y hy =>
      ?_
  · rw [hheld] at hx
    rcases Multiset.mem_add.mp hx with hx | hx
    · exact hnew x hx
    · exact ((h.items x hx).evolves h.sound hev (hS _ (mem_refs hx))).mono hwrite
  · rw [hheld] at hx hy
    rcases Multiset.mem_add.mp hx with hx | hx
    · rcases Multiset.mem_add.mp hy with hy | hy
      · exact hself x hx y hy
      · exact hother x hx y hy
    · rcases Multiset.mem_add.mp hy with hy | hy
      · exact (hother y hy x hx).symm
      · exact h.agree x hx y hy

/-- One ref is produced. -/
theorem produceOne (h : Inv s L) (hev : Evolves s.world L₀ t.world L' S)
    (hS : ∀ p ∈ refs s.held, S p)
    (holds : Holds t.world L' (ref.block ::ₘ (Lending.blocks t.lent + refs s.held)))
    (small : t.world.Only Note.small)
    (lent : ∀ ref ∈ t.lent, Lent t.world L' ref) (nodup : (Lending.blocks t.lent).Nodup)
    {bytes : List UInt8}
    (hheld : t.held = .one ref bytes s.write ::ₘ s.held) (hwrite : t.write = s.write + 1)
    (hvalid : Valid t.world ref) (hbytes : Buffer.bytes t.world ref = bytes)
    (habove : Above s.world (refs s.held) ref) : Inv t L' ∧ Stays s t := by
  refine h.produce hev hS ?_ small lent nodup (M := {.one ref bytes s.write}) ?_ ?_ ?_ ?_ ?_
  · rw [hheld, refs_cons, Multiset.add_cons]
    exact holds
  · rw [hheld, Multiset.singleton_add]
  · rw [hwrite]
    exact Nat.le_succ _
  · intro x hx
    rw [Multiset.mem_singleton.mp hx, hwrite]
    exact .one hvalid hbytes
  · intro x hx y hy
    rw [Multiset.mem_singleton.mp hx, Multiset.mem_singleton.mp hy]
    exact .refl _
  · intro x hx
    rw [Multiset.mem_singleton.mp hx]
    exact habove

/-- The refs that are handed out stay so. -/
theorem lent_evolves (h : Inv s L) {w : World} (hev : Evolves s.world L w L' S)
    (hS : ∀ p ∈ Lending.blocks s.lent, S p) : ∀ ref ∈ s.lent, Lent w L' ref := fun ref href =>
  (h.lent ref href).evolves hev (hS _ (Lending.mem_blocks href))

/-- `append`'s copy step -/
theorem append (h : Inv s L) (buf : List UInt8) : Returns (appendCopied buf) s.world fun ref w =>
    ∃ L',
      let t := { s with
        world := w, held := .one ref (buf.take ref.length) s.write ::ₘ s.held
        write := s.write + 1 }
      Inv t L' ∧ Stays s t := by
  have hnotes : Notes Note.small (appendCopied buf) :=
    .bind (Notes.copyIn quiet_small) fun _ => .bind Notes.incRef fun _ => .pure _
  refine ((appendCopied_spec h.holds buf).and_preserves hnotes h.small).mono fun ref w hw => ?_
  obtain ⟨⟨L', holds, hev, hvalid, hbytes, habove⟩, hsmall⟩ := hw
  have hlent := h.lent_evolves hev fun p hp => Multiset.mem_add.mpr (.inl hp)
  exact ⟨L', h.produceOne hev (fun p hp => Multiset.mem_add.mpr (.inr hp)) holds hsmall hlent
      h.nodup rfl rfl
    hvalid hbytes (habove.mono fun p hp => Multiset.mem_add.mpr (.inr hp))⟩

/-- `read_from_fd`, up to `append_ref` -/
theorem read (h : Inv s L) {count : Nat} {bytes : List UInt8} {l : List BlockRef} {w : World}
    (hrun : (readRefs count bytes).run s.world = some (l, w)) : ∃ L', let t := { s with
      world := w, held := Item.several l bytes s.write + s.held, write := s.write + l.length }
    Inv t L' ∧ Stays s t := by
  have hsmall : w.Only Note.small := Notes.readRefs quiet_small _ _ _ h.small hrun
  obtain ⟨K, hrefs, hK⟩ := h.holds.refs
  obtain ⟨L', K', hrefs', hK', hev, hvalid, hcontent, hnodup, habove⟩ :=
    readRefs_run hrefs h.sound h.fits h.small hrun
  have hin : ∀ p ∈ refs s.held, p ∈ K + (Lending.blocks s.lent + refs s.held) := fun p hp =>
    Multiset.mem_add.mpr (.inr (Multiset.mem_add.mpr (.inr hp)))
  have hlent := h.lent_evolves hev fun p hp =>
    Multiset.mem_add.mpr (.inr (Multiset.mem_add.mpr (.inl hp)))
  have hall := Item.several_refs l bytes s.write
  have hmap : (Item.several l bytes s.write).map (fun x => x.ref.block) = l.map BlockRef.block :=
    List.map_map.symm.trans (congrArg _ hall)
  have hblocks : refs ↑(Item.several l bytes s.write) = blocks l := congrArg Multiset.ofList hmap
  have hmem : ∀ x ∈ Item.several l bytes s.write, x.ref ∈ l :=
      fun x hx => hall ▸ List.mem_map_of_mem hx
  refine ⟨L', h.produce hev hin ?_ hsmall hlent h.nodup rfl (Nat.le_add_right _ _)
    (Item.Sound.several hvalid hcontent) (fun x hx y hy heq o hxo hyo => ?_) fun x hx => ?_⟩
  · refine ⟨⟨K' + K, ?_, fun hno => ?_⟩, hev.sound h.sound⟩
    · rw [refs_add, hblocks, add_left_comm (Lending.blocks _), add_assoc, add_left_comm K,
        add_left_comm K']
      exact hrefs'
    · rw [hK' hno, hK (hno.mono hev.notes.suffix), add_zero]
  · -- the refs of one call are on different blocks
    rw [← hmap] at hnodup
    have heq : x = y := List.inj_on_of_nodup_map hnodup hx hy heq
    rw [heq]
  · exact (habove x.ref (hmem x hx)).mono hin

/-- `acquire_block_ref` -/
theorem lend (h : Inv s L) : Returns acquireBlockRef s.world fun ref w => ∃ L',
    let t := { s with world := w, lent := ref ::ₘ s.lent }
    Inv t L' ∧ Stays s t := by
  refine (h.holds.acquireBlockRef.and_preserves (Notes.acquireBlockRef quiet_small) h.small).mono
    fun ref w hw => ?_
  obtain ⟨⟨L', holds, hlent, hfrom, hev⟩, hsmall⟩ := hw
  have hout := h.lent_evolves hev fun p hp => Multiset.mem_add.mpr (.inl hp)
  refine ⟨L', h.produce (M := 0) hev (fun p hp => Multiset.mem_add.mpr (.inr hp)) ?_ hsmall ?_ ?_
    (zero_add _).symm le_rfl ?_ ?_ ?_⟩
  · rw [Lending.blocks_cons, Multiset.cons_add]
    exact holds
  · intro r hr
    rcases Multiset.mem_cons.mp hr with rfl | hr
    · exact hlent
    · exact hout r hr
  · -- a block that is out is not on the list, so it is not handed out again
    rw [Lending.blocks_cons, Multiset.nodup_cons]
    refine ⟨fun hmem => ?_, h.nodup⟩
    obtain ⟨r, hr, heq⟩ := Multiset.mem_map.mp hmem
    exact (h.lent r hr).unlisted (heq ▸ hfrom (Multiset.mem_add.mpr (.inl hmem)))
  · intro x hx
    exact absurd hx (Multiset.notMem_zero x)
  · intro x hx
    exact absurd hx (Multiset.notMem_zero x)
  · intro x hx
    exact absurd hx (Multiset.notMem_zero x)

/-- A write to the space that is handed out. -/
theorem fill (h : Inv s L) (hmem : ref ∈ s.lent) (data : List UInt8) :
    Returns (fillRef ref data) s.world fun _ w => ∃ L',
      let t := { s with world := w }
      Inv t L' ∧ Stays s t := by
  have hnotes : Notes Note.small (fillRef ref data) := .bind Notes.load fun _ => Notes.store
  refine ((fillRef_spec h.holds (h.lent ref hmem) data).and_preserves hnotes h.small).mono
    fun _ w hw => ?_
  obtain ⟨⟨holds, hev⟩, hsmall⟩ := hw
  have hitems : ∀ x ∈ s.held, x.Sound w s.write :=
      fun x hx => (h.items x hx).evolves h.sound hev trivial
  exact ⟨L, h.next hev (fun _ _ _ => trivial) holds hsmall (h.lent_evolves hev fun _ _ => trivial)
    h.nodup hitems h.agree⟩

/-- `return_block_ref`, of a part of what was handed out. -/
theorem giveBack (h : Inv s L) (hmem : ref ∈ s.lent) (hn : n ≤ ref.length) :
    Returns (returnBlockRef { ref with length := n }) s.world fun _ w => ∃ L',
      let t :=
        { world := w, lent := s.lent.erase ref, write := s.write + 1
          held := .one { ref with length := n }
            (Buffer.bytes s.world { ref with length := n }) s.write ::ₘ s.held }
      Inv t L' ∧ Stays s t := by
  have hcons : s.lent = ref ::ₘ s.lent.erase ref := (Multiset.cons_erase hmem).symm
  have hblocks : Lending.blocks s.lent = ref.block ::ₘ Lending.blocks (s.lent.erase ref) := by
    rw [← Lending.blocks_cons, ← hcons]
  have hnodup := h.nodup
  rw [hblocks, Multiset.nodup_cons] at hnodup
  have holds := h.holds
  rw [hblocks, Multiset.cons_add] at holds
  have hlent := h.lent ref hmem
  refine ((holds.returnBlockRef hlent hn).and_preserves (Notes.returnBlockRef quiet_small)
      h.small).mono
    fun _ w hw => ?_
  obtain ⟨⟨L', holds', hsub, hvalid, hbytes, hev⟩, hsmall⟩ := hw
  replace holds' : Holds w L' (({ ref with length := n } : BlockRef).block ::ₘ _) := holds'
  refine ⟨L', h.produceOne hev (fun _ _ => trivial) holds' hsmall (fun r hr => ?_) hnodup.2 rfl rfl
      hvalid
    hbytes hlent.above⟩
  have hne : r.block ≠ ref.block := fun heq => hnodup.1 (heq ▸ Lending.mem_blocks hr)
  obtain ⟨hr', hblock⟩ := h.lent r (Multiset.mem_of_mem_erase hr)
  exact Lent.evolves ⟨List.not_mem_cons_of_ne_of_not_mem hne hr', hblock⟩ hev trivial

/-- `acquire_block_ref_array`, for at most 2048 refs. -/
theorem array (h : Inv s L) (hn : n ≤ 2048) : Returns (acquireBlockRefArray n) s.world fun r w =>
    ∃ L',
    let t := { s with
      world := w, held := .one r.2 (Buffer.bytes w r.2) s.write ::ₘ s.held, write := s.write + 1 }
    Inv t L' ∧ Stays s t := by
  have hnotes : Notes Note.small (acquireBlockRefArray n) := Notes.acquireBlockRefArray fun _ => hn
  refine ((storage_ref h.holds h.fits hn).and_preserves hnotes h.small).mono fun r w hw => ?_
  obtain ⟨⟨L', holds, hev, hvalid, habove⟩, hsmall⟩ := hw
  exact ⟨L', h.produceOne hev (fun _ _ => trivial) holds hsmall
      (h.lent_evolves hev fun _ _ => trivial)
    h.nodup rfl rfl hvalid rfl (habove.mono fun p hp => Multiset.mem_add.mpr (.inr hp))⟩

/-- A copy of a ref. -/
theorem copy (h : Inv s L) (hx : x ∈ s.held) : Returns (incRef x.ref.block) s.world fun _ w => ∃ L',
    let t := { s with world := w, held := x ::ₘ s.held }
    Inv t L' ∧ Stays s t := by
  have hheld : x.ref.block ∈ Lending.blocks s.lent + refs s.held :=
    Multiset.mem_add.mpr (.inr (mem_refs hx))
  refine ((h.holds.incRef (.inl hheld)).and_preserves Notes.incRef h.small).mono fun _ w hw => ?_
  obtain ⟨⟨holds, hev⟩, hsmall⟩ := hw
  have hin : ∀ {y}, y ∈ x ::ₘ s.held → y ∈ s.held := fun {y} hy =>
    (Multiset.mem_cons.mp hy).elim (fun heq => heq ▸ hx) id
  refine ⟨L, h.next hev (fun _ _ _ => trivial) ?_ hsmall (h.lent_evolves hev fun _ _ => trivial)
      h.nodup
    (fun y hy => (h.items y (hin hy)).evolves h.sound hev trivial)
    fun y hy z hz => h.agree y (hin hy) z (hin hz)⟩
  rw [refs_cons, Multiset.add_cons]
  exact holds

/-- A reference is dropped, and the refs that are left hold the others. -/
theorem drop (h : Inv s L) {M : Multiset Item}
    (hblocks : refs s.held = ref.block ::ₘ refs M) (hitems : ∀ y ∈ M, y.Sound s.world s.write)
    (hagree : ∀ y ∈ M, ∀ z ∈ M, y.Agrees z) : Returns ref.release s.world fun _ w => ∃ L',
      let t := { s with world := w, held := M }
      Inv t L' ∧ Stays s t := by
  have holds := h.holds
  rw [hblocks, Multiset.add_cons] at holds
  have hne : ref.block ≠ 0 := holds.ne_zero (.inl (Multiset.mem_cons_self _ _))
  have hrelease : ref.release = decRef ref.block := if_neg hne
  rw [hrelease]
  refine (holds.decRef.and_preserves (Notes.decRef quiet_small) h.small).mono fun _ w hw => ?_
  obtain ⟨⟨L', holds', _, hev⟩, hsmall⟩ := hw
  have hin : ∀ p ∈ refs M, p ∈ Lending.blocks s.lent + refs M ∨ p ∈ L := fun p hp =>
    .inl (Multiset.mem_add.mpr (.inr hp))
  exact ⟨L', h.next hev (fun p _ hp => hin p hp) holds' hsmall
    (h.lent_evolves hev fun p hp => .inl (Multiset.mem_add.mpr (.inl hp))) h.nodup
    (fun y hy => (hitems y hy).evolves h.sound hev (hin _ (mem_refs hy))) hagree⟩

/-- A ref is released. -/
theorem release (h : Inv s L) (hx : x ∈ s.held) : Returns x.ref.release s.world fun _ w => ∃ L',
    let t := { s with world := w, held := s.held.erase x }
    Inv t L' ∧ Stays s t := by
  have hin : ∀ {y}, y ∈ s.held.erase x → y ∈ s.held := Multiset.mem_of_mem_erase
  exact h.drop (refs_erase hx) (fun y hy => h.items y (hin hy)) fun y hy z hz =>
      h.agree y (hin hy) z (hin hz)

/-- Two adjacent refs are merged, and one of their references is dropped. -/
theorem merge (h : Inv s L) (hx : x ∈ s.held) (hy : y ∈ s.held.erase x)
    (hm : x.ref.merge y.ref = some ref) : Returns y.ref.release s.world fun _ w => ∃ L',
      let t := { s with
        world := w
        held := ⟨ref, x.bytes ++ y.bytes, x.writes ++ y.writes⟩ ::ₘ (s.held.erase x).erase y }
      Inv t L' ∧ Stays s t := by
  have hy' := Multiset.mem_of_mem_erase hy
  have hin : ∀ {z}, z ∈ (s.held.erase x).erase y → z ∈ s.held := fun hz =>
    Multiset.mem_of_mem_erase (Multiset.mem_of_mem_erase hz)
  have hagree : ∀ z ∈ s.held, (⟨ref, x.bytes ++ y.bytes, x.writes ++ y.writes⟩ : Item).Agrees z :=
    fun z hz => .merge (h.items x hx) (h.items y hy') h.sound hm (h.agree x hx z hz)
    (h.agree y hy' z hz)
  refine h.drop ?_ (fun z hz => ?_) fun z hz u hu => ?_
  · rw [refs_erase hx, refs_erase hy, refs_cons, (merge_eq hm).2.2, Multiset.cons_swap]
  · rcases Multiset.mem_cons.mp hz with rfl | hz
    · exact .merge (h.items x hx) (h.items y hy') h.sound hm
    · exact h.items z (hin hz)
  · rcases Multiset.mem_cons.mp hz with rfl | hz
    · rcases Multiset.mem_cons.mp hu with rfl | hu
      · exact .refl _
      · exact hagree u (hin hu)
    · rcases Multiset.mem_cons.mp hu with rfl | hu
      · exact (hagree z (hin hz)).symm
      · exact h.agree z (hin hz) u (hin hu)

theorem step (h : Inv s L) {c : Call} (hs : Step s c t) (hc : c.Small) :
    ∃ L', Inv t L' ∧ Stays s t := by
  cases hs with
  | append hrun => exact (h.append _).of_run hrun
  | read hrun => exact h.read hrun
  | lend hrun => exact h.lend.of_run hrun
  | fill hmem _ hrun => exact (h.fill hmem _).of_run hrun
  | giveBack hmem hn hrun => exact (h.giveBack hmem hn).of_run hrun
  | array _ hrun => exact (h.array hc).of_run hrun
  | copy hx hrun => exact (h.copy hx).of_run hrun
  | merge hx hy hm hrun => exact (h.merge hx hy hm).of_run hrun
  | release hx hrun => exact (h.release hx).of_run hrun

end Inv

end Invariant

section Runs
variable {env : Env} {es : List Call} {s : State}

theorem run_inv (h : ((system env).when fun _ c => c.Small).Run es s) : ∃ L, Inv s L := by
  refine System.Run.invariant (I := fun s => ∃ L, Inv s L) (fun s hs => ?_)
      (fun s c t hs hstep => ?_) h
  · cases hs
    exact ⟨[], .start env⟩
  · obtain ⟨L, hL⟩ := hs
    obtain ⟨L', ht, _⟩ := hL.step hstep.1 hstep.2
    exact ⟨L', ht⟩

/-- **What a ref covers does not change.**  After any calls on one cache, with storage for 2048 refs
at most: every held ref ends at or below the offset of its block, and that is not above the
capacity; the count of a block is at least the refs held on it, and one more if it is on the list; a
block that a call leaves held is not released in it, nor is its offset set back; what different
writes stored is in different places; and every held ref covers the bytes stored when it was
produced. -/
theorem held_immutable (h : ((system env).when fun _ c => c.Small).Run es s) :
    (∀ x ∈ s.held, ∃ b, s.world.block x.ref.block = some b ∧
      x.ref.offset + x.ref.length ≤ b.offset ∧ b.offset ≤ b.capacity) ∧
    (∀ L, Chain s.world.next 0 s.world.head L → ∀ p ∈ refs s.held, ∃ b, s.world.block p = some b ∧
      (((refs s.held).count p + L.count p : Nat) : Int) ≤ b.refNum) ∧
    (∀ c t, Step s c t → c.Small → Stays s t) ∧
    (∀ x ∈ s.held, ∀ y ∈ s.held, x.writes.Disjoint y.writes → x.ref.Apart y.ref) ∧
    ∀ x ∈ s.held, bytes s.world x.ref = x.bytes := by
  obtain ⟨L, hinv⟩ := run_inv h
  refine ⟨fun x hx => (hinv.items x hx).valid, fun L' hL p hp => ?_, fun c t hstep hc => ?_,
    fun x hx y hy hdis => (hinv.agree x hx y hy).apart (hinv.items x hx) hdis,
    fun x hx => (hinv.items x hx).bytes⟩
  · obtain ⟨b, hb⟩ := hinv.holds.exists_block (.inl (Multiset.mem_add.mpr (.inr hp)))
    obtain ⟨K, hrefs, _⟩ := hinv.holds.refs
    cases hrefs.chain.unique hL
    refine ⟨b, hb, ?_⟩
    rw [(hrefs.count p b hb).1, Multiset.count_add, Multiset.count_add]
    omega
  · obtain ⟨_, _, hstays⟩ := hinv.step hstep hc
    exact hstays

end Runs

/-- The ref on a string of three bytes, the first one. -/
def firstItem : Item := .one ⟨0, 3, 1⟩ [1, 2, 3] 0

/-- A string, storage for a ring behind it and a second reference on the string; then a string that
fills the block, one in a second block, and storage that takes a block of its own. -/
theorem run_shared : ∃ s, ((system .plain).when fun _ c => c.Small).Run
    [.append [1, 2, 3], .array 32, .copy firstItem, .append (List.replicate 9000 7), .append [4],
      .array 2048] s ∧ firstItem ∈ s.held ∧ .one ⟨0, 1, 2⟩ [4] 3 ∈ s.held := by
  have hrefs : ((do
      let a ← appendCopied [1, 2, 3]
      let b ← acquireBlockRefArray 32
      incRef 1
      let c ← appendCopied (List.replicate 9000 7)
      let d ← appendCopied [4]
      let e ← acquireBlockRefArray 2048
      pure [a, b.2, c, d, e.2] : Program (List BlockRef)).run (.initial .plain)).map Prod.fst =
      some [⟨0, 3, 1⟩, ⟨8, 544, 1⟩, ⟨552, 7616, 1⟩, ⟨0, 1, 2⟩, ⟨0, 32800, 3⟩] := by decide +kernel
  obtain ⟨⟨_, w⟩, hrun, heq⟩ := Option.map_eq_some_iff.mp hrefs
  obtain ⟨a, w₁, hfirst, hrun⟩ := run_bind_some.mp hrun
  obtain ⟨b, w₂, hring, hrun⟩ := run_bind_some.mp hrun
  obtain ⟨⟨⟩, w₃, hcopy, hrun⟩ := run_bind_some.mp hrun
  obtain ⟨c, w₄, hlong, hrun⟩ := run_bind_some.mp hrun
  obtain ⟨d, w₅, hsecond, hrun⟩ := run_bind_some.mp hrun
  obtain ⟨e, w₆, hlarge, hpure⟩ := run_bind_some.mp hrun
  cases hpure
  simp only [List.cons.injEq, and_true] at heq
  obtain ⟨rfl, _, rfl, rfl, _⟩ := heq
  have h₀ : ((system .plain).when fun _ c => c.Small).Run [] _ := .start rfl
  have h₂ := (h₀.next ⟨.append hfirst, trivial⟩).next
    ⟨.array (.inr (by decide)) hring, show 32 ≤ 2048 by decide⟩
  have hheld : firstItem ∈ (.one b.2 (bytes w₂ b.2) 1 ::ₘ firstItem ::ₘ 0 : Multiset Item) :=
    Multiset.mem_cons_of_mem (Multiset.mem_cons_self _ _)
  have h₃ := h₂.next ⟨.copy hheld hcopy, trivial⟩
  have h := ((h₃.next ⟨.append hlong, trivial⟩).next ⟨.append hsecond, trivial⟩).next
    ⟨.array (.inr (Nat.le_refl _)) hlarge, Nat.le_refl 2048⟩
  refine ⟨_, h, ?_, ?_⟩
  · simp only [Multiset.mem_cons, true_or, or_true]
  · simp only [Multiset.mem_cons]
    exact .inr (.inl rfl)

/-- Then the first string is as it was, and covered by its ref. -/
theorem held_immutable_shared : ∃ s : State, firstItem ∈ s.held ∧
    bytes s.world firstItem.ref = [1, 2, 3] ∧
    ∃ x ∈ s.held, x.ref.block = 2 ∧ bytes s.world x.ref = [4] := by
  obtain ⟨s, h, hfirst, hsecond⟩ := run_shared
  have hbytes := (held_immutable h).2.2.2.2
  exact ⟨s, hfirst, hbytes _ hfirst, _, hsecond, rfl, hbytes _ hsecond⟩

/-! ## Storage for rings -/

/-- The ring of `n` refs at the address is aligned, and inside the memory of the block, behind the
block's own fields. -/
def Inside (n : Nat) (r : Nat × BlockRef) (w : World) : Prop :=
  ∃ b, w.block r.2.block = some b ∧ 16 ∣ r.1 ∧ b.address + sizeofBlock ≤ r.1 ∧
    r.1 + (sizeofBlockRefArray + n * sizeofBlockRef) ≤ b.address + b.size

/-- No block of the list has its offset above its capacity, and that is what was allocated without
the block's own fields. -/
def Fitting (w : World) : Prop := ∀ L, Chain w.next 0 w.head L → ∀ p ∈ L, ∃ b,
  w.block p = some b ∧ b.offset ≤ b.capacity ∧ b.capacity + sizeofBlock = b.size

section Storage
variable {s t : State} {L : List Nat} {n : Nat} {w : World} {r : Nat × BlockRef} {b : Block}

theorem Inv.fitting (h : Inv s L) : Fitting s.world := by
  intro L' hL p hp
  obtain ⟨K, hrefs, _⟩ := h.holds.refs
  cases hrefs.chain.unique hL
  obtain ⟨b, hb⟩ := hrefs.exists_block (.inr hp)
  exact ⟨b, hb, (h.fits p b hb).offset, (h.fits p b hb).size⟩

theorem inside_iff {w' : World} (h : Stored w n r w' b) :
    Inside n r w' ↔ b.holdsArray n = true := by
  obtain ⟨b', hb', haddress, hsize, _⟩ := h.after
  have hplace := h.address
  rw [Inside, Block.holdsArray, decide_eq_true_iff, hplace, ← haddress, ← hsize]
  simp only [Block.arrayAddress, haddress]
  constructor
  · rintro ⟨c, hc, _, hlow, hhigh⟩
    cases hb'.symm.trans hc
    rw [haddress] at hlow hhigh
    exact ⟨(Nat.le_add_right _ _).trans hlow, hhigh⟩
  · rintro ⟨_, hhigh⟩
    refine ⟨b', hb', Nat.dvd_mul_left _ _, ?_, ?_⟩
    · rw [haddress]
      omega
    · rw [haddress]
      exact hhigh

/-- The storage is inside its block, and the list fits afterwards, if and only if it is for 2048
refs at most. -/
theorem Inv.storage_iff (h : Inv s L) {k : Nat} :
    Returns (acquireBlockRefArray (32 * 2 ^ k)) s.world
    fun r w => Inside (32 * 2 ^ k) r w ∧ Fitting w ↔ 32 * 2 ^ k ≤ 2048 := by
  have hdvd : 32 ∣ 32 * 2 ^ k ∨ 32 * 2 ^ k ≤ 2048 := .inl (Nat.dvd_mul_right _ _)
  rcases Nat.lt_or_ge 2048 (32 * 2 ^ k) with hlarge | hsmall
  · -- a new block: its offset is above its capacity, or even the size of the request wrapped
    have hlarge : 4096 ≤ 32 * 2 ^ k := by
      have hk : 6 < k := (Nat.pow_lt_pow_iff_right (show 1 < 2 by decide)).mp (by omega)
      have hpow : 2 ^ 7 ≤ 2 ^ k := Nat.pow_le_pow_right (by decide) hk
      omega
    generalize 32 * 2 ^ k = n at hdvd hlarge
    refine (h.holds.acquireStorage hdvd).mono fun r w hr => iff_of_false ?_ (by omega)
    obtain ⟨L', b, holds, ⟨_, hlisted⟩, _, hstored⟩ := hr
    rintro ⟨hinside, hfitting⟩
    have hlt : n < 2 ^ 28 := hstored.chosen.lt ((inside_iff hstored).mp hinside)
    obtain ⟨K, hrefs, _⟩ := holds.refs
    obtain ⟨b', hb', hoffset, _⟩ := hfitting L' hrefs.chain _ hlisted
    obtain ⟨c, hc, _, _, _, hoff⟩ := hstored.after
    cases hb'.symm.trans hc
    have hcap := (holds.sound _ b' hb').capacity
    rcases hstored.chosen with ⟨hfew, _⟩ | ⟨x, rfl⟩
    · have hfew : n * 16 + 32 < 8 * 1024 - 24 := hfew
      omega
    · have hzero : b'.offset = (0 + arrayBytes n) % 2 ^ 32 := hoff
      rw [arrayBytes_eq] at hzero
      omega
  · generalize 32 * 2 ^ k = n at hdvd hsmall
    obtain ⟨r, w, hrun, L', b, _, _, _, hstored⟩ := h.holds.acquireStorage hdvd
    obtain ⟨L₂, ht, _⟩ := (h.array hsmall).of_run hrun
    have hroom := hstored.chosen.room hsmall h.fits
    obtain ⟨b', hb', _, hsize, hcap, _⟩ := hstored.after
    have hfits := ht.fits _ b' hb'
    refine ⟨r, w, hrun,
        iff_of_true ⟨(inside_iff hstored).mpr (storage_in_block hroom ?_), ht.fitting⟩ hsmall⟩
    rw [← hcap, ← hsize]
    exact hfits.size

end Storage

/-- **Where rings are stored.**  As long as no ring of more than 2048 refs was asked for, no block
of the list has its offset above its capacity.  The next request for 32, 64, 128, … refs is given
storage inside its block, and leaves the list so, if and only if it is for 2048 refs at most. -/
theorem storage_inside_iff {env : Env} {es : List Call} {s : State}
    (h : ((system env).when fun _ c => c.Small).Run es s) : Fitting s.world ∧
      ∀ k, 32 * 2 ^ k < 2 ^ 32 → Returns (acquireBlockRefArray (32 * 2 ^ k)) s.world fun r w =>
        Inside (32 * 2 ^ k) r w ∧ Fitting w ↔ 32 * 2 ^ k ≤ 2048 := by
  obtain ⟨L, hinv⟩ := run_inv h
  exact ⟨hinv.fitting, fun k _ => hinv.storage_iff⟩

/-- After these calls, storage for 64 refs more is inside its block. -/
theorem storage_inside_shared : ∃ s : State, firstItem ∈ s.held ∧ Fitting s.world ∧
    Returns (acquireBlockRefArray 64) s.world fun r w => Inside 64 r w ∧ Fitting w := by
  obtain ⟨s, h, hfirst, _⟩ := run_shared
  obtain ⟨hfitting, hinside⟩ := storage_inside_iff h
  exact ⟨s, hfirst, hfitting, (hinside 1 (by decide)).mono fun r w hr => hr.mpr (by decide)⟩

/-- After a ring of 4096 refs, the offset of a block on the list is above its capacity. -/
theorem storage_overruns : ¬ ∀ (es : List Call) (s : State), (system .plain).Run es s →
    Fitting s.world ∧ ∀ k, 32 * 2 ^ k < 2 ^ 32 →
      Returns (acquireBlockRefArray (32 * 2 ^ k)) s.world fun r w => Inside (32 * 2 ^ k) r w := by
  intro hall
  have h₀ : (system .plain).Run [] { world := .initial .plain, lent := 0, held := 0, write := 0 } :=
    .start rfl
  obtain ⟨⟨address, ref⟩, w, hrun, hiff⟩ := (Inv.start .plain).storage_iff (k := 7)
  have hinside := ((hall [] _ h₀).2 7 (by decide)).of_run hrun
  have h₁ := h₀.next (.array (n := 32 * 2 ^ 7) (.inl (by decide)) hrun)
  exact absurd (hiff.mp ⟨hinside, (hall _ _ h₁).1⟩) (by decide)

end Sharing

end PBase.Buffer
