/-
# `PBase.Buffer.Cache` — what the cache does to the blocks

One specification for each function of the cache: `dec_ref`, `acquire_block`,
`acquire_block_ref_array` and the copy step of `append`.  Each says who holds references
afterwards (`Refs`) and what became of the blocks (`Evolves`):

* a block somebody holds, or the cache keeps, still has the bytes below its offset;
* a held block that is not on the list is not touched, and not listed;
* a property of single blocks that the changes keep (`Closed`) is kept, as long as the notes
  are what it asks for.

`Holds` is `Refs` up to the blocks that `acquire_block` leaked.
-/
import PBase.Buffer.Refs

namespace PBase.Buffer

open PBase.Lib

/-! ## Conditions on a run -/

/-- `acquire_block` does not drop the last reference of a block while the cache takes blocks. -/
def Note.noLeak : Note → Prop
  | drop refNum blockNumber => ¬ (refNum ≤ 1 ∧ blockNumber < kBlockCachedPerThread)
  | _ => True

/-- The storage of every ring is inside its block. -/
def Note.inside : Note → Prop
  | request _ inside => inside = true
  | _ => True

/-- A ring that grows begins at 0, or at a multiple of its new capacity. -/
def Note.aligned : Note → Prop
  | resize begin cap => begin = 0 ∨ 0 < cap ∧ begin % cap = 0
  | _ => True

/-- No ring has more than 2048 refs. -/
def Note.small : Note → Prop
  | request n _ => n ≤ 2048
  | _ => True

namespace World

/-- So far all notes meet `c`. -/
def Only (w : World) (c : Note → Prop) : Prop := ∀ n ∈ w.notes, c n

/-- If all notes meet `c`, then all blocks are `Good`. -/
def All (w : World) (c : Note → Prop) (Good : Block → Prop) : Prop :=
  w.Only c → ∀ p b, w.block p = some b → Good b

theorem Only.mono {w w' : World} {c : Note → Prop} (h : w'.Only c) (hn : w.notes <:+ w'.notes) :
    w.Only c := fun n hmem => h n (hn.subset hmem)

end World

/-! ## Properties of single blocks -/

/-- With a ring of `n` refs put into it. -/
def Block.take (b : Block) (n : Nat) : Block :=
  { b with offset := (b.offset + arrayBytes n) % 2 ^ 32 }

def Block.relink (b : Block) (r : Int) (x : Nat) : Block := { b with refNum := r, next := x }

/-- The changes of a block keep `Good`, if the notes meet `c`. -/
structure Closed (c : Note → Prop) (Good : Block → Prop) : Prop where
  relink : ∀ b r x, Good b → Good (b.relink r x)
  reset : ∀ b x, Good b → Good { b with next := x, offset := 0 }
  normal : ∀ env p, Good (.create env p kNormalBlockSize)
  take : ∀ b n, Good b → arrayBytes n ≤ b.leftSpace → c (.request n (b.holdsArray n)) →
    Good (b.take n)
  big : ∀ env p n, 32 ∣ n ∨ n ≤ 2048 → kNormalBlockPayloadSize ≤ arrayBytes n →
    c (.request n ((Block.create env p ((arrayBytes n + sizeofBlock) % 2 ^ 32)).holdsArray n)) →
    Good ((Block.create env p ((arrayBytes n + sizeofBlock) % 2 ^ 32)).take n)
  fill : ∀ b left data, Good b → b.full = false → left ≤ b.leftSpace →
    Good { b with data := data, offset := (b.offset + left + 7) % 2 ^ 32 / 8 * 8 }
  write : ∀ b data, Good b → Good { b with data := data }
  advance : ∀ b n, Good b → b.offset ≤ b.capacity → n ≤ b.leftSpace →
    Good { b with offset := (b.offset + n) % 2 ^ 32 }

/-- What holds of every block: it has space when it is empty, and an offset beyond the capacity,
that of a block for a large ring, is a multiple of 8. -/
structure Block.Sound (b : Block) : Prop where
  capacity : b.capacity < 2 ^ 16
  pos : 8 ≤ b.capacity
  dvd : 8 ∣ b.capacity
  offset : b.offset ≤ b.capacity ∨ 8 ∣ b.offset ∧ b.offset < 2 ^ 32

theorem Block.lt_of_not_full {b : Block} (hs : b.Sound) (h : b.full = false) :
    b.offset + 7 < b.capacity := by
  have hcap := hs.capacity
  have hoff := hs.offset
  simp only [Block.full, decide_eq_false_iff_not, not_le] at h
  omega

theorem Block.leftSpace_eq {b : Block} (hc : b.capacity < 2 ^ 32) (ho : b.offset ≤ b.capacity) :
    b.leftSpace = b.capacity - b.offset := by
  unfold Block.leftSpace
  omega

theorem arrayBytes_eq (n : Nat) : arrayBytes n = n * 16 + 32 := rfl

theorem closed_sound : Closed (fun _ => True) Block.Sound where
  relink b r x h := ⟨h.capacity, h.pos, h.dvd, h.offset⟩
  reset b x h := ⟨h.capacity, h.pos, h.dvd, .inl (Nat.zero_le _)⟩
  normal env p := by
    refine ⟨?_, ?_, ?_, .inl (Nat.zero_le _)⟩
    all_goals norm_num [Block.create, kNormalBlockSize, sizeofBlock]
  take b n h hspace _ := by
    have hcap := h.capacity
    refine ⟨hcap, h.pos, h.dvd, ?_⟩
    simp only [Block.take]
    rcases h.offset with hle | ⟨hdvd, hlt⟩
    · rw [b.leftSpace_eq (by omega) hle] at hspace
      omega
    · rw [arrayBytes_eq]
      omega
  big env p n hdvd hlarge _ := by
    have hlarge : 8 * 1024 - 24 ≤ n * 16 + 32 := hlarge
    refine ⟨?_, ?_, ?_, .inr ?_⟩
    · simp only [Block.take, Block.create, sizeofBlock, arrayBytes_eq]
      omega
    · simp only [Block.take, Block.create, sizeofBlock, arrayBytes_eq]
      omega
    · simp only [Block.take, Block.create, sizeofBlock, arrayBytes_eq]
      omega
    · simp only [Block.take, Block.create, arrayBytes_eq]
      omega
  fill b left data h hfull hleft := by
    have hlt := b.lt_of_not_full h hfull
    have hcap := h.capacity
    have hdvd := h.dvd
    rw [b.leftSpace_eq (by omega) (by omega)] at hleft
    refine ⟨hcap, h.pos, hdvd, .inl ?_⟩
    simp only
    omega
  write b data h := ⟨h.capacity, h.pos, h.dvd, h.offset⟩
  advance b n h hle hn := by
    have hcap := h.capacity
    rw [b.leftSpace_eq (by omega) hle] at hn
    refine ⟨hcap, h.pos, h.dvd, .inl ?_⟩
    simp only
    omega

/-! ## The blocks later -/

/-- `b'` is `b` later: the bytes below the offset are the same. -/
structure Block.Later (b b' : Block) : Prop where
  offset : b.offset ≤ b'.offset
  fits : b'.offset ≤ b'.capacity
  data : ∀ i < b.offset, b'.data i = b.data i

theorem Block.Later.refl {b : Block} (h : b.offset ≤ b.capacity) : b.Later b :=
  ⟨Nat.le_refl _, h, fun _ _ => rfl⟩

theorem Block.Later.trans {b b' b'' : Block} (h : b.Later b') (h' : b'.Later b'') : b.Later b'' :=
  ⟨Nat.le_trans h.offset h'.offset, h'.fits, fun i hi =>
    (h'.data i (Nat.lt_of_lt_of_le hi h.offset)).trans (h.data i hi)⟩

/-- All blocks are sound. -/
def World.AllSound (w : World) : Prop := ∀ p b, w.block p = some b → b.Sound

/-- Notes are added, and none of the blocks `S` is released. -/
def Extends (S : Nat → Prop) (l l' : List Note) : Prop :=
  ∃ ns, l' = ns ++ l ∧ ∀ p, S p → Note.release p ∉ ns

namespace Extends

variable {S S' : Nat → Prop} {l l' l'' : List Note} {n : Note}

theorem rfl : Extends S l l := ⟨[], Eq.refl l, fun _ _ => List.not_mem_nil⟩

theorem cons (h : Extends S l l') (hn : ∀ p, S p → Note.release p ≠ n) : Extends S l (n :: l') := by
  obtain ⟨ns, heq, hns⟩ := h
  exact ⟨n :: ns, by rw [heq]; simp, fun p hp =>
    List.not_mem_cons_of_ne_of_not_mem (hn p hp) (hns p hp)⟩

theorem trans (h : Extends S l l') (h' : Extends S l' l'') : Extends S l l'' := by
  obtain ⟨ns, heq, hns⟩ := h
  obtain ⟨ns', heq', hns'⟩ := h'
  refine ⟨ns' ++ ns, by rw [heq', heq, List.append_assoc], fun p hp hmem => ?_⟩
  exact (List.mem_append.mp hmem).elim (hns' p hp) (hns p hp)

theorem mono (h : Extends S l l') (hS : ∀ p, S' p → S p) : Extends S' l l' := by
  obtain ⟨ns, heq, hns⟩ := h
  exact ⟨ns, heq, fun p hp => hns p (hS p hp)⟩

theorem suffix (h : Extends S l l') : l <:+ l' := by
  obtain ⟨ns, heq, _⟩ := h
  exact ⟨ns, heq.symm⟩

end Extends

/-- From `w`, where the cache list is `L`, to `w'`, where it is `L'`: the blocks `S`, which
somebody keeps, are there and have the same bytes. -/
structure Keeps (w : World) (L : List Nat) (w' : World) (L' : List Nat) (S : Nat → Prop) :
    Prop where
  notes : Extends S w.notes w'.notes
  kept : ∀ p, S p → ∀ b, w.block p = some b → ∃ b', w'.block p = some b' ∧
    b'.capacity = b.capacity ∧
    (b.Sound → b.offset ≤ b.capacity → b.Later b') ∧
    (p ∉ L → p ∉ L' ∧ b'.offset = b.offset)

/-- And every property that all blocks must have is kept. -/
structure Evolves (w : World) (L : List Nat) (w' : World) (L' : List Nat) (S : Nat → Prop) : Prop
    extends Keeps w L w' L' S where
  all : ∀ c Good, Closed c Good → w.All c Good → w'.All c Good

theorem Block.Sound.later {b b' : Block} (h : b.Sound) (hcap : b'.capacity = b.capacity)
    (hlater : b.Later b') : b'.Sound :=
  ⟨hcap ▸ h.capacity, hcap ▸ h.pos, hcap ▸ h.dvd, .inl hlater.fits⟩

namespace Keeps

variable {w w' w'' : World} {L L' L'' : List Nat} {S S' S'' : Nat → Prop} {p : Nat} {b b' : Block}

theorem refl (w : World) (L : List Nat) (S : Nat → Prop) : Keeps w L w L S :=
  ⟨.rfl, fun _ _ b hb => ⟨b, hb, rfl, fun _ hle => .refl hle, fun hp => ⟨hp, rfl⟩⟩⟩

theorem trans (h : Keeps w L w' L' S') (h' : Keeps w' L' w'' L'' S'')
    (hS : ∀ p, S p → S' p ∧ S'' p) : Keeps w L w'' L'' S := by
  refine ⟨(h.notes.mono fun p hp => (hS p hp).1).trans (h'.notes.mono fun p hp => (hS p hp).2),
    fun p hp b hb => ?_⟩
  obtain ⟨b', hb', hcap, hlater, hoff⟩ := h.kept p (hS p hp).1 b hb
  obtain ⟨b'', hb'', hcap', hlater', hoff'⟩ := h'.kept p (hS p hp).2 b' hb'
  refine ⟨b'', hb'', hcap'.trans hcap, fun hsound hle => ?_, fun hp => ?_⟩
  · have hlater := hlater hsound hle
    exact hlater.trans (hlater' (hsound.later hcap hlater) hlater.fits)
  · exact ⟨(hoff' (hoff hp).1).1, ((hoff' (hoff hp).1).2).trans (hoff hp).2⟩

theorem mono (h : Keeps w L w' L' S) (hS : ∀ p, S' p → S p) : Keeps w L w' L' S' :=
  ⟨h.notes.mono hS, fun p hp => h.kept p (hS p hp)⟩

/-- A block that does not change. -/
theorem kept_same (hb : w'.block p = some b) (hlist : p ∉ L → p ∉ L') :
    ∃ b', w'.block p = some b' ∧ b'.capacity = b.capacity ∧
      (b.Sound → b.offset ≤ b.capacity → b.Later b') ∧ (p ∉ L → p ∉ L' ∧ b'.offset = b.offset) :=
  ⟨b, hb, rfl, fun _ hle => .refl hle, fun hnot => ⟨hlist hnot, rfl⟩⟩

/-- One block changes. -/
theorem update (hb : w.block p = some b) (hblock : w'.block = Function.update w.block p (some b'))
    (hnotes : Extends S w.notes w'.notes)
    (hkept : S p → b'.capacity = b.capacity ∧
      (b.Sound → b.offset ≤ b.capacity → b.Later b') ∧ (p ∉ L → p ∉ L' ∧ b'.offset = b.offset))
    (hlist : ∀ q, q ≠ p → S q → q ∉ L → q ∉ L') : Keeps w L w' L' S := by
  refine ⟨hnotes, fun q hq d hd => ?_⟩
  by_cases hqp : q = p
  · subst hqp
    cases hb.symm.trans hd
    exact ⟨b', by rw [hblock, Function.update_self], hkept hq⟩
  · exact kept_same (by rw [hblock, Function.update_of_ne hqp]; exact hd) (hlist q hqp hq)

end Keeps

namespace Evolves

variable {w w' w'' : World} {L L' L'' : List Nat} {S S' S'' : Nat → Prop} {p : Nat} {b b' : Block}

theorem refl (w : World) (L : List Nat) (S : Nat → Prop) : Evolves w L w L S :=
  ⟨.refl w L S, fun _ _ _ h => h⟩

theorem sound (h : Evolves w L w' L' S) (hs : w.AllSound) : w'.AllSound :=
  h.all _ _ closed_sound (fun _ => hs) fun _ _ => trivial

theorem trans (h : Evolves w L w' L' S') (h' : Evolves w' L' w'' L'' S'')
    (hS : ∀ p, S p → S' p ∧ S'' p) : Evolves w L w'' L'' S :=
  ⟨h.toKeeps.trans h'.toKeeps hS,
    fun c Good hc hall => h'.all c Good hc (h.all c Good hc hall)⟩

theorem mono (h : Evolves w L w' L' S) (hS : ∀ p, S' p → S p) : Evolves w L w' L' S' :=
  ⟨h.toKeeps.mono hS, h.all⟩

/-- No block changes. -/
theorem of_eq (hblock : w'.block = w.block) (hnotes : Extends S w.notes w'.notes)
    (hlist : ∀ p, S p → p ∉ L → p ∉ L') : Evolves w L w' L' S := by
  refine ⟨⟨hnotes, fun p hp b hb => Keeps.kept_same (hblock ▸ hb) (hlist p hp)⟩, ?_⟩
  exact fun c Good _ hall hc p b hb => hall (hc.mono hnotes.suffix) p b (hblock ▸ hb)

/-- One block changes. -/
theorem update (hb : w.block p = some b) (hblock : w'.block = Function.update w.block p (some b'))
    (hnotes : Extends S w.notes w'.notes)
    (hgood : ∀ c Good, Closed c Good → w'.Only c → Good b → Good b')
    (hkept : S p → b'.capacity = b.capacity ∧
      (b.Sound → b.offset ≤ b.capacity → b.Later b') ∧ (p ∉ L → p ∉ L' ∧ b'.offset = b.offset))
    (hlist : ∀ q, q ≠ p → S q → q ∉ L → q ∉ L') : Evolves w L w' L' S := by
  refine ⟨.update hb hblock hnotes hkept hlist, fun c Good hc hall hnc q d hd => ?_⟩
  have hold := hall (hnc.mono hnotes.suffix)
  by_cases hqp : q = p
  · subst hqp
    rw [hblock, Function.update_self] at hd
    cases hd
    exact hgood c Good hc hnc (hold q b hb)
  · rw [hblock, Function.update_of_ne hqp] at hd
    exact hold q d hd

/-- A block that nobody keeps is freed. -/
theorem free (hblock : w'.block = Function.update w.block p none)
    (hnotes : Extends S w.notes w'.notes) (hp : ¬ S p) (hlist : ∀ q, S q → q ∉ L → q ∉ L') :
    Evolves w L w' L' S := by
  have hne : ∀ q b, w'.block q = some b → w.block q = some b := fun q b hq => by
    by_cases hqp : q = p
    · rw [hqp, hblock, Function.update_self] at hq
      cases hq
    · rwa [hblock, Function.update_of_ne hqp] at hq
  refine ⟨⟨hnotes, fun q hq b hb => ?_⟩, fun c Good _ hall hc q b hb => ?_⟩
  · have hqp : q ≠ p := fun heq => hp (heq ▸ hq)
    exact Keeps.kept_same (by rw [hblock, Function.update_of_ne hqp]; exact hb) (hlist q hq)
  · exact hall (hc.mono hnotes.suffix) q b (hne q b hb)

/-- A block is created. -/
theorem create (hp : w.block p = none) (hblock : w'.block = Function.update w.block p (some b'))
    (hnotes : Extends S w.notes w'.notes) (hgood : ∀ c Good, Closed c Good → w'.Only c → Good b')
    (hlist : ∀ q, q ≠ p → S q → q ∉ L → q ∉ L') : Evolves w L w' L' S := by
  refine ⟨⟨hnotes, fun q hq d hd => ?_⟩, fun c Good hc hall hnc q d hd => ?_⟩
  · have hqp : q ≠ p := fun heq => by rw [heq, hp] at hd; cases hd
    exact Keeps.kept_same (by rw [hblock, Function.update_of_ne hqp]; exact hd) (hlist q hqp hq)
  · by_cases hqp : q = p
    · subst hqp
      rw [hblock, Function.update_self] at hd
      cases hd
      exact hgood c Good hc hnc
    · rw [hblock, Function.update_of_ne hqp] at hd
      exact hall (hnc.mono hnotes.suffix) q d hd

end Evolves

/-! ## References -/

section Functions
variable {w w' : World} {L : List Nat} {H : Multiset Nat} {p : Nat} {b : Block}

/-- Only `ref_num` and `next` change. -/
theorem Evolves.relink {L' : List Nat} {S : Nat → Prop} {r : Int} {x : Nat}
    (hb : w.block p = some b)
    (hblock : w'.block = Function.update w.block p (some (b.relink r x)))
    (hnotes : Extends S w.notes w'.notes) (hlist : ∀ q, S q → q ∉ L → q ∉ L') :
    Evolves w L w' L' S :=
  .update hb hblock hnotes (fun _ _ hc _ hgood => hc.relink b r x hgood)
    (fun hS => ⟨rfl, fun _ hle => ⟨Nat.le_refl _, hle, fun _ _ => rfl⟩,
      fun hp => ⟨hlist p hS hp, rfl⟩⟩)
    fun q _ hS => hlist q hS

/-- `inc_ref()` -/
theorem incRef_spec (h : Refs w L H) (hp : p ∈ H ∨ p ∈ L) : Returns (incRef p) w fun _ w' =>
    Refs w' L (p ::ₘ H) ∧ Evolves w L w' L fun _ => True := by
  obtain ⟨b, hb⟩ := h.exists_block hp
  refine returns_incRef hb ⟨?_, ?_⟩
  · refine h.update (by rw [hb]; rfl) rfl rfl rfl (h.chain_same hb rfl rfl) ?_ fun q hq => ?_
    · have := h.count p b hb
      simp only [Multiset.count_cons_self]
      omega
    · simp [Multiset.count_cons_of_ne hq]
  · exact .relink hb rfl .rfl fun _ _ hp => hp

/-- What `dec_ref` of the block `p` does to the list: nothing, or the block is put in front of it,
at the offset 0, and counted.  A block without references is put there if the counter allows. -/
def Returned (w : World) (L : List Nat) (p : Nat) (w' : World) (L' : List Nat) : Prop :=
  (L' = L ∧ w'.blockNumber = w.blockNumber ∧
      ∀ b, w.block p = some b → b.refNum ≤ 1 → ¬ w.blockNumber < kBlockCachedPerThread) ∨
    (L' = p :: L ∧ w'.blockNumber = (w.blockNumber + 1) % 2 ^ 32 ∧
      w.blockNumber < kBlockCachedPerThread ∧ w'.head = p ∧
      ∃ b b', w.block p = some b ∧ w'.block p = some b' ∧ b'.offset = 0 ∧ b'.capacity = b.capacity)

theorem Returned.subset {w' : World} {L' : List Nat} (h : Returned w L p w' L') : L ⊆ L' := by
  rcases h with ⟨rfl, _⟩ | ⟨rfl, _⟩
  · exact List.Subset.refl _
  · exact fun q hq => List.mem_cons_of_mem _ hq

/-- `dec_ref()`: the block stays as it is, or goes to the front of the list, or is freed. -/
theorem decRef_spec (h : Refs w L (p ::ₘ H)) : Returns (decRef p) w fun _ w' =>
    ∃ L', Refs w' L' H ∧ Returned w L p w' L' ∧ Evolves w L w' L' fun q => q ∈ H ∨ q ∈ L := by
  obtain ⟨b, hb⟩ := h.exists_block (.inl (Multiset.mem_cons_self p H))
  have hcount := h.count p b hb
  rw [Multiset.count_cons_self] at hcount
  have hother : ∀ q, q ≠ p → H.count q = (p ::ₘ H).count q := fun q hq => by
    rw [Multiset.count_cons_of_ne hq]
  by_cases hle : b.refNum ≤ 1
  · obtain ⟨hL, hH⟩ := h.not_listed hb hle
    have hcountH := Multiset.count_eq_zero_of_notMem hH
    have hcountL := List.count_eq_zero_of_not_mem hL
    have hnew : ∀ q, q ∈ H ∨ q ∈ L → Note.release q ≠ .release p := fun q hq heq =>
      not_or.mpr ⟨hH, hL⟩ (Note.release.inj heq ▸ hq)
    by_cases hn : w.blockNumber < kBlockCachedPerThread
    · refine decRef_cached hb hle hn ⟨p :: L, ?_,
        .inr ⟨rfl, rfl, hn, rfl, b, _, hb, setBlock_self, rfl, rfl⟩, ?_⟩
      · refine h.update (by rw [hb]; rfl) rfl rfl rfl ?_ ?_ fun q hq => ⟨hother q hq, ?_⟩
        · refine .cons (Nat.pos_iff_ne_zero.mp (h.fresh p (by rw [hb]; rfl)).1) ?_
          rw [next_update rfl, Function.update_self]
          refine h.chain.frame fun x hx => Function.update_of_ne (fun heq => hL ?_) ..
          rwa [← heq]
        · simp only [List.count_cons_self]
          omega
        · exact List.count_cons_of_ne (Ne.symm hq)
      · refine .update hb rfl (.cons .rfl fun q hq => hnew q hq)
          (fun _ _ hc _ hgood => hc.reset b w.head hgood)
          (fun hS => absurd hS (not_or.mpr ⟨hH, hL⟩)) fun q hq _ hnot => ?_
        exact List.not_mem_cons_of_ne_of_not_mem hq hnot
    · refine decRef_freed hb hle hn ⟨L, ?_, .inl ⟨rfl, rfl, fun _ _ _ => hn⟩, ?_⟩
      · refine h.free hb rfl rfl rfl ?_ (fun q hq => ⟨hq, fun heq => hL (heq ▸ hq)⟩)
          (fun q hq => ⟨Multiset.mem_cons_of_mem hq, fun heq => hH (heq ▸ hq)⟩)
          fun q hq => ⟨hother q hq, rfl⟩
        refine h.chain.frame fun x hx => ?_
        have hx : x ≠ p := fun heq => hL (heq ▸ hx)
        simp [World.next, Function.update_of_ne hx]
      · exact .free rfl (.cons .rfl fun q hq => hnew q hq) (not_or.mpr ⟨hH, hL⟩)
          fun q _ hnot => hnot
  · refine decRef_shared hb (not_le.mp hle) ⟨L, ?_, .inl ⟨rfl, rfl, fun c hc hc1 => ?_⟩, ?_⟩
    · refine h.update (by rw [hb]; rfl) rfl rfl rfl (h.chain_same hb rfl rfl) ?_
        fun q hq => ⟨hother q hq, rfl⟩
      simp only
      omega
    · cases hb.symm.trans hc
      exact absurd hc1 hle
    · exact .relink hb rfl .rfl fun _ _ hp => hp

/-- `release()`, of a held ref or of none. -/
theorem release_spec {ref : BlockRef} {K : Multiset Nat}
    (hK : K = if ref.block = 0 then 0 else {ref.block}) (h : Refs w L (K + H)) :
    Returns ref.release w fun _ w' =>
      ∃ L', Refs w' L' H ∧ L ⊆ L' ∧ Evolves w L w' L' fun q => q ∈ H ∨ q ∈ L := by
  refine .ite (fun h0 => .pure ?_) fun hne => ?_
  · rw [hK, if_pos h0, zero_add] at h
    exact ⟨L, h, List.Subset.refl L, .refl w L _⟩
  · rw [hK, if_neg hne, Multiset.singleton_add] at h
    exact (decRef_spec h).mono fun _ w' ⟨L', hrefs, hput, hev⟩ => ⟨L', hrefs, hput.subset, hev⟩

/-! ## `acquire_block` -/

/-- The head is full and its reference is dropped. -/
theorem dropHead_spec {t : List Nat} (h : Refs w (p :: t) H) (hb : w.block p = some b) :
    Returns (do
      note (.drop b.refNum w.blockNumber)
      decRef p
      setHead b.next
      decBlockNumber
      pure (Sum.inl () : Unit ⊕ Nat)) w fun r w' => r = .inl () ∧
    ∃ K, Refs w' t (K + H) ∧ (w'.Only Note.noLeak → K = 0) ∧
      Evolves w (p :: t) w' t fun q => q ∈ H := by
  obtain ⟨hpt, _⟩ := List.nodup_cons.mp h.chain.nodup
  obtain ⟨_, htail⟩ := h.chain.of_cons
  rw [next_eq hb] at htail
  have hcount := h.count p b hb
  have hcountt := List.count_eq_zero_of_not_mem hpt
  rw [List.count_cons_self, hcountt] at hcount
  have hother : ∀ q, q ≠ p → t.count q = (p :: t).count q := fun q hq => by
    rw [List.count_cons_of_ne (Ne.symm hq)]
  have hlist : ∀ q, q ∈ H → q ∉ p :: t → q ∉ t := fun q _ hnot => List.not_mem_of_not_mem_cons hnot
  have hdrop : Extends (· ∈ H) w.notes (.drop b.refNum w.blockNumber :: w.notes) :=
    .cons .rfl fun _ _ heq => nomatch heq
  refine .bind (returns_note ?_)
  by_cases hle : b.refNum ≤ 1
  · have hcountH : H.count p = 0 := by omega
    have hH : p ∉ H := Multiset.count_eq_zero.mp hcountH
    have hrelease : Extends (· ∈ H) w.notes
        (.release p :: .drop b.refNum w.blockNumber :: w.notes) :=
      hdrop.cons fun q hq heq => hH (Note.release.inj heq ▸ hq)
    by_cases hn : w.blockNumber < kBlockCachedPerThread
    · -- the block goes back to the list, and `head_` moves past it
      refine .bind (decRef_cached hb hle hn (.bind (.modify (.bind (.modify (.pure
        ⟨rfl, {p}, ?_, fun hno => ?_, ?_⟩))))))
      · refine h.update (by rw [hb]; rfl) rfl rfl rfl ?_ ?_ fun q hq => ⟨?_, hother q hq⟩
        · rw [next_update rfl]
          refine htail.frame fun x hx => Function.update_of_ne (fun heq => hpt ?_) ..
          rwa [← heq]
        · simp only [Multiset.count_add, Multiset.count_singleton_self]
          omega
        · simp [hq]
      · exact absurd ⟨hle, hn⟩ (hno _ (List.mem_cons_of_mem _ List.mem_cons_self))
      · exact .update hb rfl hrelease (fun _ _ hc _ hgood => hc.reset b w.head hgood)
          (fun hS => absurd hS hH) fun q _ hq => hlist q hq
    · refine .bind (decRef_freed hb hle hn (.bind (.modify (.bind (.modify (.pure
        ⟨rfl, 0, ?_, fun _ => rfl, ?_⟩))))))
      · rw [zero_add]
        refine h.free hb rfl rfl rfl ?_
          (fun q hq => ⟨List.mem_cons_of_mem _ hq, fun heq => hpt (heq ▸ hq)⟩)
          (fun q hq => ⟨hq, fun heq => hH (heq ▸ hq)⟩) fun q hq => ⟨rfl, hother q hq⟩
        refine htail.frame fun x hx => ?_
        have hx : x ≠ p := fun heq => hpt (heq ▸ hx)
        simp [World.next, Function.update_of_ne hx]
      · exact .free rfl hrelease hH hlist
  · refine .bind (decRef_shared hb (not_le.mp hle) (.bind (.modify (.bind (.modify
      (.pure ⟨rfl, 0, ?_, fun _ => rfl, .relink hb rfl hdrop hlist⟩))))))
    rw [zero_add]
    refine h.update (by rw [hb]; rfl) rfl rfl rfl ?_ ?_ fun q hq => ⟨rfl, hother q hq⟩
    · have hnext : (w.setBlock p { b with refNum := b.refNum - 1 }).next = w.next :=
        next_same hb rfl rfl
      exact hnext ▸ htail
    · simp only
      omega

/-- `acquire_block()`: the block it returns is on the list, and not full. -/
theorem acquireBlock_spec (h : Refs w L H) : Returns acquireBlock w fun p w' =>
    ∃ L' K, Refs w' L' (K + H) ∧ (w'.Only Note.noLeak → K = 0) ∧ (p ∈ L' ∧ p = w'.head) ∧
      (∃ b, w'.block p = some b ∧ b.full = false) ∧ Evolves w L w' L' fun q => q ∈ H := by
  -- the invariant of the loop: `n` blocks are on the list
  let I : Nat → Unit → World → Prop := fun n _ w' => ∃ L' K, L'.length = n ∧ Refs w' L' (K + H) ∧
    (w'.Only Note.noLeak → K = 0) ∧ Evolves w L w' L' fun q => q ∈ H
  have hstart : I L.length () w := ⟨L, 0, rfl, by rwa [zero_add], fun _ => rfl, .refl w L _⟩
  refine .bind (.get (.loop (I := I) (fun n _ w' hI => ?_) hstart
    (Nat.lt_succ_of_le h.length_le)))
  obtain ⟨L', K, hlen, h', hno, hev⟩ := hI
  refine .bind (.get (.ite (fun h0 => ?_) fun hne => ?_))
  · have hnil : L' = [] := h'.chain.eq_nil_iff.mpr h0
    subst hnil
    obtain ⟨hH, _⟩ := h'.count_fresh
    refine .bind (returns_createBlock (.bind (.modify (.bind (returns_setHead (.pure ?_))))))
    refine ⟨(fun _ hr => nomatch hr), fun p hp => ?_⟩
    cases hp
    refine ⟨[w'.mallocs + 1], K, ?_, hno, ⟨List.mem_singleton_self _, rfl⟩,
      ⟨_, setBlock_self, ?_⟩,
      hev.trans ?_ fun _ hq => ⟨hq, hq⟩⟩
    · refine h'.create rfl rfl rfl rfl ?_ ?_ fun q hq => ⟨rfl, ?_⟩
      · refine .cons (Nat.succ_ne_zero _) ?_
        rw [next_update rfl, Function.update_self]
        exact .nil
      · simp [hH, Block.create]
      · rw [List.count_cons_of_ne (Ne.symm hq)]
    · simp [Block.full, Block.create, kNormalBlockSize, sizeofBlock]
    · exact .create h'.fresh_none rfl .rfl (fun _ _ hc _ => hc.normal _ _)
        fun q hq _ hnot => List.not_mem_cons_of_ne_of_not_mem hq hnot
  · obtain ⟨t, hL, _⟩ := h'.chain.of_ne hne
    subst hL
    obtain ⟨b, hb⟩ := h'.exists_block (.inr List.mem_cons_self)
    refine .bind (returns_load hb (.ite (fun _ => ?_) fun hfull => .pure ?_))
    · refine (dropHead_spec h' hb).mono fun r w'' hr => ?_
      obtain ⟨rfl, K', h'', hno', hev'⟩ := hr
      refine ⟨fun _ _ => ⟨t.length, ?_, t, K' + K, rfl, ?_, fun hn => ?_, ?_⟩,
          fun _ hp => nomatch hp⟩
      · rw [← hlen]
        exact Nat.lt_succ_self _
      · rwa [add_assoc]
      · rw [hno' hn, hno (hn.mono hev'.notes.suffix), add_zero]
      · exact hev.trans hev' fun q hq => ⟨hq, Multiset.mem_add.mpr (.inr hq)⟩
    · refine ⟨(fun _ hr => nomatch hr), fun p hp => ?_⟩
      cases hp
      exact ⟨w'.head :: t, K, h', hno, ⟨List.mem_cons_self, rfl⟩,
        ⟨b, hb, Bool.not_eq_true _ ▸ hfull⟩, hev⟩

/-! ## `acquire_block_ref_array` -/

/-- A new block of `size` bytes is at the front of the list. -/
def World.pushed (w : World) (size : Nat) : World :=
  { w.setBlock (w.mallocs + 1)
      { Block.create w.env (w.mallocs + 1) (size % 2 ^ 32) with next := w.head } with
    mallocs := w.mallocs + 1
    gBlockNumber := w.gBlockNumber + 1
    head := w.mallocs + 1
    blockNumber := (w.blockNumber + 1) % 2 ^ 32 }

theorem returns_pushNewBlock {size : Nat} {Q : Nat → World → Prop}
    (hQ : Q (w.mallocs + 1) (w.pushed size)) : Returns (pushNewBlock size) w Q := by
  refine .bind (returns_createBlock (.bind (returns_load setBlock_self (.bind (.get ?_)))))
  refine .bind (returns_store (.bind (returns_setHead (.bind (.modify (.pure ?_))))))
  simpa [World.pushed, World.setBlock] using hQ

/-- The size of the new block for a ring of `n` refs. -/
def newBlockSize (n : Nat) : Nat :=
  if arrayBytes n < kNormalBlockPayloadSize then kNormalBlockSize else arrayBytes n + sizeofBlock

theorem chooseBlock_spec (h : Refs w L H) (n : Nat) : Returns (chooseBlock n) w fun p w' =>
    (w' = w ∧ p ∈ L ∧ arrayBytes n < kNormalBlockPayloadSize ∧
      ∃ b, w.block p = some b ∧ arrayBytes n ≤ b.leftSpace) ∨
      (p = w.mallocs + 1 ∧ w' = w.pushed (newBlockSize n)) := by
  refine .bind (.get (.ite (fun hlt => .bind ?_) fun hge => ?_))
  · -- the invariant of the walk: the rest of the list, which has `k` blocks
    let I : Nat → Nat → World → Prop := fun k q w' => w' = w ∧
      ∃ t, t.length = k ∧ Chain w.next 0 q t ∧ ∀ x ∈ t, x ∈ L
    have hwalk : Returns (loop (findSpaceBody (arrayBytes n)) (w.mallocs + 1) w.head) w fun p w' =>
        w' = w ∧ (p ≠ 0 → p ∈ L ∧ ∃ b, w.block p = some b ∧ arrayBytes n ≤ b.leftSpace) := by
      refine .loop (I := I) (fun k q w' hI => ?_) ⟨rfl, L, rfl, h.chain, fun _ hx => hx⟩
        (Nat.lt_succ_of_le h.length_le)
      obtain ⟨rfl, t, hlen, hchain, hsub⟩ := hI
      refine .ite (fun _ => .pure ⟨(fun _ hr => nomatch hr), fun p hp => ?_⟩) fun hne => ?_
      · cases hp
        exact ⟨rfl, fun h0 => absurd rfl h0⟩
      · obtain ⟨t', ht, hchain'⟩ := hchain.of_ne hne
        subst ht
        obtain ⟨b, hb⟩ := h.exists_block (.inr (hsub q List.mem_cons_self))
        rw [next_eq hb] at hchain'
        refine .bind (returns_load hb (.ite (fun hspace => .pure ?_) fun _ => .pure ?_))
        · refine ⟨(fun _ hr => nomatch hr), fun p hp => ?_⟩
          cases hp
          exact ⟨rfl, fun _ => ⟨hsub q List.mem_cons_self, b, hb, hspace⟩⟩
        · refine ⟨fun q' hq => ?_, (fun _ hr => nomatch hr)⟩
          cases hq
          exact ⟨t'.length, by rw [← hlen]; exact Nat.lt_succ_self _, rfl, t', rfl, hchain',
            fun x hx => hsub x (List.mem_cons_of_mem _ hx)⟩
    refine hwalk.mono fun p w' hp => ?_
    obtain ⟨rfl, hfound⟩ := hp
    refine .ite (fun _ => returns_pushNewBlock (.inr ⟨rfl, ?_⟩)) fun hne =>
        .pure (.inl ⟨rfl, (hfound hne).1, hlt, (hfound hne).2⟩)
    rw [newBlockSize, if_pos hlt]
  · refine returns_pushNewBlock (.inr ⟨rfl, ?_⟩)
    rw [newBlockSize, if_neg hge]

/-- The block a ring of `n` refs is put into, as it was before. -/
def Chosen (w : World) (n : Nat) (b : Block) : Prop :=
  (arrayBytes n < kNormalBlockPayloadSize ∧ ∃ p, w.block p = some b ∧ arrayBytes n ≤ b.leftSpace) ∨
    ∃ x, b = { Block.create w.env (w.mallocs + 1) (newBlockSize n % 2 ^ 32) with next := x }

/-- `create_block` takes the size as a `uint32_t`, so no block has room for 2 ^ 28 refs. -/
theorem Chosen.lt {w : World} {n : Nat} {b : Block} (h : Chosen w n b)
    (hinside : b.holdsArray n = true) : n < 2 ^ 28 := by
  rcases h with ⟨hsmall, _⟩ | ⟨x, rfl⟩
  · have hsmall : n * 16 + 32 < 8 * 1024 - 24 := hsmall
    omega
  · obtain ⟨hbelow, habove⟩ := of_decide_eq_true hinside
    have hsize : (Block.create w.env (w.mallocs + 1) (newBlockSize n % 2 ^ 32)).size < 2 ^ 32 :=
      (Nat.div_mul_le_self _ _).trans_lt (Nat.mod_lt _ (by decide))
    simp only [sizeofBlockRefArray, sizeofBlockRef] at hbelow habove hsize
    omega

/-- A ring of `n` refs is put into the block `b` at `p`. -/
def World.taken (w : World) (p n : Nat) (b : Block) : World :=
  { w.setBlock p { b with
      refNum := b.refNum + 1, offset := (b.offset + arrayBytes n) % 2 ^ 32 } with
    notes := .request n (b.holdsArray n) :: w.notes }

theorem pushed_taken_block (w : World) (n size : Nat) (b : Block) :
    ((w.pushed size).taken (w.mallocs + 1) n b).block = Function.update w.block (w.mallocs + 1)
      (some { b with refNum := b.refNum + 1, offset := (b.offset + arrayBytes n) % 2 ^ 32 }) :=
  Function.update_idem ..

theorem normal_leftSpace (env : Env) (p : Nat) :
    (Block.create env p kNormalBlockSize).leftSpace = kNormalBlockPayloadSize := by
  have hcap : (Block.create env p kNormalBlockSize).capacity = kNormalBlockPayloadSize := by
    norm_num [Block.create, kNormalBlockSize, kNormalBlockPayloadSize, sizeofBlock]
  have hoff : (Block.create env p kNormalBlockSize).offset = 0 := rfl
  rw [Block.leftSpace_eq (by rw [hcap]; decide) (by rw [hoff]; exact Nat.zero_le _), hcap, hoff,
    Nat.sub_zero]

/-- A new block of the right size keeps what closed properties say, once the ring is in it. -/
theorem Closed.newBlock {c : Note → Prop} {Good : Block → Prop} (hc : Closed c Good) {n : Nat}
    (hn : 32 ∣ n ∨ n ≤ 2048) (env : Env) (p x : Nat) (r : Int)
    (hnote : c (.request n ((Block.create env p (newBlockSize n % 2 ^ 32)).holdsArray n))) :
    Good (((Block.create env p (newBlockSize n % 2 ^ 32)).take n).relink r x) := by
  unfold newBlockSize at hnote ⊢
  split at hnote
  · have hsmall : arrayBytes n < kNormalBlockPayloadSize := by assumption
    have hsize : kNormalBlockSize % 2 ^ 32 = kNormalBlockSize := by decide
    rw [if_pos hsmall]
    rw [hsize] at hnote ⊢
    have hspace : arrayBytes n ≤ (Block.create env p kNormalBlockSize).leftSpace := by
      rw [normal_leftSpace]
      exact Nat.le_of_lt hsmall
    exact hc.relink _ r x (hc.take _ n (hc.normal env p) hspace hnote)
  · have hlarge : ¬ arrayBytes n < kNormalBlockPayloadSize := by assumption
    rw [if_neg hlarge]
    exact hc.relink _ r x (hc.big env p n hn (not_lt.mp hlarge) hnote)

/-- `acquire_block_ref_array(ref, n)` puts the ring into the block `b`, one that was there or a new
one, from its offset on. -/
structure Stored (w : World) (n : Nat) (r : Nat × BlockRef) (w' : World) (b : Block) : Prop where
  chosen : Chosen w n b
  address : r.1 = b.arrayAddress
  ref : r.2 = ⟨b.offset, arrayBytes n % 2 ^ 32, r.2.block⟩
  notes : w'.notes = .request n (b.holdsArray n) :: w.notes
  before : w.block r.2.block = some b ∨ w.block r.2.block = none
  after : ∃ b', w'.block r.2.block = some b' ∧ b'.address = b.address ∧ b'.size = b.size ∧
    b'.capacity = b.capacity ∧ b'.offset = (b.offset + arrayBytes n) % 2 ^ 32

theorem acquireBlockRefArray_spec (h : Refs w L H) {n : Nat} (hn : 32 ∣ n ∨ n ≤ 2048) :
    Returns (acquireBlockRefArray n) w fun r w' => ∃ L' b, Refs w' L' (r.2.block ::ₘ H) ∧
      (L ⊆ L' ∧ r.2.block ∈ L') ∧ (Evolves w L w' L' fun _ => True) ∧ Stored w n r w' b := by
  have htake : ∀ {w₁ : World} {p : Nat} {b : Block} {Q : Nat × BlockRef → World → Prop},
      w₁.block p = some b →
      Q (b.arrayAddress, ⟨b.offset, arrayBytes n % 2 ^ 32, p⟩) (w₁.taken p n b) →
      Returns (do
        let b ← load p
        note (.request n (b.holdsArray n))
        store p { b with refNum := b.refNum + 1, offset := (b.offset + arrayBytes n) % 2 ^ 32 }
        pure (b.arrayAddress, ⟨b.offset, arrayBytes n % 2 ^ 32, p⟩)) w₁ Q := fun hb hQ =>
    .bind (returns_load hb (.bind (returns_note (.bind (returns_store (.pure hQ))))))
  refine .bind ((chooseBlock_spec h n).mono fun p w' hp => ?_)
  rcases hp with ⟨rfl, hpL, hlt, b, hb, hspace⟩ | ⟨rfl, rfl⟩
  · refine htake hb ⟨L, b, ?_, ⟨List.Subset.refl L, hpL⟩, ?_, .inl ⟨hlt, p, hb, hspace⟩, rfl, rfl,
      rfl,
      .inl hb, _, setBlock_self, rfl, rfl, rfl, rfl⟩
    · refine h.update (by rw [hb]; rfl) rfl rfl rfl (h.chain_same hb rfl rfl) ?_ fun q hq => ?_
      · have := h.count p b hb
        simp only [Multiset.count_cons_self]
        omega
      · simp [Multiset.count_cons_of_ne hq]
    · refine .update hb rfl (.cons .rfl fun _ _ heq => nomatch heq)
        (fun c Good hc hnotes hgood => ?_)
        (fun _ => ⟨rfl, fun hsound hle => ⟨?_, ?_, fun _ _ => rfl⟩, fun hnot => absurd hpL hnot⟩)
        fun q _ _ hnot => hnot
      · exact hc.relink _ (b.refNum + 1) b.next
          (hc.take b n hgood hspace (hnotes _ List.mem_cons_self))
      · have hcap := hsound.capacity
        rw [b.leftSpace_eq (by omega) hle] at hspace
        simp only
        omega
      · have hcap := hsound.capacity
        rw [b.leftSpace_eq (by omega) hle] at hspace
        simp only
        omega
  · obtain ⟨hcountH, hcountL⟩ := h.count_fresh
    have hblock := pushed_taken_block w n (newBlockSize n)
      { Block.create w.env (w.mallocs + 1) (newBlockSize n % 2 ^ 32) with next := w.head }
    have hnot : w.mallocs + 1 ∉ L := List.count_eq_zero.mp hcountL
    refine htake setBlock_self ⟨(w.mallocs + 1) :: L, _, ?_,
      ⟨fun q hq => List.mem_cons_of_mem _ hq, List.mem_cons_self⟩, ?_, .inr ⟨w.head, rfl⟩, rfl, rfl,
      rfl,
      .inr h.fresh_none, _,
      setBlock_self, rfl, rfl, rfl, rfl⟩
    · refine h.create rfl hblock rfl rfl ?_ ?_ fun q hq => ⟨?_, ?_⟩
      · refine .cons (Nat.succ_ne_zero _) ?_
        have hnext := next_update hblock
        rw [hnext]
        show Chain _ 0 (Function.update w.next (w.mallocs + 1) w.head (w.mallocs + 1)) L
        rw [Function.update_self]
        refine h.chain.frame fun x hx => Function.update_of_ne (fun heq => hnot ?_) ..
        rwa [← heq]
      · simp [Multiset.count_cons_self, hcountH, hcountL, Block.create]
      · rw [Multiset.count_cons_of_ne hq]
      · rw [List.count_cons_of_ne (Ne.symm hq)]
    · refine .create h.fresh_none hblock (.cons .rfl fun _ _ heq => nomatch heq)
        (fun c Good hc hnotes => ?_)
        fun q hq _ hnot => List.not_mem_cons_of_ne_of_not_mem hq hnot
      exact hc.newBlock hn w.env (w.mallocs + 1) w.head _ (hnotes _ List.mem_cons_self)

end Functions

/-! ## Up to leaks -/

/-- `L` is the cache list, and `H` are the references held otherwise, but for those on leaked
blocks. -/
structure Holds (w : World) (L : List Nat) (H : Multiset Nat) : Prop where
  refs : ∃ K, Refs w L (K + H) ∧ (w.Only Note.noLeak → K = 0)
  sound : w.AllSound

/-- What `copyIn` leaves at the ref it returns. -/
structure Written (w : World) (ref : BlockRef) (bytes : List UInt8) (b : Block) : Prop where
  block : w.block ref.block = some b
  covered : ref.offset + ref.length ≤ b.offset
  fits : b.offset ≤ b.capacity
  data : readBytes b.data ref.offset ref.length = bytes

/-- The ref starts above what anybody held of its block. -/
def Above (w : World) (H : Multiset Nat) (ref : BlockRef) : Prop :=
  ∀ b, ref.block ∈ H → w.block ref.block = some b → b.Sound → b.offset ≤ b.capacity →
    b.offset ≤ ref.offset

namespace Holds

variable {w w' : World} {L : List Nat} {H H' : Multiset Nat} {p : Nat}

/-- Without a leak, the counts are exact. -/
theorem exact (h : Holds w L H) (hno : w.Only Note.noLeak) : Refs w L H := by
  obtain ⟨K, hrefs, hK⟩ := h.refs
  rwa [hK hno, zero_add] at hrefs

theorem exists_block (h : Holds w L H) (hp : p ∈ H ∨ p ∈ L) : ∃ b, w.block p = some b := by
  obtain ⟨K, hrefs, _⟩ := h.refs
  exact hrefs.exists_block (hp.imp_left fun hp => Multiset.mem_add.mpr (.inr hp))

theorem ne_zero (h : Holds w L H) (hp : p ∈ H ∨ p ∈ L) : p ≠ 0 := by
  obtain ⟨K, hrefs, _⟩ := h.refs
  obtain ⟨b, hb⟩ := h.exists_block hp
  exact Nat.pos_iff_ne_zero.mp (hrefs.fresh p (by rw [hb]; rfl)).1

theorem congr (h : Holds w L H) (hblock : w'.block = w.block) (hhead : w'.head = w.head)
    (hmallocs : w'.mallocs = w.mallocs) (hg : w'.gBlockNumber = w.gBlockNumber)
    (hnotes : w.notes <:+ w'.notes) : Holds w' L H := by
  obtain ⟨K, hrefs, hK⟩ := h.refs
  refine ⟨⟨K, hrefs.congr hblock hhead hmallocs hg, fun hno => hK (hno.mono hnotes)⟩, ?_⟩
  rw [World.AllSound, hblock]
  exact h.sound

/-- A step that is right for exact counts is right up to leaks. -/
theorem of_refs {L₀ L' : List Nat} {S : Nat → Prop} {K : Multiset Nat} (h : Holds w L H)
    (hK : w.Only Note.noLeak → K = 0) (hrefs : Refs w' L' (K + H')) (hev : Evolves w L₀ w' L' S) :
    Holds w' L' H' :=
  ⟨⟨K, hrefs, fun hno => hK (hno.mono hev.notes.suffix)⟩, hev.sound h.sound⟩

theorem incRef (h : Holds w L H) (hp : p ∈ H ∨ p ∈ L) : Returns (incRef p) w fun _ w' =>
    Holds w' L (p ::ₘ H) ∧ Evolves w L w' L fun _ => True := by
  obtain ⟨K, hrefs, hK⟩ := h.refs
  have hspec := incRef_spec hrefs (hp.imp_left fun hp => Multiset.mem_add.mpr (.inr hp))
  refine hspec.mono fun _ w' hw => ⟨h.of_refs hK ?_ hw.2, hw.2⟩
  rw [Multiset.add_cons]
  exact hw.1

theorem decRef (h : Holds w L (p ::ₘ H)) : Returns (decRef p) w fun _ w' =>
    ∃ L', Holds w' L' H ∧ L ⊆ L' ∧ Evolves w L w' L' fun q => q ∈ H ∨ q ∈ L := by
  obtain ⟨K, hrefs, hK⟩ := h.refs
  rw [Multiset.add_cons] at hrefs
  refine (decRef_spec hrefs).mono fun _ w' hw => ?_
  obtain ⟨L', hrefs', hput, hev⟩ := hw
  exact ⟨L', h.of_refs hK hrefs' hev, hput.subset,
    hev.mono fun q hq => hq.imp_left fun hq => Multiset.mem_add.mpr (.inr hq)⟩

theorem acquireBlock (h : Holds w L H) : Returns acquireBlock w fun p w' =>
    ∃ L', Holds w' L' H ∧ (p ∈ L' ∧ p = w'.head) ∧
      (∃ b, w'.block p = some b ∧ b.full = false) ∧ Evolves w L w' L' fun q => q ∈ H := by
  obtain ⟨K, hrefs, hK⟩ := h.refs
  refine (acquireBlock_spec hrefs).mono fun p w' hp => ?_
  obtain ⟨L', K', hrefs', hK', hpL, hb, hev⟩ := hp
  refine ⟨L', ⟨⟨K' + K, ?_, fun hno => ?_⟩, hev.sound h.sound⟩, hpL, hb,
    hev.mono fun q hq => Multiset.mem_add.mpr (.inr hq)⟩
  · rwa [add_assoc]
  · rw [hK' hno, hK (hno.mono hev.notes.suffix), add_zero]

theorem acquireStorage (h : Holds w L H) {n : Nat} (hn : 32 ∣ n ∨ n ≤ 2048) :
    Returns (acquireBlockRefArray n) w fun r w' => ∃ L' b,
      Holds w' L' (r.2.block ::ₘ H) ∧ (L ⊆ L' ∧ r.2.block ∈ L') ∧
      (Evolves w L w' L' fun _ => True) ∧ Stored w n r w' b := by
  obtain ⟨K, hrefs, hK⟩ := h.refs
  refine (acquireBlockRefArray_spec hrefs hn).mono fun r w' hr => ?_
  obtain ⟨L', b, hrefs', hsub, hev, hstored⟩ := hr
  refine ⟨L', b, h.of_refs hK ?_ hev, hsub, hev, hstored⟩
  rwa [Multiset.add_cons]

theorem acquireBlockRefArray (h : Holds w L H) {n : Nat} (hn : 32 ∣ n ∨ n ≤ 2048) :
    Returns (acquireBlockRefArray n) w fun r w' => ∃ L', Holds w' L' (r.2.block ::ₘ H) ∧ L ⊆ L' ∧
      (Evolves w L w' L' fun _ => True) ∧ (w'.Only Note.inside → n < 2 ^ 28) := by
  refine (h.acquireStorage hn).mono fun r w' hr => ?_
  obtain ⟨L', b, h', hsub, hev, hstored⟩ := hr
  refine ⟨L', h', hsub.1, hev, fun hno => hstored.chosen.lt ?_⟩
  exact hno (.request n (b.holdsArray n)) (hstored.notes ▸ List.mem_cons_self)

theorem arrayMemory (h : Holds w L H) : Returns arrayMemory w fun _ w' =>
    Holds w' L H ∧ Evolves w L w' L fun _ => True :=
  .bind (.get (.bind (.set (.pure
    ⟨h.congr rfl rfl rfl rfl List.suffix_rfl, .of_eq rfl .rfl fun _ _ hp => hp⟩))))

/-! ## The copy step of `append` -/

theorem copyIn (h : Holds w L H) (buf : List UInt8) : Returns (copyIn buf) w fun ref w' =>
    ∃ L', Holds w' L' H ∧ ref.block ∈ L' ∧ (Evolves w L w' L' fun q => q ∈ H) ∧
      ref.length ≤ buf.length ∧
      (buf.length < 2 ^ 32 → ref.length = buf.length ∨ 8 ≤ ref.length) ∧
      (∃ b, Written w' ref (buf.take ref.length) b) ∧ Above w H ref := by
  refine .bind (h.acquireBlock.mono fun p w₁ hp => ?_)
  obtain ⟨L', h₁, ⟨hpL, _⟩, ⟨b, hb, hfull⟩, hev⟩ := hp
  have hsound := h₁.sound p b hb
  have hlt := b.lt_of_not_full hsound hfull
  have hcap := hsound.capacity
  have hdvd := hsound.dvd
  have hspace := b.leftSpace_eq (by omega) (by omega : b.offset ≤ b.capacity)
  have hleft : min (buf.length % 2 ^ 32) b.leftSpace ≤ b.leftSpace := Nat.min_le_right ..
  generalize hm : min (buf.length % 2 ^ 32) b.leftSpace = left at hleft
  have hle : left ≤ buf.length := by
    rw [← hm]
    exact (Nat.min_le_left ..).trans (Nat.mod_le _ _)
  refine .bind (returns_load hb (.bind (returns_store (.pure ?_))))
  simp only [hm]
  have hstep : Evolves w₁ L' (w₁.setBlock p { b with
      data := writeBytes b.data b.offset (buf.take left)
      offset := (b.offset + left + 7) % 2 ^ 32 / 8 * 8 }) L' fun _ => True := by
    refine .update hb rfl .rfl
      (fun _ _ hc _ hgood => hc.fill b left _ hgood hfull hleft)
      (fun _ => ⟨rfl, fun _ _ => ⟨?_, ?_, fun i hi => ?_⟩, fun hnot => absurd hpL hnot⟩)
      fun _ _ _ hnot => hnot
    · simp only
      omega
    · simp only
      omega
    · simp only [writeBytes]
      rw [if_neg (by omega)]
  obtain ⟨K, hrefs, hK⟩ := h₁.refs
  refine ⟨L', h₁.of_refs hK ?_ hstep, hpL, hev.trans hstep fun q hq => ⟨hq, trivial⟩, hle,
    fun hlen => ?_, ⟨_, setBlock_self, ?_, ?_, ?_⟩, fun d hH hd hds hdle => ?_⟩
  · exact hrefs.update (by rw [hb]; rfl) rfl rfl rfl (hrefs.chain_same hb rfl rfl)
      (hrefs.count p b hb) fun _ _ => ⟨rfl, rfl⟩
  · rw [← hm, Nat.mod_eq_of_lt hlen, hspace]
    omega
  · simp only
    omega
  · simp only
    omega
  · have hlength : (buf.take left).length = left := by
      rw [List.length_take, Nat.min_eq_left hle]
    have hread := @read_write b.data b.offset (buf.take left)
    rw [hlength] at hread
    exact hread
  · obtain ⟨b', hb', _, hlater, _⟩ := hev.kept p hH d hd
    cases hb.symm.trans hb'
    exact (hlater hds hdle).offset

end Holds

end PBase.Buffer
