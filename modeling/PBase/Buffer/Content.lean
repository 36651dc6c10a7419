/-
# `PBase.Buffer.Content` — the bytes of a buffer, and how they are read

A ref covers a stretch of its block below the offset of the block (`Valid`); `content` is what
the refs of a list cover, in order.  Nobody writes below the offset of a held block, so the
content of a buffer stays, whatever else is done with the cache (`content_evolves`).

`popn`, `copy_front` and `map` are specified on the list of refs; the two forms of a buffer
differ for one kind of request only.  `simple_popn` compares the length of the first ref with
`(int64_t)count`: from 2 ^ 63 on that is negative, and `count` bytes are copied.
-/
import PBase.Buffer.Ring
import PBase.Buffer.Cache

namespace PBase.Buffer

open PBase.Lib

/-! ## Bytes -/

/-- The ref covers a stretch of its block that is written. -/
def Valid (w : World) (ref : BlockRef) : Prop :=
  ∃ b, w.block ref.block = some b ∧ ref.offset + ref.length ≤ b.offset ∧ b.offset ≤ b.capacity

/-- The bytes the ref covers. -/
def bytes (w : World) (ref : BlockRef) : List UInt8 :=
  (w.block ref.block).elim [] fun b => readBytes b.data ref.offset ref.length

/-- The bytes the refs cover. -/
def content (w : World) (l : List BlockRef) : List UInt8 := l.flatMap (bytes w)

def AllValid (w : World) (l : List BlockRef) : Prop := ∀ ref ∈ l, Valid w ref

section Bytes
variable {w w' : World} {L L' : List Nat} {H : Multiset Nat} {S : Nat → Prop} {ref : BlockRef}
  {l l' : List BlockRef} {b : Block} {n : Nat}

theorem bytes_eq (hb : w.block ref.block = some b) :
    bytes w ref = readBytes b.data ref.offset ref.length := by
  rw [bytes, hb]
  rfl

theorem length_bytes (h : Valid w ref) : (bytes w ref).length = ref.length := by
  obtain ⟨b, hb, _⟩ := h
  rw [bytes_eq hb, length_readBytes]

@[simp] theorem content_nil : content w [] = [] := rfl

@[simp] theorem content_cons : content w (ref :: l) = bytes w ref ++ content w l := rfl

@[simp] theorem content_append : content w (l ++ l') = content w l ++ content w l' := by
  simp [content]

theorem length_content (h : AllValid w l) : (content w l).length = lengths l := by
  induction l with
  | nil => rfl
  | cons r l ih =>
      rw [content_cons, List.length_append, length_bytes (h r List.mem_cons_self),
        ih fun r hr => h r (List.mem_cons_of_mem _ hr), lengths_cons]

theorem Valid.length_lt (h : Valid w ref) (hs : w.AllSound) :
    ref.offset + ref.length < 2 ^ 16 := by
  obtain ⟨b, hb, hle, hcap⟩ := h
  have := (hs _ b hb).capacity
  omega

/-- Whatever happens, as long as the block is held. -/
theorem Valid.evolves (h : Valid w ref) (hs : w.AllSound) (hev : Evolves w L w' L' S)
    (hS : S ref.block) : Valid w' ref ∧ bytes w' ref = bytes w ref := by
  obtain ⟨b, hb, hle, hcap⟩ := h
  obtain ⟨b', hb', _, hlater, _⟩ := hev.kept _ hS b hb
  have hl := hlater (hs _ b hb) hcap
  refine ⟨⟨b', hb', hle.trans hl.offset, hl.fits⟩, ?_⟩
  rw [bytes_eq hb, bytes_eq hb']
  exact readBytes_congr fun a _ ha => hl.data a (ha.trans_le hle)

theorem content_evolves (h : AllValid w l) (hs : w.AllSound) (hev : Evolves w L w' L' S)
    (hS : ∀ p ∈ blocks l, S p) : AllValid w' l ∧ content w' l = content w l := by
  have hall : ∀ ref ∈ l, Valid w' ref ∧ bytes w' ref = bytes w ref := fun ref href =>
    (h ref href).evolves hs hev (hS _ (mem_blocks href))
  refine ⟨fun ref href => (hall ref href).1, ?_⟩
  exact List.flatMap_congr fun ref href => (hall ref href).2

/-! ### A part of a ref -/

theorem Valid.drop (h : Valid w ref) (hs : w.AllSound) (hn : n ≤ ref.length) :
    Valid w (ref.drop n) ∧ bytes w (ref.drop n) = (bytes w ref).drop n ∧
      (ref.drop n).length = ref.length - n := by
  have hlt := h.length_lt hs
  obtain ⟨b, hb, hle, hcap⟩ := h
  have hoff : (ref.drop n).offset = ref.offset + n := by
    show (ref.offset + n) % 2 ^ 32 = _
    omega
  have hlen : (ref.drop n).length = ref.length - n := by
    show (ref.length + (2 ^ 32 - n % 2 ^ 32)) % 2 ^ 32 = _
    omega
  have hb' : w.block (ref.drop n).block = some b := hb
  refine ⟨⟨b, hb', by omega, hcap⟩, ?_, hlen⟩
  have hsplit : readBytes b.data ref.offset ref.length
      = readBytes b.data ref.offset n ++ readBytes b.data (ref.offset + n) (ref.length - n) := by
    rw [← readBytes_add, Nat.add_sub_of_le hn]
  rw [bytes_eq hb', bytes_eq hb, hsplit, hoff, hlen,
    List.drop_left' length_readBytes]

/-- The bytes before it, read from the block. -/
theorem read_take (hb : w.block ref.block = some b) (hn : n ≤ ref.length) :
    readBytes b.data ref.offset n = (bytes w ref).take n := by
  have hsplit : readBytes b.data ref.offset ref.length
      = readBytes b.data ref.offset n ++ readBytes b.data (ref.offset + n) (ref.length - n) := by
    rw [← readBytes_add, Nat.add_sub_of_le hn]
  rw [bytes_eq hb, hsplit, List.take_left' length_readBytes]

/-- `memcpy(buf, ref.begin(), n)` -/
theorem read_spec (hb : w.block ref.block = some b) : Returns (ref.read n) w fun r w' =>
    w' = w ∧ r.length = n ∧ (n ≤ ref.length → r = (bytes w ref).take n) := by
  refine .ite (fun h0 => .pure ⟨rfl, h0.symm, fun _ => by rw [h0, List.take_zero]⟩) fun _ => ?_
  exact .bind (returns_load hb (.pure ⟨rfl, length_readBytes, fun hn => read_take hb hn⟩))

/-- The first bytes of a ref that may be null. -/
theorem read_part_spec (h : ref.block = 0 → ref.length = 0) (hb : ref.block ≠ 0 → Valid w ref)
    (hn : n ≤ ref.length) : Returns (ref.read n) w fun r w' =>
      w' = w ∧ r = (content w ([ref].filter (·.block ≠ 0))).take n := by
  rcases eq_or_ne ref.block 0 with h0 | hne
  · have hzero : n = 0 := Nat.le_zero.mp (h h0 ▸ hn)
    exact .ite (fun _ => .pure ⟨rfl, by rw [hzero, List.take_zero]⟩) fun hpos => absurd hzero hpos
  · obtain ⟨b, hblock, _⟩ := hb hne
    refine (read_spec hblock).mono fun r w' hr => ⟨hr.1, ?_⟩
    rw [hr.2.2 hn]
    simp [hne]

theorem lengths_le (h : ∀ ref ∈ l, ref.length < 2 ^ 16) : lengths l ≤ l.length * 2 ^ 16 := by
  induction l with
  | nil => exact Nat.zero_le _
  | cons r l ih =>
      have hr := h r List.mem_cons_self
      have hl := ih fun r hr => h r (List.mem_cons_of_mem _ hr)
      rw [lengths_cons, List.length_cons]
      omega

theorem AllValid.lengths_le (h : AllValid w l) (hs : w.AllSound) : lengths l ≤ l.length * 2 ^ 16 :=
  PBase.Buffer.lengths_le fun ref href => by
    have := (h ref href).length_lt hs
    omega

theorem AllValid.of_two {first second : BlockRef} (h : AllValid w (ZBuffer.two first second).list) :
    (first.block ≠ 0 → Valid w first) ∧ (second.block ≠ 0 → Valid w second) := by
  rw [ZBuffer.list_two] at h
  exact ⟨fun hne => h first (List.mem_append_left _ (by simp [hne])),
    fun hne => h second (List.mem_append_right _ (by simp [hne]))⟩

end Bytes

end PBase.Buffer
