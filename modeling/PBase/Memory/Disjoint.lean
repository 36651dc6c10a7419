/-
# `PBase.Memory.Disjoint` — what an arena hands out does not overlap

`Sound areas a`: the `areas` handed out so far are cut from the blocks of the arena, what is left
of the current block is free, and `memory_usage_` counts the blocks.  A request moves the pointer
(`sound_advance`) or falls back (`sound_allocateFallback`), so the history of an arena is a history
of `Carved`.

`memory_usage_` is counted modulo `2^64`, and never gets there: the blocks and the array with a
pointer for each lie apart below `2^64` (`Placed.total_lt`).
-/
import PBase.Memory.Arena

namespace PBase.Memory

open PBase.Lib

namespace Arena

/-- What is left of the current block. -/
def free (a : Arena) : Area := ⟨a.allocPtr, a.allocBytesRemaining⟩

/-- The free part is the end of a block of the usual size, from which something was cut. -/
def Current (a : Arena) : Prop :=
  a.allocPtr = 0 ∧ a.allocBytesRemaining = 0 ∨ ∃ b ∈ a.blocks, b.size = kBlockSize ∧
    b.ptr < a.allocPtr ∧ a.allocPtr + a.allocBytesRemaining = b.ptr + b.size

/-- The blocks, and a pointer for each. -/
def total (a : Arena) : Nat := (a.blocks.map fun b => b.size + sizeofPtr).sum

structure Sound (areas : List Area) (a : Arena) : Prop where
  carved : Carved a.blocks areas a.free
  current : a.Current
  usage : a.memoryUsage = a.total % 2 ^ 64

variable {a : Arena} {areas : List Area} {heap : Heap} {bytes ptr k n : Nat}

theorem and_seven (n : Nat) : n &&& (8 - 1) = n % 8 := Nat.and_two_pow_sub_one_eq_mod n 3

theorem sound_new : Sound [] new := ⟨.nil, .inl ⟨rfl, rfl⟩, rfl⟩

/-- `n` bytes from the current block, after a gap of `k`. -/
theorem sound_advance (h : Sound areas a) (hn : 0 < n) (hfits : k + n ≤ a.allocBytesRemaining) :
    Sound (areas ++ [⟨a.allocPtr + k, n⟩]) (a.advance (k + n)) := by
  refine ⟨h.carved.take hn hfits, .inr ?_, h.usage⟩
  rcases h.current with ⟨-, hzero⟩ | ⟨b, hb, hsize, hlt, hend⟩
  · omega
  · refine ⟨b, hb, hsize, ?_, ?_⟩
    · show b.ptr < a.allocPtr + (k + n)
      omega
    · show a.allocPtr + (k + n) + (a.allocBytesRemaining - (k + n)) = _
      omega

theorem usage_newBlock (h : a.memoryUsage = a.total % 2 ^ 64) (heap : Heap) (blockBytes : Nat) :
    (a.allocateNewBlock heap blockBytes).memoryUsage
      = (a.allocateNewBlock heap blockBytes).total % 2 ^ 64 := by
  show (a.memoryUsage + blockBytes + sizeofPtr) % 2 ^ 64 =
      (blockBytes + sizeofPtr + a.total) % 2 ^ 64
  rw [h]
  omega

/-- A block of its own, or the beginning of a new one. -/
theorem sound_allocateFallback (h : Sound areas a) (hbytes : 0 < bytes)
    (hm : Malloced a (a.allocateFallback heap bytes).2) :
    Sound (areas ++ [⟨(a.allocateFallback heap bytes).1, bytes⟩])
      (a.allocateFallback heap bytes).2 ∧ 16 ∣ (a.allocateFallback heap bytes).1 := by
  unfold allocateFallback at hm ⊢
  split
  · rename_i hlarge
    rw [if_pos hlarge] at hm
    have hfresh := hm.block ⟨heap.malloc, bytes⟩ rfl
    have hapart := (List.forall_mem_cons.mp hfresh.apart).2
    refine ⟨⟨h.carved.whole hapart, ?_, usage_newBlock h.usage _ _⟩, hfresh.aligned⟩
    rcases h.current with hnull | ⟨b, hb, hrest⟩
    · exact .inl hnull
    · exact .inr ⟨b, List.mem_cons_of_mem _ hb, hrest⟩
  · rename_i hsmall
    rw [if_neg hsmall] at hm
    have hfresh := hm.block ⟨heap.malloc, kBlockSize⟩ rfl
    have hapart := (List.forall_mem_cons.mp hfresh.apart).2
    have hblock : kBlockSize = 4096 := rfl
    have hcarved := (h.carved.renew hapart).take (k := 0) (n := bytes) hbytes (by
      show 0 + bytes ≤ kBlockSize
      omega)
    rw [Nat.zero_add] at hcarved
    refine ⟨⟨hcarved, .inr ⟨⟨heap.malloc, kBlockSize⟩, List.mem_cons_self, rfl, ?_, ?_⟩,
      usage_newBlock h.usage _ _⟩, hfresh.aligned⟩
    · show heap.malloc < heap.malloc + bytes
      omega
    · show heap.malloc + bytes + (kBlockSize - bytes) = heap.malloc + kBlockSize
      omega

/-- The fallback, as what it returns. -/
theorem sound_fallback {a' : Arena} (h : Sound areas a) (hbytes : 0 < bytes)
    (hret : a.allocateFallback heap bytes = (ptr, a')) (hm : Malloced a a') :
    Sound (areas ++ [⟨ptr, bytes⟩]) a' ∧ 16 ∣ ptr := by
  have hm : Malloced a (a.allocateFallback heap bytes).2 := by rwa [hret]
  have hsound := sound_allocateFallback h hbytes hm
  rwa [hret] at hsound

theorem sound_allocate {a' : Arena} (h : Sound areas a)
    (hret : a.allocate heap bytes = some (ptr, a')) (hm : Malloced a a') :
    Sound (areas ++ [⟨ptr, bytes⟩]) a' := by
  rw [allocate] at hret
  split at hret
  · rename_i hpos
    split at hret
    · rename_i hfits
      cases hret
      have hsound := sound_advance (k := 0) h hpos (by omega)
      rwa [Nat.zero_add] at hsound
    · exact (sound_fallback h hpos (Option.some.inj hret) hm).1
  · cases hret

/-- The bytes up to a multiple of 8, and whether they and the request are left. -/
theorem allocateAligned_eq (hle : bytes ≤ 2 ^ 64 - 8) (heap : Heap) :
    ∃ slop < 8, 8 ∣ a.allocPtr + slop ∧
      (bytes + slop ≤ a.allocBytesRemaining ∧ a.allocateAligned heap bytes
          = some (a.allocPtr + slop, a.advance (bytes + slop)) ∨
        a.allocBytesRemaining < bytes + slop ∧ a.allocateAligned heap bytes
          = if (a.allocateFallback heap bytes).1 % 8 = 0
            then some (a.allocateFallback heap bytes) else none) := by
  obtain ⟨slop, hslop⟩ : ∃ slop, (if a.allocPtr % 8 = 0 then 0 else 8 - a.allocPtr % 8) = slop :=
    ⟨_, rfl⟩
  have hlt : slop < 8 := by
    rw [← hslop]
    split <;> omega
  have hdvd : 8 ∣ a.allocPtr + slop := by
    rw [← hslop]
    split <;> omega
  refine ⟨slop, hlt, hdvd, ?_⟩
  simp only [allocateAligned, and_seven, hslop, Nat.mod_eq_of_lt (by omega : bytes + slop < 2 ^ 64)]
  rcases Nat.lt_or_ge a.allocBytesRemaining (bytes + slop) with hfull | hfits
  · exact .inr ⟨hfull, by rw [if_neg (not_le.mpr hfull)]⟩
  · refine .inl ⟨hfits, ?_⟩
    rw [if_pos hfits, if_pos (Nat.mod_eq_zero_of_dvd hdvd)]

theorem sound_allocateAligned {a' : Arena} (h : Sound areas a) (hbytes : Admitted bytes)
    (hret : a.allocateAligned heap bytes = some (ptr, a')) (hm : Malloced a a') :
    Sound (areas ++ [⟨ptr, bytes⟩]) a' ∧ 8 ∣ ptr := by
  obtain ⟨hpos, hle⟩ := hbytes
  obtain ⟨slop, -, hdvd, ⟨hfits, heq⟩ | ⟨-, heq⟩⟩ := allocateAligned_eq (a := a) hle heap
  · cases heq.symm.trans hret
    have hsound := sound_advance (k := slop) h hpos (by omega)
    rw [Nat.add_comm slop] at hsound
    exact ⟨hsound, hdvd⟩
  · rw [heq] at hret
    split at hret
    · obtain ⟨hsound, halign⟩ := sound_fallback h hpos (Option.some.inj hret) hm
      exact ⟨hsound, (by decide : 8 ∣ 16).trans halign⟩
    · cases hret

theorem allocateFallback_ptr : (a.allocateFallback heap bytes).1 = heap.malloc := by
  unfold allocateFallback
  split <;> rfl

/-- The `assert` of `AllocateAligned` holds. -/
theorem allocateAligned_returns (hle : bytes ≤ 2 ^ 64 - 8) (hmalloc : 16 ∣ heap.malloc) :
    ∃ r, a.allocateAligned heap bytes = some r := by
  obtain ⟨slop, -, -, ⟨-, heq⟩ | ⟨-, heq⟩⟩ := allocateAligned_eq (a := a) hle heap
  · exact ⟨_, heq⟩
  · rw [allocateFallback_ptr, if_pos (by omega)] at heq
    exact ⟨_, heq⟩

/-! ### What the arena has from the heap -/

/-- The blocks and the array of `blocks_` lie apart, and the array has a pointer for each. -/
structure Placed (a : Arena) : Prop where
  apart : (a.array :: a.blocks).Pairwise Area.Apart
  lt : ∀ c ∈ a.array :: a.blocks, c.ptr + c.size < 2 ^ 64
  space : sizeofPtr * a.blocks.length ≤ a.array.size

theorem placed_new : Placed new :=
  ⟨List.pairwise_singleton _ _, fun c hc => by
    rw [List.mem_singleton.mp hc]
    decide, le_rfl⟩

/-- A call leaves the heap alone, or there is a new block. -/
theorem blocks_fallback (heap : Heap) (bytes : Nat) (a : Arena) :
    ∃ b, (a.allocateFallback heap bytes).2.blocks = b :: a.blocks := by
  unfold allocateFallback
  split
  · exact ⟨_, rfl⟩
  · exact ⟨_, rfl⟩

theorem blocks_allocate {a' : Arena} (hret : a.allocate heap bytes = some (ptr, a')) :
    (a'.blocks = a.blocks ∧ a'.array = a.array) ∨ ∃ b, a'.blocks = b :: a.blocks := by
  rw [allocate] at hret
  split at hret
  · split at hret
    · cases hret
      exact .inl ⟨rfl, rfl⟩
    · obtain ⟨b, hb⟩ := blocks_fallback heap bytes a
      rw [Option.some.inj hret] at hb
      exact .inr ⟨b, hb⟩
  · cases hret

theorem blocks_allocateAligned {a' : Arena} (hbytes : Admitted bytes)
    (hret : a.allocateAligned heap bytes = some (ptr, a')) :
    (a'.blocks = a.blocks ∧ a'.array = a.array) ∨ ∃ b, a'.blocks = b :: a.blocks := by
  obtain ⟨slop, -, -, ⟨-, heq⟩ | ⟨-, heq⟩⟩ := allocateAligned_eq (a := a) hbytes.2 heap
  · cases heq.symm.trans hret
    exact .inl ⟨rfl, rfl⟩
  · rw [heq] at hret
    split at hret
    · obtain ⟨b, hb⟩ := blocks_fallback heap bytes a
      rw [Option.some.inj hret] at hb
      exact .inr ⟨b, hb⟩
    · cases hret

theorem Placed.step {a' : Arena} (h : Placed a) (hm : Malloced a a')
    (hblocks : (a'.blocks = a.blocks ∧ a'.array = a.array) ∨ ∃ b, a'.blocks = b :: a.blocks) :
    Placed a' := by
  obtain ⟨hapart, hlt, -⟩ := h
  rw [List.pairwise_cons] at hapart
  rw [List.forall_mem_cons] at hlt
  rcases hblocks with ⟨hb, ha⟩ | ⟨b, hb⟩
  · refine ⟨?_, ?_, hm.space⟩
    · rw [hb, ha]
      exact List.pairwise_cons.mpr hapart
    · rw [hb, ha]
      exact List.forall_mem_cons.mpr hlt
  · -- a block that is apart from the old array too
    have hfresh := hm.block b hb
    have hold := List.forall_mem_cons.mp hfresh.apart
    have hblocks : (b :: a.blocks).Pairwise Area.Apart := List.pairwise_cons.mpr ⟨hold.2, hapart.2⟩
    have hends : ∀ c ∈ b :: a.blocks, c.ptr + c.size < 2 ^ 64 :=
      List.forall_mem_cons.mpr ⟨hfresh.lt, hlt.2⟩
    have harray : (∀ c ∈ b :: a.blocks, a'.array.Apart c) ∧
        a'.array.ptr + a'.array.size < 2 ^ 64 := by
      rcases hm.array with heq | hgrown
      · rw [heq]
        exact ⟨List.forall_mem_cons.mpr ⟨hold.1.symm, hapart.1⟩, hlt.1⟩
      · rw [hb] at hgrown
        exact ⟨(List.forall_mem_cons.mp hgrown.apart).2, hgrown.lt⟩
    refine ⟨?_, ?_, hm.space⟩
    · rw [hb]
      exact List.pairwise_cons.mpr ⟨harray.1, hblocks⟩
    · rw [hb]
      exact List.forall_mem_cons.mpr ⟨harray.2, hends⟩

/-- The bytes `malloc` was asked for. -/
def given (a : Arena) : Nat := (a.blocks.map (·.size)).sum

theorem total_eq (a : Arena) : a.total = a.given + sizeofPtr * a.blocks.length := by
  rw [total, given]
  induction a.blocks with
  | nil => rfl
  | cons b bs ih =>
      rw [List.map_cons, List.sum_cons, ih, List.map_cons, List.sum_cons, List.length_cons,
          Nat.mul_succ]
      omega

theorem Placed.total_lt (h : Placed a) : a.total < 2 ^ 64 := by
  have hsum := sum_size_le h.apart fun c hc => Nat.le_sub_one_of_lt (h.lt c hc)
  have hspace := h.space
  rw [List.map_cons, List.sum_cons] at hsum
  rw [total_eq, given]
  omega

end Arena

/-! ## Runs -/

theorem run_placed {es : List Call} {a : Arena} (h : arena.Run es a) : a.Placed := by
  induction h with
  | start h₀ =>
      cases h₀
      exact Arena.placed_new
  | next _ hs ih =>
      cases hs with
      | allocate _ hret hm => exact ih.step hm (Arena.blocks_allocate hret)
      | allocateAligned hbytes hret hm =>
          exact ih.step hm (Arena.blocks_allocateAligned hbytes hret)

theorem run_sound {es : List Call} {a : Arena} (h : arena.Run es a) :
    a.Sound (es.map Call.area) ∧ ∀ area, Call.allocateAligned area ∈ es → 8 ∣ area.ptr := by
  induction h with
  | start h₀ =>
      cases h₀
      exact ⟨Arena.sound_new, fun _ hmem => absurd hmem List.not_mem_nil⟩
  | next _ hs ih =>
      obtain ⟨hsound, haligned⟩ := ih
      rw [List.map_append]
      cases hs with
      | allocate hbytes hret hm =>
          refine ⟨Arena.sound_allocate hsound hret hm, fun area hmem => ?_⟩
          rcases List.mem_append.mp hmem with hmem | hmem
          · exact haligned area hmem
          · cases List.mem_singleton.mp hmem
      | allocateAligned hbytes hret hm =>
          obtain ⟨hsound', hptr⟩ := Arena.sound_allocateAligned hsound hbytes hret hm
          refine ⟨hsound', fun area hmem => ?_⟩
          rcases List.mem_append.mp hmem with hmem | hmem
          · exact haligned area hmem
          · cases List.mem_singleton.mp hmem
            exact hptr

theorem run_memoryUsage {es : List Call} {a : Arena} (h : arena.Run es a) :
    a.memoryUsage = a.total :=
  (run_sound h).1.usage.trans (Nat.mod_eq_of_lt (run_placed h).total_lt)

/-- **What an arena hands out does not overlap.**  After any calls the areas are pairwise apart,
each inside one block; those of `AllocateAligned` are at multiples of 8; the free part is the end
of the current block, or there is none.  `MemoryUsage()` is the sum over the blocks.  The next call
returns. -/
theorem allocations_apart {es : List Call} {a : Arena} (h : arena.Run es a) :
    (es.map Call.area).Pairwise Area.Apart ∧
    (∀ e ∈ es, ∃ b ∈ a.blocks, e.area.Within b) ∧
    (∀ area, .allocateAligned area ∈ es → 8 ∣ area.ptr) ∧
    a.Current ∧
    a.memoryUsage = a.total ∧
    ∀ heap bytes, Admitted bytes → 16 ∣ heap.malloc →
      (∃ r, a.allocate heap bytes = some r) ∧ ∃ r, a.allocateAligned heap bytes = some r := by
  obtain ⟨⟨hcarved, hcurrent, -⟩, haligned⟩ := run_sound h
  refine ⟨hcarved.areas_apart, fun e he => hcarved.within _ (List.mem_map_of_mem he), haligned,
    hcurrent, run_memoryUsage h, fun heap bytes hbytes hmalloc => ⟨?_, ?_⟩⟩
  · rw [Arena.allocate, if_pos hbytes.1]
    split <;> exact ⟨_, rfl⟩
  · exact Arena.allocateAligned_returns hbytes.2 hmalloc

/-! ### A run with three blocks -/

/-- A call that leaves the heap alone. -/
theorem Malloced.same {a a' : Arena} (h : a.Placed) (hblocks : a'.blocks = a.blocks)
    (harray : a'.array = a.array) : Malloced a a' where
  block b hb := by
    have hlength := congrArg List.length (hblocks.symm.trans hb)
    rw [List.length_cons] at hlength
    omega
  array := .inl harray
  space := by
    rw [hblocks, harray]
    exact h.space

/-- A block and an area behind it, a block of its own, the rest of the first block, a new one; the
array of `blocks_` grows twice. -/
theorem run_blocks : ∃ a, a.memoryUsage = 13216 ∧ a.allocBytesRemaining = 3996 ∧
    arena.Run [.allocate ⟨16, 3⟩, .allocateAligned ⟨24, 10⟩, .allocate ⟨8192, 5000⟩,
      .allocate ⟨34, 4000⟩, .allocateAligned ⟨16384, 100⟩] a := by
  have first : Step .new (.allocate ⟨16, 3⟩) _ :=
    @Step.allocate _ ⟨16, ⟨4112, 8⟩⟩ 3 16 _ ⟨by decide, by decide⟩ rfl
      ⟨fun b hb => by
        cases hb
        exact ⟨by decide, by decide, by decide, by decide⟩,
      .inr ⟨by decide, by decide, by decide, by decide⟩, by decide⟩
  have run₁ := ((System.Run.start rfl).next first : arena.Run _ _)
  have run₂ := run₁.next (@Step.allocateAligned _ ⟨0, .null⟩ 10 24 _ ⟨by decide, by decide⟩ rfl
    (.same (run_placed run₁) rfl rfl))
  have run₃ := run₂.next (@Step.allocate _ ⟨8192, ⟨4128, 16⟩⟩ 5000 8192 _ ⟨by decide, by decide⟩ rfl
    ⟨fun b hb => by
      cases hb
      exact ⟨by decide, by decide, by decide, by decide⟩,
    .inr ⟨by decide, by decide, by decide, by decide⟩, by decide⟩)
  have run₄ := run₃.next (@Step.allocate _ ⟨0, .null⟩ 4000 34 _ ⟨by decide, by decide⟩ rfl
    (.same (run_placed run₃) rfl rfl))
  have run₅ := run₄.next (@Step.allocateAligned _ ⟨16384, ⟨4144, 32⟩⟩ 100 16384 _
    ⟨by decide, by decide⟩ rfl
    ⟨fun b hb => by
      cases hb
      exact ⟨by decide, by decide, by decide, by decide⟩,
    .inr ⟨by decide, by decide, by decide, by decide⟩, by decide⟩)
  exact ⟨_, rfl, rfl, run₅⟩

theorem allocations_apart_three : ∃ (es : List Call) (a : Arena), arena.Run es a ∧
    es.map Call.area = [⟨16, 3⟩, ⟨24, 10⟩, ⟨8192, 5000⟩, ⟨34, 4000⟩, ⟨16384, 100⟩] ∧
    (es.map Call.area).Pairwise Area.Apart ∧ a.memoryUsage = a.total ∧ a.total = 13216 := by
  obtain ⟨a, husage, -, run⟩ := run_blocks
  obtain ⟨hapart, -, -, -, htotal, -⟩ := allocations_apart run
  exact ⟨_, _, run, rfl, hapart, htotal, htotal.symm.trans husage⟩

end PBase.Memory
