/-
# `PBase.Memory.Space` — what an arena asks `malloc` for

The arena loses bytes in three ways: up to 7 in front of an aligned area, the end of a block when a
small request does not fit, and the end of the last block.  A request above a quarter of the block
size gets a block of its own and leaves the current one as it is.  So a block is given up only when
three quarters of it are in use, and over any run the arena asks for no more than 4/3 of what was
requested, and one block.
-/
import PBase.Memory.Disjoint

namespace PBase.Memory

/-- What an aligned area may lose. -/
def Call.slop : Call → Nat
  | allocate _ => 0
  | allocateAligned _ => 7

/-- The bytes that were requested. -/
def requested (es : List Call) : Nat := (es.map fun e => e.area.size).sum

/-- These, and what is lost in front of them at most. -/
def padded (es : List Call) : Nat := (es.map fun e => e.area.size + e.slop).sum

namespace Arena

/-- What was cut from the current block. -/
def used (a : Arena) : Nat := kBlockSize - a.allocBytesRemaining

/-- An arena after requests of `n` bytes, with their padding `m` bytes.  Every block but the current
one has three quarters in use, and more than a quarter of `kBlockSize`. -/
structure Spent (n m : Nat) (a : Arena) : Prop where
  within : n + a.allocBytesRemaining ≤ a.given
  left : a.allocBytesRemaining ≤ kBlockSize
  full : a.allocBytesRemaining = 0 ∧ 3 * a.given ≤ 4 * m ∧
      (kBlockSize / 4 + 1) * a.blocks.length ≤ m ∨
    3 * a.given + 4 * a.used ≤ 4 * m + 3 * kBlockSize ∧
      (kBlockSize / 4 + 1) * a.blocks.length + a.used ≤ m + (kBlockSize / 4 + 1)

variable {a : Arena} {heap : Heap} {n m bytes slop ptr k : Nat}

theorem spent_new : Spent 0 0 new := ⟨le_refl 0, Nat.zero_le _, .inl ⟨rfl, le_refl 0, le_refl 0⟩⟩

/-- The request is cut from the current block. -/
theorem spent_advance (h : Spent n m a) (hpos : 0 < bytes)
    (hfits : k + bytes ≤ a.allocBytesRemaining)
    (hk : k ≤ slop) : Spent (n + bytes) (m + (bytes + slop)) (a.advance (k + bytes)) := by
  have hwithin := h.within
  have hleft := h.left
  refine ⟨?_, ?_, .inr ?_⟩
  · show n + bytes + (a.allocBytesRemaining - (k + bytes)) ≤ a.given
    omega
  · show a.allocBytesRemaining - (k + bytes) ≤ kBlockSize
    omega
  · rcases h.full with ⟨hzero, -⟩ | ⟨hgiven, hblocks⟩
    · omega
    · have hused : (a.advance (k + bytes)).used = a.used + (k + bytes) := by
        show kBlockSize - (a.allocBytesRemaining - (k + bytes)) = kBlockSize - a.allocBytesRemaining
            + (k + bytes)
        omega
      rw [hused]
      change 3 * a.given + _ ≤ _ ∧ (kBlockSize / 4 + 1) * a.blocks.length + _ ≤ _
      omega

/-- The request does not fit: it gets a block, or the current block is given up, and its last
quarter is all that may be lost. -/
theorem spent_fallback (h : Spent n m a) (hslop : slop ≤ 7)
    (hfull : a.allocBytesRemaining < bytes + slop) :
    Spent (n + bytes) (m + (bytes + slop)) (a.allocateFallback heap bytes).2 := by
  have hwithin := h.within
  have hleft := h.left
  have hsize : kBlockSize = 4096 := rfl
  have hquarter : kBlockSize / 4 + 1 = 1025 := rfl
  have hused : a.used = kBlockSize - a.allocBytesRemaining := rfl
  unfold allocateFallback
  split
  · rename_i hlarge
    refine ⟨?_, hleft, ?_⟩
    · show n + bytes + a.allocBytesRemaining ≤ bytes + a.given
      omega
    · change a.allocBytesRemaining = 0 ∧ 3 * (bytes + a.given) ≤ _ ∧ _ * (a.blocks.length + 1) ≤ _ ∨
        3 * (bytes + a.given) + 4 * a.used ≤ _ ∧ _ * (a.blocks.length + 1) + a.used ≤ _
      rcases h.full with ⟨hzero, hgiven, hblocks⟩ | ⟨hgiven, hblocks⟩
      · left
        rw [hquarter] at hblocks ⊢
        omega
      · right
        rw [hquarter] at hblocks ⊢
        omega
  · rename_i hsmall
    refine ⟨?_, ?_, .inr ?_⟩
    · show n + bytes + (kBlockSize - bytes) ≤ kBlockSize + a.given
      omega
    · show kBlockSize - bytes ≤ kBlockSize
      omega
    · change 3 * (kBlockSize + a.given) + 4 * (kBlockSize - (kBlockSize - bytes)) ≤ _ ∧
        _ * (a.blocks.length + 1) + (kBlockSize - (kBlockSize - bytes)) ≤ _
      rcases h.full with ⟨hzero, hgiven, hblocks⟩ | ⟨hgiven, hblocks⟩
      · rw [hquarter] at hblocks ⊢
        omega
      · rw [hquarter] at hblocks ⊢
        omega

theorem spent_allocate {a' : Arena} (h : Spent n m a)
    (hret : a.allocate heap bytes = some (ptr, a')) :
    Spent (n + bytes) (m + (bytes + 0)) a' := by
  rw [allocate] at hret
  split at hret
  · rename_i hpos
    split at hret
    · rename_i hfits
      cases hret
      have hspent := spent_advance (k := 0) h hpos (by omega) (le_refl 0)
      rwa [Nat.zero_add] at hspent
    · rename_i hfull
      have hspent : Spent (n + bytes) (m + (bytes + 0)) (a.allocateFallback heap bytes).2 :=
        spent_fallback h (Nat.zero_le 7) (by omega)
      rwa [Option.some.inj hret] at hspent
  · cases hret

theorem spent_allocateAligned {a' : Arena} (h : Spent n m a) (hbytes : Admitted bytes)
    (hret : a.allocateAligned heap bytes = some (ptr, a')) :
    Spent (n + bytes) (m + (bytes + 7)) a' := by
  obtain ⟨slop, hslop, -, ⟨hfits, heq⟩ | ⟨hfull, heq⟩⟩ := allocateAligned_eq (a := a) hbytes.2 heap
  · cases heq.symm.trans hret
    rw [Nat.add_comm bytes slop] at hfits ⊢
    exact spent_advance h hbytes.1 hfits (Nat.le_of_lt_succ hslop)
  · rw [heq] at hret
    split at hret
    · have hspent : Spent (n + bytes) (m + (bytes + 7)) (a.allocateFallback heap bytes).2 :=
        spent_fallback h (le_refl 7) (by omega)
      rwa [Option.some.inj hret] at hspent
    · cases hret

end Arena

theorem run_spent {es : List Call} {a : Arena} (h : arena.Run es a) :
    a.Spent (requested es) (padded es) := by
  induction h with
  | start h₀ =>
      cases h₀
      exact Arena.spent_new
  | @next es a a' e _ hs ih =>
      have hn : requested (es ++ [e]) = requested es + e.area.size := by
        simp only [requested, List.map_append, List.sum_append, List.map_singleton,
            List.sum_singleton]
      have hm : padded (es ++ [e]) = padded es + (e.area.size + e.slop) := by
        simp only [padded, List.map_append, List.sum_append, List.map_singleton, List.sum_singleton]
      rw [hn, hm]
      cases hs with
      | allocate _ hret _ => exact Arena.spent_allocate ih hret
      | allocateAligned hbytes hret _ => exact Arena.spent_allocateAligned ih hbytes hret

/-- **What an arena asks `malloc` for.**  After any calls it is no less than what was requested and
the free part of the current block, and no more than 4/3 of what was requested, with 7 bytes for
each aligned request, and one block.  All blocks but one stand for more than a quarter of a block
that was requested, again with 7 bytes for each aligned request, so this bounds their pointers too,
which `MemoryUsage()` counts. -/
theorem space_bounded {es : List Call} {a : Arena} (h : arena.Run es a) :
    requested es + a.allocBytesRemaining ≤ a.given ∧
    3 * a.given ≤ 4 * padded es + 3 * kBlockSize ∧
    (kBlockSize / 4 + 1) * a.blocks.length ≤ padded es + (kBlockSize / 4 + 1) ∧
    a.memoryUsage = a.given + sizeofPtr * a.blocks.length := by
  have hspent := run_spent h
  refine ⟨hspent.within, ?_, ?_, ?_⟩
  · rcases hspent.full with ⟨-, hgiven, -⟩ | ⟨hgiven, -⟩ <;> omega
  · rcases hspent.full with ⟨-, -, hblocks⟩ | ⟨-, hblocks⟩ <;> omega
  · rw [run_memoryUsage h, Arena.total_eq]

/-- Three blocks for 9113 bytes. -/
theorem space_bounded_three : ∃ (es : List Call) (a : Arena), arena.Run es a ∧ requested es = 9113 ∧
    padded es = 9127 ∧ a.allocBytesRemaining = 3996 ∧ a.memoryUsage = 13216 ∧
    requested es + a.allocBytesRemaining ≤ a.given ∧ 3 * a.given ≤ 4 * padded es + 3 * kBlockSize ∧
    a.memoryUsage = a.given + sizeofPtr * a.blocks.length := by
  obtain ⟨a, husage, hleft, run⟩ := run_blocks
  obtain ⟨hwithin, hgiven, -, htotal⟩ := space_bounded run
  exact ⟨_, _, run, rfl, rfl, hleft, husage, hwithin, hgiven, htotal⟩

end PBase.Memory
