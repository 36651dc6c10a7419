/-
# `PBase.Logger.Fit` — messages and the flush buffer

`append_buf` takes another buffer if the message does not fit behind the others, and does not ask
whether it fits the new one.  So the bytes copied are inside the buffer exactly for a message of
at most `kFlushBufferSize` bytes, whatever came before (`appendBuf_stored_iff`).  A stream has a
buffer of `g_max_length_per_log` bytes, which `set_max_length_per_log` accepts up to 16 MB.
-/
import PBase.Logger.Recycle

namespace PBase.Logger

open PBase.Lib

/-- `set_max_length_per_log(max_len)`: what it returns, and `g_max_length_per_log`. -/
def setMaxLengthPerLog (gMaxLengthPerLog maxLen : Nat) : Bool × Nat :=
  if maxLen < 1024 ∨ maxLen > 16 * 1024 * 1024 then (false, gMaxLengthPerLog) else (true, maxLen)

namespace State

variable {s : State} {msg : List UInt8}

/-- `ptr_ <= cur_ptr_ <= end_ = cur_buffer_ + kFlushBufferSize` -/
structure Stored (s : State) : Prop where
  buffer : s.curBuffer.isSome
  ptr : s.ptr ≤ s.curPtr
  cur : s.curPtr ≤ s.endPtr
  endPtr : s.endPtr = kFlushBufferSize

/-- A buffer with nothing in it. -/
structure Empty (s : State) : Prop where
  buffer : s.curBuffer.isSome
  ptr : s.ptr = 0
  cur : s.curPtr = 0
  endPtr : s.endPtr = kFlushBufferSize

/-- The pointers of the front buffer, if there is one; `cur_ptr_` may be anywhere behind `ptr_`. -/
def Front (s : State) : Prop :=
  s.curBuffer = none ∨ s.curBuffer.isSome ∧ s.ptr ≤ s.curPtr ∧ s.endPtr = kFlushBufferSize

theorem empty_newBuffer (s : State) : s.newBuffer.Empty := by
  rw [newBuffer_eq]
  exact ⟨rfl, rfl, rfl, rfl⟩

theorem Empty.front (h : s.Empty) : s.Front :=
  .inr ⟨h.buffer, h.ptr ▸ Nat.zero_le _, h.endPtr⟩

theorem front_copy (h : s.Front) : (s.copy msg).Front := by
  cases hb : s.curBuffer with
  | none =>
      rw [copy, hb]
      exact h
  | some b =>
      rcases h with hnone | ⟨-, hptr, hend⟩
      · cases hb.symm.trans hnone
      · rw [copy, hb]
        exact .inr ⟨rfl, Nat.le_add_right_of_le hptr, hend⟩

theorem front_pushFront (h : s.Front) : s.pushFront.Front := by
  rcases s.pushFront_cases with ⟨b, hb, -, heq⟩ | ⟨heq, -⟩
  · rw [heq]
    rcases h with hnone | ⟨hsome, -, hend⟩
    · cases hb.symm.trans hnone
    · exact .inr ⟨hsome, le_rfl, hend⟩
  · rw [heq]
    exact h

/-- The message is copied to the front buffer, which it fits, or to an empty one. -/
theorem appendBuf_eq (s : State) (msg : List UInt8) :
    (∃ t : State, t.Empty ∧ s.appendBuf msg = t.copy msg) ∨
      s.curBuffer.isSome ∧ s.curPtr + msg.length ≤ s.endPtr ∧ s.appendBuf msg = s.copy msg := by
  cases hb : s.curBuffer with
  | none =>
      refine .inl ?_
      by_cases hfit : s.newBuffer.curPtr + msg.length > s.newBuffer.endPtr
      · exact ⟨_, empty_newBuffer s.newBuffer, by simp [appendBuf, hb, hfit]⟩
      · exact ⟨_, empty_newBuffer s, by simp [appendBuf, hb, hfit]⟩
  | some b =>
      rcases Nat.lt_or_ge s.endPtr (s.curPtr + msg.length) with hlt | hfit
      · exact .inl ⟨_, empty_newBuffer s, by simp [appendBuf, hb, hlt]⟩
      · exact .inr ⟨rfl, hfit, by simp [appendBuf, hb, Nat.not_lt.mpr hfit]⟩

theorem front_appendBuf (h : s.Front) : (s.appendBuf msg).Front := by
  rcases s.appendBuf_eq msg with ⟨t, ht, heq⟩ | ⟨-, -, heq⟩
  · rw [heq]
    exact front_copy ht.front
  · rw [heq]
    exact front_copy h

theorem copy_pointers (hb : s.curBuffer.isSome) (msg : List UInt8) :
    (s.copy msg).curBuffer = s.curBuffer ∧
    (s.copy msg).ptr = s.ptr ∧ (s.copy msg).curPtr = s.curPtr + msg.length ∧
    (s.copy msg).endPtr = s.endPtr := by
  obtain ⟨b, hb⟩ := Option.isSome_iff_exists.mp hb
  rw [copy, hb]
  exact ⟨rfl, rfl, rfl, rfl⟩

/-- The bytes copied are inside the buffer exactly if the message is no longer than one. -/
theorem stored_iff (h : s.Front) : (s.appendBuf msg).Stored ↔ msg.length ≤ kFlushBufferSize := by
  rcases s.appendBuf_eq msg with ⟨t, ht, heq⟩ | ⟨hsome, hfit, heq⟩
  · obtain ⟨hbuf, hptr, hcur, hend⟩ := copy_pointers ht.buffer msg
    rw [heq]
    rw [ht.cur, Nat.zero_add] at hcur
    rw [ht.ptr] at hptr
    rw [ht.endPtr] at hend
    constructor
    · intro hstored
      have hle := hstored.cur
      rwa [hcur, hend] at hle
    · intro hle
      refine ⟨hbuf ▸ ht.buffer, hptr ▸ Nat.zero_le _, ?_, hend⟩
      rwa [hcur, hend]
  · obtain ⟨hbuf, hptr, hcur, hend⟩ := copy_pointers hsome msg
    rw [heq]
    rcases h with hnone | ⟨-, hle, hend'⟩
    · rw [hnone] at hsome
      cases hsome
    · refine ⟨fun _ => by omega, fun _ => ⟨hbuf ▸ hsome, ?_, ?_, hend.trans hend'⟩⟩
      · omega
      · omega

end State

/-! ## Runs -/

theorem step_front {s t : State} {e : Event} (h : s.Front) (hs : Step s e t) : t.Front := by
  cases hs with
  | append msg => exact State.front_appendBuf h
  | stop => exact h
  | loop => exact h
  | sync => exact State.front_pushFront h
  | pop => exact h
  | popEmpty => exact h
  | output => exact h
  | fatal msg => exact State.front_appendBuf h
  | newBuffer => exact (State.empty_newBuffer s).front

theorem run_front {es : List Event} {s : State} (h : logger.Run es s) : s.Front := by
  refine h.invariant (I := State.Front) (fun s hs => ?_) fun s e t hs ht => step_front hs ht
  obtain ⟨-, -, -, hnone, -⟩ := hs
  exact .inl hnone

/-- No message is longer than `g_max_length_per_log`. -/
def WithinLimit (gMaxLengthPerLog : Nat) (_ : State) : Event → Prop
  | .appended msg => msg.length ≤ gMaxLengthPerLog
  | _ => True

/-- After any run a message is stored inside the buffer exactly if it is no longer than one.  So
all messages a limit allows are, exactly if the limit is at most the size of a buffer. -/
theorem appendBuf_stored_iff (maxLen : Nat) :
    (∀ es s msg, logger.Run es s →
      ((s.appendBuf msg).Stored ↔ msg.length ≤ kFlushBufferSize)) ∧
    ((∀ es s msg, (logger.when (WithinLimit maxLen)).Run es s → msg.length ≤ maxLen →
      (s.appendBuf msg).Stored) ↔ maxLen ≤ kFlushBufferSize) := by
  refine ⟨fun es s msg hrun => State.stored_iff (run_front hrun), fun hall => ?_,
    fun hle es s msg hrun hmsg => ?_⟩
  · -- a first message as long as the limit
    have hstored := hall [] .initial (List.replicate maxLen 0) (.start init_initial)
      (List.length_replicate ▸ le_rfl)
    rw [State.stored_iff (.inl rfl), List.length_replicate] at hstored
    exact hstored
  · exact (State.stored_iff (run_front hrun.of_when)).mpr (hmsg.trans hle)

/-- 40000 bytes, with a limit of 65536. -/
theorem appendBuf_overruns : ¬ ∀ g maxLen g', setMaxLengthPerLog g maxLen = (true, g') →
    ∀ es s msg, (logger.when (WithinLimit g')).Run es s → msg.length ≤ g' →
      (s.appendBuf msg).Stored := by
  intro h
  have hlength : (List.replicate 40000 (0 : UInt8)).length = 40000 := List.length_replicate
  have hstored := h 2048 65536 65536 (by decide) [] .initial (List.replicate 40000 0)
    (.start init_initial) (by rw [hlength]; decide)
  rw [State.stored_iff (.inl rfl), hlength] at hstored
  exact absurd hstored (by decide)

end PBase.Logger
