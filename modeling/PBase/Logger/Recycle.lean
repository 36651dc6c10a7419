/-
# `PBase.Logger.Recycle` — a buffer is recycled only when it is drained

A buffer that was malloc'ed is in one of three places: it is the front buffer, or a ref of
length 0 for it is queued, or it is on the free list (`Placed`).  It goes round: `new_buffer`
queues a ref of length 0 for the front buffer and takes a free one, `flush` pops that ref and
frees the buffer.

Who owns a buffer is known only from the order of `ref_list_`: the ref of length 0 is the last
one of its buffer (`Buffers.last`), so when `flush` reaches it, all refs into the buffer have
been output.  Nothing here depends on what the buffers hold, and so it is true of the runs
too in which `sync_with_front` lets a message be overwritten.
-/
import PBase.Lib.Placement
import PBase.Logger.Model

namespace PBase.Logger

open PBase.Lib

/-! ## Pending refs -/

/-- The ref about to be output. -/
def Pc.hand : Pc → List BufferRef
  | .output ref _ => [ref]
  | _ => []

theorem afterFlush_hand (last : Bool) : (afterFlush last).hand = [] := by cases last <;> rfl

/-- The refs not yet output, oldest first. -/
def State.pending (s : State) : List BufferRef := s.pc.hand ++ s.refList

/-- Who has the buffers: free ones, then those a ref or the front denotes. -/
structure Buffers (s : State) : Prop where
  /-- A ref of length 0 is the last one of its buffer. -/
  last : s.refList.Pairwise fun a b => a.length = 0 → b.buf ≠ a.buf
  hand : ∀ ref ∈ s.pc.hand, 0 < ref.length
  free : s.freeBufferList.Nodup
  freeRef : ∀ b ∈ s.freeBufferList, ∀ ref ∈ s.pending, ref.buf ≠ b
  freeCur : ∀ b ∈ s.freeBufferList, s.curBuffer ≠ some b
  lastCur : ∀ ref ∈ s.refList, ref.length = 0 → s.curBuffer ≠ some ref.buf
  lt : (∀ b ∈ s.freeBufferList, b < s.mallocs) ∧ (∀ ref ∈ s.pending, ref.buf < s.mallocs) ∧
    ∀ b, s.curBuffer = some b → b < s.mallocs
  range : s.ptr = 0 ∧ s.curPtr ≤ s.endPtr ∧
    (∀ b, s.curBuffer = some b → s.endPtr = kFlushBufferSize) ∧ (s.curBuffer = none → s.curPtr = 0)

/-! ## The functions, in smaller steps -/

namespace State

/-- The front bytes become a ref. -/
def queue (s : State) (b : Nat) : State :=
  { s with refList := s.refList ++ [BufferRef.mk b s.ptr (s.curPtr - s.ptr)], curPtr := s.ptr }

/-- The front buffer is given up, by a ref of length 0. -/
def giveUp (s : State) (b : Nat) : State :=
  { s with refList := s.refList ++ [BufferRef.mk b 0 0], curBuffer := none }

/-- A buffer is taken for the front. -/
def withBuffer (s : State) (b : Nat) (free : List Nat) (m : Nat) : State :=
  { s with
    freeBufferList := free, mallocs := m, curBuffer := some b, ptr := 0,
    endPtr := kFlushBufferSize, curPtr := 0 }

theorem pushFront_cases (s : State) :
    (∃ b, s.curBuffer = some b ∧ s.ptr < s.curPtr ∧ s.pushFront = s.queue b) ∨
      (s.pushFront = s ∧ ∀ b, s.curBuffer = some b → s.curPtr ≤ s.ptr) := by
  unfold pushFront
  cases hb : s.curBuffer with
  | none => exact .inr ⟨rfl, by simp⟩
  | some b =>
      by_cases hlt : s.curPtr > s.ptr
      · exact .inl ⟨b, rfl, hlt, by simp [hlt, queue, hb]⟩
      · exact .inr ⟨by simp [hlt], fun _ _ => Nat.not_lt.mp hlt⟩

/-- `new_buffer` without the taking of a buffer. -/
def release (s : State) : State :=
  match s.curBuffer with
  | some b => s.pushFront.giveUp b
  | none => s.pushFront

theorem pushFront_curBuffer (s : State) : s.pushFront.curBuffer = s.curBuffer := by
  unfold pushFront
  split
  · split <;> rfl
  · rfl

theorem newBuffer_eq (s : State) : s.newBuffer = s.release.withBuffer s.release.takeBuffer.1
    s.release.takeBuffer.2.freeBufferList s.release.takeBuffer.2.mallocs := by
  have hcur := s.pushFront_curBuffer
  unfold newBuffer release
  cases hb : s.curBuffer with
  | none =>
      rw [hb] at hcur
      cases hf : s.pushFront.freeBufferList <;> simp [hcur, hf, withBuffer, takeBuffer]
  | some b =>
      rw [hb] at hcur
      cases hf : s.pushFront.freeBufferList <;> simp [hcur, hf, withBuffer, takeBuffer, giveUp]

/-- `append_buf` copies to the front buffer, or to another one. -/
theorem appendBuf_cases (s : State) {msg : List UInt8}
    (hnew : s.newBuffer.curPtr + msg.length ≤ s.newBuffer.endPtr) :
    s.appendBuf msg = s.newBuffer.copy msg ∨
      ∃ b, s.curBuffer = some b ∧ s.curPtr + msg.length ≤ s.endPtr ∧
      s.appendBuf msg = s.copy msg := by
  cases hb : s.curBuffer with
  | none => exact .inl (by simp [appendBuf, hb, Nat.not_lt.mpr hnew])
  | some b =>
      rcases Nat.lt_or_ge s.endPtr (s.curPtr + msg.length) with hlt | hfit
      · exact .inl (by simp [appendBuf, hb, hlt])
      · exact .inr ⟨b, rfl, hfit, by simp [appendBuf, hb, Nat.not_lt.mpr hfit]⟩

end State

/-- What the section of `flush` takes off the list. -/
theorem popRef_spec {free free' : List Nat} {l rest : List BufferRef} {r : Option BufferRef}
    (h : popRef free l = (free', r, rest)) : ∃ ms, l = ms ++ (r.toList ++ rest) ∧
      (∀ m ∈ ms, m.length = 0) ∧ free' = free ++ ms.map BufferRef.buf ∧
      (∀ ref ∈ r.toList, 0 < ref.length) ∧ (r = none → rest = []) := by
  induction l generalizing free with
  | nil =>
      cases h
      exact ⟨[], rfl, by simp, by simp, by simp, fun _ => rfl⟩
  | cons ref l ih =>
      unfold popRef at h
      by_cases hz : ref.length ≤ 0
      · rw [if_pos hz] at h
        obtain ⟨ms, hl, hms, hfree, hr, hrest⟩ := ih h
        refine ⟨ref :: ms, by rw [hl]; rfl, ?_, by rw [hfree]; simp, hr, hrest⟩
        intro m hm
        rcases List.mem_cons.mp hm with rfl | hm
        · exact Nat.le_zero.mp hz
        · exact hms m hm
      · rw [if_neg hz] at h
        cases h
        exact ⟨[], rfl, by simp, by simp, by simpa using Nat.pos_of_ne_zero fun h0 => hz (by omega),
          fun hn => nomatch hn⟩

namespace Buffers

variable {s : State} {b : Nat}

/-- A pending ref was pending before, or is the new one. -/
theorem pending_queue {ref : BufferRef} (href : ref ∈ (s.queue b).pending) :
    ref ∈ s.pending ∨ ref = ⟨b, s.ptr, s.curPtr - s.ptr⟩ := by
  rw [State.pending, State.queue, ← List.append_assoc] at href
  exact (List.mem_append.mp href).imp_right List.mem_singleton.mp

theorem pending_giveUp {ref : BufferRef} (href : ref ∈ (s.giveUp b).pending) :
    ref ∈ s.pending ∨ ref = ⟨b, 0, 0⟩ := by
  rw [State.pending, State.giveUp, ← List.append_assoc] at href
  exact (List.mem_append.mp href).imp_right List.mem_singleton.mp

/-- The refs stay apart from the last refs of other buffers. -/
theorem last_snoc (h : Buffers s) (hb : s.curBuffer = some b) {ref : BufferRef}
    (href : ref.buf = b) :
    (s.refList ++ [ref]).Pairwise fun a b => a.length = 0 → b.buf ≠ a.buf := by
  refine List.pairwise_append.mpr ⟨h.last, List.pairwise_singleton _ _, fun a ha b' hb' hz => ?_⟩
  rw [List.mem_singleton.mp hb', href]
  exact fun heq => h.lastCur a ha hz (heq ▸ hb)

/-- The front bytes become a ref. -/
theorem queue (h : Buffers s) (hb : s.curBuffer = some b) (hlt : s.ptr < s.curPtr) :
    Buffers (s.queue b) := by
  refine ⟨h.last_snoc hb rfl, h.hand, h.free, fun b' hb' ref href => ?_, h.freeCur,
    fun ref href hzero => ?_, ⟨h.lt.1, fun ref href => ?_, h.lt.2.2⟩, ?_⟩
  · rcases pending_queue href with href | rfl
    · exact h.freeRef b' hb' ref href
    · rintro rfl
      exact h.freeCur _ hb' hb
  · rcases List.mem_append.mp href with href | href
    · exact h.lastCur ref href hzero
    · rw [List.mem_singleton.mp href] at hzero
      simp only at hzero
      omega
  · rcases pending_queue href with href | rfl
    · exact h.lt.2.1 ref href
    · exact h.lt.2.2 b hb
  · obtain ⟨hptr, hle, hend, _⟩ := h.range
    exact ⟨hptr, by simp only [State.queue]; omega, hend, fun hnone => by
      simp [State.queue, hb] at hnone⟩

/-- Queueing the front bytes moves none of them. -/
theorem pushFront_curPtr (h : Buffers s) : s.pushFront.curPtr = 0 ∧ s.pushFront.pc = s.pc := by
  obtain ⟨hptr, _, _, hnone⟩ := h.range
  rcases s.pushFront_cases with ⟨b, hb, hlt, heq⟩ | ⟨heq, hle⟩
  · rw [heq]
    exact ⟨hptr, rfl⟩
  · rw [heq]
    refine ⟨?_, rfl⟩
    cases hb : s.curBuffer with
    | none => exact hnone hb
    | some b =>
        have := hle b hb
        omega

/-- The sink thread moves. -/
theorem goto (h : Buffers s) {p : Pc} (hhand : p.hand = s.pc.hand) :
    Buffers { s with pc := p } := by
  have hpending : State.pending { s with pc := p } = s.pending := by simp [State.pending, hhand]
  refine ⟨h.last, hhand ▸ h.hand, h.free, ?_, h.freeCur, h.lastCur, ⟨h.lt.1, ?_, h.lt.2.2⟩, h.range⟩
  · rw [hpending]; exact h.freeRef
  · rw [hpending]; exact h.lt.2.1

/-- A buffer with nothing in front is given up. -/
theorem giveUp (h : Buffers s) (hb : s.curBuffer = some b) (hcur : s.curPtr = 0) :
    Buffers (s.giveUp b) := by
  obtain ⟨hptr, hle, _, _⟩ := h.range
  refine ⟨h.last_snoc hb rfl, h.hand, h.free, fun b' hb' ref href => ?_, by simp [State.giveUp],
    by simp [State.giveUp], ⟨h.lt.1, fun ref href => ?_, by simp [State.giveUp]⟩, hptr, hle,
    by simp [State.giveUp], fun _ => hcur⟩
  · rcases pending_giveUp href with href | rfl
    · exact h.freeRef b' hb' ref href
    · rintro rfl
      exact h.freeCur _ hb' hb
  · rcases pending_giveUp href with href | rfl
    · exact h.lt.2.1 ref href
    · exact h.lt.2.2 b hb

/-- `new_buffer`, up to the taking of a buffer: what both of its steps keep. -/
theorem release (h : Buffers s) {I : State → Prop} (hpush : I s.pushFront)
    (hgive : ∀ s b, I s → s.curBuffer = some b → s.curPtr = 0 → I (s.giveUp b)) :
    I s.release ∧ s.release.curBuffer = none ∧ s.release.pc = s.pc := by
  have hcur := s.pushFront_curBuffer
  obtain ⟨hzero, hpc⟩ := h.pushFront_curPtr
  unfold State.release
  split
  · rename_i b hb
    exact ⟨hgive _ b hpush (hcur.trans hb) hzero, rfl, hpc⟩
  · rename_i hb
    exact ⟨hpush, hcur.trans hb, hpc⟩

/-- A buffer is taken: nobody else has it. -/
theorem take (h : Buffers s) {m : Nat} {free : List Nat} (hfree : ∀ x ∈ free, x ∈ s.freeBufferList)
    (hnodup : (b :: free).Nodup) (hlt : b < m) (hm : s.mallocs ≤ m)
    (hnew : ∀ ref ∈ s.pending, ref.buf ≠ b) : Buffers (s.withBuffer b free m) := by
  refine ⟨h.last, h.hand, (List.nodup_cons.mp hnodup).2, fun b' hb' => h.freeRef b' (hfree b' hb'),
    fun b' hb' heq => ?_, fun ref href _ heq => ?_, ⟨fun b' hb' => ?_, fun ref href => ?_, ?_⟩,
    rfl, Nat.zero_le _, fun _ _ => rfl, fun hc => by cases hc⟩
  · cases heq
    exact (List.nodup_cons.mp hnodup).1 hb'
  · cases heq
    exact hnew ref (List.mem_append_right _ href) rfl
  · exact Nat.lt_of_lt_of_le (h.lt.1 b' (hfree b' hb')) hm
  · exact Nat.lt_of_lt_of_le (h.lt.2.1 ref href) hm
  · rintro b' hb'
    cases hb'
    exact hlt

/-- A message is copied to the front. -/
theorem copy (h : Buffers s) {msg : List UInt8} (hb : s.curBuffer = some b)
    (hfit : s.curPtr + msg.length ≤ s.endPtr) : Buffers (s.copy msg) := by
  have hcopy : s.copy msg = { s with
      mem := Function.update s.mem b (writeBytes (s.mem b) s.curPtr msg)
      curPtr := s.curPtr + msg.length } := by simp only [State.copy, hb]
  obtain ⟨hptr, _, hend, _⟩ := h.range
  rw [hcopy]
  exact ⟨h.last, h.hand, h.free, h.freeRef, h.freeCur, h.lastCur, h.lt, hptr, hfit, hend,
    fun hnone => by simp [hb] at hnone⟩

/-- A pop: the buffers of the refs of length 0 are free, the next ref is in hand. -/
theorem pop (h : Buffers s) {p : Pc} {free : List Nat} {r : Option BufferRef}
    {rest : List BufferRef} (hhand : s.pc.hand = []) (hp : p.hand = r.toList)
    (hpop : popRef s.freeBufferList s.refList = (free, r, rest)) :
    Buffers { s with freeBufferList := free, refList := rest, pc := p } := by
  obtain ⟨ms, hl, hms, rfl, hpos, _⟩ := popRef_spec hpop
  have hlast := h.last
  rw [hl] at hlast
  obtain ⟨hlast_ms, hlast_rest, hlast_cross⟩ := List.pairwise_append.mp hlast
  have hold : ∀ ref ∈ r.toList ++ rest, ref ∈ s.pending := fun ref href => by
    rw [State.pending, hhand, hl]
    exact List.mem_append_right _ (List.mem_append_right _ href)
  have holdms : ∀ m ∈ ms, m ∈ s.refList := fun m hm => hl ▸ List.mem_append_left _ hm
  have hnodup : (ms.map BufferRef.buf).Nodup := by
    refine List.pairwise_map.mpr ((List.pairwise_iff_forall_sublist.mpr fun {a b} hab => ?_))
    have hz := hms a (hab.subset List.mem_cons_self)
    exact fun heq => List.pairwise_iff_forall_sublist.mp hlast_ms hab hz heq.symm
  refine ⟨(List.pairwise_append.mp hlast_rest).2.1, fun ref href => hpos ref (hp ▸ href), ?_,
    fun b hb ref href => ?_, fun b hb => ?_, fun ref href hz => ?_, ⟨fun b hb => ?_, fun ref href =>
    h.lt.2.1 ref (hold ref (hp ▸ href)), h.lt.2.2⟩, h.range⟩
  · refine List.nodup_append'.mpr ⟨h.free, hnodup, fun b hb hmap => ?_⟩
    obtain ⟨m, hm, rfl⟩ := List.mem_map.mp hmap
    exact h.freeRef _ hb m (List.mem_append_right _ (holdms m hm)) rfl
  · have href : ref ∈ r.toList ++ rest := hp ▸ href
    rcases List.mem_append.mp hb with hb | hb
    · exact h.freeRef b hb ref (hold ref href)
    · obtain ⟨m, hm, rfl⟩ := List.mem_map.mp hb
      exact hlast_cross m hm ref href (hms m hm)
  · rcases List.mem_append.mp hb with hb | hb
    · exact h.freeCur b hb
    · obtain ⟨m, hm, rfl⟩ := List.mem_map.mp hb
      exact h.lastCur m (holdms m hm) (hms m hm)
  · refine h.lastCur ref ?_ hz
    rw [hl]
    exact List.mem_append_right _ (List.mem_append_right _ href)
  · rcases List.mem_append.mp hb with hb | hb
    · exact h.lt.1 b hb
    · obtain ⟨m, hm, rfl⟩ := List.mem_map.mp hb
      exact h.lt.2.1 m (List.mem_append_right _ (holdms m hm))

/-- A call of `g_output_func`. -/
theorem output (h : Buffers s) {last : Bool} : Buffers { s with pc := .flush last } := by
  have hsub : ∀ r ∈ State.pending { s with pc := .flush last }, r ∈ s.pending := fun r hr =>
    List.mem_append_right _ hr
  exact ⟨h.last, fun ref href => (List.not_mem_nil href).elim, h.free,
    fun b hb r hr => h.freeRef b hb r (hsub r hr), h.freeCur, h.lastCur,
    ⟨h.lt.1, fun r hr => h.lt.2.1 r (hsub r hr), h.lt.2.2⟩, h.range⟩

theorem initial (h : logger.init s) : Buffers s := by
  obtain ⟨_, hfree, hrefs, hbuf, hptr, hcur, hend, hpc⟩ := h
  have hpending : s.pending = [] := by simp [State.pending, hpc, hrefs, Pc.hand]
  exact ⟨by simp [hrefs], by simp [hpc, Pc.hand], by simp [hfree], by simp [hfree],
    by simp [hfree], by simp [hrefs], by simp [hfree, hpending, hbuf], by simp [hptr, hcur, hbuf]⟩

end Buffers

/-! ## Where a buffer is -/

inductive Place where
  | front
  | marked
  | free
  deriving DecidableEq

/-- The buffers at a place; at `marked`, those of the refs of length 0. -/
def State.buffersAt (s : State) : Place → List Nat
  | .front => s.curBuffer.toList
  | .marked => (s.refList.filter (·.length = 0)).map BufferRef.buf
  | .free => s.freeBufferList

/-- Every buffer is at one place, and the pending refs are inside theirs. -/
structure Recycled (s : State) : Prop extends Buffers s where
  placed : Placed s.buffersAt (· < s.mallocs)
  inside : ∀ ref ∈ s.pending, ref.off + ref.length ≤ kFlushBufferSize

namespace Recycled

variable {s : State} {b : Nat}

theorem queue (h : Recycled s) (hb : s.curBuffer = some b) (hlt : s.ptr < s.curPtr) :
    Recycled (s.queue b) := by
  refine ⟨h.toBuffers.queue hb hlt, h.placed.perm fun p => ?_, fun ref href => ?_⟩
  · cases p with
    | front => exact .refl _
    | marked =>
        have hpos : s.curPtr - s.ptr ≠ 0 := by omega
        simp [State.buffersAt, State.queue, List.filter_append, hpos]
    | free => exact .refl _
  · rcases Buffers.pending_queue href with href | rfl
    · exact h.inside ref href
    · obtain ⟨hptr, hle, hend, _⟩ := h.range
      have := hend b hb
      simp only
      omega

theorem pushFront (h : Recycled s) : Recycled s.pushFront := by
  rcases s.pushFront_cases with ⟨b, hb, hlt, heq⟩ | ⟨heq, _⟩
  · rw [heq]
    exact h.queue hb hlt
  · rw [heq]
    exact h

theorem goto (h : Recycled s) {p : Pc} (hhand : p.hand = s.pc.hand) :
    Recycled { s with pc := p } := by
  refine ⟨h.toBuffers.goto hhand, h.placed.perm fun p => by cases p <;> exact .refl _, ?_⟩
  have hpending : State.pending { s with pc := p } = s.pending := by simp [State.pending, hhand]
  rw [hpending]
  exact h.inside

theorem giveUp (h : Recycled s) (hb : s.curBuffer = some b) (hcur : s.curPtr = 0) :
    Recycled (s.giveUp b) := by
  refine ⟨h.toBuffers.giveUp hb hcur, ?_, fun ref href => ?_⟩
  · refine h.placed.move (p := .front) (q := .marked) (by decide) [b] ?_ ?_ fun p hf hm => ?_
    · simp [State.buffersAt, State.giveUp, hb]
    · simp [State.buffersAt, State.giveUp, List.filter_append]
    · cases p with
      | front => exact absurd rfl hf
      | marked => exact absurd rfl hm
      | free => exact .refl _
  · rcases Buffers.pending_giveUp href with href | rfl
    · exact h.inside ref href
    · exact Nat.zero_le _

theorem release (h : Recycled s) :
    Recycled s.release ∧ s.release.curBuffer = none ∧ s.release.pc = s.pc :=
  h.toBuffers.release h.pushFront fun _ _ => giveUp

/-- A buffer is taken, a free one or a new one. -/
theorem take (h : Recycled s) (hnone : s.curBuffer = none) : Recycled (s.withBuffer
    s.takeBuffer.1 s.takeBuffer.2.freeBufferList s.takeBuffer.2.mallocs) := by
  unfold State.takeBuffer
  cases hfree : s.freeBufferList with
  | nil =>
      refine ⟨h.toBuffers.take (by simp [hfree]) (by simp) (Nat.lt_succ_self _) (Nat.le_succ _)
        fun ref href => Nat.ne_of_lt (h.lt.2.1 ref href), ?_, h.inside⟩
      have hall : (fun b => b < s.mallocs + 1) = fun b => b ∈ [s.mallocs] ∨ b < s.mallocs := by
        funext b
        simp only [List.mem_singleton, eq_iff_iff]
        omega
      have hplaced : Placed (s.withBuffer s.mallocs s.freeBufferList (s.mallocs + 1)).buffersAt
          fun b => b ∈ [s.mallocs] ∨ b < s.mallocs := by
        refine h.placed.create [.front] (List.nodup_singleton _) (by simp) (List.nodup_singleton _)
          (by simp [State.buffersAt, State.withBuffer, hnone]) fun p hp => ?_
        cases p with
        | front => exact absurd List.mem_cons_self hp
        | marked => exact .refl _
        | free => exact .refl _
      rw [← hall, hfree] at hplaced
      exact hplaced
  | cons b rest =>
      have hmem : b ∈ s.freeBufferList := hfree ▸ List.mem_cons_self
      refine ⟨h.toBuffers.take (fun x hx => hfree ▸ List.mem_cons_of_mem _ hx) (hfree ▸ h.free)
        (h.lt.1 b hmem) (Nat.le_refl _) (h.freeRef b hmem), ?_, h.inside⟩
      refine h.placed.move (p := .free) (q := .front) (by decide) [b] ?_ ?_ fun p hf hm => ?_
      · simp [State.buffersAt, State.withBuffer, hfree]
      · simp [State.buffersAt, State.withBuffer, hnone]
      · cases p with
        | front => exact absurd rfl hm
        | marked => exact .refl _
        | free => exact absurd rfl hf

theorem newBuffer (h : Recycled s) : Recycled s.newBuffer ∧ s.newBuffer.pc = s.pc ∧
    ∃ b, s.newBuffer.curBuffer = some b ∧ s.newBuffer.curPtr = 0 ∧
      s.newBuffer.endPtr = kFlushBufferSize := by
  obtain ⟨hrelease, hnone, hpc⟩ := h.release
  rw [State.newBuffer_eq]
  exact ⟨hrelease.take hnone, hpc, _, rfl, rfl, rfl⟩

theorem copy (h : Recycled s) {msg : List UInt8} (hb : s.curBuffer = some b)
    (hfit : s.curPtr + msg.length ≤ s.endPtr) :
    Recycled (s.copy msg) ∧ (s.copy msg).pc = s.pc := by
  have hcopy := h.toBuffers.copy hb hfit
  have heq : s.copy msg = { s with
      mem := Function.update s.mem b (writeBytes (s.mem b) s.curPtr msg)
      curPtr := s.curPtr + msg.length } := by simp only [State.copy, hb]
  rw [heq] at hcopy ⊢
  exact ⟨⟨hcopy, h.placed.perm fun p => by cases p <;> exact .refl _, h.inside⟩, rfl⟩

/-- `append_buf(p, length)`, of a message no longer than a buffer. -/
theorem appendBuf (h : Recycled s) {msg : List UInt8} (hlen : msg.length ≤ kFlushBufferSize) :
    Recycled (s.appendBuf msg) ∧ (s.appendBuf msg).pc = s.pc := by
  obtain ⟨hn, hpc, b', hb', hcur', hend'⟩ := h.newBuffer
  have hfit' : s.newBuffer.curPtr + msg.length ≤ s.newBuffer.endPtr := by
    rw [hcur', hend', Nat.zero_add]
    exact hlen
  rcases s.appendBuf_cases hfit' with heq | ⟨b, hb, hfit, heq⟩
  · rw [heq]
    obtain ⟨hcopy, hpc'⟩ := hn.copy hb' hfit'
    exact ⟨hcopy, hpc'.trans hpc⟩
  · rw [heq]
    exact h.copy hb hfit

/-- The buffers of the refs of length 0 go to the free list. -/
theorem pop (h : Recycled s) {p : Pc} {free : List Nat} {r : Option BufferRef}
    {rest : List BufferRef} (hhand : s.pc.hand = []) (hp : p.hand = r.toList)
    (hpop : popRef s.freeBufferList s.refList = (free, r, rest)) :
    Recycled { s with freeBufferList := free, refList := rest, pc := p } := by
  refine ⟨h.toBuffers.pop hhand hp hpop, ?_, fun ref href => ?_⟩
  · obtain ⟨ms, hl, hms, rfl, hpos, _⟩ := popRef_spec hpop
    have hfilter : ms.filter (·.length = 0) = ms := List.filter_eq_self.mpr fun m hm =>
      decide_eq_true (hms m hm)
    have hhead : r.toList.filter (·.length = 0) = [] := List.filter_eq_nil_iff.mpr fun m hm =>
      fun hz => absurd (hpos m hm) (Nat.not_lt.mpr (of_decide_eq_true hz).le)
    refine h.placed.move (p := .marked) (q := .free) (by decide) (ms.map BufferRef.buf) ?_ ?_
      fun q hm hf => ?_
    · simp [State.buffersAt, hl, List.filter_append, hfilter, hhead]
    · exact List.perm_append_comm
    · cases q with
      | front => exact .refl _
      | marked => exact absurd rfl hm
      | free => exact absurd rfl hf
  · obtain ⟨ms, hl, -, -, -, -⟩ := popRef_spec hpop
    refine h.inside ref ?_
    rw [State.pending, hhand, hl]
    refine List.mem_append_right _ (List.mem_append_right _ ?_)
    exact hp ▸ href

theorem output (h : Recycled s) {last : Bool} : Recycled { s with pc := .flush last } :=
  ⟨h.toBuffers.output, h.placed.perm fun p => by cases p <;> exact .refl _,
    fun ref href => h.inside ref (List.mem_append_right _ href)⟩

end Recycled

/-! ## Runs -/

/-- No message is longer than a buffer. -/
def Fits (_ : State) : Event → Prop
  | .appended msg => msg.length ≤ kFlushBufferSize
  | _ => True

theorem Recycled.initial {s : State} (h : logger.init s) : Recycled s := by
  refine ⟨.initial h, ⟨fun p => ?_, fun {p q b} hp hq => ?_, fun b => ?_⟩, fun ref href => ?_⟩
  all_goals obtain ⟨hm, hfree, hrefs, hbuf, _, _, _, hpc⟩ := h
  · cases p <;> simp [State.buffersAt, hfree, hrefs, hbuf]
  · cases p <;> simp [State.buffersAt, hfree, hrefs, hbuf] at hp
  · refine ⟨fun hb => absurd hb (by omega), fun ⟨p, hp⟩ => ?_⟩
    cases p <;> simp [State.buffersAt, hfree, hrefs, hbuf] at hp
  · simp [State.pending, hpc, hrefs, Pc.hand] at href

theorem Recycled.step {s t : State} {e : Event} (h : Recycled s) (hs : Step s e t)
    (hfits : Fits s e) : Recycled t := by
  cases hs with
  | append msg => exact (h.appendBuf hfits).1
  | stop => exact ⟨⟨h.last, h.hand, h.free, h.freeRef, h.freeCur, h.lastCur, h.lt, h.range⟩,
      h.placed.perm fun p => by cases p <;> exact .refl _, h.inside⟩
  | loop ht => exact h.goto (by rw [ht]; split <;> rfl)
  | sync ht => exact h.pushFront.goto (by rw [h.toBuffers.pushFront_curPtr.2, ht]; rfl)
  | pop ht hpop => exact h.pop (by rw [ht]; rfl) rfl hpop
  | popEmpty ht hpop => exact h.pop (by rw [ht]; rfl) (afterFlush_hand _) hpop
  | output ht => exact h.output
  | fatal msg ht =>
      obtain ⟨ha, hpc⟩ := h.appendBuf hfits
      exact ha.goto (by rw [hpc, ht]; rfl)
  | newBuffer ht =>
      obtain ⟨hn, hpc, _⟩ := h.newBuffer
      exact hn.goto (by rw [hpc, ht]; rfl)

theorem State.count_marked (s : State) (b : Nat) : (s.buffersAt .marked).count b =
    s.refList.countP fun ref => ref.length = 0 ∧ ref.buf = b := by
  rw [State.buffersAt, List.count_eq_countP, List.countP_map, List.countP_filter]
  refine List.countP_congr fun ref _ => ?_
  simp [and_comm]

/-- Every buffer is at one of the places, once. -/
theorem Recycled.count {s : State} (h : Recycled s) {b : Nat} (hb : b < s.mallocs) :
    s.curBuffer.toList.count b + s.refList.countP (fun ref => ref.length = 0 ∧ ref.buf = b) +
      s.freeBufferList.count b = 1 := by
  rw [← s.count_marked]
  show (s.buffersAt .front).count b + _ + (s.buffersAt .free).count b = 1
  obtain ⟨p, hp, hunique⟩ := h.placed.existsUnique hb
  have hone := List.count_eq_one_of_mem (h.placed.nodup p) hp
  have hzero : ∀ q, q ≠ p → (s.buffersAt q).count b = 0 := fun q hq =>
    List.count_eq_zero_of_not_mem fun hmem => hq (hunique q hmem)
  cases p with
  | front => rw [hone, hzero .marked (by decide), hzero .free (by decide)]
  | marked => rw [hone, hzero .front (by decide), hzero .free (by decide)]
  | free => rw [hone, hzero .front (by decide), hzero .marked (by decide)]

/-- **A buffer is recycled only when it is drained.**  At any time every buffer is the front
buffer, or has one ref of length 0 queued, or is on the free list once; no pending ref of
positive length denotes a free buffer, and all are inside a buffer. -/
theorem buffers_recycled {es : List Event} {s : State} (h : (logger.when Fits).Run es s) :
    (∀ b < s.mallocs, s.curBuffer.toList.count b +
      s.refList.countP (fun ref => ref.length = 0 ∧ ref.buf = b) + s.freeBufferList.count b = 1) ∧
    (∀ b ∈ s.freeBufferList, ∀ ref ∈ s.pending, 0 < ref.length → ref.buf ≠ b) ∧
    ∀ ref ∈ s.pending, 0 < ref.length →
      ref.buf < s.mallocs ∧ ref.off + ref.length ≤ kFlushBufferSize := by
  have hrec : Recycled s := by
    induction h with
    | start h₀ => exact .initial h₀
    | next _ hs ih => exact ih.step hs.1 hs.2
  exact ⟨fun b hb => hrec.count hb, fun b hb ref href _ => hrec.freeRef b hb ref href,
    fun ref href _ => ⟨hrec.lt.2.1 ref href, hrec.inside ref href⟩⟩

/-- Two messages that fill a buffer each and a third, after the first is output: one buffer is free,
one has its marker queued, and one is in front. -/
theorem buffers_recycled_flushed : ∃ (es : List Event) (s : State), (logger.when Fits).Run es s ∧
    s.mallocs = 3 ∧ s.freeBufferList = [0] ∧ s.refList = [⟨1, 0, 0⟩, ⟨2, 0, 1⟩] ∧
    s.curBuffer = some 2 ∧ s.pc = .output ⟨1, 0, kFlushBufferSize⟩ false ∧
    ∀ b < 3, s.curBuffer.toList.count b + s.refList.countP (fun ref => ref.length = 0 ∧
      ref.buf = b) + s.freeBufferList.count b = 1 := by
  have start : (logger.when Fits).Run [] .initial := .start init_initial
  obtain ⟨msg, hlen⟩ : ∃ msg : List UInt8, msg.length = kFlushBufferSize :=
    ⟨_, List.length_replicate (a := 0)⟩
  have hfits : msg.length ≤ kFlushBufferSize := hlen.le
  have filled := ((start.next ⟨.append msg, hfits⟩).next ⟨.append msg, hfits⟩).next
    ⟨.append [1], (by decide : 1 ≤ kFlushBufferSize)⟩
  obtain ⟨mem, hstate⟩ : ∃ mem, ((State.initial.appendBuf msg).appendBuf msg).appendBuf [1] =
      ⟨mem, 3, [], [⟨0, 0, kFlushBufferSize⟩, ⟨0, 0, 0⟩, ⟨1, 0, kFlushBufferSize⟩, ⟨1, 0, 0⟩],
        some 2, 0, 1, kFlushBufferSize, false, .loop⟩ := by
    refine ⟨(((State.initial.appendBuf msg).appendBuf msg).appendBuf [1]).mem, ?_⟩
    simp [State.appendBuf, State.copy, State.newBuffer, State.pushFront, State.takeBuffer, hlen,
      State.initial, kFlushBufferSize]
  rw [hstate] at filled
  have queued := (filled.next ⟨.loop rfl, trivial⟩).next ⟨.sync rfl, trivial⟩
  have output := (queued.next ⟨.pop rfl rfl, trivial⟩).next ⟨.output rfl, trivial⟩
  have run := output.next ⟨.pop rfl rfl, trivial⟩
  exact ⟨_, _, run, rfl, rfl, rfl, rfl, rfl, (buffers_recycled run).1⟩

end PBase.Logger
