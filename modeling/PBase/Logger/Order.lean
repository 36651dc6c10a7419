/-
# `PBase.Logger.Order` — what is logged comes out, in order

What is asked of a log back end: at any time the bytes given to `g_output_func` are a prefix of
the messages, and at the end they are all of them.  `sync_with_front` breaks it.  It queues
the front bytes and then moves `cur_ptr_` back to `ptr_`, where it should move `ptr_` up to
`cur_ptr_`; the next message overwrites what is queued (`flush_reordered`).

The damage needs a message that is copied into the front buffer while a ref of positive
length into that buffer is queued or about to be output.  In the runs without one (`Intact`)
nothing is lost: what was appended is what was output, then what the queued refs denote,
then what is in front (`Ordered.bytes`).  A buffer on the free list has no ref any more and a
ref of length 0 is the last one of its buffer, so a switch of buffers never goes wrong.
-/
import PBase.Logger.Recycle

namespace PBase.Logger

open PBase.Lib

/-! ## Histories -/

/-- All messages, in the order of `append_buf`. -/
def appended (es : List Event) : List UInt8 := es.flatMap fun
  | .appended msg => msg
  | _ => []

/-- Everything given to `g_output_func`. -/
def outputs (es : List Event) : List UInt8 := es.flatMap fun
  | .output bytes => bytes
  | _ => []

theorem appended_snoc (es : List Event) (e : Event) :
    appended (es ++ [e]) = appended es ++ appended [e] := List.flatMap_append

theorem outputs_snoc (es : List Event) (e : Event) :
    outputs (es ++ [e]) = outputs es ++ outputs [e] := List.flatMap_append

/-! ## The invariant -/

/-- The bytes in front that are not queued yet. -/
def State.front (s : State) : List UInt8 :=
  match s.curBuffer with
  | some b => readBytes (s.mem b) s.ptr (s.curPtr - s.ptr)
  | none => []

/-- A message that is copied into the front buffer finds no pending ref into it. -/
def Intact (s : State) : Event → Prop
  | .appended msg => msg.length ≤ kFlushBufferSize ∧ (msg ≠ [] →
      s.curPtr + msg.length ≤ s.endPtr → ∀ b, s.curBuffer = some b →
        ∀ ref ∈ s.pending, 0 < ref.length → ref.buf ≠ b)
  | _ => True

/-- No message comes after the last `new_buffer`. -/
def NotLate (s : State) : Event → Prop
  | .appended _ => match s.pc with
      | .flush true | .output _ true | .done => False
      | _ => True
  | _ => True

structure Ordered (es : List Event) (s : State) : Prop extends Buffers s where
  bytes : appended es = outputs es ++ (s.pending.flatMap (BufferRef.bytes s.mem) ++ s.front)

/-- After the last `new_buffer` nothing is in front, and at the end nothing is queued. -/
def Drained (s : State) : Prop :=
  match s.pc with
  | .flush true | .output _ true => s.curPtr = 0
  | .done => s.curPtr = 0 ∧ s.refList = []
  | _ => True

/-! ## The front -/

namespace Ordered

variable {es : List Event} {s : State} {b : Nat}

/-- The front bytes become a ref. -/
theorem queue (h : Ordered es s) (hb : s.curBuffer = some b) (hlt : s.ptr < s.curPtr) :
    Ordered es (s.queue b) := by
  refine ⟨h.toBuffers.queue hb hlt, ?_⟩
  have hfront : s.front = readBytes (s.mem b) s.ptr (s.curPtr - s.ptr) := by
    simp [State.front, hb]
  rw [h.bytes, hfront]
  simp [State.pending, State.front, State.queue, hb, BufferRef.bytes]

/-- Queueing the front bytes moves none of them. -/
theorem pushFront (h : Ordered es s) : Ordered es s.pushFront := by
  rcases s.pushFront_cases with ⟨b, hb, hlt, heq⟩ | ⟨heq, _⟩
  · rw [heq]
    exact h.queue hb hlt
  · rw [heq]
    exact h

/-- The sink thread moves. -/
theorem goto (h : Ordered es s) {p : Pc} (hhand : p.hand = s.pc.hand) :
    Ordered es { s with pc := p } := by
  have hpending : State.pending { s with pc := p } = s.pending := by simp [State.pending, hhand]
  refine ⟨h.toBuffers.goto hhand, ?_⟩
  rw [hpending]
  exact h.bytes

/-- A buffer with nothing in front is given up, by a ref of length 0. -/
theorem giveUp (h : Ordered es s) (hb : s.curBuffer = some b) (hcur : s.curPtr = 0) :
    Ordered es (s.giveUp b) := by
  refine ⟨h.toBuffers.giveUp hb hcur, ?_⟩
  rw [h.bytes]
  simp [State.pending, State.front, State.giveUp, hb, hcur, BufferRef.bytes]

/-- A buffer is taken: nobody else has it. -/
theorem take (h : Ordered es s) (hnone : s.curBuffer = none) {m : Nat} {free : List Nat}
    (hfree : ∀ x ∈ free, x ∈ s.freeBufferList) (hnodup : (b :: free).Nodup)
    (hlt : b < m) (hm : s.mallocs ≤ m) (hnew : ∀ ref ∈ s.pending, ref.buf ≠ b) :
    Ordered es (s.withBuffer b free m) := by
  refine ⟨h.toBuffers.take hfree hnodup hlt hm hnew, ?_⟩
  rw [h.bytes]
  simp [State.front, hnone, State.withBuffer, State.pending]

theorem release (h : Ordered es s) :
    Ordered es s.release ∧ s.release.curBuffer = none ∧ s.release.pc = s.pc :=
  h.toBuffers.release h.pushFront fun _ _ => giveUp

/-- `new_buffer()`: no pending ref denotes the buffer it takes. -/
theorem newBuffer (h : Ordered es s) : Ordered es s.newBuffer ∧
    ∃ b, s.newBuffer.curBuffer = some b ∧ s.newBuffer.curPtr = 0 ∧
      s.newBuffer.endPtr = kFlushBufferSize ∧ s.newBuffer.pc = s.pc ∧
      ∀ ref ∈ s.newBuffer.pending, ref.buf ≠ b := by
  obtain ⟨h₂, hnone, hpc₂⟩ := h.release
  rw [State.newBuffer_eq]
  generalize s.release = s₂ at h₂ hnone hpc₂
  unfold State.takeBuffer
  cases hfree : s₂.freeBufferList with
  | nil =>
      have hlt : ∀ ref ∈ s₂.pending, ref.buf ≠ s₂.mallocs := fun ref href =>
        Nat.ne_of_lt (h₂.lt.2.1 ref href)
      refine ⟨h₂.take hnone (by simp [hfree]) (by simp) (Nat.lt_succ_self _) (Nat.le_succ _) hlt,
          ?_⟩
      exact ⟨_, rfl, rfl, rfl, hpc₂, hlt⟩
  | cons b rest =>
      have hmem : b ∈ s₂.freeBufferList := hfree ▸ List.mem_cons_self
      refine ⟨h₂.take hnone (fun x hx => hfree ▸ List.mem_cons_of_mem _ hx) (hfree ▸ h₂.free)
        (h₂.lt.1 b hmem) (Nat.le_refl _) (h₂.freeRef b hmem), ?_⟩
      exact ⟨_, rfl, rfl, rfl, hpc₂, h₂.freeRef b hmem⟩

/-- The message is copied to the front. -/
theorem copy (h : Ordered es s) {msg : List UInt8} (hb : s.curBuffer = some b)
    (hfit : s.curPtr + msg.length ≤ s.endPtr)
    (hclean : msg = [] ∨ ∀ ref ∈ s.pending, 0 < ref.length → ref.buf ≠ b) :
    Ordered (es ++ [.appended msg]) (s.copy msg) := by
  have hcopy : s.copy msg = { s with
      mem := Function.update s.mem b (writeBytes (s.mem b) s.curPtr msg)
      curPtr := s.curPtr + msg.length } := by simp only [State.copy, hb]
  obtain ⟨hptr, _, hend, _⟩ := h.range
  refine ⟨h.toBuffers.copy hb hfit, ?_⟩
  have hrefs : s.pending.flatMap (BufferRef.bytes (Function.update s.mem b
      (writeBytes (s.mem b) s.curPtr msg))) = s.pending.flatMap (BufferRef.bytes s.mem) := by
    refine List.flatMap_congr fun ref href => ?_
    unfold BufferRef.bytes
    rcases hclean with rfl | hclean
    · rw [writeBytes_nil, Function.update_eq_self]
    · rcases Nat.eq_zero_or_pos ref.length with hz | hpos
      · rw [hz]; rfl
      · rw [Function.update_of_ne (hclean ref href hpos)]
  have hfront : s.front = readBytes (s.mem b) 0 s.curPtr := by simp [State.front, hb, hptr]
  have hnew : readBytes (writeBytes (s.mem b) s.curPtr msg) 0 (s.curPtr + msg.length)
      = readBytes (s.mem b) 0 s.curPtr ++ msg := by
    rw [readBytes_add, Nat.zero_add, read_write, read_write_below (by omega)]
  have happ : appended [Event.appended msg] = msg := by simp [appended]
  have hout : outputs [Event.appended msg] = [] := rfl
  rw [hcopy, appended_snoc, outputs_snoc, happ, hout, h.bytes, hfront]
  simp only [State.pending] at hrefs
  simp [State.pending, State.front, hb, hptr, hnew, hrefs]

/-- `append_buf(p, length)`, of a message no longer than a buffer. -/
theorem appendBuf (h : Ordered es s) {msg : List UInt8} (hint : Intact s (.appended msg)) :
    Ordered (es ++ [.appended msg]) (s.appendBuf msg) ∧ (s.appendBuf msg).pc = s.pc := by
  obtain ⟨hlen, hclean⟩ := hint
  have hpc : ∀ s' : State, (s'.copy msg).pc = s'.pc := fun s' => by
    unfold State.copy; split <;> rfl
  obtain ⟨hn, b', hb', hcur', hend', hpc', hrefs'⟩ := h.newBuffer
  have hfit' : s.newBuffer.curPtr + msg.length ≤ s.newBuffer.endPtr := by
    rw [hcur', hend', Nat.zero_add]
    exact hlen
  rcases s.appendBuf_cases hfit' with heq | ⟨b, hb, hfit, heq⟩
  · rw [heq]
    exact ⟨hn.copy hb' hfit' (.inr fun ref href _ => hrefs' ref href), (hpc _).trans hpc'⟩
  · rw [heq]
    refine ⟨h.copy hb hfit ?_, hpc s⟩
    rcases eq_or_ne msg [] with hmsg | hmsg
    · exact .inl hmsg
    · exact .inr (hclean hmsg hfit b hb)

/-! ## The sink thread -/

/-- A pop: the buffers of the refs of length 0 are free, the next ref is in hand. -/
theorem pop (h : Ordered es s) {p : Pc} {free : List Nat} {r : Option BufferRef}
    {rest : List BufferRef} (hhand : s.pc.hand = []) (hp : p.hand = r.toList)
    (hpop : popRef s.freeBufferList s.refList = (free, r, rest)) :
    Ordered es { s with freeBufferList := free, refList := rest, pc := p } := by
  refine ⟨h.toBuffers.pop hhand hp hpop, ?_⟩
  obtain ⟨ms, hl, hms, -, -, -⟩ := popRef_spec hpop
  have hempty : ms.flatMap (BufferRef.bytes s.mem) = [] := by
    refine List.flatMap_eq_nil_iff.mpr fun m hm => ?_
    rw [BufferRef.bytes, hms m hm]
    rfl
  rw [h.bytes]
  simp [State.pending, hhand, hl, hempty, hp, State.front]

/-- A call of `g_output_func`. -/
theorem output (h : Ordered es s) {ref : BufferRef} {last : Bool} (ht : s.pc = .output ref last) :
    Ordered (es ++ [.output (ref.bytes s.mem)]) { s with pc := .flush last } := by
  refine ⟨h.toBuffers.output, ?_⟩
  have hout : outputs [Event.output (ref.bytes s.mem)] = ref.bytes s.mem := by simp [outputs]
  have happ : appended [Event.output (ref.bytes s.mem)] = [] := rfl
  rw [appended_snoc, outputs_snoc, hout, happ, List.append_nil, h.bytes]
  simp [State.pending, ht, Pc.hand, State.front]

/-- A step that neither appends nor outputs. -/
theorem tau (h : Ordered es s) : Ordered (es ++ [.tau]) s :=
  ⟨h.toBuffers, by rw [appended_snoc, outputs_snoc]; simpa [appended, outputs] using h.bytes⟩

/-- Every step. -/
theorem step (h : Ordered es s) {e : Event} {s' : State} (hs : Step s e s') (hint : Intact s e) :
    Ordered (es ++ [e]) s' := by
  cases hs with
  | append msg => exact (h.appendBuf hint).1
  | stop => exact ⟨⟨h.last, h.hand, h.free, h.freeRef, h.freeCur, h.lastCur, h.lt, h.range⟩,
      h.tau.bytes⟩
  | loop ht => exact h.tau.goto (by rw [ht]; split <;> rfl)
  | sync ht =>
      exact h.tau.pushFront.goto (by rw [h.toBuffers.pushFront_curPtr.2, ht]; rfl)
  | pop ht hpop => exact h.tau.pop (by rw [ht]; rfl) rfl hpop
  | popEmpty ht hpop => exact h.tau.pop (by rw [ht]; rfl) (afterFlush_hand _) hpop
  | output ht => exact h.output ht
  | fatal msg ht =>
      obtain ⟨ha, hpc⟩ := h.appendBuf hint
      exact ha.goto (by rw [hpc, ht]; rfl)
  | newBuffer ht =>
      obtain ⟨hn, b, _, _, _, hpc, _⟩ := h.tau.newBuffer
      exact hn.goto (by rw [hpc, ht]; rfl)

/-- Every step, if no message is late. -/
theorem drained (h : Ordered es s) (hd : Drained s) {e : Event} {s' : State} (hs : Step s e s')
    (hint : Intact s e) (hlate : NotLate s e) : Drained s' := by
  cases hs with
  | append msg =>
      have hpc := (h.appendBuf hint).2
      unfold NotLate at hlate
      unfold Drained
      rw [hpc]
      split
      · simp_all
      · simp_all
      · simp_all
      · trivial
  | stop => exact hd
  | loop ht =>
      unfold Drained
      cases hf : s.finished <;> trivial
  | sync ht => trivial
  | @pop last _ _ _ ht hpop =>
      unfold Drained at hd
      rw [ht] at hd
      cases last with
      | false => trivial
      | true => exact hd
  | @popEmpty last _ _ ht hpop =>
      unfold Drained at hd
      rw [ht] at hd
      obtain ⟨_, _, _, _, _, hrest⟩ := popRef_spec hpop
      cases last with
      | false => trivial
      | true => exact ⟨hd, hrest rfl⟩
  | @output _ last ht =>
      unfold Drained at hd
      rw [ht] at hd
      cases last with
      | false => trivial
      | true => exact hd
  | fatal msg ht => trivial
  | newBuffer ht =>
      obtain ⟨_, _, _, hcur, _⟩ := h.newBuffer
      exact hcur

end Ordered

/-! ## Runs -/

section Runs
variable {es : List Event} {s : State}

theorem run_ordered (h : (logger.when Intact).Run es s) : Ordered es s := by
  induction h with
  | @start s h₀ =>
      refine ⟨.initial h₀, ?_⟩
      obtain ⟨_, _, hrefs, hbuf, _, _, _, hpc⟩ := h₀
      have hpending : s.pending = [] := by simp [State.pending, hpc, hrefs, Pc.hand]
      rw [hpending, State.front, hbuf]
      rfl
  | next _ hs ih => exact ih.step hs.1 hs.2

theorem run_drained (h : (logger.when fun s e => Intact s e ∧ NotLate s e).Run es s) :
    Ordered es s ∧ Drained s := by
  induction h with
  | start h₀ =>
      refine ⟨run_ordered (.start h₀), ?_⟩
      obtain ⟨_, _, _, _, _, _, _, hpc⟩ := h₀
      rw [Drained, hpc]
      trivial
  | next _ hs ih => exact ⟨ih.1.step hs.1 hs.2.1, ih.1.drained ih.2 hs.1 hs.2.1 hs.2.2⟩

/-- With nothing queued and nothing in front, everything was output. -/
theorem outputs_eq (ho : Ordered es s) (hd : Drained s) (hdone : s.pc = .done) :
    outputs es = appended es := by
  rw [Drained, hdone] at hd
  obtain ⟨hcur, hrefs⟩ := hd
  have hfront : s.front = [] := by
    unfold State.front
    split
    · rw [hcur, Nat.zero_sub, readBytes_zero]
    · rfl
  rw [ho.bytes, hfront, State.pending, hdone, hrefs]
  simp [Pc.hand]

/-- **What is logged comes out, in order.**  In every run in which no message is copied into
a front buffer that a pending ref denotes, the output is a prefix of the messages; if moreover
no message comes after the last `new_buffer`, at the end it is all of them. -/
theorem flush_in_order :
    ((logger.when Intact).Run es s → outputs es <+: appended es) ∧
    ((logger.when fun s e => Intact s e ∧ NotLate s e).Run es s → s.pc = .done →
      outputs es = appended es) := by
  refine ⟨fun h => ⟨_, (run_ordered h).bytes.symm⟩, fun h hdone => ?_⟩
  obtain ⟨ho, hd⟩ := run_drained h
  exact outputs_eq ho hd hdone

end Runs

/-- Two messages, the second from the sink thread as it ends. -/
theorem flush_in_order_two : ∃ es, ∃ s : State, appended es = [1, 2] ∧ s.pc = Pc.done ∧
    outputs es <+: appended es ∧ outputs es = appended es := by
  have start : ∀ c, (logger.when c).Run [] .initial := fun c => .start init_initial
  have clean : ∀ s : State, s.pending = [] → ∀ b : Nat, s.curBuffer = some b →
      ∀ ref ∈ s.pending, 0 < ref.length → ref.buf ≠ b := fun s hs b _ ref href => by
    rw [hs] at href
    exact (List.not_mem_nil href).elim
  have run : ∀ c : State → Event → Prop,
      (∀ s e, Intact s e → NotLate s e → c s e) → ∃ s, s.pc = .done ∧ (logger.when c).Run
        [.appended [1], .tau, .tau, .appended [2], .tau, .tau, .output [1, 2], .tau] s := by
    intro c hc
    have last := ((((start c).next ⟨.append [1], hc _ _ ⟨by decide, fun _ _ => clean _ rfl⟩
      trivial⟩).next ⟨.stop, hc _ _ trivial trivial⟩).next
      ⟨.loop rfl, hc _ _ trivial trivial⟩).next
      ⟨.fatal [2] rfl, hc _ _ ⟨by decide, fun _ _ => clean _ rfl⟩ trivial⟩
    have output := ((last.next ⟨.newBuffer rfl, hc _ _ trivial trivial⟩).next
      ⟨.pop rfl rfl, hc _ _ trivial trivial⟩).next ⟨.output rfl, hc _ _ trivial trivial⟩
    exact ⟨_, rfl, output.next ⟨.popEmpty rfl rfl, hc _ _ trivial trivial⟩⟩
  obtain ⟨s, _, hintact⟩ := run Intact fun _ _ hi _ => hi
  obtain ⟨t, hdone, hboth⟩ := run (fun s e => Intact s e ∧ NotLate s e) fun _ _ hi hl => ⟨hi, hl⟩
  exact ⟨_, t, rfl, hdone, flush_in_order.1 hintact, flush_in_order.2 hboth hdone⟩

/-- **A message overtakes another.**  The first message is queued by `sync_with_front`; the
second is copied over it and is what comes out. -/
theorem flush_reordered : ∃ es, ∃ s : State, logger.Run es s ∧ appended es = [1, 2] ∧
    outputs es = [2] ∧
    ¬ outputs es <+: appended es := by
  have start : logger.Run [] .initial := .start init_initial
  have queued := ((start.next (.append [1])).next (.loop rfl)).next (.sync rfl)
  have run := ((queued.next (.append [2])).next (.pop rfl rfl)).next (.output rfl)
  exact ⟨_, _, run, rfl, rfl, by decide⟩

end PBase.Logger
