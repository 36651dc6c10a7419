/-
# `PBase.Buffer.Fifo` — a buffer as a queue of bytes

What goes in by `append` comes out by `popn`, in order: a run of calls on one buffer is a run of
`queue`, the queue of bytes, with the same results (`Inv.append`, `Inv.popn`).  Two things stand in
the way.

* `array_resize` copies the slots of the ring by their number.  Only if the ring begins at 0, or at
  a multiple of the new capacity, are they the same refs again; so a ring that is popped from and
  then grows loses refs (`fifo_of_aligned`).
* `array_append_ref` looks at the slot before the first one.  After `append(ZBuffer&&)` that slot is
  whatever the memory of the ring held before, and a ref that happens to end where the new bytes
  begin swallows them (`moved_from_fresh`).
-/
import PBase.Lib.System
import PBase.Buffer.Progress
import PBase.Buffer.Ready

namespace PBase.Buffer

open PBase.Lib

/-- No ring grows. -/
def Note.still : Note → Prop
  | resize _ _ => False
  | n => n.inside

/-- The history starts here. -/
def World.forget (w : World) : World := { w with notes := [] }

/-- What was leaked so far is somebody's. -/
theorem Holds.forget {w : World} {L : List Nat} {H : Multiset Nat} (h : Holds w L H) :
    ∃ H', Holds w.forget L (H + H') := by
  obtain ⟨K, hrefs, _⟩ := h.refs
  refine ⟨K, ⟨0, ?_, fun _ => rfl⟩, h.sound⟩
  rw [zero_add, add_comm]
  exact hrefs.congr rfl rfl rfl rfl

/-- A sealed ring is open for whatever is copied in. -/
theorem ZBuffer.Sealed.openFor {z : ZBuffer} {w : World} {L : List Nat} {H : Multiset Nat}
    (h : z.Sealed)
    (holds : Holds w L H) (buf : List UInt8) : z.OpenFor w buf := by
  intro _ ref w₁ hrun
  obtain ⟨L₁, h₁, hmem, _⟩ := (holds.copyIn buf).of_run hrun
  exact h.isOpen (h₁.ne_zero (.inr hmem))

namespace Fifo

/-! ## The queue -/

inductive Call where
  | append (buf : List UInt8)
  /-- `popn` of so many bytes, and what it delivers. -/
  | popn (count : Nat) (out : List UInt8)
  deriving DecidableEq

/-- The bytes that go in, and those that come out. -/
def Call.input : Call → List UInt8
  | append buf => buf
  | popn _ _ => []

def Call.output : Call → List UInt8
  | append _ => []
  | popn _ out => out

/-- The call without its result. -/
def Call.request : Call → Call
  | append buf => append buf
  | popn count _ => popn count []

def appended (es : List Call) : List UInt8 := es.flatMap Call.input

def delivered (es : List Call) : List UInt8 := es.flatMap Call.output

/-- A queue of bytes. -/
def queue : System (List UInt8) Call where
  init bs := bs = []
  step bs c bs' :=
    match c with
    | .append buf => bs' = bs ++ buf
    | .popn count out => out = bs.take count ∧ bs' = bs.drop count

section Queue
variable {es es' : List Call} {bs bs' : List UInt8}

theorem queue_fifo (h : queue.Run es bs) : delivered es ++ bs = appended es := by
  induction h with
  | start h₀ =>
      cases h₀
      rfl
  | @next es bs bs' c _ hs ih =>
      simp only [delivered, appended, List.flatMap_append, List.flatMap_singleton] at ih ⊢
      cases c with
      | append buf =>
          obtain rfl : bs' = bs ++ buf := hs
          rw [← ih, Call.output, Call.input, List.append_nil, List.append_assoc]
      | popn count out =>
          obtain ⟨rfl, rfl⟩ : out = bs.take count ∧ bs' = bs.drop count := hs
          rw [← ih, Call.output, Call.input, List.append_nil, List.append_assoc,
              List.take_append_drop]

/-- The results follow from the requests. -/
theorem queue_deterministic (h : queue.Run es bs) (h' : queue.Run es' bs')
    (heq : es.map Call.request = es'.map Call.request) : es = es' ∧ bs = bs' := by
  induction h generalizing es' bs' with
  | start h₀ =>
      cases h' with
      | start h₀' => exact ⟨rfl, h₀.trans h₀'.symm⟩
      | next _ _ => simp at heq
  | @next es bs bs₁ c _ hs ih =>
      cases h' with
      | start _ => simp at heq
      | @next es' bs₀ _ c' h' hs' =>
          rw [List.map_append, List.map_append] at heq
          obtain ⟨hinit, hlast⟩ := List.append_inj' heq rfl
          obtain ⟨rfl, rfl⟩ := ih h' hinit
          have hreq : c.request = c'.request := List.singleton_injective hlast
          cases c with
          | append buf =>
              cases c' with
              | append buf' =>
                  cases hreq
                  exact ⟨rfl, Eq.trans hs (Eq.symm hs')⟩
              | popn count' out' => cases hreq
          | popn count out =>
              cases c' with
              | append buf' => cases hreq
              | popn count' out' =>
                  obtain rfl : count = count' := by
                    injection hreq
                  obtain ⟨rfl, rfl⟩ : out = _ ∧ bs₁ = _ := hs
                  obtain ⟨rfl, rfl⟩ : out' = _ ∧ bs' = _ := hs'
                  exact ⟨rfl, rfl⟩

end Queue

/-! ## The buffer -/

structure State where
  world : World
  buffer : ZBuffer

inductive Step : State → Call → State → Prop
  | append {s : State} {buf : List UInt8} {z : ZBuffer} {w : World} : buf.length < 2 ^ 32 →
      (s.buffer.append buf).run s.world = some (z, w) → Step s (.append buf) ⟨w, z⟩
  | popn {s : State} {count : Nat} {out : List UInt8} {z : ZBuffer} {w : World} : count < 2 ^ 63 →
      (s.buffer.popn count).run s.world = some ((out, z), w) → Step s (.popn count out) ⟨w, z⟩

/-- A new buffer, whatever is in the cache and held elsewhere. -/
def fresh (s : State) : Prop :=
  (∃ L H, Holds s.world L H) ∧ s.world.notes = [] ∧ s.buffer = .empty

/-- Calls on one buffer, as long as the notes meet `c`. -/
def calls (init : State → Prop) (c : Note → Prop) : System State Call where
  init := init
  step s e t := Step s e t ∧ t.world.Only c

/-- The buffer is in use and holds the bytes `bs`. -/
structure Inv (s : State) (bs : List UInt8) : Prop where
  holds : ∃ L H, Holds s.world L (s.buffer.held + H)
  ready : Ready s.world s.buffer
  slim : s.buffer.Slim
  content : content s.world s.buffer.list = bs

namespace Inv

variable {s t : State} {bs buf out : List UInt8} {count : Nat}

theorem wellFormed (h : Inv s bs) : WellFormed s.world s.buffer := by
  obtain ⟨L, H, holds⟩ := h.holds
  exact h.ready.wellFormed holds

theorem size (h : Inv s bs) : s.buffer.size = bs.length := by
  rw [h.wellFormed.size_eq, h.content]

theorem fresh (h : fresh s) : Inv s [] := by
  obtain ⟨⟨L, H, holds⟩, _, hz⟩ := h
  have hheld : s.buffer.held = 0 := by
    rw [hz]
    rfl
  refine ⟨⟨L, H, ?_⟩, hz ▸ .empty, hz ▸ trivial, hz ▸ rfl⟩
  rwa [hheld, zero_add]

theorem append (h : Inv s bs) (hopen : s.buffer.OpenFor s.world buf) (hs : Step s (.append buf) t)
    (hc : t.world.Only Note.sane) :
    Inv t (bs ++ buf) ∧ (s.buffer.Sealed → t.buffer.Sealed) := by
  cases hs with
  | @append _ z w hlen hrun =>
      obtain ⟨L, H, holds⟩ := h.holds
      obtain ⟨L', D', hgrown⟩ := (h.ready.append holds hlen).of_run hrun
      have haligned : s.buffer.Safe w := .inr fun n hn => (hc n hn).1
      have hroom : s.buffer.Room (mostRefs buf.length) w := .inr ⟨h.slim, fun n hn => (hc n hn).2⟩
      obtain ⟨holds', _, hrest⟩ := h.ready.grown hgrown haligned hroom
      obtain ⟨hready, hcontent, hseal⟩ := hrest hopen
      rw [h.content] at hcontent
      exact ⟨⟨⟨L', H, holds'⟩, hready, hgrown.slim h.slim fun n hn => (hc n hn).2, hcontent⟩, hseal⟩

theorem popn (h : Inv s bs) (hs : Step s (.popn count out) t) : out = bs.take count ∧
    Inv t (bs.drop count) ∧ (s.buffer.Sealed → t.buffer.Sealed) := by
  cases hs with
  | popn hcount hrun =>
      obtain ⟨L, H, holds⟩ := h.holds
      obtain ⟨L', holds', _, hready, hslim, hseal, hout, hcontent⟩ :=
        (h.ready.popn holds hcount).of_run hrun
      rw [h.content] at hout hcontent
      exact ⟨hout, ⟨⟨L', H, holds'⟩, hready, hslim h.slim, hcontent⟩, hseal⟩

/-- Every call returns. -/
theorem returns (h : Inv s bs) : (∀ buf, buf.length < 2 ^ 32 → ∃ t, Step s (.append buf) t) ∧
    ∀ count < 2 ^ 63, ∃ out t, Step s (.popn count out) t := by
  obtain ⟨L, H, holds⟩ := h.holds
  refine ⟨fun buf hlen => ?_, fun count hcount => ?_⟩
  · obtain ⟨z, w, hrun, _⟩ := h.ready.append holds hlen
    exact ⟨⟨w, z⟩, .append hlen hrun⟩
  · obtain ⟨⟨out, z⟩, w, hrun, _⟩ := h.ready.popn holds hcount
    exact ⟨out, ⟨w, z⟩, .popn hcount hrun⟩

end Inv

/-! ## One buffer -/

section Queue
variable {s t : State} {es : List Call} {c : Call} {bs : List UInt8}

/-- A call on a sealed buffer is one on the queue. -/
theorem step_queue (h : Inv s bs ∧ s.buffer.Sealed) (hs : (calls fresh Note.sane).step s c t) :
    ∃ bs', queue.step bs c bs' ∧ Inv t bs' ∧ t.buffer.Sealed := by
  obtain ⟨hinv, hsealed⟩ := h
  obtain ⟨hs, hc⟩ := hs
  cases c with
  | append buf =>
      obtain ⟨L, H, holds⟩ := hinv.holds
      obtain ⟨hinv', hseal⟩ := hinv.append (hsealed.openFor holds buf) hs hc
      exact ⟨_, rfl, hinv', hseal hsealed⟩
  | popn count out =>
      obtain ⟨hout, hinv', hseal⟩ := hinv.popn hs
      exact ⟨_, ⟨hout, rfl⟩, hinv', hseal hsealed⟩

/-- A run of calls is a run of the queue. -/
theorem run_queue (h : (calls fresh Note.sane).Run es s) :
    ∃ bs, queue.Run es bs ∧ Inv s bs ∧ s.buffer.Sealed :=
  h.refines (fun _ hs => ⟨[], rfl, .fresh hs, hs.2.2 ▸ trivial⟩) fun _ _ _ _ => step_queue

/-- What goes in comes out in order, and the size is the number of bytes that are left. -/
def InOrder (es : List Call) (s : State) : Prop :=
  delivered es ++ content s.world s.buffer.list = appended es ∧
    s.buffer.size + (delivered es).length = (appended es).length

/-- **A buffer is a queue of bytes**, whatever the sequence of calls, as long as every ring that
grows begins at a multiple of its new capacity and has its storage inside a block; and every call
returns. -/
theorem fifo_of_sane (h : (calls fresh Note.sane).Run es s) : InOrder es s ∧
    (∀ buf, buf.length < 2 ^ 32 → ∃ t, Step s (.append buf) t) ∧
    ∀ count < 2 ^ 63, ∃ out t, Step s (.popn count out) t := by
  obtain ⟨bs, hqueue, hinv, _⟩ := run_queue h
  have hfifo := queue_fifo hqueue
  refine ⟨⟨hinv.content ▸ hfifo, ?_⟩, hinv.returns⟩
  rw [hinv.size, ← hfifo, List.length_append, Nat.add_comm]

end Queue

/-! ## A buffer that was moved from -/

/-- What `append(ZBuffer&&)` leaves of a buffer in use. -/
def movedFrom (s : State) : Prop :=
  ∃ w w' L H other rh r, ZBuffer.Shape rh ∧ rh.Wide ∧ rh.Slim ∧ ZBuffer.Wide other ∧
    Holds w L (rh.held + (other.held + H)) ∧ (other.appendMove rh).run w = some (r, w') ∧
    s = ⟨w'.forget, r.2.1⟩

/-- An empty ring does not take the slot before its first one for a ref that ends where the bytes
go. -/
def Opens (s : State) : Call → Prop
  | .append buf => s.buffer.OpenFor s.world buf
  | .popn _ _ => True

/-- The same results, the same size and the same bytes. -/
def Alike (es : List Call) (s : State) (es' : List Call) (s' : State) : Prop :=
  es = es' ∧ s.buffer.size = s'.buffer.size ∧ ∀ count, ∃ bs,
    (Returns (s.buffer.copyFront count) s.world fun r w => r = bs ∧ w = s.world) ∧
    Returns (s'.buffer.copyFront count) s'.world fun r w => r = bs ∧ w = s'.world

section Moved
variable {s t s' : State} {es es' : List Call} {c : Call} {bs : List UInt8}

theorem Inv.moved (h : movedFrom s) : Inv s [] := by
  obtain ⟨w, w', L, H, other, rh, r, hshape, hwide, hslim, hother, holds, hrun, rfl⟩ := h
  rw [add_left_comm] at holds
  obtain ⟨⟨L', D', hgrown⟩, hempty⟩ := (appendMove_held hshape hslim holds hother).of_run hrun
  obtain ⟨H', hforget⟩ := hgrown.holds.forget
  obtain ⟨hready, hcontent⟩ := hempty.ready hwide
  have hsame : r.1.base + (D' + (rh.base + H)) + H' = r.2.1.held + (r.1.base + (D' + H) + H') := by
    rw [hempty.held]
    abel
  rw [hsame] at hforget
  exact ⟨⟨L', _, hforget⟩, hready, hempty.slim hslim, hcontent⟩

/-- A call on a buffer that is open for it is one on the queue. -/
theorem step_open (h : Inv s bs) (hs : ((calls movedFrom Note.sane).when Opens).step s c t) :
    ∃ bs', queue.step bs c bs' ∧ Inv t bs' := by
  obtain ⟨⟨hs, hc⟩, hopen⟩ := hs
  cases c with
  | append buf => exact ⟨_, rfl, (h.append hopen hs hc).1⟩
  | popn count out =>
      obtain ⟨hout, hinv, _⟩ := h.popn hs
      exact ⟨_, ⟨hout, rfl⟩, hinv⟩

theorem run_open (h : ((calls movedFrom Note.sane).when Opens).Run es s) :
    ∃ bs, queue.Run es bs ∧ Inv s bs :=
  h.refines (fun _ hs => ⟨[], rfl, .moved hs⟩) fun _ _ _ _ => step_open

/-- **A moved-from buffer is an empty one**: the same requests have the same results on it and on a
new buffer, and leave the same size and the same bytes, as long as the slot before the first one of
the empty ring does not end where bytes are put.  And every call returns. -/
theorem moved_from_fresh (h : ((calls movedFrom Note.sane).when Opens).Run es s)
    (h' : (calls fresh Note.sane).Run es' s') (heq : es.map Call.request = es'.map Call.request) :
    Alike es s es' s' ∧ (∀ buf, buf.length < 2 ^ 32 → ∃ t, Step s (.append buf) t) ∧
      ∀ count < 2 ^ 63, ∃ out t, Step s (.popn count out) t := by
  obtain ⟨bs, hqueue, hinv⟩ := run_open h
  obtain ⟨bs', hqueue', hinv', _⟩ := run_queue h'
  obtain ⟨rfl, rfl⟩ := queue_deterministic hqueue hqueue' heq
  refine ⟨⟨rfl, hinv.size.trans hinv'.size.symm, fun count => ⟨bs.take count, ?_, ?_⟩⟩,
      hinv.returns⟩
  · exact (hinv.wellFormed.copyFront hinv.content).mono fun _ _ hr => hr.2
  · exact (hinv'.wellFormed.copyFront hinv'.content).mono fun _ _ hr => hr.2

end Moved

/-! ## Calls that are evaluated -/

/-- The calls, one after the other, and what they return; the notes must meet `c`. -/
def replay (c : Note → Prop) [DecidablePred c] : List Call → State → Option (List Call × State)
  | [], s => some ([], s)
  | .append buf :: cs, s => do
      let (z, w) ← (s.buffer.append buf).run s.world
      guard (w.Only c)
      let (es, t) ← replay c cs ⟨w, z⟩
      some (.append buf :: es, t)
  | .popn count _ :: cs, s => do
      let ((out, z), w) ← (s.buffer.popn count).run s.world
      guard (w.Only c)
      let (es, t) ← replay c cs ⟨w, z⟩
      some (.popn count out :: es, t)

/-- The request is not too large. -/
def Call.Bounded : Call → Prop
  | append buf => buf.length < 2 ^ 32
  | popn count _ => count < 2 ^ 63

instance : DecidablePred Call.Bounded := fun e =>
  match e with
  | .append buf => inferInstanceAs (Decidable (buf.length < 2 ^ 32))
  | .popn count _ => inferInstanceAs (Decidable (count < 2 ^ 63))

section Replay
variable {init : State → Prop} {c : Note → Prop} [DecidablePred c] {cs es es' : List Call}
  {s t : State}

theorem replay_run (hcs : ∀ e ∈ cs, e.Bounded) (h : (calls init c).Run es s)
    (hreplay : replay c cs s = some (es', t)) : (calls init c).Run (es ++ es') t ∧
      es'.map Call.request = cs.map Call.request := by
  induction cs generalizing s es es' with
  | nil =>
      cases hreplay
      exact ⟨(List.append_nil es).symm ▸ h, rfl⟩
  | cons e cs ih =>
      have hbounded := hcs e List.mem_cons_self
      have hrest := fun e' he' => hcs e' (List.mem_cons_of_mem e he')
      cases e with
      | append buf =>
          obtain ⟨⟨z, w⟩, hrun, hreplay⟩ := Option.bind_eq_some_iff.mp hreplay
          obtain ⟨_, hguard, hreplay⟩ := Option.bind_eq_some_iff.mp hreplay
          obtain ⟨⟨es₁, t₁⟩, hreplay, heq⟩ := Option.bind_eq_some_iff.mp hreplay
          cases heq
          obtain ⟨hrun', hmap⟩ :=
              ih hrest (h.next ⟨.append hbounded hrun, (Option.guard_eq_some' _).mp hguard⟩) hreplay
          rw [List.append_cons]
          exact ⟨hrun', congrArg (_ :: ·) hmap⟩
      | popn count _ =>
          obtain ⟨⟨⟨out, z⟩, w⟩, hrun, hreplay⟩ := Option.bind_eq_some_iff.mp hreplay
          obtain ⟨_, hguard, hreplay⟩ := Option.bind_eq_some_iff.mp hreplay
          obtain ⟨⟨es₁, t₁⟩, hreplay, heq⟩ := Option.bind_eq_some_iff.mp hreplay
          cases heq
          obtain ⟨hrun', hmap⟩ :=
              ih hrest (h.next ⟨.popn hbounded hrun, (Option.guard_eq_some' _).mp hguard⟩) hreplay
          rw [List.append_cons]
          exact ⟨hrun', congrArg (_ :: ·) hmap⟩

end Replay

/-- A new buffer and an empty cache. -/
def start (env : Env) : State := ⟨.initial env, .empty⟩

theorem fresh_start (env : Env) : fresh (start env) := ⟨⟨[], 0, initial_holds env⟩, rfl, rfl⟩

instance : DecidablePred Note.still := fun n =>
  match n with
  | .resize _ _ => isFalse id
  | .drop _ _ => isTrue trivial
  | .release _ => isTrue trivial
  | .request n inside => inferInstanceAs (Decidable (Note.request n inside).inside)

/-- A ring of 32 refs that grows when it is full, has five bytes taken out, and goes on. -/
def growing : List Call :=
  (List.range 33).map (fun n => .append [UInt8.ofNat n]) ++
    [.popn 5 [], .append [33, 34], .popn 2 []]

/-- Seven of the 35 bytes are out, in order. -/
theorem fifo_growing : ∃ es s, InOrder es s ∧ delivered es = [0, 1, 2, 3, 4, 5, 6] ∧
    s.buffer.size = 28 := by
  have hcalls : (replay Note.sane growing (start .plain)).map
      (fun r => (delivered r.1, r.2.buffer.size)) = some ([0, 1, 2, 3, 4, 5, 6], 28) := by
    decide +kernel
  obtain ⟨⟨es, s⟩, hreplay, heq⟩ := Option.map_eq_some_iff.mp hcalls
  obtain ⟨hout, hsize⟩ := Prod.mk.inj heq
  have hstart : (calls fresh Note.sane).Run [] (start .plain) := .start (fresh_start _)
  exact ⟨es, s, (fifo_of_sane (replay_run (by decide) hstart hreplay).1).1, hout, hsize⟩

/-- A full ring of 32 refs, then one byte out and two in: the ring begins at 1 when it grows. -/
def outOfOrder : List Call :=
  List.replicate 32 (.append [7]) ++ [.popn 1 [], .append [7], .append [7]]

/-- Then a byte is lost. -/
theorem fifo_loses : ¬ ∀ es s, (calls fresh fun _ => True).Run es s → InOrder es s := by
  intro hall
  have hlengths : (replay (fun _ => True) outOfOrder (start .plain)).map (fun r =>
      ((delivered r.1 ++ content r.2.world r.2.buffer.list).length, (appended r.1).length))
      = some (33, 34) := by decide +kernel
  obtain ⟨⟨es, s⟩, hreplay, heq⟩ := Option.map_eq_some_iff.mp hlengths
  have hstart : (calls fresh fun _ => True).Run [] (start .plain) := .start (fresh_start _)
  have hrun := (replay_run (by decide) hstart hreplay).1
  have horder := congrArg List.length (hall _ _ hrun).1
  rw [List.nil_append] at horder
  obtain ⟨hout, hin⟩ := Prod.mk.inj heq
  exact absurd (hout.symm.trans (horder.trans hin)) (by decide)

/-- Refs in the memory of a ring, that end where the bytes go once it is empty. -/
def junk : Env := { Env.plain with refs := fun _ _ => ⟨1111, 1, 1⟩ }

/-- What is left of a ring of three refs. -/
def movedRing (env : Env) : Option State := do
  let (_, s) ← replay Note.sane [.append [1], .append [2], .append [3]] (start env)
  let (r, w) ← (ZBuffer.empty.appendMove s.buffer).run s.world
  some ⟨w.forget, r.2.1⟩

theorem movedRing_movedFrom {env : Env} {s : State} (h : movedRing env = some s) : movedFrom s := by
  rw [movedRing] at h
  obtain ⟨⟨es, s₀⟩, hreplay, h⟩ := Option.bind_eq_some_iff.mp h
  obtain ⟨⟨r, w⟩, hmove, heq⟩ := Option.bind_eq_some_iff.mp h
  cases heq
  have hstart : (calls fresh Note.sane).Run [] (start env) := .start (fresh_start _)
  obtain ⟨bs, _, hinv, _⟩ := run_queue (replay_run (by decide) hstart hreplay).1
  obtain ⟨L, H, holds⟩ := hinv.holds
  refine ⟨s₀.world, w, L, H, .empty, s₀.buffer, r, hinv.ready.shape, hinv.ready.wide, hinv.slim,
      trivial, ?_, hmove,
    rfl⟩
  have hempty : ZBuffer.empty.held = 0 := rfl
  rwa [hempty, zero_add]

instance : DecidablePred ZBuffer.Sealed := fun z =>
  match z with
  | .two _ _ => isTrue trivial
  | .array refsNum a _ =>
      inferInstanceAs (Decidable (refsNum = 0 → (a.refAt (2 ^ 32 - 1)).block = 0))

/-- With nothing in the memory of the ring, a byte that is put in is there. -/
theorem moved_from_fresh_one : ∃ s s', Alike [.append [4]] s [.append [4]] s' := by
  have hmoved : (movedRing .plain).bind (fun s => ((s.buffer.append [4]).run s.world).map fun r =>
      decide (s.buffer.Sealed ∧ r.2.Only Note.sane)) = some true := by decide +kernel
  have hnew : (replay Note.sane [.append [4]] (start .plain)).map Prod.fst =
      some [.append [4]] := by
    decide +kernel
  obtain ⟨s₀, hs₀, hmoved⟩ := Option.bind_eq_some_iff.mp hmoved
  obtain ⟨⟨z, w⟩, hrun, hmoved⟩ := Option.map_eq_some_iff.mp hmoved
  obtain ⟨hsealed, hsane⟩ := of_decide_eq_true hmoved
  obtain ⟨⟨_, s'⟩, hreplay, rfl⟩ := Option.map_eq_some_iff.mp hnew
  have hfrom := movedRing_movedFrom hs₀
  obtain ⟨L, H, holds⟩ := (Inv.moved hfrom).holds
  have hstart : ((calls movedFrom Note.sane).when Opens).Run [] s₀ := .start hfrom
  have hstart' : (calls fresh Note.sane).Run [] (start .plain) := .start (fresh_start _)
  have hlen : ([4] : List UInt8).length < 2 ^ 32 := by decide
  have hnext := hstart.next ⟨⟨.append hlen hrun, hsane⟩, hsealed.openFor holds [4]⟩
  exact ⟨_, s', (moved_from_fresh hnext (replay_run (by decide) hstart' hreplay).1 rfl).1⟩

/-- Then a byte that is put in does not come out. -/
theorem moved_from_differs : ¬ ∀ es s es' s', (calls movedFrom Note.still).Run es s →
    (calls fresh Note.still).Run es' s' → es.map Call.request = es'.map Call.request →
    Alike es s es' s' := by
  intro hall
  have hmoved :
      (movedRing junk).bind (fun s => (replay Note.still [.append [4], .popn 1 []] s).map Prod.fst)
      = some [.append [4], .popn 1 []] := by decide +kernel
  have hnew : (replay Note.still [.append [4], .popn 1 []] (start .plain)).map Prod.fst
      = some [.append [4], .popn 1 [4]] := by decide +kernel
  obtain ⟨s₀, hs₀, hmoved⟩ := Option.bind_eq_some_iff.mp hmoved
  obtain ⟨⟨_, s⟩, hreplay, rfl⟩ := Option.map_eq_some_iff.mp hmoved
  obtain ⟨⟨_, s'⟩, hreplay', rfl⟩ := Option.map_eq_some_iff.mp hnew
  have hstart : (calls movedFrom Note.still).Run [] s₀ := .start (movedRing_movedFrom hs₀)
  have hstart' : (calls fresh Note.still).Run [] (start .plain) := .start (fresh_start _)
  obtain ⟨hsame, _⟩ := hall _ _ _ _ (replay_run (by decide) hstart hreplay).1
    (replay_run (by decide) hstart' hreplay').1 rfl
  exact absurd hsame (by decide)

end Fifo

end PBase.Buffer
