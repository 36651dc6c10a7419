/-
# `PBase.Logger.Record` — what a record says

`Line` is a `LogStream` without its memory: the text of the record that is put together, and the
records before it.  An insertion adds its text (`Insertion.text`), or what the space left lets
through (`Insertion.shown`): strings, characters and floating-point numbers are cut, the other
numbers and pointers are left out.  `compose` runs the same calls on a `Line`, and the records are
the same (`records_composed`), whatever the converters and `vsnprintf` store behind the text.

Where there is space for all of it, nothing is cut: the statements up to the first one without
`noflush` are one record, with the head and the source file of the first (`record_complete`).
-/
import PBase.Logger.Bounds

namespace PBase.Logger

open PBase.Lib

/-! ## Lines -/

/-- What is inserted, in full. -/
def Insertion.text : Insertion → List UInt8
  | .bytes buf => buf
  | .nullStr => ascii "null"
  | .char ch => [ch]
  | .bool v => [if v then 49 else 48]
  | .integer v => convertInteger v.val
  | .hex v => convertHexInteger v
  | .voidPointer v => ascii "0x" ++ convertPointer v
  | .pointer v => convertPointer v
  | .float text => text
  | .noflush => []

/-- What is added to a record with space for `room` bytes. -/
def Insertion.shown (x : Insertion) (room : Nat) : List UInt8 :=
  match x with
  | .bytes buf => buf.take (min room (int32 buf.length).toNat)
  | .integer _ | .hex _ => if 24 ≤ room then x.text else []
  | .voidPointer _ | .pointer _ => if 18 ≤ room then x.text else []
  | _ => x.text.take room

/-- `" - file:line"` -/
def SourceFile.mark (src : SourceFile) : List UInt8 :=
  ascii " - " ++ src.fileName ++ ascii ":" ++ convertInteger src.fileLine

structure Line where
  text : List UInt8
  autoFlush : Bool
  sourceFile : SourceFile
  out : List (List UInt8)

namespace Line

def room (g : Nat) (l : Line) : Nat := g - l.text.length

def add (l : Line) (bytes : List UInt8) : Line := { l with text := l.text ++ bytes }

/-- One call, on a buffer of `g` bytes. -/
def apply (g : Nat) (l : Line) : StreamOp → Line
  | .start date tid level src =>
      if l.text = [] then
        { l with text := List.ofFn date ++ threadName tid ++ level.name, sourceFile := src }
      else l
  | .insert .noflush => { l with autoFlush := false }
  | .insert x => l.add (x.shown (l.room g))
  | .sink =>
      if l.autoFlush then
        let mark := if l.sourceFile.fileName.length + 32 ≤ l.room g then l.sourceFile.mark else []
        { l with text := [], out := (l.text ++ mark ++ ascii "\n") :: l.out }
      else { l with autoFlush := true }

end Line

/-- The line after the calls `ops`. -/
def compose (g : Nat) (l : Line) (ops : List StreamOp) : Line := ops.foldl (Line.apply g) l

/-! ## The memory behind a line -/

namespace LogStream

variable {g : Nat} {s : LogStream} {buf : List UInt8}

def text (s : LogStream) : List UInt8 := readBytes s.mem 0 s.cur

def line (s : LogStream) : Line := ⟨s.text, s.autoFlush, s.sourceFile, s.out⟩

theorem length_text : s.text.length = s.cur := length_readBytes

theorem room_line (h : Framed g s) : (s.line.room g : Int) = s.avial := by
  have havial := avial_eq h
  have hcur := h.cur
  rw [Line.room, line, length_text]
  omega

/-- Stored behind the text, and some of it kept. -/
theorem text_put {n : Nat} (hn : n ≤ buf.length) :
    ((s.put buf).advance n).text = s.text ++ buf.take n := by
  show readBytes (writeBytes s.mem s.cur buf) 0 (s.cur + n) = _
  rw [readBytes_add, read_write_below (Nat.zero_add _).le, Nat.zero_add, read_write_start hn]
  rfl

theorem line_justAppend (s : LogStream) (buf : List UInt8) :
    (s.justAppend buf).line = s.line.add buf := by
  have htext := text_put (s := s) (le_refl buf.length)
  rw [List.take_length] at htext
  exact congrArg (fun t => (⟨t, s.autoFlush, s.sourceFile, s.out⟩ : Line)) htext

theorem line_convert (s : LogStream) (buf : List UInt8) :
    (s.convert buf).line = s.line.add buf := by
  have hle : buf.length ≤ (buf ++ [0]).length := by simp
  have htext := text_put (s := s) hle
  rw [List.take_left' rfl] at htext
  exact congrArg (fun t => (⟨t, s.autoFlush, s.sourceFile, s.out⟩ : Line)) htext

@[simp] theorem line_add_nil (l : Line) : l.add [] = l := by
  rw [Line.add, List.append_nil]

theorem line_add_add (l : Line) (a b : List UInt8) : (l.add a).add b = l.add (a ++ b) := by
  simp only [Line.add, List.append_assoc]

theorem line_append (h : Framed g s) (buf : List UInt8) (len : Int) :
    (s.append buf len).line = s.line.add (buf.take (min (s.line.room g) len.toNat)) := by
  have hroom := room_line h
  show LogStream.line (if (if len > s.avial then s.avial else len) ≤ 0 then s else
    s.justAppend (buf.take (if len > s.avial then s.avial else len).toNat)) = _
  have hmin : (if len > s.avial then s.avial else len).toNat = min (s.line.room g) len.toNat := by
    split <;> omega
  generalize (if len > s.avial then s.avial else len) = n at hmin
  split
  · rename_i hle
    have hzero : min (s.line.room g) len.toNat = 0 := by omega
    rw [hzero, List.take_zero, line_add_nil]
  · rw [line_justAppend, hmin]

theorem line_appendChar (h : Framed g s) (ch : UInt8) :
    (s.appendChar ch).line = s.line.add ([ch].take (s.line.room g)) := by
  have hroom := room_line h
  rw [appendChar]
  split
  · have hone : [ch].take (s.line.room g) = [ch] := List.take_of_length_le (by
      rw [List.length_singleton]
      omega)
    rw [line_justAppend, hone]
  · have hzero : s.line.room g = 0 := by omega
    rw [hzero, List.take_zero, line_add_nil]

/-- A number, if there is space for the longest. -/
theorem line_number (h : Framed g s) (n : Nat) (buf : List UInt8) :
    (if s.avial ≥ (n : Int) then s.convert buf else s).line =
    s.line.add (if n ≤ s.line.room g then buf else []) := by
  have hroom := room_line h
  split
  · rw [line_convert, if_pos (by omega)]
  · rw [if_neg (by omega), line_add_nil]

theorem line_float (h : Framed g s) (text : List UInt8) :
    (s.appendf text).line = s.line.add (text.take (s.line.room g)) := by
  have hroom := room_line h
  show LogStream.line (if s.avial ≤ 0 then s else
    (s.put (text.take s.avial.toNat ++ [0])).advance (min (text.length : Int) s.avial).toNat) = _
  split
  · have hzero : s.line.room g = 0 := by omega
    rw [hzero, List.take_zero, line_add_nil]
  · have havial : s.avial.toNat = s.line.room g := by omega
    have hlen : (text.take (s.line.room g)).length = (min (text.length : Int) s.avial).toNat := by
      rw [List.length_take]
      omega
    have hle : (text.take (s.line.room g)).length ≤ (text.take (s.line.room g) ++ [0]).length := by
      simp
    have htext := text_put (s := s) hle
    rw [List.take_left' rfl] at htext
    rw [havial, ← hlen]
    exact congrArg (fun t => (⟨t, s.autoFlush, s.sourceFile, s.out⟩ : Line)) htext

theorem line_insert (h : Framed g s) (x : Insertion) :
    (s.insert x).line = s.line.apply g (.insert x) := by
  cases x with
  | bytes buf =>
      simp only [insert, Line.apply, Insertion.shown]
      exact line_append h buf _
  | nullStr =>
      have hlen : (ascii "null").length = 4 := rfl
      have hmin : (ascii "null").take (min (s.line.room g) 4) =
          (ascii "null").take (s.line.room g) := by
        rw [← hlen, ← List.take_take, List.take_length]
      exact (line_append h _ 4).trans (congrArg s.line.add hmin)
  | char ch => exact line_appendChar h ch
  | bool v => exact line_appendChar h _
  | integer v => exact line_number h 24 _
  | hex v => exact line_number h 24 _
  | voidPointer v =>
      have hroom := room_line h
      have hmax : kMaxPointerSize = 18 := rfl
      show LogStream.line (if s.avial ≥ kMaxPointerSize then
        ((s.justAppend (ascii "0")).justAppend (ascii "x")).convert (convertPointer v) else s) =
          s.line.add (if 18 ≤ s.line.room g then ascii "0x" ++ convertPointer v else [])
      split
      · rw [line_convert, line_justAppend, line_justAppend, line_add_add, line_add_add,
          if_pos (by omega)]
        rfl
      · rw [if_neg (by omega), line_add_nil]
  | pointer v => exact line_number h 18 _
  | float text => exact line_float h text
  | noflush => rfl

theorem line_checkBuffer (s : LogStream) (hbuf : s.buffer = false → s.cur = 0) :
    (s.checkBuffer g).line = s.line := by
  unfold checkBuffer
  split
  · rfl
  · rename_i hb
    have htext : s.text = [] := by
      rw [text, hbuf (Bool.eq_false_iff.mpr hb)]
      rfl
    show Line.mk [] _ _ _ = Line.mk s.text _ _ _
    rw [htext]

theorem line_logStream (hbuf : s.buffer = false → s.cur = 0) (date : List UInt8) (tid : Nat)
    (level : LogLevel)
    (src : SourceFile) : (s.logStream g date tid level src).line =
      if s.line.text =
          [] then { s.line with text := date ++ threadName tid ++ level.name, sourceFile := src }
      else s.line := by
  have hline := line_checkBuffer (g := g) s hbuf
  rw [logStream, ← hline]
  generalize s.checkBuffer g = u
  have hempty : u.cur = 0 ↔ u.line.text = [] := by
    rw [← length_text, List.length_eq_zero_iff]
    rfl
  show LogStream.line (if u.cur = 0 then
    { ((u.justAppend date).justAppend (threadName tid)).justAppend level.name with sourceFile :=
      src } else u) = _
  by_cases h0 : u.cur = 0
  · have hhead : (((u.justAppend date).justAppend (threadName tid)).justAppend level.name).line =
        u.line.add (date ++ threadName tid ++ level.name) := by
      rw [line_justAppend, line_justAppend, line_justAppend, line_add_add, line_add_add,
          List.append_assoc]
    rw [if_pos h0, if_pos (hempty.mp h0)]
    refine (congrArg (fun l : Line => { l with sourceFile := src }) hhead).trans ?_
    rw [Line.add, hempty.mp h0, List.nil_append]
  · rw [if_neg h0, if_neg fun h => h0 (hempty.mpr h)]

theorem line_sourceMark (h : Framed g s) : s.sourceMark.line =
    s.line.add (if s.sourceFile.fileName.length + 32 ≤
      s.line.room g then s.sourceFile.mark else []) := by
  have hroom := room_line h
  rw [sourceMark]
  split
  · rw [if_pos (by omega), line_convert, line_justAppend, line_justAppend, line_justAppend,
      line_add_add, line_add_add,
      line_add_add, SourceFile.mark]
    simp only [List.append_assoc]
  · rw [if_neg (by omega), line_add_nil]

theorem line_sink (h : Framed g s) : s.sink.line = s.line.apply g .sink := by
  rw [sink, Line.apply]
  by_cases hflush : s.autoFlush = true
  · have hend := line_justAppend s.sourceMark (ascii "\n")
    rw [line_sourceMark h, line_add_add] at hend
    rw [if_pos hflush, if_pos (show s.line.autoFlush = true from hflush)]
    refine (congrArg (fun l : Line => { l with text := [], out := l.text :: l.out }) hend).trans ?_
    simp only [Line.add, List.append_assoc]
    rfl
  · rw [if_neg hflush, if_neg (show ¬ s.line.autoFlush = true from hflush)]
    rfl

end LogStream

section Runs
variable {g : Nat} {ops : List StreamOp} {s t : LogStream} {op : StreamOp}

/-- Without a buffer there is no text. -/
def Placed (g : Nat) (s : LogStream) : Prop := Shaped g s ∧ (s.buffer = false → s.cur = 0)

theorem placed_step (hmax : Admitted g) (h : Placed g s) (hs : StreamStep g s op t) :
    Placed g t ∧ t.line = s.line.apply g op := by
  have hframed := (moves_step hmax h.1 hs).framed
  refine ⟨⟨⟨hframed.src, fun _ => hframed⟩, fun hb => ?_⟩, ?_⟩
  · rw [hframed.buffer] at hb
    cases hb
  · cases hs with
    | start date tid level hvalid => exact LogStream.line_logStream h.2 ..
    | insert x hb => exact LogStream.line_insert (h.1.2 hb) x
    | sink hb => exact LogStream.line_sink (h.1.2 hb)

theorem run_placed (hmax : Admitted g) (h : (stream g).Run ops s) :
    Placed g s ∧ ∃ src, s.line = compose g ⟨[], true, src, []⟩ ops := by
  induction h with
  | @start s h₀ =>
      have hshaped := run_shaped hmax (.start h₀)
      obtain ⟨-, hcur, -, hauto, -, -, hout⟩ := h₀
      refine ⟨⟨hshaped, fun _ => hcur⟩, s.sourceFile, ?_⟩
      rw [LogStream.line, LogStream.text, hcur, hauto, hout]
      rfl
  | next _ hs ih =>
      obtain ⟨hplaced, src, hline⟩ := ih
      obtain ⟨hplaced', hline'⟩ := placed_step hmax hplaced hs
      refine ⟨hplaced', src, ?_⟩
      rw [hline', hline, compose, compose, List.foldl_append]
      rfl

/-- **The records are what the calls say.**  In every run of a thread's stream, the records handed
on and the text of the one that is put together are those of the same calls on a line. -/
theorem records_composed (hmax : Admitted g) (h : (stream g).Run ops s) : ∃ src,
    s.out = (compose g ⟨[], true, src, []⟩ ops).out ∧
    readBytes s.mem 0 s.cur = (compose g ⟨[], true, src, []⟩ ops).text := by
  obtain ⟨-, src, hline⟩ := run_placed hmax h
  exact ⟨src, congrArg Line.out hline, congrArg Line.text hline⟩

end Runs

/-- A record with one character. -/
theorem records_composed_char : ∃ s : LogStream, ∃ ops src, s.out.length = 1 ∧
    s.out = (compose 1024 ⟨[], true, src, []⟩ ops).out ∧
    readBytes s.mem 0 s.cur = (compose 1024 ⟨[], true, src, []⟩ ops).text := by
  have start : (stream 1024).Run [] .initial := .start (init_stream 1024)
  have run := ((start.next (.start (fun _ => 0) 1 .kInfo valid_initial)).next
      (.insert (.char 97) rfl)).next (.sink rfl)
  obtain ⟨src, hout, htext⟩ := records_composed admitted_1024 run
  exact ⟨_, _, src, rfl, hout, htext⟩

/-! ## Complete records -/

/-- `LOG_…  << … << …;` -/
structure Statement where
  date : Fin kLogDateStrLen → UInt8
  tid : Fin (2 ^ 31)
  level : LogLevel
  src : SourceFile
  args : List Insertion

def Insertion.flushes : Insertion → Bool
  | .noflush => false
  | _ => true

namespace Statement

def calls (st : Statement) : List StreamOp :=
  .start st.date st.tid st.level st.src :: (st.args.map .insert ++ [.sink])

def head (st : Statement) : List UInt8 := List.ofFn st.date ++ threadName st.tid ++ st.level.name

def text (st : Statement) : List UInt8 := st.args.flatMap Insertion.text

/-- Nothing asks for more to come. -/
def flushes (st : Statement) : Bool := st.args.all Insertion.flushes

theorem head_ne_nil (st : Statement) : st.head ≠ [] := by
  intro h
  have hlen := congrArg List.length h
  rw [head, List.length_append, List.length_append, List.length_ofFn, List.length_nil] at hlen
  have hdate : kLogDateStrLen = 25 := rfl
  omega

end Statement

section Complete
variable {g : Nat} {l : Line}

/-- With space for it, an insertion is shown in full. -/
theorem apply_insert (hmax : Admitted g) {x : Insertion}
    (hroom : l.text.length + x.text.length + 32 ≤ g) :
    l.apply g (.insert x) =
      { l with text := l.text ++ x.text, autoFlush := l.autoFlush && x.flushes } := by
  have hlarge : 24 ≤ l.room g := by
    rw [Line.room]
    omega
  have htake : x.text.take (l.room g) = x.text := List.take_of_length_le (by
    rw [Line.room]
    omega)
  have hadd : ∀ shown, shown = x.text → x.flushes = true →
      l.add shown = { l with text := l.text ++ x.text, autoFlush := l.autoFlush && x.flushes } :=
    fun shown hshown hflush => by
      rw [hshown, hflush, Bool.and_true]
      rfl
  cases x with
  | bytes buf =>
      have hint : (int32 buf.length).toNat = buf.length := by
        have hlen : l.text.length + buf.length + 32 ≤ g := hroom
        unfold Admitted at hmax
        unfold int32
        omega
      refine hadd _ ?_ rfl
      rw [Insertion.shown, hint, ← List.take_take, List.take_length]
      exact htake
  | nullStr => exact hadd _ htake rfl
  | char ch => exact hadd _ htake rfl
  | bool v => exact hadd _ htake rfl
  | integer v => exact hadd _ (if_pos hlarge) rfl
  | hex v => exact hadd _ (if_pos hlarge) rfl
  | voidPointer v => exact hadd _ (if_pos (by omega)) rfl
  | pointer v => exact hadd _ (if_pos (by omega)) rfl
  | float text => exact hadd _ htake rfl
  | noflush =>
      show Line.mk l.text false l.sourceFile l.out =
          ⟨l.text ++ [], l.autoFlush && false, l.sourceFile, l.out⟩
      rw [List.append_nil, Bool.and_false]

theorem compose_inserts (hmax : Admitted g) {args : List Insertion}
    (hroom : l.text.length + (args.flatMap Insertion.text).length + 32 ≤ g) :
    compose g l (args.map .insert) =
      { l with
        text := l.text ++ args.flatMap Insertion.text
        autoFlush := l.autoFlush && args.all Insertion.flushes } := by
  induction args generalizing l with
  | nil =>
      show l = ⟨l.text ++ [], l.autoFlush && true, l.sourceFile, l.out⟩
      rw [List.append_nil, Bool.and_true]
  | cons x args ih =>
      rw [List.flatMap_cons, List.length_append] at hroom
      have hx := apply_insert (l := l) (x := x) hmax (by omega)
      show compose g (l.apply g (.insert x)) (args.map .insert) = _
      rw [hx, ih (by rw [List.length_append]; omega), List.flatMap_cons, List.all_cons,
          List.append_assoc, Bool.and_assoc]

theorem apply_start {date : Fin kLogDateStrLen → UInt8} {tid : Fin (2 ^ 31)} {level : LogLevel}
    {src : SourceFile}
    (hne : l.text ≠ []) : l.apply g (.start date tid level src) = l := if_neg hne

/-- A statement that goes on with a record: it ends it, or leaves it to the next one. -/
theorem compose_statement (hmax : Admitted g) {st : Statement} (hne : l.text ≠ [])
    (hauto : l.autoFlush = true)
    (hroom : l.text.length + st.text.length + l.sourceFile.fileName.length + 32 ≤ g) :
    compose g l st.calls =
      if st.flushes then
        { l with
          text := []
          out := (l.text ++ st.text ++ l.sourceFile.mark ++ ascii "\n") :: l.out }
      else { l with text := l.text ++ st.text } := by
  obtain ⟨text, auto, src, out⟩ := l
  obtain rfl : auto = true := hauto
  have hargs : compose g ⟨text, true, src, out⟩ (st.args.map .insert) =
      ⟨text ++ st.text, st.flushes, src, out⟩ :=
    compose_inserts hmax ((Nat.add_le_add_right (Nat.le_add_right _ _) 32).trans hroom)
  rw [Statement.calls, compose, List.foldl_cons, apply_start hne, List.foldl_append]
  show Line.apply g (compose g ⟨text, true, src, out⟩ (st.args.map .insert)) .sink = _
  rw [hargs]
  cases st.flushes with
  | true =>
      have hmark : src.fileName.length + 32 ≤ Line.room g ⟨text ++ st.text, true, src, out⟩ := by
        have hroom : text.length + st.text.length + src.fileName.length + 32 ≤ g := hroom
        rw [Line.room, List.length_append]
        omega
      show Line.mk [] true src
          ((text ++ st.text ++ (if _ ≤ _ then src.mark else []) ++ ascii "\n") :: out) = _
      rw [if_pos hmark]
      rfl
  | false => rfl

/-- Statements that go on, and one that ends the record. -/
theorem compose_statements (hmax : Admitted g) {more : List Statement} {last : Statement}
    (hmore : ∀ st ∈ more, st.flushes = false) (hlast : last.flushes = true) (hne : l.text ≠ [])
    (hauto : l.autoFlush = true)
    (hroom : l.text.length + ((more ++ [last]).flatMap Statement.text).length +
      l.sourceFile.fileName.length + 32 ≤ g) :
    compose g l ((more ++ [last]).flatMap Statement.calls) =
      { l with
        text := []
        out := (l.text ++ (more ++ [last]).flatMap Statement.text ++
            l.sourceFile.mark ++ ascii "\n") :: l.out } := by
  induction more generalizing l with
  | nil =>
      simp only [List.nil_append, List.flatMap_singleton] at hroom ⊢
      rw [compose_statement hmax hne hauto hroom, if_pos hlast]
  | cons st more ih =>
      obtain ⟨hst, hmore⟩ := List.forall_mem_cons.mp hmore
      rw [List.cons_append, List.flatMap_cons, List.length_append] at hroom
      have hroom' : l.text.length + st.text.length + l.sourceFile.fileName.length + 32 ≤ g := by
        omega
      have hone := compose_statement hmax hne hauto hroom'
      rw [if_neg (by rw [hst]; exact Bool.false_ne_true)] at hone
      rw [List.cons_append, List.flatMap_cons, List.flatMap_cons, compose, List.foldl_append]
      show compose g (compose g l st.calls) _ = _
      have hrest : (l.text ++ st.text).length + ((more ++ [last]).flatMap Statement.text).length +
          l.sourceFile.fileName.length + 32 ≤ g := by
        rw [List.length_append]
        omega
      have hne' : l.text ++ st.text ≠ [] := List.append_ne_nil_of_left_ne_nil hne _
      rw [hone, ih (l := { l with text := l.text ++ st.text }) hmore hne' hauto hrest]
      simp only [List.append_assoc]

end Complete

/-! ### Calls of a thread -/

section Calls
variable {g : Nat} {ops pre : List StreamOp} {s : LogStream}

def LogStream.call (g : Nat) (s : LogStream) : StreamOp → LogStream
  | .start date tid level src => s.logStream g (List.ofFn date) tid level src
  | .insert x => s.insert x
  | .sink => s.sink

/-- A call that can be made: there is a buffer from the first `log_stream` on. -/
def StreamOp.Ready (s : LogStream) : StreamOp → Prop
  | .start _ _ _ src => src.Valid
  | _ => s.buffer = true

theorem step_call {op : StreamOp} (h : op.Ready s) : StreamStep g s op (s.call g op) := by
  cases op with
  | start date tid level src => exact .start date tid level h
  | insert x => exact .insert x h
  | sink => exact .sink h

/-- Calls made one after the other, the first of them with a valid source file. -/
theorem run_calls (hmax : Admitted g) (h : (stream g).Run pre s)
    (hvalid : ∀ op ∈ ops, ∀ date tid level src, op = .start date tid level src → src.Valid)
    (hready : s.buffer = true ∨ ∀ op ∈ ops.head?, op.Ready s) :
    (stream g).Run (pre ++ ops) (ops.foldl (LogStream.call g) s) ∧
      (ops.foldl (LogStream.call g) s).line = compose g s.line ops := by
  induction ops generalizing pre s with
  | nil =>
      rw [List.append_nil]
      exact ⟨h, rfl⟩
  | cons op ops ih =>
      have hop : op.Ready s := by
        rcases hready with hbuf | hfirst
        · cases op with
          | start date tid level src => exact hvalid _ List.mem_cons_self _ _ _ _ rfl
          | insert x => exact hbuf
          | sink => exact hbuf
        · exact hfirst op rfl
      have hstep := step_call (g := g) hop
      have hnext := h.next hstep
      have hframed := (moves_step hmax (run_placed hmax h).1.1 hstep).framed
      obtain ⟨hrun, hline⟩ := ih hnext (fun o ho => hvalid o (List.mem_cons_of_mem _ ho))
          (.inl hframed.buffer)
      rw [List.append_assoc] at hrun
      refine ⟨hrun, hline.trans ?_⟩
      rw [(placed_step hmax (run_placed hmax h).1 hstep).2]
      rfl

/-- **A record is complete.**  If statements that go on and one that does not follow a record that
is ended, and there is space for their texts and 32 bytes more than the file name, the next record
is the head of the first statement, all the texts, and the source file of the first. -/
theorem record_complete (hmax : Admitted g) (h : (stream g).Run pre s) (hempty : s.cur = 0)
    (hauto : s.autoFlush = true)
    {more : List Statement} {first last : Statement} (hfirst : more.headD last = first)
    (hvalid : ∀ st ∈ more ++ [last], st.src.Valid) (hmore : ∀ st ∈ more, st.flushes = false)
    (hlast : last.flushes = true)
    (hroom : first.head.length + ((more ++ [last]).flatMap Statement.text).length +
      first.src.fileName.length + 32 ≤ g) :
    ∃ t, (stream g).Run (pre ++ (more ++ [last]).flatMap Statement.calls) t ∧ t.cur = 0 ∧
    t.autoFlush = true ∧
      t.out = (first.head ++ (more ++ [last]).flatMap Statement.text ++ first.src.mark ++
        ascii "\n") :: s.out := by
  obtain ⟨tail, htail⟩ : ∃ tail, (more ++ [last]).flatMap Statement.calls =
      .start first.date first.tid first.level first.src :: tail := by
    cases more with
    | nil =>
        subst hfirst
        exact ⟨_, rfl⟩
    | cons st more =>
        subst hfirst
        exact ⟨_, rfl⟩
  have hmem : first ∈ more ++ [last] := by
    cases more with
    | nil => exact List.mem_singleton.mpr hfirst.symm
    | cons st more => exact hfirst ▸ List.mem_cons_self
  -- with the head of the first statement in place, its `start` changes nothing
  let l : Line := ⟨first.head, true, first.src, s.out⟩
  have hline : s.line = ⟨[], true, s.sourceFile, s.out⟩ := by
    rw [LogStream.line, LogStream.text, hempty, hauto]
    rfl
  have hsame : compose g s.line ((more ++ [last]).flatMap Statement.calls) =
      compose g l ((more ++ [last]).flatMap Statement.calls) := by
    have hput : s.line.apply g (.start first.date first.tid first.level first.src) = l := by
      rw [hline]
      rfl
    rw [htail, compose, compose, List.foldl_cons, List.foldl_cons, hput,
        apply_start first.head_ne_nil]
  have hstarts : ∀ op ∈ (more ++ [last]).flatMap Statement.calls, ∀ date tid level src,
      op = .start date tid level src → src.Valid := fun op hop date tid level src heq => by
    obtain ⟨st, hst, hop⟩ := List.mem_flatMap.mp hop
    rcases List.mem_cons.mp hop with rfl | hop
    · cases heq
      exact hvalid st hst
    · subst heq
      simp at hop
  have hready : ∀ op ∈ ((more ++ [last]).flatMap Statement.calls).head?, op.Ready s :=
      fun op hop => by
    rw [htail] at hop
    cases hop
    exact hvalid first hmem
  obtain ⟨hrun, hend⟩ := run_calls hmax h hstarts (.inr hready)
  rw [hsame, compose_statements hmax hmore hlast first.head_ne_nil rfl hroom] at hend
  refine ⟨_, hrun, ?_, congrArg Line.autoFlush hend, congrArg Line.out hend⟩
  rw [← LogStream.length_text]
  exact congrArg (fun l => l.text.length) hend

end Calls

/-- `LOG_INFO << 'a' << noflush(); LOG_WARN << 42;` -/
def letter : Statement := ⟨fun _ => 0, 1, .kInfo, ⟨[97, 46, 99], 7⟩, [.char 97, .noflush]⟩

def number : Statement := ⟨fun _ => 0, 1, .kWarn, ⟨[97, 46, 99], 8⟩, [.integer ⟨42, by decide⟩]⟩

theorem record_complete_two : ∃ t : LogStream, t.out = [letter.head ++ ascii "a42 - a.c:7\n"] := by
  have hvalid : ∀ st ∈ [letter] ++ [number], st.src.Valid := by
    simp only [List.cons_append, List.nil_append, List.forall_mem_cons]
    exact ⟨⟨by decide, by decide⟩, ⟨by decide, by decide⟩, fun _ h => absurd h List.not_mem_nil⟩
  obtain ⟨t, -, -, -, hout⟩ := record_complete admitted_1024
    (.start (init_stream 1024)) rfl rfl rfl hvalid (by decide) (by decide) (by decide)
  refine ⟨t, hout.trans ?_⟩
  simp only [List.append_assoc, List.cons.injEq]
  decide

end PBase.Logger
