/-
# `PBase.Logger.Bounds` — a record stays in its buffer

Whatever is inserted, `LogStream` should store below `buffer_ + g_max_length_per_log`, and a record
have at most that many bytes.  Most operators look at the space left and keep to
it.  Three do not, each by one byte at a full buffer (`Roomy`):

* `<< (const void *)` asks for 18 bytes, and stores 19 if the pointer has 16 hex digits: `0x`,
  the digits, and the NUL of `ConvertPointer`;
* a formatted number that does not fit: `vsnprintf` may store `avial()` characters and the NUL;
* `Sink`: the newline is stored also if the buffer is full.

Each function extends `stores` by what it stores, so whether a step stays inside is an
inequality between the space left and what is stored (`bounded_step`).
-/
import PBase.Logger.Stream

namespace PBase.Logger

open PBase.Lib

/-! ## Lengths -/

section Digits
variable {digit : Int → UInt8} {base : Nat}

theorem digitLoop_le {fuel k : Nat} {i : Int} (hi : i.natAbs < base ^ (k + 1)) :
    (digitLoop digit base fuel i).length ≤ k + 1 := by
  induction fuel generalizing i k with
  | zero => exact Nat.zero_le _
  | succ fuel ih =>
      rw [digitLoop, List.length_cons]
      split
      · exact Nat.le_add_left _ _
      · rename_i hne
        have hdiv : (i.tdiv base).natAbs = i.natAbs / base := by
          rw [Int.natAbs_tdiv, Int.natAbs_natCast]
          rfl
        cases k with
        | zero =>
            rw [Nat.zero_add, pow_one] at hi
            rw [Nat.div_eq_of_lt hi, Int.natAbs_eq_zero] at hdiv
            exact absurd hdiv hne
        | succ k =>
            refine Nat.succ_le_succ (ih ?_)
            rw [hdiv]
            exact Nat.div_lt_of_lt_mul (by rwa [← Nat.pow_succ'])

theorem le_digitLoop {fuel k : Nat} {i : Int} (hbase : 1 < base) (hi : base ^ k ≤ i.natAbs)
    (hfuel : k < fuel) : k + 1 ≤ (digitLoop digit base fuel i).length := by
  induction fuel generalizing i k with
  | zero => exact absurd hfuel (Nat.not_lt_zero k)
  | succ fuel ih =>
      rw [digitLoop, List.length_cons]
      cases k with
      | zero => exact Nat.le_add_left _ _
      | succ k =>
          have hdiv : base ^ k ≤ (i.tdiv base).natAbs := by
            rw [Int.natAbs_tdiv, Int.natAbs_natCast]
            refine (Nat.le_div_iff_mul_le (by omega)).mpr ?_
            rwa [← Nat.pow_succ]
          have hpos : 0 < base ^ k := Nat.pow_pos (by omega)
          rw [if_neg (by omega)]
          exact Nat.succ_le_succ (ih hdiv (Nat.lt_of_succ_lt_succ hfuel))

end Digits

theorem convertInteger_length {v : Int} (k : Nat) (hneg : v < 0 → v.natAbs < 10 ^ (k + 1))
    (hpos : 0 ≤ v → v.natAbs < 10 ^ (k + 2)) : (convertInteger v).length ≤ k + 2 := by
  rw [convertInteger, List.length_reverse, List.length_append]
  split
  · rename_i h
    have hle : (digitLoop sZero 10 64 v).length ≤ k + 1 := digitLoop_le (hneg h)
    have hone : (ascii "-").length = 1 := rfl
    omega
  · rename_i h
    have hle : (digitLoop sZero 10 64 v).length ≤ k + 2 := digitLoop_le (hpos (not_lt.mp h))
    exact hle

theorem integer_length (v : Integer64) : (convertInteger v.val).length ≤ 20 := by
  obtain ⟨v, hlo, hhi⟩ := v
  have hneg : v < 0 → v.natAbs < 10 ^ 19 := by omega
  have hpos : 0 ≤ v → v.natAbs < 10 ^ 20 := by omega
  exact convertInteger_length 18 hneg hpos

theorem line_length {src : SourceFile} (h : src.Valid) :
    (convertInteger src.fileLine).length ≤ 11 := by
  obtain ⟨hlo, hhi⟩ := h
  have hlt : src.fileLine.natAbs < 10 ^ 10 := by omega
  exact convertInteger_length 9 (fun _ => hlt) fun _ => hlt.trans (by decide)

theorem hex_length (v : BitVec 64) : (convertHexInteger v).length ≤ 18 := by
  rw [convertHexInteger, List.length_reverse, List.length_append]
  have hlt : (v.toNat : Int).natAbs < 16 ^ 16 := v.isLt
  have hle : (digitLoop sDigits 16 64 v.toNat).length ≤ 16 := digitLoop_le hlt
  have htwo : (ascii "x0").length = 2 := rfl
  omega

/-- A pointer has 16 hex digits from `2 ^ 60` on. -/
theorem pointer_length (v : BitVec 64) : (convertPointer v).length ≤ 16 ∧
    ((convertPointer v).length = 16 ↔ 2 ^ 60 ≤ v.toNat) := by
  rw [convertPointer, List.length_reverse]
  have hlt : (v.toNat : Int).natAbs < 16 ^ 16 := v.isLt
  have hle : (digitLoop sDigitsHex 16 64 v.toNat).length ≤ 16 := digitLoop_le hlt
  refine ⟨hle, fun heq => ?_, fun hge => ?_⟩
  · by_contra hsmall
    have hsmall : (v.toNat : Int).natAbs < 16 ^ 15 := by omega
    have hle : (digitLoop sDigitsHex 16 64 v.toNat).length ≤ 15 := digitLoop_le hsmall
    omega
  · have hge : 16 ^ 15 ≤ (v.toNat : Int).natAbs := by omega
    have : 16 ≤ (digitLoop sDigitsHex 16 64 v.toNat).length :=
        le_digitLoop (by decide) hge (by decide)
    omega

theorem threadName_length (tid : Fin (2 ^ 31)) : (threadName tid).length ≤ 11 := by
  have hdigits : (Nat.toDigits 10 tid).length ≤ 10 :=
    (Nat.length_toDigits_le_iff (by decide) (by decide)).mpr (by have := tid.isLt; omega)
  have hone : (ascii "T").length = 1 := rfl
  rw [threadName, List.length_append, List.length_map, zeroPad, List.length_leftpad]
  omega

theorem name_length (level : LogLevel) : level.name.length = sizeOfLogLevelName := by
  cases level <;> rfl

/-! ## One step -/

/-- All stores are inside the buffer, and no record is longer than it. -/
def Bounded (maxLen : Nat) (s : LogStream) : Prop :=
  (∀ st ∈ s.stores, st.1 + st.2 ≤ maxLen) ∧ ∀ r ∈ s.out, r.length ≤ maxLen

/-- The steps that leave room for what they store unchecked. -/
def Roomy (s : LogStream) : StreamOp → Prop
  | .insert (.voidPointer v) => s.avial = kMaxPointerSize → v.toNat < 2 ^ 60
  | .insert (.float text) => 0 < s.avial → (text.length : Int) < s.avial
  | .sink => s.autoFlush = true → 0 < s.avial
  | _ => True

/-- The buffer is there, and `cur_` is in it. -/
structure Framed (maxLen : Nat) (s : LogStream) : Prop where
  buffer : s.buffer = true
  endPtr : s.endPtr = maxLen
  cur : s.cur ≤ maxLen
  src : s.sourceFile.Valid

/-- From `s` to `t`, the stores stay inside if and only if `room`. -/
structure Moves (maxLen : Nat) (s t : LogStream) (room : Prop) : Prop where
  framed : Framed maxLen t
  bounded : Bounded maxLen t ↔ Bounded maxLen s ∧ room

namespace LogStream

variable {g : Nat} {s t u : LogStream} {buf : List UInt8} {room room' : Prop}

theorem avial_eq (h : Framed g s) : s.avial = (g : Int) - s.cur := by
  rw [avial, h.endPtr]

theorem moves_refl (h : Framed g s) : Moves g s s True := ⟨h, by simp⟩

theorem moves_trans (h : Moves g s t room) (h' : Moves g t u room') : Moves g s u (room ∧ room') :=
  ⟨h'.framed, by rw [h'.bounded, h.bounded, and_assoc]⟩

theorem moves_congr (h : Moves g s t room) (hroom : room ↔ room') : Moves g s t room' :=
  ⟨h.framed, by rw [h.bounded, hroom]⟩

/-- `buf` is stored, and `k` bytes more than `cur_` moves on. -/
theorem moves_put (h : Framed g s) {n : Nat} (hn : s.cur + n ≤ g) :
    Moves g s ((s.put buf).advance n) (s.cur + buf.length ≤ g) := by
  refine ⟨⟨h.buffer, h.endPtr, hn, h.src⟩, ?_⟩
  simp only [Bounded, put, advance, List.forall_mem_cons]
  tauto

theorem moves_justAppend (h : Framed g s) (buf : List UInt8) (hfit : s.cur + buf.length ≤ g) :
    Moves g s (s.justAppend buf) True :=
  moves_congr (moves_put h hfit) (by simp [hfit])

theorem moves_convert (h : Framed g s) (buf : List UInt8) (hfit : s.cur + buf.length ≤ g) :
    Moves g s (s.convert buf) (s.cur + buf.length + 1 ≤ g) :=
  moves_congr (moves_put h hfit) (by simp [Nat.add_assoc])

theorem moves_append (h : Framed g s) (len : Int) : Moves g s (s.append buf len) True := by
  have havial := avial_eq h
  have hcur := h.cur
  have hle : (if len > s.avial then s.avial else len) ≤ s.avial := by split <;> omega
  show Moves g s (if (if len > s.avial then s.avial else len) ≤ 0 then s else
    s.justAppend (buf.take (if len > s.avial then s.avial else len).toNat)) True
  generalize (if len > s.avial then s.avial else len) = n at hle
  split
  · exact moves_refl h
  · refine moves_justAppend h _ ?_
    have htake := List.length_take_le n.toNat buf
    omega

/-- A string as long as the space left fills the buffer. -/
theorem avial_append (h : Framed g s) {len : Int} (hlen : s.avial ≤ len) (hbuf : len ≤ buf.length) :
    (s.append buf len).avial = 0 := by
  have havial := avial_eq h
  have hcur := h.cur
  have hmin : (if len > s.avial then s.avial else len) = s.avial := by split <;> omega
  show LogStream.avial (if (if len > s.avial then s.avial else len) ≤ 0 then s else
    s.justAppend (buf.take (if len > s.avial then s.avial else len).toNat)) = 0
  rw [hmin]
  split
  · omega
  · simp only [avial, justAppend, put, advance, List.length_take]
    rw [avial] at havial hlen
    omega

theorem autoFlush_append (s : LogStream) (buf : List UInt8) (len : Int) :
    (s.append buf len).autoFlush = s.autoFlush := by
  show LogStream.autoFlush (if (if len > s.avial then s.avial else len) ≤ 0 then s else
    s.justAppend (buf.take (if len > s.avial then s.avial else len).toNat)) = _
  generalize (if len > s.avial then s.avial else len) = n
  split <;> rfl

theorem moves_appendChar (h : Framed g s) (ch : UInt8) : Moves g s (s.appendChar ch) True := by
  have havial := avial_eq h
  unfold appendChar
  split
  · refine moves_justAppend h _ ?_
    rw [List.length_singleton]
    omega
  · exact moves_refl h

/-- A number that fits with its NUL, if there is space for it. -/
theorem moves_number (h : Framed g s) {n : Int} (hlen : (buf.length : Int) < n) :
    Moves g s (if s.avial ≥ n then s.convert buf else s) True := by
  have havial := avial_eq h
  split
  · exact moves_congr (moves_convert h buf (by omega)) (by rw [iff_true]; omega)
  · exact moves_refl h

theorem moves_voidPointer (h : Framed g s) (v : BitVec 64) :
    Moves g s (s.insert (.voidPointer v)) (Roomy s (.insert (.voidPointer v))) := by
  have havial := avial_eq h
  obtain ⟨hle, h16⟩ := pointer_length v
  have hone : (ascii "0").length = 1 := rfl
  have hone' : (ascii "x").length = 1 := rfl
  have hmax : kMaxPointerSize = 18 := rfl
  rw [insert, Roomy]
  split
  · have hzero := moves_justAppend h (ascii "0") (by omega)
    have hx := moves_justAppend hzero.framed (ascii "x") (by
      simp only [justAppend, put, advance]
      omega)
    have hdigits := moves_convert hx.framed (convertPointer v) (by
      simp only [justAppend, put, advance]
      omega)
    refine moves_congr (moves_trans (moves_trans hzero hx) hdigits) ?_
    simp only [justAppend, put, advance, true_and]
    constructor
    · intro hfit heq
      omega
    · intro hroom
      omega
  · exact moves_congr (moves_refl h) ⟨fun _ heq => by omega, fun _ => trivial⟩

theorem moves_float (h : Framed g s) (text : List UInt8) :
    Moves g s (s.insert (.float text)) (Roomy s (.insert (.float text))) := by
  have havial := avial_eq h
  show Moves g s (if s.avial ≤ 0 then s else
    (s.put (text.take s.avial.toNat ++ [0])).advance (min (text.length : Int) s.avial).toNat)
    (0 < s.avial → (text.length : Int) < s.avial)
  split
  · exact moves_congr (moves_refl h) ⟨fun _ hpos => by omega, fun _ => trivial⟩
  · refine moves_congr (moves_put h ?_) ?_
    · omega
    · simp only [List.length_append, List.length_take, List.length_singleton]
      constructor
      · intro hfit hpos
        omega
      · intro hroom
        omega

/-- Every insertion. -/
theorem moves_insert (h : Framed g s) (x : Insertion) :
    Moves g s (s.insert x) (Roomy s (.insert x)) := by
  cases x with
  | bytes buf =>
      simp only [insert, Roomy]
      exact moves_append h _
  | nullStr => exact moves_append h 4
  | char ch => exact moves_appendChar h ch
  | bool v => exact moves_appendChar h _
  | integer v =>
      have hlen : ((convertInteger v.val).length : Int) < kMaxNumericSize :=
        Int.lt_of_le_of_lt (Int.ofNat_le.mpr (integer_length v)) (by decide)
      exact moves_number h hlen
  | hex v =>
      have hlen : ((convertHexInteger v).length : Int) < kMaxNumericSize :=
        Int.lt_of_le_of_lt (Int.ofNat_le.mpr (hex_length v)) (by decide)
      exact moves_number h hlen
  | voidPointer v => exact moves_voidPointer h v
  | pointer v =>
      have hlen : ((convertPointer v).length : Int) < kMaxPointerSize :=
        Int.lt_of_le_of_lt (Int.ofNat_le.mpr (pointer_length v).1) (by decide)
      exact moves_number h hlen
  | float text => exact moves_float h text
  | noflush => exact ⟨⟨h.buffer, h.endPtr, h.cur, h.src⟩, by simp [Bounded, insert, Roomy]⟩

/-- The head of a record. -/
theorem moves_logStream (hmax : Admitted g) (hsrc : s.sourceFile.Valid)
    (hframe : s.buffer = true → Framed g s) {date : List UInt8}
    (hdate : date.length = kLogDateStrLen)
    (tid : Fin (2 ^ 31)) (level : LogLevel) {src : SourceFile} (hvalid : src.Valid) :
    Moves g s (s.logStream g date tid level src) True := by
  have hcheck : Moves g s (s.checkBuffer g) True := by
    unfold checkBuffer
    split
    · rename_i hb
      exact moves_refl (hframe hb)
    · exact ⟨⟨rfl, rfl, Nat.zero_le _, hsrc⟩, by simp [Bounded]⟩
  have hge : 1024 ≤ g := by
    unfold Admitted at hmax
    omega
  have hname := threadName_length tid
  have hlevel := name_length level
  have hnum : kLogDateStrLen = 25 ∧ sizeOfLogLevelName = 7 := ⟨rfl, rfl⟩
  rw [logStream]
  generalize s.checkBuffer g = u at hcheck
  show Moves g s (if u.cur = 0 then
    { ((u.justAppend date).justAppend (threadName tid)).justAppend level.name with
      sourceFile := src } else u) True
  split
  · rename_i hcur
    have hd := moves_justAppend hcheck.framed date (by omega)
    have ht := moves_justAppend hd.framed (threadName tid) (by
      simp only [justAppend, put, advance]
      omega)
    have hl := moves_justAppend ht.framed level.name (by
      simp only [justAppend, put, advance]
      omega)
    have hall := moves_trans (moves_trans (moves_trans hcheck hd) ht) hl
    refine ⟨⟨hall.framed.buffer, hall.framed.endPtr, hall.framed.cur, hvalid⟩, ?_⟩
    refine hall.bounded.trans ?_
    simp
  · exact hcheck

theorem moves_sourceMark (h : Framed g s) : Moves g s s.sourceMark True ∧
    (s.sourceMark.cur = s.cur ∨ s.cur < s.sourceMark.cur ∧ s.sourceMark.cur < g) := by
  have havial := avial_eq h
  have hline := line_length h.src
  have hthree : (ascii " - ").length = 3 := rfl
  have hone : (ascii ":").length = 1 := rfl
  unfold sourceMark
  split
  · have hdash := moves_justAppend h (ascii " - ") (by omega)
    have hname := moves_justAppend hdash.framed s.sourceFile.fileName (by
      simp only [justAppend, put, advance]
      omega)
    have hcolon := moves_justAppend hname.framed (ascii ":") (by
      simp only [justAppend, put, advance]
      omega)
    have hnum := moves_convert hcolon.framed (convertInteger s.sourceFile.fileLine) (by
      simp only [justAppend, put, advance]
      omega)
    refine ⟨moves_congr (moves_trans (moves_trans (moves_trans hdash hname) hcolon) hnum) ?_,
        .inr ?_⟩
    · simp only [justAppend, put, advance, true_and, iff_true]
      omega
    · simp only [justAppend, convert, put, advance]
      omega
  · exact ⟨moves_refl h, .inl rfl⟩

/-- The newline is stored, whether there is space or not. -/
theorem moves_sink (h : Framed g s) : Moves g s s.sink (Roomy s .sink) := by
  have havial := avial_eq h
  unfold sink
  split
  · rename_i hflush
    obtain ⟨hmark, hcur⟩ := moves_sourceMark h
    have hone : (ascii "\n").length = 1 := rfl
    refine ⟨⟨hmark.framed.buffer, hmark.framed.endPtr, Nat.zero_le _, hmark.framed.src⟩, ?_⟩
    have hbounded : Bounded g { s.sourceMark.justAppend (ascii "\n") with
        out := readBytes (s.sourceMark.justAppend (ascii "\n")).mem 0
          (s.sourceMark.justAppend (ascii "\n")).cur :: (s.sourceMark.justAppend (ascii "\n")).out
        cur := 0 } ↔ Bounded g s.sourceMark ∧ s.sourceMark.cur + 1 ≤ g := by
      simp only [Bounded, justAppend, put, advance, List.forall_mem_cons, length_readBytes, hone]
      tauto
    refine hbounded.trans ?_
    rw [hmark.bounded, and_true, Roomy]
    have hle := h.cur
    constructor
    · rintro ⟨hs, hfit⟩
      exact ⟨hs, fun _ => by omega⟩
    · rintro ⟨hs, hroom⟩
      have := hroom hflush
      exact ⟨hs, by omega⟩
  · rename_i hflush
    exact ⟨⟨h.buffer, h.endPtr, h.cur, h.src⟩, by simp [Bounded, Roomy, hflush]⟩

/-- A string that fills the buffer, and then the newline. -/
theorem sink_full (h : Framed g s) (hflush : s.autoFlush = true)
    (hlen : s.avial ≤ int32 buf.length) : ¬ Bounded g (s.insert (.bytes buf)).sink := by
  have hle : int32 buf.length ≤ buf.length := by
    unfold int32
    omega
  have hinsert : s.insert (.bytes buf) = s.append buf (int32 buf.length) := by simp only [insert]
  have hmoves := moves_insert h (.bytes buf)
  intro hbounded
  have hroom := ((moves_sink hmoves.framed).bounded.mp hbounded).2
  rw [hinsert, Roomy, autoFlush_append, avial_append h hlen hle] at hroom
  exact lt_irrefl 0 (hroom hflush)

end LogStream

/-! ## Runs -/

section Runs
variable {g : Nat} {ops : List StreamOp} {s t : LogStream} {op : StreamOp}

/-- In every run `cur_` stays in the buffer. -/
def Shaped (g : Nat) (s : LogStream) : Prop :=
  s.sourceFile.Valid ∧ (s.buffer = true → Framed g s)

/-- Every step: the stores stay inside if and only if they were and there is room. -/
theorem moves_step (hmax : Admitted g) (h : Shaped g s) (hs : StreamStep g s op t) :
    Moves g s t (Roomy s op) := by
  cases hs with
  | start date tid level hvalid =>
      exact LogStream.moves_logStream hmax h.1 h.2 (List.length_ofFn) tid level hvalid
  | insert x hb => exact LogStream.moves_insert (h.2 hb) x
  | sink hb => exact LogStream.moves_sink (h.2 hb)

theorem run_shaped (hmax : Admitted g) (h : (stream g).Run ops s) : Shaped g s := by
  induction h with
  | start h₀ =>
      obtain ⟨hbuf, _, _, _, hsrc, _⟩ := h₀
      exact ⟨hsrc, fun hb => by rw [hbuf] at hb; cases hb⟩
  | next _ hs ih =>
      have hmoves := moves_step hmax ih hs
      exact ⟨hmoves.framed.src, fun _ => hmoves.framed⟩

/-- **A record stays in its buffer.**  In every run whose steps are `Roomy`, all stores are
below `buffer_ + g_max_length_per_log` and no record is longer; in any run, a step keeps this
if and only if it is `Roomy`. -/
theorem record_bounded (hmax : Admitted g) :
    (((stream g).when Roomy).Run ops s → Bounded g s) ∧
    ((stream g).Run ops s → StreamStep g s op t → (Bounded g t ↔ Bounded g s ∧ Roomy s op)) := by
  refine ⟨fun h => ?_, fun h hs => (moves_step hmax (run_shaped hmax h) hs).bounded⟩
  induction h with
  | start h₀ =>
      obtain ⟨_, _, _, _, _, hstores, hout⟩ := h₀
      exact ⟨by simp [hstores], by simp [hout]⟩
  | next h hs ih =>
      exact (moves_step hmax (run_shaped hmax h.of_when) hs.1).bounded.mpr ⟨ih, hs.2⟩

end Runs

/-- The stream of a thread before its first record. -/
def LogStream.initial : LogStream :=
  { buffer := false, cur := 0, endPtr := 0, autoFlush := true, sourceFile := ⟨ascii "logger.h", 20⟩,
    mem := fun _ => 0, stores := [], out := [] }

theorem valid_initial : LogStream.initial.sourceFile.Valid := ⟨by decide, by decide⟩

theorem init_stream (g : Nat) : (stream g).init .initial :=
  ⟨rfl, rfl, rfl, rfl, valid_initial, rfl, rfl⟩

theorem admitted_1024 : Admitted 1024 := by
  unfold Admitted
  decide

/-- A record with one character, and a number for the next one. -/
theorem record_bounded_char : ∃ s t : LogStream, s.out.length = 1 ∧ Bounded 1024 s ∧
    (Bounded 1024 t ↔ Bounded 1024 s ∧ Roomy s (.insert (.float [49, 46, 48]))) := by
  have start : ((stream 1024).when Roomy).Run [] .initial := .start (init_stream 1024)
  have run := ((start.next ⟨.start (fun _ => 0) 1 .kInfo valid_initial, trivial⟩).next
    ⟨.insert (.char 97) rfl, trivial⟩).next ⟨.sink rfl, fun _ => by decide⟩
  have next := (record_bounded admitted_1024).2 run.of_when (.insert (.float [49, 46, 48]) rfl)
  exact ⟨_, _, rfl, (@record_bounded 1024 _ _ .initial .sink admitted_1024).1 run, next⟩

/-- **The newline is stored behind the buffer**, after a message that fills it. -/
theorem record_overflows : ∃ ops, ∃ s : LogStream, Admitted 1024 ∧ (stream 1024).Run ops s ∧
    ¬ Bounded 1024 s := by
  have started := @StreamStep.start 1024 .initial (fun _ => 0) 1 .kInfo _ valid_initial
  have hframed := (moves_step admitted_1024 ⟨valid_initial, fun hb => by cases hb⟩ started).framed
  have run := (((System.Run.start (init_stream 1024)).next started).next
    (.insert (.bytes (List.replicate 1024 97)) hframed.buffer)).next
    (.sink (LogStream.moves_insert hframed _).framed.buffer)
  refine ⟨_, _, admitted_1024, run, LogStream.sink_full hframed rfl ?_⟩
  have hlen : int32 (List.replicate 1024 (97 : UInt8)).length = 1024 := by
    rw [List.length_replicate]
    decide
  rw [hlen, LogStream.avial_eq hframed]
  omega

end PBase.Logger
