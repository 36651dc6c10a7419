/-
# `PBase.Text.Growth` — the room in a `Buffer`, and `c_str`

`Sound b`: the capacity is a power of two from 64 on, and one byte behind the text is free.
`append` keeps it on each of its paths, and with it `avial()` never wraps.  So `append` returns
as long as the size it needs is a size the loop can reach, `2^63` at most.

The free byte is for the terminator, but `c_str` stores it one further, at `cur_ + 1`: the byte
behind the text is what it was before (`cStr_iff`).
-/
import PBase.Text.Model

namespace PBase.Text

open PBase.Lib

namespace Buffer

variable {b b' : Buffer} {fresh : Nat → UInt8} {buf : List UInt8} {newSize tmpSize k : Nat}

/-- Null, or with a byte to spare. -/
def Sound : Buffer → Prop
  | null => True
  | alloc _ cur endp => (∃ k ≤ 57, endp = 64 * 2 ^ k) ∧ cur + 1 ≤ endp

/-! ## The loop -/

theorem shift_lt (hk : k < 57) : 64 * 2 ^ k * 2 % 2 ^ 64 = 64 * 2 ^ (k + 1) := by
  have hle : 2 ^ (k + 1) ≤ 2 ^ 57 := Nat.pow_le_pow_right (by decide) hk
  rw [Nat.pow_succ] at hle ⊢
  rw [Nat.mod_eq_of_lt] <;> omega

/-- Zero stays zero. -/
theorem grow_zero (h : 0 < newSize) (turns : Nat) : grow newSize turns 0 = none := by
  induction turns with
  | zero => rfl
  | succ turns ih => rw [grow, if_pos h]; exact ih

/-- The size the loop ends with. -/
theorem grow_spec {turns : Nat} (hk : k ≤ 57) (h : grow newSize turns (64 * 2 ^ k) = some tmpSize) :
    newSize ≤ tmpSize ∧ ∃ k ≤ 57, tmpSize = 64 * 2 ^ k := by
  induction turns generalizing k with
  | zero => cases h
  | succ turns ih =>
      rw [grow] at h
      split at h
      · rename_i hlt
        rcases Nat.lt_or_eq_of_le hk with hk | rfl
        · rw [shift_lt hk] at h
          exact ih hk h
        · -- the bit is shifted out
          have hzero : 64 * 2 ^ 57 * 2 % 2 ^ 64 = 0 := by decide
          rw [hzero, grow_zero (Nat.zero_lt_of_lt hlt)] at h
          cases h
      · rename_i hge
        cases h
        exact ⟨Nat.not_lt.mp hge, k, hk, rfl⟩

/-- The loop ends for a size that is a power of two or below one. -/
theorem grow_ends {turns : Nat} (hk : k ≤ 57) (hnew : newSize ≤ 2 ^ 63) (hturns : 57 < turns + k) :
    ∃ tmpSize, grow newSize turns (64 * 2 ^ k) = some tmpSize := by
  induction turns generalizing k with
  | zero => omega
  | succ turns ih =>
      rw [grow]
      split
      · rename_i hlt
        rcases Nat.lt_or_eq_of_le hk with hk | rfl
        · rw [shift_lt hk]
          exact ih hk (by omega)
        · omega
      · exact ⟨_, rfl⟩

/-! ## One call -/

theorem avial_eq {mem : Nat → UInt8} {cur endp : Nat} (h : (alloc mem cur endp).Sound) :
    (alloc mem cur endp).avial = endp - cur - 1 := by
  obtain ⟨⟨k, hk, rfl⟩, hcur⟩ := h
  have hle : 2 ^ k ≤ 2 ^ 57 := Nat.pow_le_pow_right (by decide) hk
  rw [avial, show 64 * 2 ^ k + 2 ^ 64 - cur - 1 = 64 * 2 ^ k - cur - 1 + 2 ^ 64 by omega,
    Nat.add_mod_right, Nat.mod_eq_of_lt (by omega)]

theorem firstSize_eq (h : b.Sound) : ∃ k ≤ 57, b.firstSize = 64 * 2 ^ k := by
  cases b with
  | null => exact ⟨0, by decide, rfl⟩
  | alloc mem cur endp => exact h.1

theorem length_text (b : Buffer) : b.text.length = b.size := by
  cases b with
  | null => rfl
  | alloc mem cur endp => exact length_readBytes

/-- `memcpy` puts the bytes behind the text, if they fit. -/
theorem copy_alloc {mem : Nat → UInt8} {cur endp : Nat}
    (h : (alloc mem cur endp).copy buf = some b') :
    cur + buf.length ≤ endp ∧ b' = alloc (writeBytes mem cur buf) (cur + buf.length) endp := by
  rw [copy] at h
  split at h
  · cases h
    exact ⟨by assumption, rfl⟩
  · cases h

theorem text_copy {mem : Nat → UInt8} {cur endp : Nat} :
    (alloc (writeBytes mem cur buf) (cur + buf.length) endp).text = readBytes mem 0 cur ++ buf := by
  rw [text, readBytes_add, Nat.zero_add, read_write, read_write_below (Nat.zero_add cur).le]

/-- The text keeps its place in other memory. -/
theorem resize_spec (h : b.resize fresh newSize = some b') :
    ∃ mem, b' = alloc mem b.size newSize ∧ readBytes mem 0 b.size = b.text := by
  obtain ⟨-, rfl⟩ := copy_alloc h
  rw [length_text, Nat.zero_add]
  refine ⟨_, rfl, ?_⟩
  have hread := read_write (m := fresh) (o := 0) (p := b.text)
  rwa [length_text] at hread

/-- What is appended is behind the text that was there, and there is a byte to spare again. -/
theorem append_spec (hb : b.Sound) (h : b.append fresh buf = some b') :
    b'.Sound ∧ b'.text = b.text ++ buf := by
  rw [append] at h
  split at h
  · rename_i hroom
    cases b with
    | null =>
        have hnil : buf = [] := List.length_eq_zero_iff.mp (Nat.le_zero.mp hroom)
        subst hnil
        cases h
        exact ⟨trivial, rfl⟩
    | alloc mem cur endp =>
        rw [avial_eq hb] at hroom
        obtain ⟨-, rfl⟩ := copy_alloc h
        have hcur := hb.2
        exact ⟨⟨hb.1, by omega⟩, text_copy⟩
  · obtain ⟨tmpSize, hgrow, h⟩ := Option.bind_eq_some_iff.mp h
    obtain ⟨b₁, hresize, hcopy⟩ := Option.bind_eq_some_iff.mp h
    obtain ⟨mem, rfl, hmem⟩ := resize_spec hresize
    obtain ⟨hfits, rfl⟩ := copy_alloc hcopy
    obtain ⟨k₀, hk₀, hfirst⟩ := firstSize_eq hb
    rw [hfirst] at hgrow
    obtain ⟨hle, k, hk, rfl⟩ := grow_spec hk₀ hgrow
    have hpow : 2 ^ k ≤ 2 ^ 57 := Nat.pow_le_pow_right (by decide) hk
    refine ⟨⟨⟨k, hk, rfl⟩, ?_⟩, ?_⟩
    · -- what fits the memory is no size that wraps
      omega
    · rw [text_copy, hmem]

/-- `append` returns, if the size it needs is at most `2^63`. -/
theorem append_returns (hb : b.Sound) (h : b.size + buf.length + 1 ≤ 2 ^ 63)
    (fresh : Nat → UInt8) : ∃ b', b.append fresh buf = some b' := by
  rw [append]
  split
  · rename_i hroom
    cases b with
    | null => exact ⟨_, if_pos (Nat.le_zero.mp hroom)⟩
    | alloc mem cur endp =>
        rw [avial_eq hb] at hroom
        have hcur := hb.2
        exact ⟨_, if_pos (by omega)⟩
  · have hmod : (b.size + buf.length + 1) % 2 ^ 64 = b.size + buf.length + 1 :=
      Nat.mod_eq_of_lt (by omega)
    obtain ⟨k, hk, hfirst⟩ := firstSize_eq hb
    obtain ⟨tmpSize, ht⟩ :
        ∃ tmpSize, grow (b.size + buf.length + 1) 65 (64 * 2 ^ k) = some tmpSize :=
      grow_ends hk h (by omega)
    have hle := (grow_spec hk ht).1
    have hresize : ∃ b₁, b.resize fresh tmpSize = some b₁ :=
      ⟨_, if_pos (by rw [length_text]; omega)⟩
    obtain ⟨b₁, hb₁⟩ := hresize
    obtain ⟨mem, rfl, -⟩ := resize_spec hb₁
    refine ⟨alloc (writeBytes mem b.size buf) (b.size + buf.length) tmpSize, ?_⟩
    simp only [hmod, hfirst, ht, hb₁, Option.bind_eq_bind, Option.bind_some]
    exact if_pos (by omega)

theorem sound_clear (hb : b.Sound) : b.clear.Sound := by
  cases b with
  | null => trivial
  | alloc mem cur endp =>
      obtain ⟨hk, hcur⟩ := hb
      exact ⟨hk, by omega⟩

/-- The terminator is behind the byte that follows the text. -/
theorem cStr_alloc {mem : Nat → UInt8} {cur endp : Nat} (h : (alloc mem cur endp).cStr = some b') :
    cur + 1 < endp ∧ b' = alloc (Function.update mem (cur + 1) 0) cur endp := by
  rw [cStr] at h
  split at h
  · cases h
    exact ⟨by assumption, rfl⟩
  · cases h

theorem text_cStr {mem : Nat → UInt8} {cur endp : Nat} {x : UInt8} :
    (alloc (Function.update mem (cur + 1) x) cur endp).text = (alloc mem cur endp).text :=
  readBytes_congr fun a _ ha => Function.update_of_ne (by omega) ..

/-- The text, and a NUL behind it. -/
def IsCString (appended : List UInt8) : Buffer → Prop
  | null => False
  | alloc mem cur _ => readBytes mem 0 cur = appended ∧ cur = appended.length ∧ mem cur = 0

end Buffer

/-! ## Runs -/

/-- The text of a buffer is what was appended. -/
structure Inv (s : State) : Prop where
  sound : s.buffer.Sound
  text : s.buffer.text = s.appended

theorem step_inv {s t : State} {e : Call} (hs : Inv s) (h : calls.step s e t) : Inv t := by
  cases h with
  | append happ =>
      obtain ⟨hsound, htext⟩ := Buffer.append_spec hs.sound happ
      exact ⟨hsound, by rw [htext, hs.text]⟩
  | clear =>
      refine ⟨Buffer.sound_clear hs.sound, ?_⟩
      cases s.buffer with
      | null => rfl
      | alloc mem cur endp => rfl
  | reset => exact ⟨trivial, rfl⟩
  | @cStr b hstr =>
      obtain ⟨hsound, htext⟩ := hs
      cases hb : s.buffer with
      | null =>
          rw [hb] at hstr hsound htext
          cases hstr
          exact ⟨hsound, htext⟩
      | alloc mem cur endp =>
          rw [hb] at hstr hsound htext
          obtain ⟨-, rfl⟩ := Buffer.cStr_alloc hstr
          exact ⟨hsound, Buffer.text_cStr.trans htext⟩

theorem run_inv {es : List Call} {s : State} (h : calls.Run es s) : Inv s := by
  refine h.invariant (fun s hs => ?_) fun s e t hs ht => step_inv hs ht
  subst hs
  exact ⟨trivial, rfl⟩

/-- The buffer after `append("A", 1)`, in memory full of the byte `x`. -/
def oneByte (x : UInt8) : Buffer :=
  .alloc (writeBytes (writeBytes (fun _ => x) 0 []) 0 [65]) 1 64

theorem run_one (x : UInt8) : calls.Run [.append [65]] ⟨oneByte x, [65]⟩ := by
  have happ : Buffer.null.append (fun _ => x) [65] = some (oneByte x) := rfl
  have hstep : Step ⟨.null, []⟩ (.append [65]) ⟨oneByte x, [65]⟩ := .append happ
  exact .next (.start rfl) hstep

/-- After any calls the text is what was appended since the last `clear` or `reset`, there is a
byte to spare, and `append` of what it can make room for returns: the loop ends, and no byte is
stored at or behind `end_`. -/
theorem append_grows {es : List Call} {s : State} (h : calls.Run es s) :
    s.buffer.text = s.appended ∧ s.buffer.size = s.appended.length ∧
    (s.buffer = .null ∧ s.buffer.size = 0 ∨
      (∃ k, s.buffer.capacity = 64 * 2 ^ k) ∧ s.buffer.size + 1 ≤ s.buffer.capacity) ∧
    ∀ fresh buf, s.buffer.size + buf.length + 1 ≤ 2 ^ 63 →
      ∃ b, s.buffer.append fresh buf = some b := by
  obtain ⟨hsound, htext⟩ := run_inv h
  refine ⟨htext, ?_, ?_, fun fresh buf hfits => Buffer.append_returns hsound hfits fresh⟩
  · rw [← htext, Buffer.length_text]
  · cases hb : s.buffer with
    | null => exact .inl ⟨rfl, rfl⟩
    | alloc mem cur endp =>
        rw [hb] at hsound
        obtain ⟨⟨k, -, hk⟩, hcur⟩ := hsound
        exact .inr ⟨⟨k, hk⟩, hcur⟩

theorem append_grows_one :
    (oneByte 0).text = [65] ∧ (oneByte 0).size = 1 ∧
    (oneByte 0 = .null ∧ (oneByte 0).size = 0 ∨
      (∃ k, (oneByte 0).capacity = 64 * 2 ^ k) ∧ (oneByte 0).size + 1 ≤ (oneByte 0).capacity) ∧
    ∀ fresh buf, (oneByte 0).size + buf.length + 1 ≤ 2 ^ 63 →
      ∃ b, (oneByte 0).append fresh buf = some b :=
  append_grows (run_one 0)

/-- `c_str` returns a C string exactly if the byte behind the text is NUL before the call, and is
not the last one. -/
theorem cStr_iff {es : List Call} {s : State} {mem : Nat → UInt8} {cur endp : Nat}
    (h : calls.Run es s) (hb : s.buffer = .alloc mem cur endp) :
    (∃ b, s.buffer.cStr = some b ∧ b.IsCString s.appended) ↔ mem cur = 0 ∧ cur + 1 < endp := by
  have htext := (run_inv h).text
  rw [hb] at htext ⊢
  constructor
  · rintro ⟨b, hstr, hc⟩
    obtain ⟨hlt, rfl⟩ := Buffer.cStr_alloc hstr
    obtain ⟨-, -, hnul⟩ := hc
    rw [Function.update_of_ne (Nat.ne_of_lt (Nat.lt_succ_self cur))] at hnul
    exact ⟨hnul, hlt⟩
  · rintro ⟨hnul, hlt⟩
    refine ⟨_, if_pos hlt, Buffer.text_cStr.trans htext, ?_, ?_⟩
    · rw [← htext, Buffer.length_text, Buffer.size]
    · rw [Function.update_of_ne (Nat.ne_of_lt (Nat.lt_succ_self cur))]
      exact hnul

theorem cStr_iff_one :
    (∃ b, (oneByte 0).cStr = some b ∧ b.IsCString [65]) ↔
      writeBytes (writeBytes (fun _ => 0) 0 []) 0 [65] 1 = 0 ∧ 1 + 1 < 64 :=
  cStr_iff (run_one 0) rfl

/-- In memory full of sevens the text is followed by a seven. -/
theorem cStr_open : ¬ ∀ es s, calls.Run es s → s.buffer ≠ .null →
    ∃ b, s.buffer.cStr = some b ∧ b.IsCString s.appended := by
  intro h
  obtain ⟨b, hstr, hc⟩ := h _ _ (run_one 7) (by simp [oneByte])
  cases hstr
  obtain ⟨-, -, hnul⟩ := hc
  exact absurd hnul (by decide)

end PBase.Text
