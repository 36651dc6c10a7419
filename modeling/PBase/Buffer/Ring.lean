/-
# `PBase.Buffer.Ring` — the refs of a buffer as a list

The logical content of a `ZBuffer` is a list of refs: the two of the simple form, without null
refs, or the slots `begin`, `begin + 1`, … of the ring, modulo its capacity.  The functions on a
buffer are, on that list:

* `append_ref` either puts the ref at the end or extends the last ref (`Snoc`);
* `popn` drops whole refs and shortens the next one (`popRefs`);
* `array_resize` copies the slots by their physical number, so the list survives if `begin` is a
  multiple of the new capacity (`list_grow`), and in general not otherwise.

The slot before the first one is read by `array_append_ref` when no ref is left.
-/
import PBase.Buffer.Model

namespace PBase.Buffer

open PBase.Lib

/-! ## Rings -/

namespace BlockRefArray

/-- The refs with the logical indices from `i` on, `n` of them. -/
def list (a : BlockRefArray) (i n : Nat) : List BlockRef := (List.range' i n).map a.refAt

/-- The number of slots is a power of two, and `n` of them are in use. -/
structure Ring (a : BlockRefArray) (n : Nat) : Prop where
  pow : ∃ j ≤ 32, a.capMask + 1 = 2 ^ j
  fits : n ≤ a.capMask + 1

variable {a : BlockRefArray} {n i k : Nat} {ref : BlockRef}

@[simp] theorem list_zero : a.list i 0 = [] := rfl

theorem list_succ : a.list i (n + 1) = a.refAt i :: a.list (i + 1) n := rfl

theorem list_concat : a.list i (n + 1) = a.list i n ++ [a.refAt (i + n)] := by
  rw [list, List.range'_1_concat, List.map_append, List.map_singleton]
  rfl

@[simp] theorem length_list : (a.list i n).length = n := by simp [list]

theorem mem_list {r : BlockRef} : r ∈ a.list i n ↔ ∃ k < n, a.refAt (i + k) = r := by
  simp only [list, List.mem_map, List.mem_range'_1]
  constructor
  · rintro ⟨m, hm, rfl⟩
    exact ⟨m - i, by omega, by rw [Nat.add_sub_of_le hm.1]⟩
  · rintro ⟨m, hm, rfl⟩
    exact ⟨i + m, by omega, rfl⟩

/-- The list depends on the slots in use. -/
theorem list_congr {b : BlockRefArray} {m : Nat} (h : ∀ k < n, b.refAt (m + k) = a.refAt (i + k)) :
    b.list m n = a.list i n := by
  induction n generalizing i m with
  | zero => rfl
  | succ n ih =>
      rw [list_concat, list_concat, ih fun k hk => h k (Nat.lt_succ_of_lt hk), h n n.lt_succ_self]

@[simp] theorem refAt_setRefAt : (a.setRefAt i ref).refAt i = ref := Function.update_self ..

namespace Ring

theorem mono (h : a.Ring n) (hk : k ≤ n) : a.Ring k := ⟨h.pow, hk.trans h.fits⟩

theorem dvd (h : a.Ring n) : a.capMask + 1 ∣ 2 ^ 32 := by
  obtain ⟨j, hj, hcap⟩ := h.pow
  rw [hcap]
  exact pow_dvd_pow 2 hj

theorem le (h : a.Ring n) : n ≤ 2 ^ 32 := h.fits.trans (Nat.le_of_dvd (by decide) h.dvd)

theorem slot_eq (h : a.Ring n) (i : Nat) : a.slot i = (a.begin + i) % (a.capMask + 1) := by
  obtain ⟨j, hj, hcap⟩ := h.pow
  have hmask : a.capMask = 2 ^ j - 1 := by omega
  rw [slot, hmask, Nat.and_two_pow_sub_one_eq_mod, ← hmask, hcap]
  exact Nat.mod_mod_of_dvd _ (pow_dvd_pow 2 hj)

theorem slot_congr (h : a.Ring n) (hik : i ≡ k [MOD 2 ^ 32]) : a.slot i = a.slot k := by
  rw [h.slot_eq, h.slot_eq]
  exact (hik.of_dvd h.dvd).add_left a.begin

/-- The index before the `n`-th, in `uint32_t`. -/
theorem slot_pred (h : a.Ring n) (hn : 0 < n) :
    a.slot ((n + (2 ^ 32 - 1)) % 2 ^ 32) = a.slot (n - 1) := by
  refine h.slot_congr ?_
  show (n + (2 ^ 32 - 1)) % 2 ^ 32 % 2 ^ 32 = (n - 1) % 2 ^ 32
  omega

theorem slot_inj (h : a.Ring n) (hi : i < a.capMask + 1) (hk : k < a.capMask + 1)
    (heq : a.slot i = a.slot k) : i = k := by
  rw [h.slot_eq, h.slot_eq] at heq
  exact (Nat.ModEq.add_left_cancel' a.begin heq).eq_of_lt_of_lt hi hk

theorem refAt_set (h : a.Ring n) (hi : i < a.capMask + 1) (hk : k < a.capMask + 1) :
    (a.setRefAt k ref).refAt i = if i = k then ref else a.refAt i := by
  show Function.update a.refs (a.slot k) ref (a.slot i) = _
  rcases eq_or_ne i k with rfl | hik
  · rw [Function.update_self, if_pos rfl]
  · rw [Function.update_of_ne fun heq => hik (h.slot_inj hi hk heq), if_neg hik]
    rfl

/-- The slot after those in use. -/
theorem list_set (h : a.Ring n) (hn : n < a.capMask + 1) :
    (a.setRefAt n ref).list 0 (n + 1) = a.list 0 n ++ [ref] := by
  rw [list_concat, list_congr (a := a) (m := 0) (i := 0) fun k hk => ?_, Nat.zero_add,
    h.refAt_set hn hn, if_pos rfl]
  rw [Nat.zero_add, h.refAt_set (hk.trans hn) hn, if_neg (Nat.ne_of_lt hk)]

/-- The slots after the one that is set. -/
theorem list_set_before (h : a.Ring (i + (n + 1))) :
    (a.setRefAt i ref).list (i + 1) n = a.list (i + 1) n := by
  have hfits := h.fits
  refine list_congr fun k hk => ?_
  rw [h.refAt_set (by omega) (by omega), if_neg (by omega)]

theorem set (h : a.Ring n) : (a.setRefAt k ref).Ring n := ⟨h.pow, h.fits⟩

/-- The last slot in use, as `array_append_ref` finds it. -/
theorem list_last (h : a.Ring (n + 1)) :
    a.list 0 (n + 1) = a.list 0 n ++ [a.refAt ((n + 1 + (2 ^ 32 - 1)) % 2 ^ 32)] := by
  rw [list_concat, Nat.zero_add, refAt, refAt, h.slot_pred n.succ_pos, Nat.add_sub_cancel]

theorem list_set_last (h : a.Ring (n + 1)) :
    (a.setRefAt ((n + 1 + (2 ^ 32 - 1)) % 2 ^ 32) ref).list 0 (n + 1) = a.list 0 n ++ [ref] := by
  rw [setRefAt, h.slot_pred n.succ_pos, Nat.add_sub_cancel]
  exact (h.mono n.le_succ).list_set h.fits

end Ring

/-! ### Growth -/

@[simp] theorem grow_begin {memory : Nat → BlockRef} {cap : Nat} :
    (a.grow memory cap).begin = a.begin := by rw [grow]

theorem grow_cap {memory : Nat → BlockRef} (hcap : a.capMask + 1 ≤ 2 ^ 31) :
    (a.grow memory ((a.capMask + 1) * 2 % 2 ^ 32)).capMask + 1 = (a.capMask + 1) * 2 := by
  show ((a.capMask + 1) * 2 % 2 ^ 32 + (2 ^ 32 - 1)) % 2 ^ 32 + 1 = _
  omega

/-- A ring below the largest size doubles. -/
theorem grow_ring {memory : Nat → BlockRef} (h : a.Ring n) (hcap : a.capMask + 1 ≤ 2 ^ 31) :
    (a.grow memory ((a.capMask + 1) * 2 % 2 ^ 32)).Ring n := by
  obtain ⟨j, hj, hpow⟩ := h.pow
  refine ⟨⟨j + 1, ?_, ?_⟩, ?_⟩
  · have hlt : 2 ^ j < 2 ^ 32 := hpow ▸ hcap.trans_lt (by decide)
    exact (Nat.pow_lt_pow_iff_right (by decide)).mp hlt
  · rw [grow_cap hcap, hpow, pow_succ]
  · rw [grow_cap hcap]
    have := h.fits
    omega

/-- The refs keep their places if the ring begins at a multiple of the new capacity. -/
theorem list_grow {memory : Nat → BlockRef} (h : a.Ring n) (hcap : a.capMask + 1 ≤ 2 ^ 31)
    (hbegin : (a.capMask + 1) * 2 ∣ a.begin) :
    (a.grow memory ((a.capMask + 1) * 2 % 2 ^ 32)).list 0 n = a.list 0 n := by
  refine list_congr fun k hk => ?_
  have hk : k < a.capMask + 1 := hk.trans_le h.fits
  have hnew : (a.grow memory ((a.capMask + 1) * 2 % 2 ^ 32)).slot (0 + k) = k := by
    obtain ⟨c, hc⟩ := hbegin
    rw [(grow_ring h hcap).slot_eq, grow_cap hcap, Nat.zero_add, grow_begin, hc,
      Nat.mul_add_mod, Nat.mod_eq_of_lt (by omega)]
  have hold : a.slot (0 + k) = k := by
    obtain ⟨c, hc⟩ := (Dvd.intro 2 rfl).trans hbegin
    rw [h.slot_eq, Nat.zero_add, hc, Nat.mul_add_mod, Nat.mod_eq_of_lt hk]
  rw [refAt, refAt, hnew, hold]
  exact if_pos (Nat.le_of_lt_succ hk)

/-! ### The beginning moves -/

theorem refAt_advance (h : a.Ring n) (nbytes m : Nat) :
    ({ a with nbytes := nbytes, begin := (a.begin + k) % 2 ^ 32 } : BlockRefArray).refAt m
      = a.refAt (k + m) := by
  have hring : ({ a with nbytes := nbytes, begin := (a.begin + k) % 2 ^ 32 }
    : BlockRefArray).Ring n := ⟨h.pow, h.fits⟩
  have hslot : ({ a with nbytes := nbytes, begin := (a.begin + k) % 2 ^ 32 }
      : BlockRefArray).slot m = a.slot (k + m) := by
    rw [hring.slot_eq, h.slot_eq]
    show ((a.begin + k) % 2 ^ 32 + m) % (a.capMask + 1) = _
    rw [← Nat.add_assoc]
    exact ((Nat.mod_modEq _ _).of_dvd h.dvd).add_right m
  rw [refAt, refAt, hslot]

/-- The ring without its first `k` refs. -/
theorem list_advance (h : a.Ring n) (nbytes : Nat) :
    ({ a with nbytes := nbytes, begin := (a.begin + k) % 2 ^ 32 } : BlockRefArray).list 0 n
      = a.list k n :=
  list_congr fun m _ => by rw [refAt_advance h, Nat.zero_add]

end BlockRefArray

/-! ## Lists of refs -/

/-- A ref is added to a list: at its end, or to its last ref. -/
inductive Snoc (l : List BlockRef) (ref : BlockRef) : List BlockRef → Prop
  | stored : Snoc l ref (l ++ [ref])
  | merged {t : List BlockRef} {last ref' : BlockRef} : l = t ++ [last] →
      last.merge ref = some ref' → Snoc l ref (t ++ [ref'])

/-- The refs without their first `count` bytes: whole refs go, and the next one is shortened. -/
def popRefs : List BlockRef → Nat → List BlockRef
  | [], _ => []
  | ref :: l, count =>
      if ref.length > count then ref.drop count :: l else popRefs l (count - ref.length)

/-- The blocks the refs hold. -/
def blocks (l : List BlockRef) : Multiset Nat := (l.map BlockRef.block : List Nat)

def lengths (l : List BlockRef) : Nat := (l.map BlockRef.length).sum

section Lists
variable {l l' : List BlockRef} {ref : BlockRef}

@[simp] theorem blocks_nil : blocks [] = 0 := rfl

@[simp] theorem blocks_cons : blocks (ref :: l) = ref.block ::ₘ blocks l := rfl

@[simp] theorem blocks_append : blocks (l ++ l') = blocks l + blocks l' := by
  simp [blocks]

theorem mem_blocks (h : ref ∈ l) : ref.block ∈ blocks l :=
  Multiset.mem_coe.mpr (List.mem_map_of_mem h)

@[simp] theorem lengths_nil : lengths [] = 0 := rfl

@[simp] theorem lengths_cons : lengths (ref :: l) = ref.length + lengths l := by simp [lengths]

@[simp] theorem lengths_append : lengths (l ++ l') = lengths l + lengths l' := by simp [lengths]

theorem Snoc.ne_nil (h : Snoc l ref l') : l' ≠ [] := by
  cases h with
  | stored => exact List.append_ne_nil_of_right_ne_nil _ (List.cons_ne_nil _ _)
  | merged => exact List.append_ne_nil_of_right_ne_nil _ (List.cons_ne_nil _ _)

theorem merge_eq {last ref' : BlockRef} (h : last.merge ref = some ref') :
    last.block = ref.block ∧ (last.offset + last.length) % 2 ^ 32 = ref.offset ∧
      ref' = { last with length := (last.length + ref.length) % 2 ^ 32 } := by
  rw [BlockRef.merge] at h
  split at h
  · rename_i hc
    cases h
    exact ⟨hc.1, hc.2, rfl⟩
  · cases h

end Lists

/-! ## Buffers -/

namespace ZBuffer

/-- The refs in logical order. -/
def list : ZBuffer → List BlockRef
  | two first second => [first, second].filter (·.block ≠ 0)
  | array refsNum a _ => a.list 0 refsNum

/-- The block a ring is in. -/
def base : ZBuffer → Multiset Nat
  | two _ _ => 0
  | array _ _ firstRef => {firstRef.block}

/-- The references a buffer holds. -/
def held (z : ZBuffer) : Multiset Nat := z.base + blocks z.list

def begin : ZBuffer → Nat
  | two _ _ => 0
  | array _ a _ => a.begin

/-- A null ref has no bytes, the second ref is not used before the first, and a ring has no null
refs. -/
def Shape : ZBuffer → Prop
  | two first second =>
      (first.block = 0 → first.length = 0 ∧ second.block = 0) ∧
        (second.block = 0 → second.length = 0)
  | array refsNum a _ => a.Ring refsNum ∧ refsNum < 2 ^ 32 ∧
      ∀ ref ∈ a.list 0 refsNum, ref.block ≠ 0

/-- The first of two refs is not empty; a ring knows its bytes. -/
def Sized : ZBuffer → Prop
  | two first _ => first.length = 0 → first.block = 0
  | array refsNum a _ => a.nbytes = lengths (a.list 0 refsNum)

/-- The capacity of a ring is a multiple of 32. -/
def Wide : ZBuffer → Prop
  | two _ _ => True
  | array _ a _ => 32 ∣ a.capMask + 1

/-- The ring was given storage inside a block. -/
def Slim : ZBuffer → Prop
  | two _ _ => True
  | array _ a _ => a.capMask + 1 < 2 ^ 28

/-- The ref is not merged into the slot before the first one of an empty ring. -/
def Open (z : ZBuffer) (ref : BlockRef) : Prop :=
  match z with
  | two _ _ => True
  | array refsNum a _ => refsNum = 0 → (a.refAt (2 ^ 32 - 1)).merge ref = none

/-- The slot before the first one of an empty ring is null. -/
def Sealed : ZBuffer → Prop
  | two _ _ => True
  | array refsNum a _ => refsNum = 0 → (a.refAt (2 ^ 32 - 1)).block = 0

variable {first second ref : BlockRef}

theorem list_none (h : first.block = 0) (h' : second.block = 0) : (two first second).list = [] := by
  simp [list, h, h']

theorem list_first (h : first.block ≠ 0) (h' : second.block = 0) :
    (two first second).list = [first] := by
  simp [list, h, h']

theorem list_both (h : first.block ≠ 0) (h' : second.block ≠ 0) :
    (two first second).list = [first, second] := by
  simp [list, h, h']

/-- The second ref, if it is not null. -/
theorem list_cons (first second : BlockRef) (h : first.block ≠ 0) :
    (two first second).list = first :: [second].filter (·.block ≠ 0) := by
  simp [list, h]

theorem list_two : (two first second).list
    = [first].filter (·.block ≠ 0) ++ [second].filter (·.block ≠ 0) := by
  rw [← List.filter_append]
  rfl

@[simp] theorem held_two : (two first second).held = blocks (two first second).list := zero_add _

theorem Shape.ne_zero {z : ZBuffer} (h : z.Shape) : ∀ ref ∈ z.list, ref.block ≠ 0 := by
  intro ref href
  cases z with
  | two first second => simpa using (List.mem_filter.mp href).2
  | array refsNum a firstRef => exact h.2.2 ref href

theorem Sealed.of_ne_nil {z : ZBuffer} (h : z.list ≠ []) : z.Sealed := by
  cases z with
  | two first second => exact trivial
  | array refsNum a firstRef =>
      intro h0
      subst h0
      exact absurd rfl h

theorem Open.of_ne_nil {z : ZBuffer} (h : z.list ≠ []) (ref : BlockRef) : z.Open ref := by
  cases z with
  | two first second => exact trivial
  | array refsNum a firstRef =>
      intro h0
      subst h0
      exact absurd rfl h

/-- A sealed ring is open for every proper ref. -/
theorem Sealed.isOpen {z : ZBuffer} (h : z.Sealed) (href : ref.block ≠ 0) : z.Open ref := by
  cases z with
  | two first second => exact trivial
  | array refsNum a firstRef =>
      intro h0
      rw [BlockRef.merge, if_neg fun heq => href (heq.1.symm.trans (h h0))]

end ZBuffer

end PBase.Buffer
