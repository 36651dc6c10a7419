/-
# `PBase.Rand.Jump` — `jump()` is 2^64 calls of `next()`

The generators are a vector space over two elements: the words are added by `^^^`, and `next()` is a
linear map, `step`.  `jump()` adds up some of the next 128 generators, so it is a polynomial in
`step`; `modulus` is another one, and it is zero (`eval_modulus`).  Modulo `modulus`, the power
`x ^ (2 ^ 64)` is the polynomial of `jump()` (`jump_eq`).
-/
import Mathlib.Data.Nat.Bitwise
import PBase.Lib.Binary
import PBase.Rand.Uniform

namespace PBase.Rand

open PBase.Lib

/-! ## The space of generators -/

deriving instance DecidableEq for FastRand

@[ext] theorem FastRand.ext {a b : FastRand} (h0 : a.s0 = b.s0) (h1 : a.s1 = b.s1) : a = b := by
  cases a
  cases b
  cases h0
  cases h1
  rfl

instance : Add FastRand := ⟨fun a b => ⟨a.s0 ^^^ b.s0, a.s1 ^^^ b.s1⟩⟩

instance : Zero FastRand := ⟨⟨0, 0⟩⟩

instance : Neg FastRand := ⟨id⟩

section
variable (a b : FastRand)

@[simp] theorem add_s0 : (a + b).s0 = a.s0 ^^^ b.s0 := rfl

@[simp] theorem add_s1 : (a + b).s1 = a.s1 ^^^ b.s1 := rfl

@[simp] theorem zero_s0 : (0 : FastRand).s0 = 0 := rfl

@[simp] theorem zero_s1 : (0 : FastRand).s1 = 0 := rfl

theorem add_self : a + a = 0 := FastRand.ext UInt64.xor_self UInt64.xor_self

end

instance : AddCommGroup FastRand where
  add_assoc a b c := FastRand.ext (UInt64.xor_assoc ..) (UInt64.xor_assoc ..)
  zero_add a := FastRand.ext UInt64.zero_xor UInt64.zero_xor
  add_zero a := FastRand.ext UInt64.xor_zero UInt64.xor_zero
  add_comm a b := FastRand.ext (UInt64.xor_comm ..) (UInt64.xor_comm ..)
  neg_add_cancel := add_self
  nsmul := nsmulRec
  zsmul := zsmulRec

instance : CharP (AddMonoid.End FastRand) 2 := by
  refine CharTwo.of_one_ne_zero_of_two_eq_zero (fun h => ?_) (AddMonoidHom.ext fun r => ?_)
  · exact absurd (DFunLike.congr_fun h ⟨1, 0⟩) (by decide)
  · rw [← one_add_one_eq_two]
    exact add_self r

/-! ## `next()` is linear -/

theorem xor_left_comm (a b c : UInt64) : a ^^^ (b ^^^ c) = b ^^^ (a ^^^ c) := by ac_rfl

/-- A rotation is two shifts that do not meet. -/
theorem rotl_xor {k : UInt64} (hk : k = 55 ∨ k = 36) (a b : UInt64) :
    rotl (a ^^^ b) k = rotl a k ^^^ rotl b k := by
  have hrotl : ∀ x : UInt64, rotl x k = (x <<< k) ^^^ (x >>> (64 - k)) := fun x => by
    refine UInt64.toBitVec_inj.mp (BitVec.eq_of_getLsbD_eq fun i hi => ?_)
    rcases hk with rfl | rfl
    · simp [rotl]
      grind
    · simp [rotl]
      grind
  simp only [hrotl, UInt64.shiftLeft_xor, UInt64.shiftRight_xor, UInt64.xor_assoc, xor_left_comm]

/-- `next()`, as a linear map. -/
def step : AddMonoid.End FastRand where
  toFun r := r.next.2
  map_zero' := by decide
  map_add' a b := by
    refine FastRand.ext ?_ ?_
    · simp only [FastRand.next, add_s0, add_s1, rotl_xor (.inl rfl), UInt64.shiftLeft_xor,
        UInt64.xor_assoc,
        xor_left_comm]
    · simp only [FastRand.next, add_s0, add_s1, rotl_xor (.inr rfl), UInt64.xor_assoc,
        xor_left_comm]

theorem step_s0 (r : FastRand) : (step r).s0 = rotl r.s0 55 ^^^ (r.s1 ^^^ r.s0) ^^^
    ((r.s1 ^^^ r.s0) <<< 14) := rfl

theorem step_pow_apply (n : Nat) (r : FastRand) : (step ^ n) r = r.after n := by
  rw [AddMonoid.End.coe_pow]
  rfl

/-! ## The equation of `next()` -/

/-- The polynomial with the root `step`. -/
def modulus : Nat := 0x100653ced7f29f88a5fd66762f0e1c001

/-- `rotl`, on numbers. -/
def rotlCode (x k : Nat) : Nat :=
  Nat.mod (Nat.lor (Nat.shiftLeft x k) (Nat.shiftRight x (Nat.sub 64 k))) 0x10000000000000000

def s0Code (s0 s1 : Nat) : Nat :=
  Nat.xor (Nat.xor (rotlCode s0 55) (Nat.xor s1 s0))
  (Nat.mod (Nat.shiftLeft (Nat.xor s1 s0) 14) 0x10000000000000000)

def s1Code (s0 s1 : Nat) : Nat := rotlCode (Nat.xor s1 s0) 36

/-- `horner` on numbers, for the vector of the words `v0` and `v1`. -/
def hornerCode (n v0 v1 : Nat) : Nat → Nat → Nat → Nat × Nat
  | 0, a0, a1 => (a0, a1)
  | k + 1, a0, a1 =>
      hornerCode n v0 v1 k (Nat.xor (s0Code a0 a1) (Nat.mul v0 (Nat.mod (Nat.shiftRight n k) 2)))
        (Nat.xor (s1Code a0 a1) (Nat.mul v1 (Nat.mod (Nat.shiftRight n k) 2)))

theorem rotlCode_eq {k : UInt64} (hk : k = 55 ∨ k = 36) (x : UInt64) :
    rotlCode x.toNat k.toNat = (rotl x k).toNat := by
  have hshift : ∀ i, x.toNat >>> i < 2 ^ 64 := fun i => by
    rw [Nat.shiftRight_eq_div_pow]
    exact (Nat.div_le_self _ _).trans_lt x.toNat_lt
  rcases hk with rfl | rfl
  · show (x.toNat <<< 55 ||| x.toNat >>> 9) % 2 ^ 64 = _
    rw [Nat.or_mod_two_pow, Nat.mod_eq_of_lt (hshift 9)]
    rfl
  · show (x.toNat <<< 36 ||| x.toNat >>> 28) % 2 ^ 64 = _
    rw [Nat.or_mod_two_pow, Nat.mod_eq_of_lt (hshift 28)]
    rfl

theorem s0Code_eq (r : FastRand) : s0Code r.s0.toNat r.s1.toNat = (step r).s0.toNat := by
  have hrotl : rotlCode r.s0.toNat 55 = (rotl r.s0 55).toNat := rotlCode_eq (.inl rfl) r.s0
  have hshift : (14 : UInt64).toNat % 64 = 14 := rfl
  rw [s0Code, hrotl, step_s0, UInt64.toNat_xor, UInt64.toNat_xor, UInt64.toNat_shiftLeft,
      UInt64.toNat_xor, hshift]
  rfl

theorem s1Code_eq (r : FastRand) : s1Code r.s0.toNat r.s1.toNat = (step r).s1.toNat :=
  rotlCode_eq (.inr rfl) (r.s1 ^^^ r.s0)

theorem hornerCode_eq (n : Nat) (v : FastRand) (k : Nat) (c : FastRand) :
    hornerCode n v.s0.toNat v.s1.toNat k c.s0.toNat c.s1.toNat =
      ((Binary.horner step n v k c).s0.toNat, (Binary.horner step n v k c).s1.toNat) := by
  induction k generalizing c with
  | zero => rfl
  | succ k ih =>
      have hword : ∀ a w : UInt64,
          Nat.xor a.toNat (Nat.mul w.toNat (Nat.mod (Nat.shiftRight n k) 2)) =
          (if (n >>> k) % 2 = 1 then a ^^^ w else a).toNat := fun a w => by
        show a.toNat ^^^ w.toNat * ((n >>> k) % 2) = _
        rcases Nat.mod_two_eq_zero_or_one (n >>> k) with h | h
        · rw [h, if_neg Nat.zero_ne_one, Nat.mul_zero, Nat.xor_zero]
        · rw [h, if_pos rfl, Nat.mul_one, UInt64.toNat_xor]
      rw [hornerCode, s0Code_eq, s1Code_eq, hword, hword, Binary.horner, ← ih]
      split <;> rfl

/-- What holds of the 64 bits and of sums holds of every word. -/
theorem word_induction {P : UInt64 → Prop} (zero : P 0) (xor : ∀ a b, P a → P b → P (a ^^^ b))
    (bit : ∀ i < 64, P (UInt64.ofNat (2 ^ i))) (x : UInt64) : P x := by
  have hlow : ∀ k ≤ 64, ∀ n < 2 ^ k, P (UInt64.ofNat n) := fun k hk => by
    induction k with
    | zero =>
        intro n hn
        rwa [Nat.lt_one_iff.mp hn]
    | succ k ih =>
        intro n hn
        have ih := ih (Nat.le_of_succ_le hk)
        rcases Nat.lt_or_ge n (2 ^ k) with hlt | hge
        · exact ih n hlt
        · have hdiv : n / 2 ^ k = 1 := by
            rw [Nat.div_eq_iff (Nat.two_pow_pos k)]
            omega
          have hrest : 2 ^ k ^^^ n < 2 ^ k := by
            refine (Nat.div_eq_zero_iff_lt (Nat.two_pow_pos k)).mp ?_
            rw [Nat.xor_div_two_pow, Nat.div_self (Nat.two_pow_pos k), hdiv, Nat.xor_self]
          have hsplit : n = 2 ^ k ^^^ (2 ^ k ^^^ n) := by
            rw [← Nat.xor_assoc, Nat.xor_self, Nat.zero_xor]
          rw [hsplit, UInt64.ofNat_xor]
          exact xor _ _ (bit k hk) (ih _ hrest)
  rw [← UInt64.ofNat_toNat (x := x)]
  exact hlow 64 le_rfl _ x.toNat_lt

/-- `modulus` is zero at the generators of a single bit. -/
theorem hornerCode_modulus : ∀ i < 64, hornerCode modulus (2 ^ i) 0 129 0 0 = (0, 0) ∧
    hornerCode modulus 0 (2 ^ i) 129 0 0 = (0, 0) := by
  decide +kernel

theorem eval_modulus : Binary.eval step modulus = 0 := by
  have hlt : modulus < 2 ^ 129 := by decide
  have hvanish : ∀ v : FastRand, hornerCode modulus v.s0.toNat v.s1.toNat 129 0 0 = (0, 0) →
      Binary.eval step modulus v = 0 := fun v hv => by
    have heq := (hornerCode_eq modulus v 129 0).symm.trans hv
    rw [Binary.horner_eq, map_zero, zero_add, Nat.mod_eq_of_lt hlt, Prod.mk.injEq] at heq
    exact FastRand.ext (UInt64.toNat_inj.mp heq.1) (UInt64.toNat_inj.mp heq.2)
  have hbit : ∀ i < 64, (UInt64.ofNat (2 ^ i)).toNat = 2 ^ i := fun i hi => by
    rw [UInt64.toNat_ofNat', Nat.mod_eq_of_lt (Nat.pow_lt_pow_right Nat.one_lt_two hi)]
  have hs0 : ∀ x, Binary.eval step modulus ⟨x, 0⟩ = 0 := by
    refine word_induction (map_zero _) (fun a b ha hb => ?_) fun i hi => hvanish ⟨_, 0⟩ ?_
    · have hsum : (⟨a ^^^ b, 0⟩ : FastRand) = ⟨a, 0⟩ + ⟨b, 0⟩ :=
        FastRand.ext rfl UInt64.xor_self.symm
      rw [hsum, map_add, ha, hb, add_zero]
    · rw [hbit i hi]
      exact (hornerCode_modulus i hi).1
  have hs1 : ∀ x, Binary.eval step modulus ⟨0, x⟩ = 0 := by
    refine word_induction (map_zero _) (fun a b ha hb => ?_) fun i hi => hvanish ⟨0, _⟩ ?_
    · have hsum : (⟨0, a ^^^ b⟩ : FastRand) = ⟨0, a⟩ + ⟨0, b⟩ :=
        FastRand.ext UInt64.xor_self.symm rfl
      rw [hsum, map_add, ha, hb, add_zero]
    · rw [hbit i hi]
      exact (hornerCode_modulus i hi).2
  refine AddMonoidHom.ext fun r => ?_
  have hsum : r = ⟨r.s0, 0⟩ + ⟨0, r.s1⟩ := FastRand.ext UInt64.xor_zero.symm UInt64.zero_xor.symm
  have hadd := map_add (Binary.eval step modulus) ⟨r.s0, 0⟩ ⟨0, r.s1⟩
  rw [hs0, hs1, add_zero, ← hsum] at hadd
  exact hadd

/-! ## The jump -/

/-- `JUMP`, as a polynomial. -/
def jumpCode : Nat := 0xd86b048b86aa9922beac0467eba5facb

/-- The test of bit `b`. -/
theorem and_bit {word : UInt64} {b : Nat} (hb : b < 64) :
    word &&& ((1 : UInt64) <<< b.toUInt64) ≠ 0 ↔ (word.toNat >>> b) % 2 = 1 := by
  have hpow : ((1 : UInt64) <<< b.toUInt64).toNat = 2 ^ b := by
    have hb' : b.toUInt64.toNat % 64 = b := by
      rw [UInt64.toNat_ofNat', Nat.mod_eq_of_lt (hb.trans (by decide)), Nat.mod_eq_of_lt hb]
    rw [UInt64.toNat_shiftLeft, hb', UInt64.toNat_one, Nat.one_shiftLeft,
      Nat.mod_eq_of_lt (Nat.pow_lt_pow_right Nat.one_lt_two hb)]
  have hbit : (word.toNat >>> b) % 2 = (word.toNat.testBit b).toNat := by
    rw [Nat.toNat_testBit, Nat.shiftRight_eq_div_pow]
  rw [ne_eq, ← UInt64.toNat_inj, UInt64.toNat_and, hpow, Nat.and_two_pow, hbit]
  cases word.toNat.testBit b <;> simp

/-- `k` turns of the inner loop -/
theorem foldl_jumpBit (word : UInt64) (a r : FastRand) {k : Nat} (hk : k ≤ 64) :
    (List.range k).foldl (jumpBit word) (a, r) =
      (a + Binary.eval step (word.toNat % 2 ^ k) r, (step ^ k) r) := by
  induction k with
  | zero =>
      rw [Nat.pow_zero, Nat.mod_one, Binary.eval_zero]
      exact Prod.ext (add_zero a).symm rfl
  | succ k ih =>
      have hnext : ((step ^ k) r).next.2 = (step ^ (k + 1)) r := by
        rw [pow_succ']
        rfl
      rw [List.range_succ, List.foldl_concat, ih (Nat.le_of_succ_le hk), jumpBit, hnext,
          Binary.eval_mod_succ]
      refine Prod.ext ?_ rfl
      split
      · rename_i h
        rw [(and_bit hk).mp h, Binary.eval_one, one_mul]
        exact add_assoc a _ _
      · rename_i h
        have hzero : (word.toNat >>> k) % 2 = 0 := by
          have hodd := (and_bit hk).not.mp h
          omega
        rw [hzero, Binary.eval_zero, zero_mul, add_zero]

theorem jumpWord_eq (a r : FastRand) (word : UInt64) :
    jumpWord (a, r) word = (a + Binary.eval step word.toNat r, (step ^ 64) r) := by
  have hfold := foldl_jumpBit word a r (le_refl 64)
  rwa [Nat.mod_eq_of_lt word.toNat_lt] at hfold

/-- `jump()` is the polynomial of its table. -/
theorem jump_eq_eval (r : FastRand) : r.jump = Binary.eval step jumpCode r := by
  have hcode : jumpCode = 0xbeac0467eba5facb ^^^ 2 ^ 64 * 0xd86b048b86aa9922 := by decide
  rw [hcode, Binary.eval_xor, Binary.eval_two_pow_mul,
      ((Binary.commute_eval step _).pow_left 64).eq]
  simp only [FastRand.jump, jumpWords, List.foldl_cons, List.foldl_nil, jumpWord_eq]
  exact congrArg (· + _) (zero_add _)

theorem power_modulus : Binary.power modulus 128 (2 ^ 64) = jumpCode := by decide +kernel

/-- One `jump()` is 2^64 calls of `next()`. -/
theorem jump_eq (r : FastRand) : r.jump = r.after (2 ^ 64) := by
  rw [jump_eq_eval, ← power_modulus, Binary.eval_power eval_modulus, step_pow_apply]

end PBase.Rand
