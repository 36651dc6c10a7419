/-
# `PBase.Lib.Binary` — polynomials over two elements, as numbers

In a ring of characteristic two a number stands for a polynomial: bit `i` is the coefficient of
`x ^ i` (`eval`).  If `x` is a root of the polynomial `p` of degree `d`, products and powers can be
taken modulo `p`, in `d + 1` bits (`eval_mul`, `eval_power`); so that a power of `x` with a huge
exponent is a short sum of small ones, and both can be computed.

`minimalPeriod_eq`: a linear map with `T ^ n = 1` moves every vector but zero in a cycle of length
`n`, if for each prime divisor `q` of `n` the map `T ^ (n / q) + 1` has an inverse.
-/
import Mathlib.Algebra.CharP.Two
import Mathlib.Algebra.BigOperators.Ring.Finset
import Mathlib.Dynamics.PeriodicPts.Lemmas
import Mathlib.Tactic

namespace PBase.Lib.Binary

/-! ## Values -/

section Values
variable {R : Type} [Ring R] (x : R)

/-- The value of the polynomial `n` at `x`. -/
def eval (n : Nat) : R := ∑ i ∈ Finset.range (n.log2 + 1), if n.testBit i then x ^ i else 0

/-- More bits do no harm. -/
theorem eval_eq_sum {n m : Nat} (h : n < 2 ^ m) :
    eval x n = ∑ i ∈ Finset.range m, if n.testBit i then x ^ i else 0 := by
  have hzero : ∀ i, n < 2 ^ i → (if n.testBit i then x ^ i else 0) = 0 := fun i hi => by
    rw [Nat.testBit_lt_two_pow hi]
    rfl
  have hlog : n < 2 ^ (n.log2 + 1) := Nat.lt_log2_self
  rcases Nat.le_total m (n.log2 + 1) with hle | hle
  · refine (Finset.sum_subset (Finset.range_mono hle) fun i _ hi => hzero i (h.trans_le ?_)).symm
    exact Nat.pow_le_pow_right Nat.two_pos (Nat.not_lt.mp fun hlt => hi (Finset.mem_range.mpr hlt))
  · refine Finset.sum_subset (Finset.range_mono hle) fun i _ hi => hzero i (hlog.trans_le ?_)
    exact Nat.pow_le_pow_right Nat.two_pos (Nat.not_lt.mp fun hlt => hi (Finset.mem_range.mpr hlt))

@[simp] theorem eval_zero : eval x 0 = 0 := by
  rw [eval_eq_sum x (Nat.two_pow_pos 0), Finset.sum_range_zero]

@[simp] theorem eval_one : eval x 1 = 1 := by
  rw [eval_eq_sum x (Nat.lt_two_pow_self (n := 1)), Finset.sum_range_one]
  exact pow_zero x

theorem eval_two_mul (n : Nat) : eval x (2 * n) = x * eval x n := by
  have hlt : n < 2 ^ (n.log2 + 1) := Nat.lt_log2_self
  have hdouble : 2 * n < 2 ^ (n.log2 + 1 + 1) := by
    rw [Nat.pow_succ']
    omega
  rw [eval_eq_sum x hdouble, eval, Finset.sum_range_succ', Finset.mul_sum]
  have hlow : (2 * n).testBit 0 = false := by simp
  rw [hlow, if_neg Bool.false_ne_true, add_zero]
  refine Finset.sum_congr rfl fun i _ => ?_
  have hbit : (2 * n).testBit (i + 1) = n.testBit i := by
    rw [Nat.testBit_succ, Nat.mul_div_cancel_left n Nat.two_pos]
  rw [hbit, pow_succ', mul_ite, mul_zero]

theorem eval_two_pow_mul (k n : Nat) : eval x (2 ^ k * n) = x ^ k * eval x n := by
  induction k with
  | zero => rw [Nat.pow_zero, Nat.one_mul, pow_zero, one_mul]
  | succ k ih => rw [Nat.pow_succ', Nat.mul_assoc, eval_two_mul, ih, pow_succ', mul_assoc]

theorem commute_eval (n : Nat) : Commute x (eval x n) := by
  refine Commute.sum_right _ _ _ fun i _ => ?_
  split
  · exact (Commute.refl x).pow_right i
  · exact Commute.zero_right x

/-- The polynomial `a` times a bit. -/
theorem eval_mul_bit (a b : Nat) : eval x (a * (b % 2)) = eval x a * eval x (b % 2) := by
  rcases Nat.mod_two_eq_zero_or_one b with h | h
  · rw [h, Nat.mul_zero, eval_zero, mul_zero]
  · rw [h, Nat.mul_one, eval_one, mul_one]

/-- The last `k + 1` bits: the top one, and the others. -/
theorem eval_mod_succ (b k : Nat) :
    eval x (b % 2 ^ (k + 1)) = eval x (b % 2 ^ k) + eval x ((b >>> k) % 2) * x ^ k := by
  have hlt : b % 2 ^ k < 2 ^ k := Nat.mod_lt b (Nat.two_pow_pos k)
  have hlt' : b % 2 ^ (k + 1) < 2 ^ (k + 1) := Nat.mod_lt b (Nat.two_pow_pos (k + 1))
  rw [eval_eq_sum x hlt', eval_eq_sum x hlt, Finset.sum_range_succ]
  congr 1
  · refine Finset.sum_congr rfl fun i hi => ?_
    have hi := Finset.mem_range.mp hi
    rw [Nat.testBit_mod_two_pow, Nat.testBit_mod_two_pow]
    simp [hi, Nat.lt_succ_of_lt hi]
  · rw [Nat.testBit_mod_two_pow]
    rcases Nat.mod_two_eq_zero_or_one (b >>> k) with h | h
    · have hbit : b.testBit k = false := by simp [Nat.testBit, Nat.one_and_eq_mod_two, h]
      simp [hbit, h]
    · have hbit : b.testBit k = true := by simp [Nat.testBit, Nat.one_and_eq_mod_two, h]
      simp [hbit, h]

variable [CharP R 2]

theorem eval_xor (a b : Nat) : eval x (a ^^^ b) = eval x a + eval x b := by
  obtain ⟨m, ha, hb⟩ : ∃ m, a < 2 ^ m ∧ b < 2 ^ m := by
    refine ⟨max (a.log2 + 1) (b.log2 + 1), ?_, ?_⟩
    · exact Nat.lt_log2_self.trans_le (Nat.pow_le_pow_right Nat.two_pos (Nat.le_max_left _ _))
    · exact Nat.lt_log2_self.trans_le (Nat.pow_le_pow_right Nat.two_pos (Nat.le_max_right _ _))
  rw [eval_eq_sum x (Nat.xor_lt_two_pow ha hb), eval_eq_sum x ha, eval_eq_sum x hb,
      ← Finset.sum_add_distrib]
  refine Finset.sum_congr rfl fun i _ => ?_
  rw [Nat.testBit_xor]
  cases a.testBit i <;> cases b.testBit i <;> simp [CharTwo.add_self_eq_zero]

end Values

/-! ## Products and powers -/

section Modulus
variable (p d : Nat)

/-- `x * c`, modulo a polynomial `p` of degree `d`.  (The functions of `Nat` are named here and
below, not written as operators: the kernel computes with them.) -/
def timesX (c : Nat) : Nat := Nat.xor (Nat.mul 2 c)
    (Nat.mul p (Nat.mod (Nat.shiftRight (Nat.mul 2 c) d) 2))

/-- Horner's scheme over the last `k` bits of `b`. -/
def mulFrom (a b : Nat) : Nat → Nat → Nat
  | 0, c => c
  | k + 1, c => mulFrom a b k (Nat.xor (timesX p d c) (Nat.mul a (Nat.mod (Nat.shiftRight b k) 2)))

def mul (a b : Nat) : Nat := mulFrom p d a b (b.log2 + 1) 0

/-- Square and multiply, over the last `k` bits of `e`. -/
def powerFrom (e : Nat) : Nat → Nat → Nat
  | 0, c => c
  | k + 1, c =>
      powerFrom e k (if (e >>> k) % 2 = 1 then timesX p d (mul p d c c) else mul p d c c)

/-- `x ^ e` -/
def power (e : Nat) : Nat := powerFrom p d e (e.log2 + 1) 1

variable {p d} {R : Type} [Ring R] [CharP R 2] {x : R} (hp : eval x p = 0)
include hp

theorem eval_timesX (c : Nat) : eval x (timesX p d c) = x * eval x c := by
  show eval x (2 * c ^^^ p * (((2 * c) >>> d) % 2)) = _
  rw [eval_xor, eval_mul_bit, hp, zero_mul, add_zero, eval_two_mul]

theorem eval_mulFrom (a b k c : Nat) :
    eval x (mulFrom p d a b k c) = x ^ k * eval x c + eval x a * eval x (b % 2 ^ k) := by
  induction k generalizing c with
  | zero =>
      rw [mulFrom, pow_zero, one_mul, Nat.pow_zero, Nat.mod_one, eval_zero, mul_zero, add_zero]
  | succ k ih =>
      have hcomm : x ^ k * (eval x a * eval x ((b >>> k) % 2)) =
          eval x a * (eval x ((b >>> k) % 2) * x ^ k) := by
        rcases Nat.mod_two_eq_zero_or_one (b >>> k) with h | h
        · rw [h, eval_zero, mul_zero, zero_mul, mul_zero, mul_zero]
        · rw [h, eval_one, mul_one, one_mul]
          exact ((commute_eval x a).pow_left k).eq
      rw [mulFrom, ih]
      show x ^ k * eval x (timesX p d c ^^^ a * ((b >>> k) % 2)) + _ = _
      rw [eval_xor, eval_timesX hp, eval_mul_bit, mul_add, hcomm, eval_mod_succ, mul_add, pow_succ,
          mul_assoc, add_assoc,
        add_comm (eval x a * _) (eval x a * _)]

theorem eval_mul (a b : Nat) : eval x (mul p d a b) = eval x a * eval x b := by
  have hb : b % 2 ^ (b.log2 + 1) = b := Nat.mod_eq_of_lt Nat.lt_log2_self
  rw [mul, eval_mulFrom hp, eval_zero, mul_zero, zero_add, hb]

theorem eval_powerFrom (e k c : Nat) :
    eval x (powerFrom p d e k c) = eval x c ^ 2 ^ k * x ^ (e % 2 ^ k) := by
  induction k generalizing c with
  | zero => rw [powerFrom, Nat.pow_zero, Nat.mod_one, pow_one, pow_zero, mul_one]
  | succ k ih =>
      have hbit : e % 2 ^ (k + 1) = e % 2 ^ k + 2 ^ k * ((e >>> k) % 2) := by
        rw [Nat.pow_succ, Nat.mod_mul, Nat.shiftRight_eq_div_pow]
      have hsquare : (eval x c * eval x c) ^ 2 ^ k = eval x c ^ 2 ^ (k + 1) := by
        rw [← pow_two, ← pow_mul, Nat.pow_succ']
      rw [powerFrom, ih, hbit]
      split
      · rename_i hone
        have hcomm : Commute x (eval x c * eval x c) :=
            (commute_eval x c).mul_right (commute_eval x c)
        rw [eval_timesX hp, eval_mul hp, hcomm.mul_pow, hsquare, hone, Nat.mul_one,
            add_comm (e % 2 ^ k), pow_add x, ← mul_assoc,
          ((commute_eval x c).pow_pow (2 ^ k) (2 ^ (k + 1))).eq]
      · rename_i hone
        have hzero : (e >>> k) % 2 = 0 := by omega
        rw [eval_mul hp, hsquare, hzero, Nat.mul_zero, Nat.add_zero (e % 2 ^ k)]

/-- A power of `x` is what `power` computes. -/
theorem eval_power (e : Nat) : eval x (power p d e) = x ^ e := by
  have he : e % 2 ^ (e.log2 + 1) = e := Nat.mod_eq_of_lt Nat.lt_log2_self
  rw [power, eval_powerFrom hp, eval_one, one_pow, one_mul, he]

/-- An inverse of `x ^ e + 1`, from one modulo `p`. -/
theorem eval_inverse {g e : Nat} (h : mul p d g (power p d e ^^^ 1) = 1) :
    eval x g * (x ^ e + 1) = 1 := by
  have hmul := eval_mul hp (d := d) g (power p d e ^^^ 1)
  rw [h, eval_one, eval_xor, eval_power hp, eval_one] at hmul
  exact hmul.symm

end Modulus

/-! ## Vectors -/

section Vectors
variable {V : Type} [AddCommGroup V]

/-- Horner's scheme at the vector `v`, over the last `k` bits of `n`. -/
def horner (T : V → V) (n : Nat) (v : V) : Nat → V → V
  | 0, c => c
  | k + 1, c => horner T n v k (if (n >>> k) % 2 = 1 then T c + v else T c)

theorem horner_eq (T : AddMonoid.End V) (n : Nat) (v : V) (k : Nat) (c : V) :
    horner T n v k c = (T ^ k) c + eval T (n % 2 ^ k) v := by
  induction k generalizing c with
  | zero =>
      rw [horner, Nat.pow_zero, Nat.mod_one, eval_zero, pow_zero]
      exact (add_zero c).symm
  | succ k ih =>
      have hbit : (if (n >>> k) % 2 = 1 then T c + v else T c) = T c +
          eval T ((n >>> k) % 2) v := by
        rcases Nat.mod_two_eq_zero_or_one (n >>> k) with h | h
        · rw [h, if_neg Nat.zero_ne_one, eval_zero]
          exact (add_zero _).symm
        · rw [h, if_pos rfl, eval_one]
          rfl
      have hcomm : (T ^ k) (eval T ((n >>> k) % 2) v) = (eval T ((n >>> k) % 2) * T ^ k) v :=
        DFunLike.congr_fun ((commute_eval T _).pow_left k).eq v
      rw [horner, ih, hbit, map_add, hcomm, eval_mod_succ, add_comm (eval T (n % 2 ^ k)), add_assoc]
      rfl

end Vectors

/-! ## Cycles -/

section Cycles
variable {V : Type} [AddCommGroup V] [CharP (AddMonoid.End V) 2] {T : AddMonoid.End V} {n : Nat}
  {v : V}

/-- A vector that comes back early is zero. -/
theorem eq_zero_of_pow_apply {e : Nat} {G : AddMonoid.End V} (h : G * (T ^ e + 1) = 1)
    (hv : (T ^ e) v = v) :
    v = 0 := by
  have htwo : v + v = 0 := DFunLike.congr_fun (CharTwo.add_self_eq_zero (1 : AddMonoid.End V)) v
  have happly : G ((T ^ e) v + v) = v := DFunLike.congr_fun h v
  rw [hv, htwo, map_zero] at happly
  exact happly.symm

theorem minimalPeriod_eq (hone : T ^ n = 1)
    (hprime : ∀ q, q.Prime → q ∣ n → ∃ G, G * (T ^ (n / q) + 1) = 1) (hv : v ≠ 0) :
    Function.minimalPeriod T v = n := by
  have hperiodic : ∀ e, (T ^ e) v = v ↔ Function.minimalPeriod T v ∣ e := fun e => by
    rw [AddMonoid.End.coe_pow]
    exact Function.isPeriodicPt_iff_minimalPeriod_dvd
  have hdvd : Function.minimalPeriod T v ∣ n := (hperiodic n).mp (by rw [hone]; rfl)
  obtain ⟨c, hc⟩ := hdvd
  by_contra hne
  have hc1 : c ≠ 1 := fun h1 => hne (by rw [hc, h1, Nat.mul_one])
  obtain ⟨q, hq, k, rfl⟩ := Nat.exists_prime_and_dvd hc1
  -- then it divides `n / q`, too
  have hquot : n / q = Function.minimalPeriod T v * k := by
    rw [hc]
    exact Nat.div_eq_of_eq_mul_right hq.pos (Nat.mul_left_comm _ _ _)
  obtain ⟨G, hG⟩ := hprime q hq (hc ▸ Dvd.intro_left (Function.minimalPeriod T v * k) (by ring))
  exact hv (eq_zero_of_pow_apply hG ((hperiodic _).mpr (hquot ▸ Nat.dvd_mul_right _ _)))

end Cycles

end PBase.Lib.Binary
