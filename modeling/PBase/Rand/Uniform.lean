/-
# `PBase.Rand.Uniform` — every result has the same number of draws

`accept_eq_inr`: the draws with the result `k` are the `range` values from `k * range` on.  All
the stretches fit below `2^64`, since `range` is the quotient of `2^64 - 1`; the draws behind
them are the remainder and one more, `2^64 - 1` itself included.  A run of `fast_rand` is a draw
with a result, behind draws without one (`run_fastRand_iff`).
-/
import PBase.Rand.Model

namespace PBase.Rand

open PBase.Lib

/-! ## Counting 64-bit values -/

/-- The 64-bit values of a stretch are as many as its numbers. -/
theorem ncard_stretch {a b : Nat} (hb : b ≤ 2 ^ 64) :
    {v : UInt64 | a ≤ v.toNat ∧ v.toNat < b}.ncard = b - a := by
  have himage : UInt64.toNat '' {v : UInt64 | a ≤ v.toNat ∧ v.toNat < b} = Finset.Ico a b := by
    ext n
    simp only [Set.mem_image, Set.mem_ofPred_eq, Finset.coe_Ico, Set.mem_Ico]
    constructor
    · rintro ⟨v, hv, rfl⟩
      exact hv
    · intro hn
      have hlt : n < 2 ^ 64 := hn.2.trans_le hb
      have htoNat : (UInt64.ofNat n).toNat = n := by
        rw [UInt64.toNat_ofNat', Nat.mod_eq_of_lt hlt]
      exact ⟨UInt64.ofNat n, by rwa [htoNat], htoNat⟩
  have hinj : Function.Injective UInt64.toNat := fun _ _ h => UInt64.toNat_inj.mp h
  rw [← Set.ncard_image_of_injective _ hinj, himage, Set.ncard_coe_finset, Nat.card_Ico]

/-! ## The stretches -/

section Accept
variable {randMax v k : UInt64}

theorem range_toNat : (range randMax).toNat = (2 ^ 64 - 1) / randMax.toNat := by
  rw [range, UInt64.toNat_div]
  rfl

/-- No stretch is empty. -/
theorem range_pos (h : randMax ≠ 0) : 0 < (range randMax).toNat := by
  have hpos : 0 < randMax.toNat := by
    rw [Nat.pos_iff_ne_zero]
    exact fun h0 => h (UInt64.toNat_inj.mp h0)
  rw [range_toNat]
  exact Nat.div_pos (Nat.le_sub_one_of_lt randMax.toNat_lt) hpos

/-- The stretches end before the last value. -/
theorem stretches_lt (randMax : UInt64) : randMax.toNat * (range randMax).toNat < 2 ^ 64 := by
  have hle := Nat.mul_div_le (2 ^ 64 - 1) randMax.toNat
  rw [range_toNat]
  omega

theorem accept_eq_inl (h : randMax ≠ 0) :
    accept randMax v = .inl () ↔ randMax.toNat * (range randMax).toNat ≤ v.toNat := by
  rw [← Nat.le_div_iff_mul_le (range_pos h), ← UInt64.toNat_div, ← UInt64.le_iff_toNat_le]
  constructor
  · intro ha
    by_contra hlt
    rw [accept, if_neg hlt] at ha
    cases ha
  · intro hle
    rw [accept, if_pos hle]

theorem accept_eq_inr (h : randMax ≠ 0) (hk : k < randMax) :
    accept randMax v = .inr k ↔ k.toNat * (range randMax).toNat ≤ v.toNat ∧
      v.toNat < (k.toNat + 1) * (range randMax).toNat := by
  have hpos := range_pos h
  have hdiv : v / range randMax = k ↔ k.toNat * (range randMax).toNat ≤ v.toNat ∧
      v.toNat < (k.toNat + 1) * (range randMax).toNat := by
    rw [← UInt64.toNat_inj, UInt64.toNat_div, Nat.div_eq_iff hpos, Nat.succ_mul]
    omega
  rw [← hdiv]
  constructor
  · intro ha
    rw [accept] at ha
    split at ha
    · cases ha
    · exact Sum.inr.inj ha
  · intro hv
    rw [accept, hv, if_neg (UInt64.not_le.mpr hk)]

theorem lt_of_accept (h : accept randMax v = .inr k) : k < randMax := by
  rw [accept] at h
  split at h
  · cases h
  · cases h
    exact UInt64.not_le.mp ‹_›

end Accept

/-! ## Runs -/

/-- The generator after `n` calls of `next()`. -/
def FastRand.after (r : FastRand) (n : Nat) : FastRand := (fun r => r.next.2)^[n] r

/-- From the generator `r`, draw number `n` is the first that is accepted, and its result is `k`. -/
def FirstAccepted (randMax : UInt64) (r : FastRand) (n : Nat) (k : UInt64) : Prop :=
  (∀ i < n, accept randMax (r.after i).next.1 = .inl ()) ∧
  accept randMax (r.after n).next.1 = .inr k

section Run
variable {randMax k : UInt64} {r r' : FastRand} {fuel n : Nat}

theorem firstAccepted_zero :
    FirstAccepted randMax r 0 k ↔ accept randMax r.next.1 = .inr k :=
  ⟨fun h => h.2, fun h => ⟨fun i hi => absurd hi (Nat.not_lt_zero i), h⟩⟩

/-- The first draw is thrown away. -/
theorem firstAccepted_succ : FirstAccepted randMax r (n + 1) k ↔
    accept randMax r.next.1 = .inl () ∧ FirstAccepted randMax r.next.2 n k := by
  constructor
  · rintro ⟨hthrown, hk⟩
    exact ⟨hthrown 0 (Nat.succ_pos n), fun i hi => hthrown (i + 1) (Nat.succ_lt_succ hi), hk⟩
  · rintro ⟨hfirst, hthrown, hk⟩
    refine ⟨fun i hi => ?_, hk⟩
    cases i with
    | zero => exact hfirst
    | succ i => exact hthrown i (Nat.lt_of_succ_lt_succ hi)

/-- A turn of the loop, run. -/
theorem run_turn : (loop (fastRandBody randMax) (fuel + 1) ()).run r = some (k, r') ↔
    accept randMax r.next.1 = .inl () ∧
        (loop (fastRandBody randMax) fuel ()).run r.next.2 = some (k, r') ∨
      accept randMax r.next.1 = .inr k ∧ r' = r.next.2 := by
  constructor
  · intro h
    obtain ⟨t, r₁, hbody, hrest⟩ := run_bind_some.mp h
    obtain ⟨ht, rfl⟩ : accept randMax r.next.1 = t ∧ r.next.2 = r₁ := by
      cases hbody
      exact ⟨rfl, rfl⟩
    rw [ht]
    cases t with
    | inl _ => exact .inl ⟨rfl, hrest⟩
    | inr a =>
        cases hrest
        exact .inr ⟨rfl, rfl⟩
  · rintro (⟨ht, hrest⟩ | ⟨ht, rfl⟩)
    · exact run_bind_some.mpr ⟨.inl (), r.next.2, by rw [← ht]; rfl, hrest⟩
    · exact run_bind_some.mpr ⟨.inr k, r.next.2, by rw [← ht]; rfl, rfl⟩

/-- The loop ends with the first draw that is accepted, and only so. -/
theorem run_loop_iff : (loop (fastRandBody randMax) fuel ()).run r = some (k, r') ↔
    ∃ n < fuel, FirstAccepted randMax r n k ∧ r' = r.after (n + 1) := by
  induction fuel generalizing r with
  | zero =>
      refine ⟨fun h => ?_, ?_⟩
      · cases h
      · rintro ⟨n, hn, -⟩
        exact absurd hn (Nat.not_lt_zero n)
  | succ fuel ih =>
      rw [run_turn, ih]
      constructor
      · rintro (⟨hthrown, n, hn, hfirst, hr'⟩ | ⟨hk, hr'⟩)
        · exact ⟨n + 1, Nat.succ_lt_succ hn, firstAccepted_succ.mpr ⟨hthrown, hfirst⟩, hr'⟩
        · exact ⟨0, Nat.succ_pos fuel, firstAccepted_zero.mpr hk, hr'⟩
      · rintro ⟨n, hn, hfirst, hr'⟩
        cases n with
        | zero => exact .inr ⟨firstAccepted_zero.mp hfirst, hr'⟩
        | succ n =>
            obtain ⟨hthrown, hfirst⟩ := firstAccepted_succ.mp hfirst
            exact .inl ⟨hthrown, n, Nat.lt_of_succ_lt_succ hn, hfirst, hr'⟩

theorem run_fastRand_iff (h : randMax ≠ 0) : (fastRand randMax fuel).run r = some (k, r') ↔
    ∃ n < fuel, FirstAccepted randMax r n k ∧ r' = r.after (n + 1) := by
  rw [fastRand, if_neg h]
  exact run_loop_iff

end Run

/-- The draws with the result `k` are a stretch. -/
theorem ncard_accept {randMax k : UInt64} (h : randMax ≠ 0) (hk : k < randMax) :
    {v | accept randMax v = .inr k}.ncard = (2 ^ 64 - 1) / randMax.toNat := by
  have hle : (k.toNat + 1) * (range randMax).toNat ≤ 2 ^ 64 :=
    (Nat.mul_le_mul_right _ (UInt64.lt_iff_toNat_lt.mp hk)).trans (stretches_lt randMax).le
  rw [Set.ext fun v => accept_eq_inr (v := v) h hk]
  exact (ncard_stretch hle).trans (by rw [Nat.succ_mul, Nat.add_sub_cancel_left, range_toNat])

/-- What is thrown away is the remainder, and `2^64 - 1`. -/
theorem ncard_thrown {randMax : UInt64} (h : randMax ≠ 0) :
    {v | accept randMax v = .inl ()}.ncard < randMax.toNat + 1 := by
  have hset : {v : UInt64 | accept randMax v = .inl ()} =
      {v : UInt64 | randMax.toNat * (range randMax).toNat ≤ v.toNat ∧ v.toNat < 2 ^ 64} :=
    Set.ext fun v => (accept_eq_inl h).trans ⟨fun hv => ⟨hv, v.toNat_lt⟩, fun hv => hv.1⟩
  have hmod := Nat.div_add_mod (2 ^ 64 - 1) randMax.toNat
  have hpos : 0 < randMax.toNat :=
    Nat.pos_iff_ne_zero.mpr fun h0 => h (UInt64.toNat_inj.mp h0)
  have hlt := Nat.mod_lt (2 ^ 64 - 1) hpos
  rw [hset, ncard_stretch le_rfl, range_toNat]
  omega

/-- **`fast_rand(rand_max)` is uniform over the draws it accepts.**  It returns the result of the
first draw that is accepted, and leaves the generator behind that draw.  Of the values a draw may
have, each result below `rand_max` has `(2^64 - 1) / rand_max`, and what is thrown away is no more
than `rand_max`. -/
theorem fastRand_uniform (randMax : UInt64) (h : randMax ≠ 0) :
    (∀ fuel r k r', (fastRand randMax fuel).run r = some (k, r') ↔
      ∃ n < fuel, FirstAccepted randMax r n k ∧ r' = r.after (n + 1)) ∧
    (∀ k < randMax,
      {v : UInt64 | accept randMax v = .inr k}.ncard = (2 ^ 64 - 1) / randMax.toNat) ∧
    (∀ fuel r k r', (fastRand randMax fuel).run r = some (k, r') → k < randMax) ∧
    {v : UInt64 | accept randMax v = .inl ()}.ncard < randMax.toNat + 1 ∧
    ∀ fuel r, (fastRand 0 fuel).run r = some (0, r) := by
  refine ⟨fun fuel r k r' => run_fastRand_iff h, fun k hk => ncard_accept h hk,
    fun fuel r k r' hrun => ?_, ncard_thrown h, fun fuel r => rfl⟩
  obtain ⟨n, -, hfirst, -⟩ := (run_fastRand_iff h).mp hrun
  exact lt_of_accept hfirst.2

theorem fastRand_uniform_ten :
    (∀ fuel r k r', (fastRand 10 fuel).run r = some (k, r') ↔
      ∃ n < fuel, FirstAccepted 10 r n k ∧ r' = r.after (n + 1)) ∧
    (∀ k < 10, {v : UInt64 | accept 10 v = .inr k}.ncard = (2 ^ 64 - 1) / 10) ∧
    (∀ fuel r k r', (fastRand 10 fuel).run r = some (k, r') → k < 10) ∧
    {v : UInt64 | accept 10 v = .inl ()}.ncard < 10 + 1 ∧
    ∀ fuel r, (fastRand 0 fuel).run r = some (0, r) :=
  fastRand_uniform 10 (by decide)

end PBase.Rand
