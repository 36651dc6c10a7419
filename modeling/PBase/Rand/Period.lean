/-
# `PBase.Rand.Period` — the cycle of `next()`

A power of `step` is 1 if and only if the exponent is a multiple of `2 ^ 128 - 1`, so a generator
that is not zero goes through all the others before it comes back (`minimalPeriod_step`).  A whole
cycle has each value `2 ^ 64` times, but for the 0 of the generator that is missing
(`ncard_draws`); a draw that `fast_rand` accepts is among them, from whatever generator it starts
(`exists_firstAccepted`).
-/
import Mathlib.NumberTheory.LucasPrimality
import PBase.Rand.Jump

namespace PBase.Rand

open PBase.Lib

/-! ## The order of `step` -/

/-- How many generators there are but zero. -/
def period : Nat := 2 ^ 128 - 1

/-- For each prime divisor `q` of `period`, an inverse of `x ^ (period / q) + 1` modulo `modulus`.
-/
def inverses : List (Nat × Nat) :=
  [(3, 0xff8cefb76846895353ca0f0fe69d9ac1), (5, 0x44746645e1e994f5f0fe77cc421dfaaa),
    (17, 0x32c47704c6cdf7931acf2a818a19f62d), (257, 0x96f288cba5870497fd983bf5d14bdbeb),
    (641, 0xa7e437605ed5e3ae3e409dba24fc1dcd), (65537, 0xecb57a9ef6f5a6fff4387293b32f3b0c),
    (274177, 0xe9e260cf9faf324aeb4d0d5da638cf50), (6700417, 0x14ca8334099b25f5a6585d516b1fd6f1),
    (67280421310721, 0x139bd4d8ba1f6134c128219c7d36e79d)]

theorem prime_67280421310721 : Nat.Prime 67280421310721 := by
  refine lucas_primality 67280421310721 (3 : ZMod 67280421310721)
      (by reduce_mod_char) fun q hq hdvd => ?_
  have hfactors : 67280421310721 - 1 = (List.replicate 8 2 ++ [5, 47, 373, 2998279]).prod := by
    decide
  have hprime : ∀ n ∈ List.replicate 8 2 ++ [5, 47, 373, 2998279], Prime n := by
    simp only [List.mem_append, List.mem_replicate, List.mem_cons, List.not_mem_nil, or_false,
        ← Nat.prime_iff]
    rintro n (⟨-, rfl⟩ | rfl | rfl | rfl | rfl) <;> norm_num
  rw [hfactors] at hdvd
  have hmem := mem_list_primes_of_dvd_prod hq.prime hprime hdvd
  simp only [List.mem_append, List.mem_replicate, List.mem_cons, List.not_mem_nil, or_false] at hmem
  obtain ⟨-, rfl⟩ | rfl | rfl | rfl | rfl := hmem <;> norm_num <;> reduce_mod_char <;> decide

theorem period_eq_prod : period = (inverses.map Prod.fst).prod := by decide

theorem mem_of_dvd_period {q : Nat} (hq : q.Prime) (hdvd : q ∣ period) :
    ∃ g, (q, g) ∈ inverses := by
  have hprime : ∀ n ∈ inverses.map Prod.fst, Prime n := by
    simp only [inverses, List.map_cons, List.map_nil, List.mem_cons, List.not_mem_nil, or_false,
        ← Nat.prime_iff]
    rintro n (rfl | rfl | rfl | rfl | rfl | rfl | rfl | rfl | rfl)
    all_goals first | exact prime_67280421310721 | norm_num
  rw [period_eq_prod] at hdvd
  have hmem := mem_list_primes_of_dvd_prod hq.prime hprime hdvd
  obtain ⟨⟨q, g⟩, hqg, rfl⟩ := List.mem_map.mp hmem
  exact ⟨g, hqg⟩

theorem power_period : Binary.power modulus 128 period = 1 := by decide +kernel

theorem inverses_spec : ∀ c ∈ inverses,
    Binary.mul modulus 128 c.2 (Binary.power modulus 128 (period / c.1) ^^^ 1) = 1 := by
  decide +kernel

theorem minimalPeriod_step {r : FastRand} (hr : r ≠ 0) :
    Function.minimalPeriod step r = period := by
  refine Binary.minimalPeriod_eq ?_ (fun q hq hdvd => ?_) hr
  · rw [← Binary.eval_power eval_modulus (d := 128), power_period, Binary.eval_one]
  · obtain ⟨g, hg⟩ := mem_of_dvd_period hq hdvd
    exact ⟨_, Binary.eval_inverse eval_modulus (inverses_spec _ hg)⟩

/-! ## The cycle -/

theorem after_eq_iff {r : FastRand} (hr : r ≠ 0) {m n : Nat} : r.after m = r.after n ↔
    m ≡ n [MOD period] := by
  have hmod : ∀ k, r.after (k % period) = r.after k := fun k => by
    rw [← minimalPeriod_step hr]
    exact Function.iterate_mod_minimalPeriod_eq
  have hlt : ∀ k, k % period < Function.minimalPeriod step r := fun k => by
    rw [minimalPeriod_step hr]
    exact Nat.mod_lt k (by decide)
  rw [← hmod m, ← hmod n]
  exact Function.iterate_eq_iterate_iff_of_lt_minimalPeriod (hlt m) (hlt n)

theorem after_ne_zero {r : FastRand} (hr : r ≠ 0) (n : Nat) : r.after n ≠ 0 := by
  intro h
  have hreturn : r.after (n + (period - n % period)) = 0 := by
    rw [FastRand.after, Nat.add_comm, Function.iterate_add_apply]
    show FastRand.after (r.after n) _ = 0
    rw [h, ← step_pow_apply, map_zero]
  have hmod : n + (period - n % period) ≡ 0 [MOD period] := by
    have hle := (Nat.mod_lt n (show 0 < period by decide)).le
    have hsum := Nat.div_add_mod n period
    refine Nat.modEq_zero_iff_dvd.mpr ⟨n / period + 1, ?_⟩
    rw [Nat.mul_add, Nat.mul_one]
    omega
  exact hr (((after_eq_iff hr).mpr hmod).symm.trans hreturn)

/-- A generator is two words. -/
def wordsEquiv : FastRand ≃ Fin (2 ^ 64) × Fin (2 ^ 64) where
  toFun r := (r.s0.toFin, r.s1.toFin)
  invFun w := ⟨UInt64.ofFin w.1, UInt64.ofFin w.2⟩
  left_inv _ := rfl
  right_inv _ := rfl

instance : Finite FastRand := Finite.of_equiv _ wordsEquiv.symm

theorem card_fastRand : Nat.card FastRand = 2 ^ 64 * 2 ^ 64 := by
  rw [Nat.card_congr wordsEquiv, Nat.card_prod, Nat.card_fin]

theorem injOn_after {r : FastRand} (hr : r ≠ 0) : (Set.Iio period).InjOn r.after :=
    fun _ hm _ hn h =>
  Nat.ModEq.eq_of_lt_of_lt ((after_eq_iff hr).mp h) hm hn

/-- The cycle has every generator but zero. -/
theorem image_after {r : FastRand} (hr : r ≠ 0) : r.after '' Set.Iio period = {r' | r' ≠ 0} := by
  refine Set.eq_of_subset_of_ncard_le ?_ ?_
  · rintro _ ⟨n, -, rfl⟩
    exact after_ne_zero hr n
  · have hcompl : {r' : FastRand | r' ≠ 0} = Set.univ \ {0} := by
      ext r'
      simp
    rw [(injOn_after hr).ncard_image, hcompl, Set.ncard_sdiff_singleton_of_mem (Set.mem_univ 0),
        Set.ncard_univ,
      card_fastRand, ← Finset.coe_range, Set.ncard_coe_finset, Finset.card_range]
    decide

/-! ## The values of a cycle -/

/-- Of all the generators, how many have a value in `A`: `s0` is free, and `s1` makes up the rest.
-/
theorem ncard_value (A : Set UInt64) : {r : FastRand | r.next.1 ∈ A}.ncard = 2 ^ 64 * A.ncard := by
  have hinj : Function.Injective fun r : FastRand => (r.s0, r.next.1) := fun a b h => by
    obtain ⟨h0, hsum⟩ := Prod.mk.inj h
    have hsum : a.s0 + a.s1 = b.s0 + b.s1 := hsum
    rw [h0] at hsum
    exact FastRand.ext h0 ((UInt64.add_right_inj b.s0).mp hsum)
  have himage : (fun r : FastRand => (r.s0, r.next.1)) '' {r | r.next.1 ∈ A} = Set.univ ×ˢ A := by
    ext ⟨w, v⟩
    simp only [Set.mem_image, Set.mem_ofPred_eq, Set.mem_prod, Set.mem_univ, true_and]
    constructor
    · rintro ⟨r, hr, h⟩
      obtain ⟨-, rfl⟩ := Prod.mk.inj h
      exact hr
    · intro hv
      have hvalue : (FastRand.mk w (v - w)).next.1 = v := by
        show w + (v - w) = v
        rw [UInt64.add_comm, UInt64.sub_add_cancel]
      exact ⟨⟨w, v - w⟩, hvalue.symm ▸ hv, Prod.ext rfl hvalue⟩
  have hwords : (Set.univ : Set UInt64).ncard = 2 ^ 64 := by
    have hall : {v : UInt64 | 0 ≤ v.toNat ∧ v.toNat < 2 ^ 64} = Set.univ :=
      Set.eq_univ_of_forall fun v => ⟨Nat.zero_le _, v.toNat_lt⟩
    rw [← hall, ncard_stretch le_rfl, Nat.sub_zero]
  rw [← hinj.injOn.ncard_image, himage, Set.ncard_prod, hwords]

/-- Of the values of a cycle, how many are in `A`. -/
theorem ncard_draws {r : FastRand} (hr : r ≠ 0) (A : Set UInt64) [Decidable (0 ∈ A)] :
    {n | n < period ∧ (r.after n).next.1 ∈ A}.ncard =
    2 ^ 64 * A.ncard - if 0 ∈ A then 1 else 0 := by
  have hinj : {n | n < period ∧ (r.after n).next.1 ∈ A}.InjOn r.after :=
      (injOn_after hr).mono fun _ h => h.1
  have himage :
      r.after '' {n | n < period ∧ (r.after n).next.1 ∈ A} = {r' | r'.next.1 ∈ A} \ {0} := by
    ext r'
    constructor
    · rintro ⟨n, ⟨-, hn⟩, rfl⟩
      exact ⟨hn, after_ne_zero hr n⟩
    · rintro ⟨hvalue, hr'⟩
      obtain ⟨n, hn, rfl⟩ := (image_after hr).symm.subset hr'
      exact ⟨n, ⟨hn, hvalue⟩, rfl⟩
  rw [← hinj.ncard_image, himage]
  split
  · rename_i hzero
    have hmem : (0 : FastRand) ∈ {r' : FastRand | r'.next.1 ∈ A} := hzero
    rw [Set.ncard_sdiff_singleton_of_mem hmem, ncard_value]
  · rename_i hzero
    have hmem : (0 : FastRand) ∉ {r' : FastRand | r'.next.1 ∈ A} := hzero
    rw [Set.sdiff_singleton_eq_self hmem, ncard_value, Nat.sub_zero]

/-! ## What a caller has of it -/

/-- The generators of a cycle are all but zero, each once; from zero, `next()` stays there. -/
theorem next_full_period (r : FastRand) :
    (r ≠ 0 → (∀ m n, r.after m = r.after n ↔ m ≡ n [MOD 2 ^ 128 - 1]) ∧
      ∀ r', r' ≠ 0 ↔ ∃ n < 2 ^ 128 - 1, r.after n = r') ∧
    ∀ n, (0 : FastRand).after n = 0 := by
  refine ⟨fun hr => ⟨fun m n => after_eq_iff hr, fun r' => ?_⟩, fun n => ?_⟩
  · exact (Set.ext_iff.mp (image_after hr) r').symm
  · rw [← step_pow_apply, map_zero]

theorem iterate_jump (r : FastRand) (i : Nat) : FastRand.jump^[i] r = r.after (2 ^ 64 * i) := by
  have hjump : FastRand.jump = (fun r : FastRand => r.next.2)^[2 ^ 64] := funext jump_eq
  rw [hjump, ← Function.iterate_mul]
  rfl

/-- `jump()` is 2^64 calls of `next()`, and the 2^64 sequences that begin one `jump()` after another
meet in one generator only: the last of the last sequence is the first of the first. -/
theorem jump_sequences (r : FastRand) :
    r.jump = r.after (2 ^ 64) ∧
    (r ≠ 0 → ∀ i < 2 ^ 64, ∀ j < 2 ^ 64, ∀ a < 2 ^ 64, ∀ b < 2 ^ 64,
      ((FastRand.jump^[i] r).after a = (FastRand.jump^[j] r).after b ↔
        i = j ∧ a = b ∨ i = 0 ∧ a = 0 ∧ j = 2 ^ 64 - 1 ∧ b = 2 ^ 64 - 1 ∨
          j = 0 ∧ b = 0 ∧ i = 2 ^ 64 - 1 ∧ a = 2 ^ 64 - 1)) := by
  refine ⟨jump_eq r, fun hr i hi j hj a ha b hb => ?_⟩
  have hafter : ∀ k c, (FastRand.jump^[k] r).after c = r.after (2 ^ 64 * k + c) := fun k c => by
    rw [iterate_jump, FastRand.after, FastRand.after, FastRand.after, ← Function.iterate_add_apply,
        Nat.add_comm]
  rw [hafter, hafter, after_eq_iff hr, Nat.ModEq]
  -- a position is below the period, or it is the period
  have hmod : ∀ k < 2 ^ 64, ∀ c < 2 ^ 64, 2 ^ 64 * k + c < period ∧
      (2 ^ 64 * k + c) % period = 2 ^ 64 * k + c ∨
      2 ^ 64 * k + c = period ∧ (2 ^ 64 * k + c) % period = 0 := fun k hk c hc => by
    have hperiod : period = 2 ^ 64 * (2 ^ 64 - 1) + (2 ^ 64 - 1) := by decide
    rcases Nat.lt_or_ge (2 ^ 64 * k + c) period with hlt | hge
    · exact .inl ⟨hlt, Nat.mod_eq_of_lt hlt⟩
    · have heq : 2 ^ 64 * k + c = period := by omega
      exact .inr ⟨heq, heq ▸ Nat.mod_self _⟩
  have hperiod : period = 2 ^ 64 * (2 ^ 64 - 1) + (2 ^ 64 - 1) := by decide
  rcases hmod i hi a ha with ⟨hlt, h⟩ | ⟨heq, h⟩ <;> rcases hmod j hj b hb with ⟨hlt', h'⟩ | ⟨heq',
      h'⟩ <;>
    rw [h, h'] <;> omega

theorem accept_zero {randMax : UInt64} (h : randMax ≠ 0) : accept randMax 0 = .inr 0 := by
  have hpos : (0 : UInt64) < randMax := by
    rw [UInt64.lt_iff_toNat_lt]
    exact Nat.pos_of_ne_zero fun h0 => h (UInt64.toNat_inj.mp h0)
  rw [accept_eq_inr h hpos]
  rw [UInt64.toNat_zero, Nat.zero_mul, Nat.zero_add, Nat.one_mul]
  exact ⟨le_rfl, range_pos h⟩

/-- A value of 0 comes within a cycle. -/
theorem exists_zero (r : FastRand) : ∃ n < period, (r.after n).next.1 = 0 := by
  by_cases hr : r = 0
  · subst hr
    exact ⟨0, by decide, rfl⟩
  · obtain ⟨n, hn, h⟩ :=
      (image_after hr).symm.subset (show (⟨1, 0xffffffffffffffff⟩ : FastRand) ≠ 0 by decide)
    exact ⟨n, hn, by rw [h]; rfl⟩

/-- Some draw of a cycle is accepted, so there is a first one. -/
theorem exists_firstAccepted {randMax : UInt64} (h : randMax ≠ 0) (r : FastRand) :
    ∃ n k, n < period ∧ FirstAccepted randMax r n k := by
  obtain ⟨m, hm, hzero⟩ := exists_zero r
  have hm' : accept randMax (r.after m).next.1 ≠ .inl () := by
    rw [hzero, accept_zero h]
    exact Sum.inr_ne_inl
  have hsome : ∃ n, accept randMax (r.after n).next.1 ≠ .inl () := ⟨m, hm'⟩
  have hlt : Nat.find hsome < period := (Nat.find_min' hsome hm').trans_lt hm
  cases hk : accept randMax (r.after (Nat.find hsome)).next.1 with
  | inl _ => exact absurd hk (Nat.find_spec hsome)
  | inr k => exact ⟨_, k, hlt, fun i hi => not_not.mp (Nat.find_min hsome hi), hk⟩

/-- `fast_rand(rand_max)` returns from whatever generator the result of its first accepted draw,
which comes within a cycle; and of the draws of a cycle every result but 0 has equally many, 0 one
less. -/
theorem fastRand_cycle (randMax : UInt64) (h : randMax ≠ 0) :
    (∀ (r : FastRand) (fuel : Nat), 2 ^ 128 - 1 ≤ fuel → ∃ n k, n < 2 ^ 128 - 1 ∧
      FirstAccepted randMax r n k ∧ k < randMax ∧
      (fastRand randMax fuel).run r = some (k, r.after (n + 1))) ∧
    (∀ fuel r k r', (fastRand randMax fuel).run r = some (k, r') →
      ∃ n < fuel, FirstAccepted randMax r n k ∧ r' = r.after (n + 1)) ∧
    ∀ r : FastRand, r ≠ 0 → ∀ k < randMax,
      {n | n < 2 ^ 128 - 1 ∧ accept randMax (r.after n).next.1 = .inr k}.ncard =
        2 ^ 64 * ((2 ^ 64 - 1) / randMax.toNat) - if k = 0 then 1 else 0 := by
  refine ⟨fun r fuel hfuel => ?_, fun fuel r k r' => (run_fastRand_iff h).mp, fun r hr k hk => ?_⟩
  · obtain ⟨n, k, hn, hfirst⟩ := exists_firstAccepted h r
    exact ⟨n, k, hn, hfirst, lt_of_accept hfirst.2,
      (run_fastRand_iff h).mpr ⟨n, lt_of_lt_of_le hn hfuel, hfirst, rfl⟩⟩
  · have hzero : (0 : UInt64) ∈ {v | accept randMax v = .inr k} ↔ k = 0 := by
      rw [Set.mem_ofPred_eq, accept_zero h, Sum.inr.injEq, eq_comm]
    have hdraws := ncard_draws hr {v | accept randMax v = .inr k}
    rw [ncard_accept h hk] at hdraws
    simp only [hzero] at hdraws
    exact hdraws

theorem fastRand_cycle_ten :
    (∀ (r : FastRand) (fuel : Nat), 2 ^ 128 - 1 ≤ fuel → ∃ n k, n < 2 ^ 128 - 1 ∧
      FirstAccepted 10 r n k ∧ k < 10 ∧ (fastRand 10 fuel).run r = some (k, r.after (n + 1))) ∧
    (∀ fuel r k r', (fastRand 10 fuel).run r = some (k, r') →
      ∃ n < fuel, FirstAccepted 10 r n k ∧ r' = r.after (n + 1)) ∧
    ∀ r : FastRand, r ≠ 0 → ∀ k < 10,
      {n | n < 2 ^ 128 - 1 ∧ accept 10 (r.after n).next.1 = .inr k}.ncard =
        2 ^ 64 * ((2 ^ 64 - 1) / 10) - if k = 0 then 1 else 0 :=
  fastRand_cycle 10 (by decide)

end PBase.Rand
