import Wireboard.Proofs.Number.Nearest

/-!
# The fewest digits round to the double

The search for the fewest digits goes from coarse grids to fine ones and stops at the first point
that rounds to the double.  On a grid that is finer than half a unit of the last place of the double
there is such a point, and twenty grids are enough to come to this (`search_covers`).  The zeros at
the end do not count, so the digits that are written round to the double as well
(`covers_trim_decimal`).

How coarse the first grid is depends on the ratio of `log 2` and `log 10`, which is close to
`30103 / 100000`: the powers are compared by their hundred thousandth powers (`ten_zpow_le`).
-/

namespace Wireboard.Shortest

open Binary64

/-! ## Powers of two and of ten -/

theorem ten_zpow_mul_le {n : ℤ} (small : n ≤ 100000) :
    (10 : ℚ) ^ (30103 * n) ≤ 2 ^ (100000 * (n + 1)) := by
  have lower : (2 : ℚ) ^ (100000 : ℤ) ≤ 10 ^ (30103 : ℤ) :=
    two_zpow_le_ten_zpow (m := 100000) (n := 30103) (by decide +kernel)
  have upper : (10 : ℚ) ^ (30103 : ℤ) ≤ 2 ^ (100001 : ℤ) := by
    have le : pow10 30103 ≤ pow2 100001 := by decide +kernel
    have cast : ((pow10 30103 : ℕ) : ℚ) ≤ (pow2 100001 : ℕ) := Nat.cast_le.mpr le
    rw [cast_pow10, cast_pow2, ← zpow_natCast, ← zpow_natCast] at cast
    exact cast
  rcases le_total 0 n with nonneg | nonpos
  · calc (10 : ℚ) ^ (30103 * n) = (10 ^ (30103 : ℤ)) ^ n := zpow_mul _ _ _
      _ ≤ (2 ^ (100001 : ℤ)) ^ n := zpow_le_zpow_left₀ nonneg (zpow_nonneg (by norm_num) _) upper
      _ = 2 ^ (100001 * n) := (zpow_mul _ _ _).symm
      _ ≤ 2 ^ (100000 * (n + 1)) := zpow_le_zpow_right₀ one_le_two (by omega)
  · calc (10 : ℚ) ^ (30103 * n) = ((10 ^ (30103 : ℤ)) ^ (-n))⁻¹ := by
          rw [zpow_neg, inv_inv, zpow_mul]
      _ ≤ ((2 ^ (100000 : ℤ)) ^ (-n))⁻¹ :=
          inv_anti₀ (zpow_pos (zpow_pos two_pos _) _)
            (zpow_le_zpow_left₀ (by omega) (zpow_nonneg two_pos.le _) lower)
      _ = 2 ^ (100000 * n) := by rw [zpow_neg, inv_inv, zpow_mul]
      _ ≤ 2 ^ (100000 * (n + 1)) := zpow_le_zpow_right₀ one_le_two (by omega)

/-- A power of ten is at most twice the power of two whose exponent is larger by the ratio. -/
theorem ten_zpow_le {n k : ℤ} (small : n ≤ 100000) (ratio : 100000 * k ≤ 30103 * n) :
    (10 : ℚ) ^ k ≤ 2 ^ (n + 1) := by
  have powers : ((10 : ℚ) ^ k) ^ 100000 ≤ (2 ^ (n + 1)) ^ 100000 := by
    calc ((10 : ℚ) ^ k) ^ 100000 = 10 ^ (100000 * k) := by
          rw [mul_comm, zpow_mul]
          rfl
      _ ≤ 10 ^ (30103 * n) := zpow_le_zpow_right₀ (by norm_num) ratio
      _ ≤ 2 ^ (100000 * (n + 1)) := ten_zpow_mul_le small
      _ = (2 ^ (n + 1)) ^ 100000 := by
          rw [mul_comm, zpow_mul]
          rfl
  exact le_of_pow_le_pow_left₀ (by decide) (zpow_nonneg two_pos.le _) powers

/-- And at least half of it, if the exponent is smaller. -/
theorem two_zpow_le {n k : ℤ} (small : -100000 ≤ n) (ratio : 30103 * n ≤ 100000 * k) :
    (2 : ℚ) ^ n ≤ 2 * 10 ^ k := by
  have inverse := ten_zpow_le (n := -n) (k := -k) (by omega) (by omega)
  rw [zpow_neg, inv_le_comm₀ (by positivity) (by positivity), ← zpow_neg] at inverse
  calc (2 : ℚ) ^ n = 2 * 2 ^ (-(-n + 1)) := by
        rw [← zpow_one_add₀ two_ne_zero]
        congr 1
        ring
    _ ≤ 2 * 10 ^ k := mul_le_mul_of_nonneg_left inverse two_pos.le

/-! ## The interval -/

section Interval

variable {p : Parts}

/-- The interval of a double, over its denominator. -/
structure Spans (i : Interval) (p : Parts) : Prop where
  den : 0 < i.den
  low : (i.low : ℚ) = (p.mantissa - p.reach) * 2 ^ p.exponent * i.den
  value : (i.value : ℚ) = p.mantissa * 2 ^ p.exponent * i.den
  high : (i.high : ℚ) = (p.mantissa + 1 / 2) * 2 ^ p.exponent * i.den
  closed : i.closed = true ↔ p.mantissa % 2 = 0

theorem cast_low (nonzero : p.mantissa ≠ 0) :
    ((if p.mantissa == pow2 52 && p.exponent != leastExponent then 4 * p.mantissa - 1
      else 4 * p.mantissa - 2 : ℕ) : ℚ) = 4 * (p.mantissa - p.reach) := by
  unfold Parts.reach
  by_cases narrow : p.mantissa = pow2 52 ∧ p.exponent ≠ leastExponent
  · rw [if_pos (by simpa using narrow), if_pos narrow, Nat.cast_sub (by omega)]
    push_cast
    ring
  · rw [if_neg (by simpa using narrow), if_neg narrow, Nat.cast_sub (by omega)]
    push_cast
    ring

theorem spans_interval (nonzero : p.mantissa ≠ 0) : Spans (interval p) p := by
  have low := cast_low nonzero
  unfold interval
  dsimp only
  generalize (if p.mantissa == pow2 52 && p.exponent != leastExponent then 4 * p.mantissa - 1
      else 4 * p.mantissa - 2 : ℕ) = ends at *
  split
  next large =>
    have unit : (2 : ℚ) ^ p.exponent = 4 * (pow2 (p.exponent - 2).toNat : ℕ) := by
      rw [cast_pow2, zpow_toNat (by omega), show (4 : ℚ) = 2 ^ (2 : ℤ) by norm_num,
        ← zpow_add₀ two_ne_zero]
      congr 1
      ring
    refine ⟨Nat.one_pos, ?_, ?_, ?_, by simp⟩
    all_goals
      push_cast
      rw [unit]
    · rw [low]
      ring
    · ring
    · ring
  next small =>
    have unit : (2 : ℚ) ^ p.exponent * (pow2 (2 - p.exponent).toNat : ℕ) = 4 := by
      rw [cast_pow2, zpow_toNat (by omega), ← zpow_add₀ two_ne_zero]
      norm_num
    refine ⟨Nat.two_pow_pos _, ?_, ?_, ?_, by simp⟩
    all_goals
      push_cast
      rw [mul_assoc, unit]
    · rw [low]
      ring
    · ring
    · ring

/-- The interval has the numbers that round to the double. -/
theorem Spans.contains_iff {i : Interval} (spans : Spans i p) {den : ℕ} (positive : 0 < den)
    (n num : ℕ) : i.contains n num den = true ↔ p.Covers (n * (num / den)) := by
  have pos : (0 : ℚ) < den := Nat.cast_pos.mpr positive
  have scale : (0 : ℚ) < i.den * den := mul_pos (Nat.cast_pos.mpr spans.den) pos
  have point : ((n * num * i.den : ℕ) : ℚ) = n * (num / den) * (i.den * den) := by
    push_cast
    field_simp
  have low : ((i.low * den : ℕ) : ℚ) = (p.mantissa - p.reach) * 2 ^ p.exponent * (i.den * den) := by
    rw [Nat.cast_mul, spans.low]
    ring
  have high : ((i.high * den : ℕ) : ℚ) = (p.mantissa + 1 / 2) * 2 ^ p.exponent * (i.den * den) := by
    rw [Nat.cast_mul, spans.high]
    ring
  unfold Interval.contains
  dsimp only
  generalize (n : ℚ) * (num / den) = x at *
  split
  next closed =>
    rw [Bool.and_eq_true, decide_eq_true_eq, decide_eq_true_eq, ← Nat.cast_le (α := ℚ),
      ← Nat.cast_le (α := ℚ), point, low, high, mul_le_mul_iff_left₀ scale,
      mul_le_mul_iff_left₀ scale]
    exact ⟨fun h => ⟨h.1, h.2, fun _ => spans.closed.mp closed⟩, fun h => ⟨h.low, h.high⟩⟩
  next opened =>
    rw [Bool.and_eq_true, decide_eq_true_eq, decide_eq_true_eq, ← Nat.cast_lt (α := ℚ),
      ← Nat.cast_lt (α := ℚ), point, low, high, mul_lt_mul_iff_left₀ scale,
      mul_lt_mul_iff_left₀ scale]
    have odd : p.mantissa % 2 ≠ 0 := fun even => opened (spans.closed.mpr even)
    constructor
    · rintro ⟨above, below⟩
      exact ⟨above.le, below.le, fun tie => (tie.elim above.ne' below.ne).elim⟩
    · intro h
      exact ⟨lt_of_le_of_ne h.low fun tie => odd (h.even (.inl tie.symm)),
        lt_of_le_of_ne h.high fun tie => odd (h.even (.inr tie))⟩

end Interval

/-! ## Grids -/

section Grids

variable {p : Parts} {i : Interval} {k : ℤ}

theorem ten_zpow_eq (k : ℤ) :
    ((if 0 ≤ k then pow10 k.toNat else 1 : ℕ) : ℚ) / (if 0 ≤ k then 1 else pow10 (-k).toNat : ℕ)
      = 10 ^ k := by
  split
  next nonneg => rw [cast_pow10, zpow_toNat nonneg, Nat.cast_one, div_one]
  next negative => rw [cast_pow10, zpow_toNat (by omega), zpow_neg, Nat.cast_one, one_div, inv_inv]

theorem den_pos (k : ℤ) : 0 < (if 0 ≤ k then 1 else pow10 (-k).toNat : ℕ) := by
  split
  next => exact Nat.one_pos
  next => exact Nat.pow_pos (by decide)

theorem roundedQuotient_cases (num den : ℕ) :
    roundedQuotient num den = num / den ∨ roundedQuotient num den = num / den + 1 := by
  unfold roundedQuotient
  dsimp only
  split_ifs <;> omega

/-- A point that is found on a grid rounds to the double. -/
theorem Spans.covers_of_onGrid? (spans : Spans i p) {n : ℕ} (found : onGrid? i k = some n) :
    p.Covers (n * 10 ^ k) := by
  rw [← ten_zpow_eq, ← spans.contains_iff (den_pos k)]
  unfold onGrid? at found
  dsimp only at found
  split at found
  next below above =>
    cases found
    rcases roundedQuotient_cases _ _ with eq | eq
    · rw [eq]
      exact (Bool.and_eq_true_iff.mp below).2
    · rw [eq]
      exact above
  next below _ =>
    cases found
    exact (Bool.and_eq_true_iff.mp below).2
  next _ above =>
    cases found
    exact above
  next => cases found

/-- The first point of a grid above the double. -/
theorem Spans.covers_above (spans : Spans i p) (fine : (10 : ℚ) ^ k < 2 ^ p.exponent / 2)
    {num den : ℕ} (positive : 0 < den) (grid : (num : ℚ) / den = 10 ^ k) :
    p.Covers ((i.value * den / (num * i.den) + 1 : ℕ) * (num / den)) := by
  have pos : (0 : ℚ) < den := Nat.cast_pos.mpr positive
  have ten : (0 : ℚ) < 10 ^ k := by positivity
  have unit : (0 : ℚ) < 2 ^ p.exponent := by positivity
  have scale : (0 : ℚ) < i.den * den := mul_pos (Nat.cast_pos.mpr spans.den) pos
  have step : ((num * i.den : ℕ) : ℚ) = 10 ^ k * (i.den * den) := by
    rw [← grid]
    push_cast
    field_simp
  have step_pos : 0 < num * i.den := by
    rw [← Nat.cast_pos (α := ℚ), step]
    exact mul_pos ten scale
  have top : ((i.value * den : ℕ) : ℚ) = p.mantissa * 2 ^ p.exponent * (i.den * den) := by
    rw [Nat.cast_mul, spans.value]
    ring
  have below : (i.value * den / (num * i.den) : ℕ) * (10 : ℚ) ^ k
      ≤ p.mantissa * 2 ^ p.exponent := by
    have le : ((i.value * den / (num * i.den) * (num * i.den) : ℕ) : ℚ) ≤ (i.value * den : ℕ) :=
      Nat.cast_le.mpr (Nat.div_mul_le_self _ _)
    rw [Nat.cast_mul, step, top, ← mul_assoc] at le
    exact le_of_mul_le_mul_right le scale
  have above : (p.mantissa : ℚ) * 2 ^ p.exponent
      < (i.value * den / (num * i.den) + 1 : ℕ) * (10 : ℚ) ^ k := by
    have lt : ((i.value * den : ℕ) : ℚ)
        < ((i.value * den / (num * i.den) + 1) * (num * i.den) : ℕ) :=
      Nat.cast_lt.mpr (Nat.lt_mul_of_div_lt (Nat.lt_succ_self _) step_pos)
    rw [Nat.cast_mul (_ + 1), step, top] at lt
    exact lt_of_mul_lt_mul_right (lt_of_lt_of_eq lt (mul_assoc _ _ _).symm) scale.le
  rw [grid]
  generalize i.value * den / (num * i.den) = n at *
  rw [Nat.cast_succ] at above ⊢
  have low : ((p.mantissa : ℚ) - p.reach) * 2 ^ p.exponent < ((n : ℚ) + 1) * 10 ^ k := by
    refine lt_of_le_of_lt (mul_le_mul_of_nonneg_right ?_ unit.le) above
    unfold Parts.reach
    split <;> linarith
  have high : ((n : ℚ) + 1) * 10 ^ k < (p.mantissa + 1 / 2) * 2 ^ p.exponent := by linarith
  exact ⟨low.le, high.le, fun tie => (tie.elim low.ne' high.ne).elim⟩

/-- On a grid that is finer than half a unit of the last place a point is found. -/
theorem Spans.onGrid?_ne_none (spans : Spans i p) (fine : (10 : ℚ) ^ k < 2 ^ p.exponent / 2) :
    onGrid? i k ≠ none := by
  have above := (spans.contains_iff (den_pos k) _ _).mpr
    (spans.covers_above fine (den_pos k) (ten_zpow_eq k))
  unfold onGrid?
  dsimp only
  rw [above]
  split <;> simp_all

/-- Once the grids are fine enough the search has found a point. -/
theorem Spans.search_covers (spans : Spans i p) (fuel : ℕ) (k : ℤ)
    (fine : (10 : ℚ) ^ (k - fuel) < 2 ^ p.exponent / 2) :
    p.Covers ((search i (fuel + 1) k).digits * 10 ^ (search i (fuel + 1) k).exponent)
      ∧ k - fuel ≤ (search i (fuel + 1) k).exponent := by
  induction fuel generalizing k with
  | zero =>
    rw [Nat.cast_zero, sub_zero] at fine ⊢
    obtain ⟨n, found⟩ := Option.ne_none_iff_exists'.mp (spans.onGrid?_ne_none fine)
    rw [search, found]
    exact ⟨spans.covers_of_onGrid? found, le_refl _⟩
  | succ fuel ih =>
    rw [search]
    cases found : onGrid? i k with
    | some n => exact ⟨spans.covers_of_onGrid? found, by dsimp only; omega⟩
    | none =>
      have next : k - (fuel + 1 : ℕ) = k - 1 - fuel := by
        push_cast
        ring
      rw [next] at fine ⊢
      exact ih (k - 1) fine

end Grids

/-! ## The digits that are written -/

theorem trim_value (fuel : ℕ) (d : Decimal) :
    ((d.trim fuel).digits : ℚ) * 10 ^ (d.trim fuel).exponent = d.digits * 10 ^ d.exponent
      ∧ (d.trim fuel).digits ≤ d.digits := by
  induction fuel generalizing d with
  | zero => exact ⟨rfl, le_refl _⟩
  | succ fuel ih =>
    rw [Decimal.trim]
    split
    next zero =>
      obtain ⟨same, le⟩ := ih ⟨d.digits / 10, d.exponent + 1⟩
      refine ⟨same.trans ?_, le_trans le (Nat.div_le_self _ _)⟩
      have tens : (d.digits : ℚ) = (d.digits / 10 : ℕ) * 10 := by
        exact_mod_cast (Nat.div_mul_cancel (Nat.dvd_of_mod_eq_zero zero.1)).symm
      rw [tens, zpow_add_one₀ (by norm_num)]
      ring
    next => exact ⟨rfl, le_refl _⟩

variable {p : Parts} (fits : p.Fits)
include fits

/-- The first grid is coarser than the double. -/
theorem lt_startExponent :
    (2 : ℚ) ^ ((p.mantissa.log2 : ℤ) + p.exponent + 1) ≤ 2 * 10 ^ startExponent p := by
  have := fits.least_le
  rw [leastExponent] at this
  refine two_zpow_le (by omega) ?_
  rw [startExponent]
  omega

variable (nonzero : p.mantissa ≠ 0)
include nonzero

/-- The twentieth grid is fine enough. -/
theorem fine_startExponent : (10 : ℚ) ^ (startExponent p - 19) < 2 ^ p.exponent / 2 := by
  have log : p.mantissa.log2 < 53 := (Nat.log2_lt nonzero).mpr fits.mantissa_lt
  have most := fits.le_most
  calc (10 : ℚ) ^ (startExponent p - 19) = 10 ^ (startExponent p - 1) / 10 ^ 18 := by
        rw [show startExponent p - 19 = startExponent p - 1 - 18 by ring, zpow_sub₀ (by norm_num)]
        rfl
    _ ≤ 2 ^ ((p.mantissa.log2 : ℤ) + p.exponent + 1 + 1) / 10 ^ 18 := by
        refine div_le_div_of_nonneg_right (ten_zpow_le (by omega) ?_) (by norm_num)
        rw [startExponent]
        omega
    _ ≤ 2 ^ (54 + p.exponent) / 10 ^ 18 :=
        div_le_div_of_nonneg_right (zpow_le_zpow_right₀ one_le_two (by omega)) (by norm_num)
    _ < 2 ^ p.exponent / 2 := by
        rw [zpow_add₀ two_ne_zero, mul_comm, mul_div_assoc, div_eq_mul_inv _ (2 : ℚ)]
        exact mul_lt_mul_of_pos_left (by norm_num) (by positivity)

theorem covers_decimal :
    p.Covers ((decimal p).digits * 10 ^ (decimal p).exponent)
      ∧ startExponent p - 19 ≤ (decimal p).exponent :=
  (spans_interval nonzero).search_covers 19 _ (fine_startExponent fits nonzero)

/-- Twenty digits are enough. -/
theorem digits_decimal_lt : (decimal p).digits < pow10 20 := by
  obtain ⟨covers, grid⟩ := covers_decimal fits nonzero
  have ten : (0 : ℚ) < 10 ^ (startExponent p - 19) := by positivity
  have mantissa : (p.mantissa : ℚ) + 1 ≤ 2 ^ ((p.mantissa.log2 : ℤ) + 1) := by
    rw [← Nat.cast_succ, ← Nat.cast_succ, zpow_natCast]
    exact_mod_cast Nat.succ_le_of_lt (Nat.lt_log2_self (n := p.mantissa))
  have bound : ((decimal p).digits : ℚ) * 10 ^ (startExponent p - 19)
      ≤ 2 * 10 ^ 19 * 10 ^ (startExponent p - 19) := by
    calc ((decimal p).digits : ℚ) * 10 ^ (startExponent p - 19)
        ≤ (decimal p).digits * 10 ^ (decimal p).exponent :=
          mul_le_mul_of_nonneg_left (zpow_le_zpow_right₀ (by norm_num) grid) (Nat.cast_nonneg _)
      _ ≤ (p.mantissa + 1 / 2) * 2 ^ p.exponent := covers.high
      _ ≤ 2 ^ ((p.mantissa.log2 : ℤ) + 1) * 2 ^ p.exponent :=
          mul_le_mul_of_nonneg_right (by linarith) (by positivity)
      _ = 2 ^ ((p.mantissa.log2 : ℤ) + p.exponent + 1) := by
          rw [← zpow_add₀ two_ne_zero]
          congr 1
          ring
      _ ≤ 2 * 10 ^ startExponent p := lt_startExponent fits
      _ = 2 * 10 ^ 19 * 10 ^ (startExponent p - 19) := by
          rw [mul_assoc, ← zpow_natCast, ← zpow_add₀ (by norm_num)]
          congr 2
          push_cast
          ring
  have small := le_of_mul_le_mul_right bound ten
  rw [← Nat.cast_lt (α := ℚ), cast_pow10]
  exact lt_of_le_of_lt small (by norm_num)

/-- The digits that are written for a double round to it. -/
theorem covers_trim_decimal (fuel : ℕ) :
    p.Covers (((decimal p).trim fuel).digits * 10 ^ ((decimal p).trim fuel).exponent)
      ∧ ((decimal p).trim fuel).digits < pow10 20 := by
  obtain ⟨same, le⟩ := trim_value fuel (decimal p)
  rw [same]
  exact ⟨(covers_decimal fits nonzero).1, lt_of_le_of_lt le (digits_decimal_lt fits nonzero)⟩

end Wireboard.Shortest
