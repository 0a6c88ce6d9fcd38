import Mathlib
import Wireboard.Number.Reading

/-!
# Numbers that round to a double

The numbers that round to a double lie around it, up to half a unit of its last place; below a power
of two the doubles are twice as dense, so there the lower end is half as far away.  The ends belong
to it if its mantissa is even.  `Parts.Covers` says so in one place for all doubles, and
`nearest_of_covers` that from any number of such an interval `nearest` finds the double again.

At the lower end of the interval of a power of two the exponent is one too small, and the mantissa
is rounded up to one bit too many.  The bits of the two add up to those of the power of two, so this
needs no repair.
-/

namespace Wireboard.Binary64

/-! ## Bits -/

/-- The parts of a finite double. -/
structure Parts.Fits (p : Parts) : Prop where
  mantissa_lt : p.mantissa < pow2 53
  leading : leastExponent < p.exponent → pow2 52 ≤ p.mantissa
  least_le : leastExponent ≤ p.exponent
  le_most : p.exponent ≤ 971

/-- The bit of the sign. -/
def signBit (negative : Bool) : Nat := if negative then pow2 63 else 0

/-- The bits of a double behind its sign. -/
def Parts.bits (p : Parts) : Nat := (p.exponent - leastExponent).toNat * pow2 52 + p.mantissa

/-- The double of some parts. -/
def Parts.double (p : Parts) : Float := Float.ofBits (UInt64.ofNat (signBit p.negative + p.bits))

theorem pow2_52 : pow2 52 = 4503599627370496 := rfl

theorem pow2_53 : pow2 53 = 9007199254740992 := rfl

theorem pow2_63 : pow2 63 = 9223372036854775808 := rfl

theorem infinityBits_eq : infinityBits = 9218868437227405312 := rfl

theorem Parts.Fits.bits_lt {p : Parts} (fits : p.Fits) : p.bits < infinityBits := by
  obtain ⟨lt, -, least, most⟩ := fits
  rw [leastExponent] at least
  rw [pow2_53] at lt
  rw [bits, leastExponent, infinityBits_eq, pow2_52]
  omega

/-- The double that has some bits. -/
theorem eq_ofBits {x : Float} {n : Nat} (bits : x.toBits.toNat = n) :
    x = Float.ofBits (UInt64.ofNat n) := by
  rw [← bits, UInt64.ofNat_toNat, Float.ofBits_toBits]

/-- A finite double is that of its parts. -/
theorem eq_double_of_decode {x : Float} {p : Parts} (finite : decode x = .finite p) :
    x = p.double ∧ p.Fits := by
  have lt := x.toBits.toNat_lt
  unfold decode at finite
  dsimp only at finite
  split at finite
  next => split at finite <;> cases finite
  next proper =>
    split at finite
    next zero =>
      cases finite
      refine ⟨eq_ofBits ?_, ⟨?_, ?_, ?_, ?_⟩⟩
      all_goals
        simp only [Parts.bits, signBit, leastExponent, pow2_52, pow2_53, pow2_63,
          decide_eq_true_eq] at *
        (try split) <;> omega
    next normal =>
      cases finite
      refine ⟨eq_ofBits ?_, ⟨?_, ?_, ?_, ?_⟩⟩
      all_goals
        simp only [Parts.bits, signBit, leastExponent, pow2_52, pow2_53, pow2_63,
          decide_eq_true_eq] at *
        (try split) <;> omega

/-- There is one double beyond all others on either side. -/
theorem eq_infinity_of_decode {x : Float} {negative : Bool}
    (infinite : decode x = .infinite negative) : x = infinity negative := by
  have lt := x.toBits.toNat_lt
  unfold decode at infinite
  dsimp only at infinite
  split at infinite
  next proper =>
    split at infinite
    next zero =>
      cases infinite
      refine eq_ofBits ?_
      simp only [infinityBits_eq, pow2_52, pow2_63, decide_eq_true_eq] at *
      split <;> omega
    next => cases infinite
  next => split at infinite <;> cases infinite

/-! ## Rounding to a whole number -/

/-- The whole number is nearest to a number, and the even one if two are. -/
structure RoundsTo (x : ℚ) (q : ℕ) : Prop where
  low : q - 1 / 2 ≤ x
  high : x ≤ q + 1 / 2
  even : x = q - 1 / 2 ∨ x = q + 1 / 2 → q % 2 = 0

variable {den num : ℕ}

theorem roundedQuotient_eq {q : ℕ} (positive : 0 < den) (rounds : RoundsTo (num / den) q) :
    roundedQuotient num den = q := by
  have pos : (0 : ℚ) < den := Nat.cast_pos.mpr positive
  -- the same without denominators
  have low : 2 * (q * den) ≤ 2 * num + den := by
    have := rounds.low
    rw [le_div_iff₀ pos] at this
    have cleared : (2 : ℚ) * (q * den) ≤ 2 * num + den := by linarith
    exact_mod_cast cleared
  have high : 2 * num ≤ 2 * (q * den) + den := by
    have := rounds.high
    rw [div_le_iff₀ pos] at this
    have cleared : (2 : ℚ) * num ≤ 2 * (q * den) + den := by linarith
    exact_mod_cast cleared
  have even : 2 * (q * den) = 2 * num + den ∨ 2 * num = 2 * (q * den) + den → q % 2 = 0 := by
    intro tie
    apply rounds.even
    rw [div_eq_iff pos.ne', div_eq_iff pos.ne']
    refine tie.imp (fun eq => ?_) fun eq => ?_
    · have cast : (2 : ℚ) * (q * den) = 2 * num + den := by exact_mod_cast eq
      linarith
    · have cast : (2 : ℚ) * num = 2 * (q * den) + den := by exact_mod_cast eq
      linarith
  have parts := Nat.div_add_mod num den
  have small := Nat.mod_lt num positive
  unfold roundedQuotient
  dsimp only
  generalize num / den = floor at *
  generalize num % den = rest at *
  -- the number lies between `floor` and `floor + 1`, so one of the two is meant
  have above : q ≤ floor + 1 := by
    by_contra far
    have := Nat.mul_le_mul_right den (show floor + 2 ≤ q by omega)
    rw [Nat.add_mul, Nat.mul_comm floor] at this
    omega
  have below : floor ≤ q := by
    by_contra far
    have := Nat.mul_le_mul_right den (show q + 1 ≤ floor by omega)
    rw [Nat.add_mul, Nat.mul_comm floor] at this
    omega
  obtain rfl | rfl : q = floor ∨ q = floor + 1 := by omega
  · rw [Nat.mul_comm] at parts
    split_ifs <;> omega
  · rw [Nat.add_mul, Nat.mul_comm floor] at low high even
    split_ifs <;> omega

variable {e : ℤ}

theorem zpow_toNat {b : ℚ} (nonneg : 0 ≤ e) : b ^ e.toNat = b ^ e := by
  rw [← zpow_natCast, Int.toNat_of_nonneg nonneg]

@[simp] theorem cast_pow2 (n : ℕ) : ((pow2 n : ℕ) : ℚ) = 2 ^ n := by
  show ((2 ^ n : ℕ) : ℚ) = 2 ^ n
  push_cast
  rfl

@[simp] theorem cast_pow10 (n : ℕ) : ((pow10 n : ℕ) : ℚ) = 10 ^ n := by
  show ((10 ^ n : ℕ) : ℚ) = 10 ^ n
  push_cast
  rfl

theorem scaledQuotient_eq {q : ℕ} (positive : 0 < den) (rounds : RoundsTo (num / den / 2 ^ e) q) :
    scaledQuotient num den e = q := by
  unfold scaledQuotient
  split
  next nonneg =>
    refine roundedQuotient_eq (Nat.mul_pos positive (Nat.two_pow_pos _)) ?_
    rw [Nat.cast_mul, cast_pow2, zpow_toNat nonneg, ← div_div]
    exact rounds
  next negative =>
    refine roundedQuotient_eq positive ?_
    have same : ((num * pow2 (-e).toNat : ℕ) : ℚ) / den = num / den / 2 ^ e := by
      rw [Nat.cast_mul, cast_pow2, zpow_toNat (by omega), zpow_neg]
      ring
    rw [same]
    exact rounds

/-! ## The exponent -/

variable {n : ℕ}

theorem zpow_log2_le (positive : 0 < n) : (2 : ℚ) ^ (n.log2 : ℤ) ≤ n := by
  rw [zpow_natCast]
  exact_mod_cast Nat.log2_self_le positive.ne'

theorem lt_zpow_log2 (n : ℕ) : (n : ℚ) < 2 ^ ((n.log2 : ℤ) + 1) := by
  have lt : (n : ℚ) < ((2 ^ (n.log2 + 1) : ℕ) : ℚ) := by exact_mod_cast Nat.lt_log2_self
  rw [← Nat.cast_succ, zpow_natCast]
  exact_mod_cast lt

/-- The exponent of a number: its mantissa has at most 53 bits, and fewer only if there is no lower
exponent. -/
structure IsExponentOf (e : ℤ) (x : ℚ) : Prop where
  least_le : leastExponent ≤ e
  lt : x < 2 ^ (e + 53)
  le : leastExponent < e → 2 ^ (e + 52) ≤ x

theorem isExponentOf_of_bounds {x : ℚ} (low : 2 ^ (e + 52) ≤ x) (high : x < 2 ^ (e + 53)) :
    IsExponentOf (if e < leastExponent then leastExponent else e) x := by
  split
  next less =>
    refine ⟨le_refl _, lt_of_lt_of_le high ?_, fun less => (lt_irrefl _ less).elim⟩
    exact zpow_le_zpow_right₀ one_le_two (by omega)
  next => exact ⟨by omega, high, fun _ => low⟩

/-- A ratio lies within a factor of two of the powers of two that its parts reach. -/
theorem zpow_log2_le_div (num_pos : 0 < num) (den_pos : 0 < den) :
    2 ^ ((num.log2 : ℤ) - den.log2 - 1) ≤ (num : ℚ) / den := by
  rw [le_div_iff₀ (Nat.cast_pos.mpr den_pos)]
  calc (2 : ℚ) ^ ((num.log2 : ℤ) - den.log2 - 1) * den
      ≤ 2 ^ ((num.log2 : ℤ) - den.log2 - 1) * 2 ^ ((den.log2 : ℤ) + 1) :=
        mul_le_mul_of_nonneg_left (lt_zpow_log2 den).le (by positivity)
    _ = 2 ^ (num.log2 : ℤ) := by
      rw [← zpow_add₀ two_ne_zero]
      congr 1
      ring
    _ ≤ num := zpow_log2_le num_pos

theorem div_lt_zpow_log2 (num : ℕ) (den_pos : 0 < den) :
    (num : ℚ) / den < 2 ^ ((num.log2 : ℤ) - den.log2 + 1) := by
  rw [div_lt_iff₀ (Nat.cast_pos.mpr den_pos)]
  calc (num : ℚ) < 2 ^ ((num.log2 : ℤ) + 1) := lt_zpow_log2 num
    _ = 2 ^ ((num.log2 : ℤ) - den.log2 + 1) * 2 ^ (den.log2 : ℤ) := by
      rw [← zpow_add₀ two_ne_zero]
      congr 1
      ring
    _ ≤ 2 ^ ((num.log2 : ℤ) - den.log2 + 1) * den :=
      mul_le_mul_of_nonneg_left (zpow_log2_le den_pos) (by positivity)

/-- The test for the power of two between the two. -/
theorem reaches_iff (den_pos : 0 < den) (e : ℤ) :
    (if 0 ≤ e then decide (den * pow2 e.toNat * pow2 53 ≤ num)
      else decide (den * pow2 53 ≤ num * pow2 (-e).toNat)) = true
    ↔ (2 : ℚ) ^ (e + 53) ≤ num / den := by
  rw [le_div_iff₀ (Nat.cast_pos.mpr den_pos), zpow_add₀ two_ne_zero,
    show (2 : ℚ) ^ (53 : ℤ) = 2 ^ 53 from zpow_natCast 2 53]
  split
  next nonneg =>
    rw [decide_eq_true_eq, ← Nat.cast_le (α := ℚ), Nat.cast_mul, Nat.cast_mul, cast_pow2,
      cast_pow2, zpow_toNat nonneg]
    constructor <;> intro le <;> linarith
  next negative =>
    rw [decide_eq_true_eq, ← Nat.cast_le (α := ℚ), Nat.cast_mul, Nat.cast_mul, cast_pow2,
      cast_pow2, zpow_toNat (by omega), zpow_neg, ← div_eq_mul_inv, le_div_iff₀ (by positivity)]
    constructor <;> intro le <;> linarith

theorem isExponentOf_exponentOf (num_pos : 0 < num) (den_pos : 0 < den) :
    IsExponentOf (exponentOf num den) (num / den) := by
  have low := zpow_log2_le_div num_pos den_pos
  have high := div_lt_zpow_log2 num den_pos
  unfold exponentOf
  dsimp only
  rw [if_congr (reaches_iff den_pos _) rfl rfl]
  generalize guessed : (num.log2 : ℤ) - den.log2 - 53 = guess
  rw [show (num.log2 : ℤ) - den.log2 - 1 = guess + 52 by omega] at low
  rw [show (num.log2 : ℤ) - den.log2 + 1 = guess + 1 + 53 by omega] at high
  by_cases reached : (2 : ℚ) ^ (guess + 53) ≤ num / den
  · rw [if_pos reached]
    refine isExponentOf_of_bounds ?_ high
    rw [add_assoc]
    exact reached
  · rw [if_neg reached]
    exact isExponentOf_of_bounds low (not_le.mp reached)

/-- A number has one exponent. -/
theorem IsExponentOf.unique {e' : ℤ} {x : ℚ} (one : IsExponentOf e x) (other : IsExponentOf e' x) :
    e = e' := by
  by_contra distinct
  rcases lt_or_gt_of_ne distinct with less | more
  · have := other.le (lt_of_le_of_lt one.least_le less)
    have := zpow_le_zpow_right₀ (one_le_two (α := ℚ)) (show e + 53 ≤ e' + 52 by omega)
    linarith [one.lt]
  · have := one.le (lt_of_le_of_lt other.least_le more)
    have := zpow_le_zpow_right₀ (one_le_two (α := ℚ)) (show e' + 53 ≤ e + 52 by omega)
    linarith [other.lt]

/-! ## Intervals -/

namespace Parts

/-- How far the numbers that round to a double go below it, in units of its last place. -/
def reach (p : Parts) : ℚ :=
  if p.mantissa = pow2 52 ∧ p.exponent ≠ leastExponent then 1 / 4 else 1 / 2

/-- The number rounds to the double. -/
structure Covers (p : Parts) (x : ℚ) : Prop where
  low : (p.mantissa - p.reach) * 2 ^ p.exponent ≤ x
  high : x ≤ (p.mantissa + 1 / 2) * 2 ^ p.exponent
  even : x = (p.mantissa - p.reach) * 2 ^ p.exponent ∨ x = (p.mantissa + 1 / 2) * 2 ^ p.exponent →
    p.mantissa % 2 = 0

theorem reach_le (p : Parts) : p.reach ≤ 1 / 2 := by
  unfold reach
  split <;> norm_num

variable {p : Parts} {x : ℚ}

theorem Covers.positive (covers : p.Covers x) (nonzero : p.mantissa ≠ 0) : 0 < x := by
  have one : (1 : ℚ) ≤ p.mantissa := Nat.one_le_cast.mpr (Nat.pos_of_ne_zero nonzero)
  have := p.reach_le
  exact lt_of_lt_of_le (mul_pos (by linarith) (by positivity)) covers.low

theorem Covers.lt (covers : p.Covers x) (fits : p.Fits) : x < 2 ^ (p.exponent + 53) := by
  have whole : (p.mantissa : ℚ) + 1 ≤ 2 ^ (53 : ℤ) := by
    exact_mod_cast Nat.succ_le_of_lt fits.mantissa_lt
  calc x ≤ (p.mantissa + 1 / 2) * 2 ^ p.exponent := covers.high
    _ < 2 ^ (53 : ℤ) * 2 ^ p.exponent := mul_lt_mul_of_pos_right (by linarith) (by positivity)
    _ = 2 ^ (p.exponent + 53) := by rw [mul_comm, zpow_add₀ two_ne_zero]

/-- A number that is not below the first mantissa of the exponent has the exponent of the double. -/
theorem Covers.isExponentOf (covers : p.Covers x) (fits : p.Fits)
    (le : leastExponent < p.exponent → 2 ^ (p.exponent + 52) ≤ x) : IsExponentOf p.exponent x :=
  ⟨fits.least_le, covers.lt fits, le⟩

theorem Covers.roundsTo (covers : p.Covers x) : RoundsTo (x / 2 ^ p.exponent) p.mantissa := by
  have pos : (0 : ℚ) < 2 ^ p.exponent := by positivity
  have := p.reach_le
  refine ⟨?_, ?_, ?_⟩
  · rw [le_div_iff₀ pos]
    exact le_trans (mul_le_mul_of_nonneg_right (by linarith) pos.le) covers.low
  · rw [div_le_iff₀ pos]
    exact covers.high
  · rw [div_eq_iff pos.ne', div_eq_iff pos.ne']
    rintro (low | high)
    · by_cases narrow : p.mantissa = pow2 52 ∧ p.exponent ≠ leastExponent
      · rw [narrow.1]
        decide
      · have reach : p.reach = 1 / 2 := if_neg narrow
        exact covers.even (.inl (by rw [reach]; exact low))
    · exact covers.even (.inr high)

/-- Below the first mantissa of its exponent only a power of two covers a number. -/
theorem Covers.mantissa_eq (covers : p.Covers x) (fits : p.Fits)
    (normal : leastExponent < p.exponent) (lt : x < 2 ^ (p.exponent + 52)) :
    p.mantissa = pow2 52 := by
  have pos : (0 : ℚ) < 2 ^ p.exponent := by positivity
  have less : ((p.mantissa : ℚ) - 1 / 2) * 2 ^ p.exponent < 2 ^ (52 : ℤ) * 2 ^ p.exponent := by
    calc ((p.mantissa : ℚ) - 1 / 2) * 2 ^ p.exponent
        ≤ (p.mantissa - p.reach) * 2 ^ p.exponent :=
          mul_le_mul_of_nonneg_right (by linarith [p.reach_le]) pos.le
      _ ≤ x := covers.low
      _ < 2 ^ (p.exponent + 52) := lt
      _ = 2 ^ (52 : ℤ) * 2 ^ p.exponent := by rw [mul_comm, zpow_add₀ two_ne_zero]
  have cast : (p.mantissa : ℚ) < ((pow2 52 + 1 : ℕ) : ℚ) := by
    have := lt_of_mul_lt_mul_right less pos.le
    rw [show (2 : ℚ) ^ (52 : ℤ) = 2 ^ 52 from zpow_natCast 2 52] at this
    rw [Nat.cast_add, cast_pow2, Nat.cast_one]
    linarith
  have := fits.leading normal
  have : p.mantissa < pow2 52 + 1 := by exact_mod_cast cast
  omega

end Parts

/-- The bits that `nearest` puts together from a number that rounds to a double are its bits. -/
theorem bits_of_covers {p : Parts} (fits : p.Fits) (num_pos : 0 < num) (den_pos : 0 < den)
    (covers : p.Covers (num / den)) :
    (exponentOf num den - leastExponent).toNat * pow2 52
      + scaledQuotient num den (exponentOf num den) = p.bits := by
  have exponent := isExponentOf_exponentOf num_pos den_pos
  by_cases le : leastExponent < p.exponent → (2 : ℚ) ^ (p.exponent + 52) ≤ num / den
  · rw [exponent.unique (covers.isExponentOf fits le),
      scaledQuotient_eq den_pos covers.roundsTo, Parts.bits]
  · obtain ⟨normal, lt⟩ := Classical.not_imp.mp le
    rw [not_le] at lt
    have power := covers.mantissa_eq fits normal lt
    have reach : p.reach = 1 / 4 := if_pos ⟨power, normal.ne'⟩
    have halves : (2 : ℚ) ^ p.exponent = 2 * 2 ^ (p.exponent - 1) := by
      rw [← zpow_one_add₀ two_ne_zero]
      congr 1
      ring
    have low : (2 ^ (53 : ℤ) - 1 / 2) * 2 ^ (p.exponent - 1) ≤ (num : ℚ) / den := by
      refine le_trans (le_of_eq ?_) covers.low
      rw [power, reach, halves, cast_pow2]
      ring
    have high : (num : ℚ) / den < 2 ^ (53 : ℤ) * 2 ^ (p.exponent - 1) := by
      refine lt_of_lt_of_eq lt ?_
      rw [← zpow_add₀ two_ne_zero]
      congr 1
      ring
    have below : IsExponentOf (p.exponent - 1) (num / den) := by
      refine ⟨by omega, lt_of_lt_of_eq lt (by congr 1; ring), fun _ => le_trans ?_ low⟩
      rw [zpow_add₀ two_ne_zero, mul_comm]
      exact mul_le_mul_of_nonneg_right (by norm_num) (by positivity)
    have rounds : RoundsTo (num / den / 2 ^ (p.exponent - 1)) (pow2 53) := by
      have pos : (0 : ℚ) < 2 ^ (p.exponent - 1) := by positivity
      refine ⟨?_, ?_, fun _ => rfl⟩
      · rw [le_div_iff₀ pos, cast_pow2]
        exact low
      · rw [div_le_iff₀ pos, cast_pow2]
        exact le_trans high.le (mul_le_mul_of_nonneg_right (by norm_num) pos.le)
    rw [exponent.unique below, scaledQuotient_eq den_pos rounds, Parts.bits, power, pow2_52,
      pow2_53]
    omega

/-- From a number that rounds to a double the double is found again. -/
theorem nearest_of_covers {p : Parts} (fits : p.Fits) (nonzero : p.mantissa ≠ 0) (den_pos : 0 < den)
    (covers : p.Covers (num / den)) : nearest p.negative num den = p.double := by
  have num_pos : 0 < num := by
    refine Nat.pos_of_ne_zero fun zero => ?_
    have := covers.positive nonzero
    rw [zero, Nat.cast_zero, zero_div] at this
    exact lt_irrefl _ this
  rw [nearest, if_neg num_pos.ne']
  dsimp only
  rw [bits_of_covers fits num_pos den_pos covers, if_neg (Nat.not_le.mpr fits.bits_lt)]
  rfl

/-! ## Numbers -/

/-- The bits of a number stay as they are. -/
theorem toBits_ofBits (lt : n < UInt64.size)
    (number : n / pow2 52 % 2048 = 2047 → n % pow2 52 = 0) :
    (Float.ofBits (UInt64.ofNat n)).toBits.toNat = n := by
  have same : (UInt64.ofNat n).toBitVec.toNat = n := UInt64.toNat_ofNat_of_lt' lt
  have valid : Float.Model.Format.binary64.Valid (UInt64.ofNat n).toBitVec := by
    refine ⟨fun exponent mantissa => (mantissa ?_).elim⟩
    have field := congrArg BitVec.toNat exponent
    rw [Float.Model.UnpackedFloat.unpackExponent_def, BitVec.extractLsb'_toNat, same,
      Nat.shiftRight_eq_div_pow] at field
    apply BitVec.eq_of_toNat_eq
    rw [Float.Model.UnpackedFloat.unpackMantissa_def, BitVec.extractLsb'_toNat, same,
      Nat.shiftRight_zero]
    exact number field
  let x : Float := ⟨⟨UInt64.ofNat n, valid⟩⟩
  have back : Float.ofBits (UInt64.ofNat n) = x := Float.ofBits_toBits x
  rw [back]
  exact same

/-- Bits up to those of infinity say that the number is infinite, or which finite one it is. -/
theorem decode_ofBits_cases (negative : Bool) {m : ℕ} (le : m ≤ infinityBits) :
    m = infinityBits ∧
        decode (Float.ofBits (UInt64.ofNat (signBit negative + m))) = .infinite negative ∨
      m ≠ infinityBits ∧
        ∃ p, decode (Float.ofBits (UInt64.ofNat (signBit negative + m))) = .finite p := by
  have sign : negative = false ∧ signBit negative = 0 ∨
      negative = true ∧ signBit negative = pow2 63 := by
    cases negative <;> simp [signBit]
  rw [infinityBits_eq] at le ⊢
  rw [pow2_63] at sign
  have small : signBit negative + m < UInt64.size := by
    rw [UInt64.size]
    omega
  have number : (signBit negative + m) / pow2 52 % 2048 = 2047 →
      (signBit negative + m) % pow2 52 = 0 := by
    rw [pow2_52]
    omega
  unfold decode
  rw [toBits_ofBits small number]
  dsimp only
  split
  next field =>
    rw [if_pos (number field), Decoded.infinite.injEq, pow2_63]
    rw [pow2_52] at field
    refine .inl ⟨by omega, ?_⟩
    rcases sign with ⟨rfl, zero⟩ | ⟨rfl, one⟩
    · rw [decide_eq_false_iff_not]
      omega
    · rw [decide_eq_true_iff]
      omega
  next field =>
    rw [pow2_52] at field
    refine .inr ⟨by omega, ?_⟩
    split <;> exact ⟨_, rfl⟩

theorem decode_ofBits_ne (negative : Bool) {m : ℕ} (le : m ≤ infinityBits) :
    decode (Float.ofBits (UInt64.ofNat (signBit negative + m))) ≠ .notANumber := by
  intro wrong
  rcases decode_ofBits_cases negative le with ⟨-, decoded⟩ | ⟨-, _, decoded⟩ <;>
    cases wrong.symm.trans decoded

theorem decode_infinity_ne (negative : Bool) : decode (infinity negative) ≠ .notANumber :=
  decode_ofBits_ne negative (le_refl _)

/-- What `nearest` gives is a number. -/
theorem decode_nearest_ne (negative : Bool) (num den : ℕ) :
    decode (nearest negative num den) ≠ .notANumber := by
  unfold nearest
  dsimp only
  rw [← signBit]
  split
  next =>
    rw [← Nat.add_zero (signBit negative)]
    exact decode_ofBits_ne negative (Nat.zero_le _)
  next =>
    split
    next => exact decode_infinity_ne negative
    next finite => exact decode_ofBits_ne negative (Nat.le_of_lt (Nat.not_le.mp finite))

theorem decode_ofDecimal_ne (negative : Bool) (digits : ℕ) (exponent : ℤ) :
    decode (Number.ofDecimal negative digits exponent) ≠ .notANumber := by
  unfold Number.ofDecimal
  dsimp only
  split_ifs
  · exact decode_nearest_ne negative _ _
  · exact decode_infinity_ne negative
  · exact decode_nearest_ne negative _ _
  · exact decode_nearest_ne negative _ _
  · exact decode_nearest_ne negative _ _

/-! ## Decimals -/

theorem two_zpow_le_ten_zpow {m : ℕ} (le : pow2 m ≤ pow10 n) :
    (2 : ℚ) ^ (m : ℤ) ≤ 10 ^ (n : ℤ) := by
  rw [zpow_natCast, zpow_natCast, ← cast_pow2, ← cast_pow10]
  exact Nat.cast_le.mpr le

/-- The decimals of few digits that round to a double are neither so large nor so small that they
would be decided by their size alone. -/
theorem exponent_of_covers {p : Parts} {digits : ℕ} {exponent : ℤ} (fits : p.Fits)
    (nonzero : p.mantissa ≠ 0) (few : digits < pow10 40)
    (covers : p.Covers (digits * 10 ^ exponent)) : -364 < exponent ∧ exponent < 309 := by
  have ten : (1 : ℚ) < 10 := by norm_num
  have pos : (0 : ℚ) < 10 ^ exponent := by positivity
  have one : (1 : ℚ) ≤ p.mantissa := Nat.one_le_cast.mpr (Nat.pos_of_ne_zero nonzero)
  have positive := covers.positive nonzero
  constructor
  · have least : (10 : ℚ) ^ (-324 : ℤ) ≤ 2 ^ (-1075 : ℤ) := by
      rw [zpow_neg, zpow_neg]
      refine inv_anti₀ (zpow_pos two_pos _) ?_
      exact two_zpow_le_ten_zpow (m := 1075) (n := 324) (by decide +kernel)
    have reached : (2 : ℚ) ^ (-1075 : ℤ) ≤ digits * 10 ^ exponent := by
      calc (2 : ℚ) ^ (-1075 : ℤ) = 1 / 2 * 2 ^ leastExponent := by
            rw [leastExponent, show (-1075 : ℤ) = -1 + -1074 by rfl, zpow_add₀ two_ne_zero]
            norm_num
        _ ≤ (p.mantissa - p.reach) * 2 ^ p.exponent :=
            mul_le_mul (by linarith [p.reach_le]) (zpow_le_zpow_right₀ one_le_two fits.least_le)
              (by positivity) (by linarith [p.reach_le])
        _ ≤ digits * 10 ^ exponent := covers.low
    have bounded : (digits : ℚ) * 10 ^ exponent < 10 ^ (exponent + 40) := by
      rw [zpow_add₀ (by norm_num), mul_comm]
      refine mul_lt_mul_of_pos_left ?_ pos
      exact_mod_cast few
    have := (zpow_lt_zpow_iff_right₀ ten).mp (lt_of_le_of_lt (le_trans least reached) bounded)
    omega
  · have most : (2 : ℚ) ^ (p.exponent + 53) ≤ 10 ^ (309 : ℤ) := by
      refine le_trans (zpow_le_zpow_right₀ one_le_two (show _ ≤ (1024 : ℤ) from ?_)) ?_
      · have := fits.le_most
        omega
      · exact two_zpow_le_ten_zpow (m := 1024) (n := 309) (by decide +kernel)
    have some : (1 : ℚ) ≤ digits := by
      refine Nat.one_le_cast.mpr (Nat.pos_of_ne_zero ?_)
      rintro rfl
      rw [Nat.cast_zero, zero_mul] at positive
      exact lt_irrefl _ positive
    have reached : (10 : ℚ) ^ exponent ≤ digits * 10 ^ exponent := le_mul_of_one_le_left pos.le some
    exact (zpow_lt_zpow_iff_right₀ ten).mp
      (lt_of_le_of_lt reached (lt_of_lt_of_le (covers.lt fits) most))

theorem ofDecimal_of_covers {p : Parts} {digits : ℕ} {exponent : ℤ} (fits : p.Fits)
    (nonzero : p.mantissa ≠ 0) (few : digits < pow10 40)
    (covers : p.Covers (digits * 10 ^ exponent)) :
    Number.ofDecimal p.negative digits exponent = p.double := by
  obtain ⟨above, below⟩ := exponent_of_covers fits nonzero few covers
  have some : digits ≠ 0 := by
    rintro rfl
    have := covers.positive nonzero
    rw [Nat.cast_zero, zero_mul] at this
    exact lt_irrefl _ this
  have log : digits.log2 < 133 :=
    (Nat.log2_lt some).mpr (lt_of_lt_of_le few (show pow10 40 ≤ pow2 133 by decide +kernel))
  unfold Number.ofDecimal
  dsimp only
  rw [if_neg some, if_neg (by omega), if_neg (by omega)]
  split
  next nonneg =>
    refine nearest_of_covers fits nonzero Nat.one_pos ?_
    rw [Nat.cast_mul, cast_pow10, zpow_toNat nonneg, Nat.cast_one, div_one]
    exact covers
  next negative =>
    refine nearest_of_covers fits nonzero (Nat.pow_pos (by decide)) ?_
    rw [cast_pow10, zpow_toNat (by omega), zpow_neg, div_inv_eq_mul]
    exact covers

/-- Zero is found again from zero. -/
theorem ofDecimal_zero {p : Parts} (fits : p.Fits) (zero : p.mantissa = 0) (exponent : ℤ) :
    Number.ofDecimal p.negative 0 exponent = p.double := by
  have least : p.exponent = leastExponent := by
    refine le_antisymm (not_lt.mp fun normal => ?_) fits.least_le
    have := fits.leading normal
    rw [zero] at this
    exact absurd this (by decide)
  rw [Number.ofDecimal, if_pos rfl, nearest, if_pos rfl, Parts.double, Parts.bits, least, zero,
    sub_self]
  rfl

end Wireboard.Binary64
