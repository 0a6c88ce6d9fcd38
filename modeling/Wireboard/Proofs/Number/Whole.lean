import Wireboard.Proofs.Number.Nearest

/-!
# Whole numbers beyond all doubles

A whole number has a double unless it lies beyond the largest one by half a unit of its last place
or more (`ofInt?_eq_none_iff`).  The limit itself, `2 ^ 1024 - 2 ^ 970`, lies halfway to the power
of two that would be the next double; the half goes to the even mantissa, so the limit is beyond.

The argument goes by the exponent at which the number fills a mantissa.  The largest double has the
exponent 971: a smaller one leaves room, a larger one is too large, and at 971 itself it depends on
whether the quotient is rounded up to `2 ^ 53`.
-/

namespace Wireboard.Binary64

/-! ## Rounding -/

/-- Numbers are rounded up to an even neighbour from the half on. -/
theorem le_roundedQuotient_iff {num den q : ℕ} (positive : 0 < den) (even : q % 2 = 0) :
    q ≤ roundedQuotient num den ↔ 2 * (q * den) ≤ 2 * num + den := by
  have parts := Nat.div_add_mod num den
  have small := Nat.mod_lt num positive
  unfold roundedQuotient
  dsimp only
  generalize num / den = floor at *
  generalize num % den = rest at *
  rw [Nat.mul_comm] at parts
  rcases Nat.lt_trichotomy q (floor + 1) with below | rfl | above
  · have := Nat.mul_le_mul_right den (Nat.le_of_lt_succ below)
    split_ifs <;> omega
  · rw [Nat.add_mul]
    split_ifs <;> omega
  · have := Nat.mul_le_mul_right den (show floor + 2 ≤ q by omega)
    rw [Nat.add_mul] at this
    split_ifs <;> omega

theorem roundedQuotient_le {num den q : ℕ} (le : num ≤ q * den) (positive : 0 < den) :
    roundedQuotient num den ≤ q := by
  have parts := Nat.div_add_mod num den
  have small := Nat.mod_lt num positive
  unfold roundedQuotient
  dsimp only
  generalize num / den = floor at *
  generalize num % den = rest at *
  rw [Nat.mul_comm] at parts
  rcases Nat.lt_trichotomy floor q with below | rfl | above
  · split_ifs <;> omega
  · split_ifs <;> omega
  · have := Nat.mul_le_mul_right den (show q + 1 ≤ floor from above)
    rw [Nat.add_mul] at this
    omega

/-- A number below `2 ^ (e + 53)` fills no more than a mantissa at the exponent `e`. -/
theorem scaledQuotient_le {n : ℕ} {e : ℤ} (lt : (n : ℚ) < 2 ^ (e + 53)) :
    scaledQuotient n 1 e ≤ pow2 53 := by
  rw [zpow_add₀ two_ne_zero, show (2 : ℚ) ^ (53 : ℤ) = 2 ^ 53 from zpow_natCast 2 53] at lt
  unfold scaledQuotient
  split
  next nonneg =>
    refine roundedQuotient_le ?_ (Nat.mul_pos Nat.one_pos (Nat.two_pow_pos _))
    rw [← Nat.cast_le (α := ℚ), Nat.cast_mul, Nat.cast_mul, cast_pow2, cast_pow2,
      zpow_toNat nonneg]
    push_cast
    linarith
  next negative =>
    refine roundedQuotient_le ?_ Nat.one_pos
    rw [← Nat.cast_le (α := ℚ), Nat.cast_mul, Nat.cast_mul, cast_pow2, cast_pow2,
      zpow_toNat (by omega), zpow_neg, ← div_eq_mul_inv, div_le_iff₀ (by positivity)]
    push_cast
    linarith

/-- At an exponent that is not negative, the quotient is one of whole numbers. -/
@[simp] theorem scaledQuotient_natCast (n k : ℕ) :
    scaledQuotient n 1 (k : ℤ) = roundedQuotient n (pow2 k) := by
  rw [scaledQuotient, if_pos (Int.natCast_nonneg k), Nat.one_mul, Int.toNat_natCast]

theorem pow2_pos (k : ℕ) : 0 < pow2 k := Nat.two_pow_pos k

theorem pow2_le_pow2 {j k : ℕ} (le : j ≤ k) : pow2 j ≤ pow2 k := Nat.pow_le_pow_right two_pos le

theorem zpow_natCast_eq_pow2 (k : ℕ) : (2 : ℚ) ^ (k : ℤ) = pow2 k := by
  rw [cast_pow2, zpow_natCast]

/-! ## Bits -/

theorem decode_ofBits_eq_infinite_iff (negative : Bool) {m : ℕ} (le : m ≤ infinityBits) :
    decode (Float.ofBits (UInt64.ofNat (signBit negative + m))) = .infinite negative ↔
      m = infinityBits := by
  rcases decode_ofBits_cases negative le with ⟨all, decoded⟩ | ⟨other, p, decoded⟩
  · exact iff_of_true decoded all
  · exact iff_of_false (fun h => by cases h.symm.trans decoded) other

/-- The bits of the double nearest to a whole number, behind the sign. -/
def wholeBits (n : ℕ) : ℕ :=
  (exponentOf n 1 - leastExponent).toNat * pow2 52 + scaledQuotient n 1 (exponentOf n 1)

/-- The least whole number that is beyond all doubles. -/
def limit : ℕ := pow2 1024 - pow2 970

theorem pow2_1023_le_limit : pow2 1023 ≤ limit := by decide +kernel

theorem limit_le_pow2_1024 : limit ≤ pow2 1024 := Nat.sub_le _ _

/-- The limit lies half a unit below the next power of two. -/
theorem limit_eq : 2 * (pow2 53 * pow2 971) = 2 * limit + pow2 971 := by decide +kernel

/-- The bits reach those of infinity from the limit on. -/
theorem infinityBits_le_wholeBits_iff {n : ℕ} (positive : 0 < n) :
    infinityBits ≤ wholeBits n ↔ limit ≤ n := by
  have exponent := isExponentOf_exponentOf positive Nat.one_pos
  rw [Nat.cast_one, div_one] at exponent
  unfold wholeBits
  generalize exponentOf n 1 = e at *
  obtain ⟨least, high, low⟩ := exponent
  rw [leastExponent] at least low
  rw [infinityBits_eq, pow2_52, leastExponent]
  rcases lt_trichotomy e 971 with small | rfl | large
  · have quotient := scaledQuotient_le high
    rw [pow2_53] at quotient
    have below : n < pow2 1023 := by
      rw [← Nat.cast_lt (α := ℚ), ← zpow_natCast_eq_pow2]
      exact lt_of_lt_of_le high (zpow_le_zpow_right₀ one_le_two (by omega))
    have := pow2_1023_le_limit
    omega
  · -- the largest doubles: it depends on the rounding
    have quotient : pow2 53 ≤ roundedQuotient n (pow2 971) ↔ limit ≤ n := by
      rw [le_roundedQuotient_iff (pow2_pos 971) rfl, limit_eq]
      omega
    rw [← scaledQuotient_natCast, pow2_53] at quotient
    rw [← quotient]
    push_cast
    omega
  · obtain ⟨k, rfl⟩ := Int.eq_ofNat_of_zero_le (show 0 ≤ e by omega)
    have filled : pow2 (k + 52) ≤ n := by
      rw [← Nat.cast_le (α := ℚ), ← zpow_natCast_eq_pow2]
      exact_mod_cast low (by omega)
    have quotient : pow2 52 ≤ scaledQuotient n 1 k := by
      rw [scaledQuotient_natCast, le_roundedQuotient_iff (pow2_pos k) rfl]
      have : pow2 52 * pow2 k = pow2 (k + 52) := by
        rw [Nat.mul_comm]
        exact (Nat.pow_add 2 k 52).symm
      omega
    have reached : limit ≤ n :=
      limit_le_pow2_1024.trans ((pow2_le_pow2 (by omega)).trans filled)
    rw [pow2_52] at quotient
    omega

/-- A whole number has no double from the limit on. -/
theorem ofInt?_eq_none_iff (n : ℤ) : ofInt? n = none ↔ limit ≤ n.natAbs := by
  have infinite : ofInt? n = none ↔
      decode (nearest (decide (n < 0)) n.natAbs 1) = .infinite (decide (n < 0)) := by
    unfold ofInt?
    dsimp only
    split <;> simp_all
  rw [infinite]
  generalize decide (n < 0) = negative
  unfold nearest
  dsimp only
  rw [← signBit]
  split
  next zero =>
    rw [zero, ← Nat.add_zero (signBit negative),
      decode_ofBits_eq_infinite_iff negative (Nat.zero_le _)]
    have positive : limit ≠ 0 := (Nat.lt_of_lt_of_le (pow2_pos 1023) pow2_1023_le_limit).ne'
    simp [infinityBits_eq, positive]
  next nonzero =>
    rw [← infinityBits_le_wholeBits_iff (Nat.pos_of_ne_zero nonzero), ← wholeBits]
    split
    next reached =>
      have : decode (infinity negative) = .infinite negative :=
        (decode_ofBits_eq_infinite_iff negative (le_refl _)).mpr rfl
      simp [this, reached]
    next below =>
      rw [decode_ofBits_eq_infinite_iff negative (Nat.le_of_not_le below)]
      exact ⟨fun eq => eq.ge, fun reached => absurd reached below⟩

end Wireboard.Binary64
