import Mathlib
import Wireboard.Value.Basic

/-!
# The places of numbers

Whole numbers and doubles are compared by their places on the line of the rationals, which has an
end on either side for the two infinite doubles.  Here the line is `WithBot (WithTop ℚ)`, so that
its order is a linear one and nothing has to be proved about it.  A finite double stands where its
signed mantissa times a power of two stands, without any rounding (`Num.place?`).

To be the same, to be less and to be at most are equality and order of the places
(`Num.same_eq`, `Num.lt_eq`, `Num.le_eq`).  A double has a place unless `Float.isNaN` says that
it is no number (`Num.place?_float_eq_none_iff`).
-/

namespace Wireboard

/-! ## The line -/

namespace Quantity

/-- The place on the line with two ends. -/
def place : Quantity → WithBot (WithTop ℚ)
  | .bottom => ⊥
  | .ratio q => ((q : WithTop ℚ) : WithBot (WithTop ℚ))
  | .top => ⊤

@[simp] theorem place_inj {p q : Quantity} : p.place = q.place ↔ p = q := by
  cases p <;> cases q <;> simp [place]

theorem lt_iff_place_lt {p q : Quantity} : p.lt q = true ↔ p.place < q.place := by
  have below (r : ℚ) : ((r : WithTop ℚ) : WithBot (WithTop ℚ)) < ⊤ :=
    WithBot.coe_lt_coe.mpr (WithTop.coe_lt_top r)
  cases p <;> cases q <;> simp [lt, place, below]

end Quantity

/-! ## Doubles -/

namespace Binary64

theorem Parts.value_eq (p : Parts) : p.value = p.signed * 2 ^ p.exponent := by
  unfold value pow2
  split
  next up =>
    obtain ⟨e, eq⟩ := Int.eq_ofNat_of_zero_le up
    rw [eq, Rat.mkRat_eq_div]
    simp
  next down =>
    obtain ⟨e, eq⟩ : ∃ e : ℕ, p.exponent = -e := ⟨(-p.exponent).toNat, by omega⟩
    rw [eq, Rat.mkRat_eq_div]
    simp [div_eq_mul_inv]

open Float.Model.UnpackedFloat in
/-- The bits of a double tell whether it is a number. -/
theorem isNaN_iff_decode {x : Float} : x.isNaN = true ↔ decode x = .notANumber := by
  let bits : BitVec Float.Model.Format.binary64.numBits := x.toBits.toBitVec
  have field : unpackExponent bits = -1#_ ↔ x.toBits.toNat / pow2 52 % 2048 = 2047 := by
    rw [← BitVec.toNat_inj, unpackExponent_def, BitVec.extractLsb'_toNat,
      Nat.shiftRight_eq_div_pow]
    rfl
  have fraction : unpackMantissa bits = 0#_ ↔ x.toBits.toNat % pow2 52 = 0 := by
    rw [← BitVec.toNat_inj, unpackMantissa_def, BitVec.extractLsb'_toNat, Nat.shiftRight_zero]
    rfl
  have unpacked : x.isNaN = (Float.Model.UnpackedFloat.unpack _ bits).isNaN := rfl
  rw [unpacked, isNaN_iff]
  unfold Float.Model.UnpackedFloat.unpack decode
  dsimp only
  by_cases full : unpackExponent bits = -1#_
  · rw [if_pos full, if_pos (field.mp full)]
    by_cases zero : unpackMantissa bits = 0#_
    · rw [if_pos zero, if_pos (fraction.mp zero)]
      simp
    · rw [if_neg zero, if_neg (fraction.not.mp zero)]
      simp
  · rw [if_neg full, if_neg (field.not.mp full)]
    constructor <;> intro wrong <;> split_ifs at wrong

end Binary64

/-! ## Numbers -/

namespace Num

open Binary64

/-- Where a number stands exactly, if it is one. -/
def place? : Num → Option (WithBot (WithTop ℚ))
  | .int n => some (((n : ℚ) : WithTop ℚ) : WithBot (WithTop ℚ))
  | .float x =>
    match decode x with
    | .notANumber => none
    | .infinite true => some ⊥
    | .infinite false => some ⊤
    | .finite p => some (((p.signed * 2 ^ p.exponent : ℚ) : WithTop ℚ) : WithBot (WithTop ℚ))

theorem place?_eq (n : Num) : n.place? = n.quantity?.map Quantity.place := by
  cases n with
  | int n => rfl
  | float x =>
    unfold place? Num.quantity? Binary64.quantity?
    dsimp only
    cases decode x with
    | notANumber => rfl
    | infinite negative => cases negative <;> rfl
    | finite p => simp only [Option.map_some, Quantity.place, Parts.value_eq]

/-- Every double has a place but those that are no numbers. -/
theorem place?_float_eq_none_iff {x : Float} : (Num.float x).place? = none ↔ x.isNaN = true := by
  rw [isNaN_iff_decode]
  unfold place?
  dsimp only
  cases decode x with
  | notANumber => simp
  | infinite negative => cases negative <;> simp
  | finite p => simp

variable {a b : Num} {p q : WithBot (WithTop ℚ)}

theorem same_eq (ha : a.place? = some p) (hb : b.place? = some q) :
    a.same b = decide (p = q) := by
  rw [place?_eq] at ha hb
  obtain ⟨p, left, rfl⟩ := Option.map_eq_some_iff.mp ha
  obtain ⟨q, right, rfl⟩ := Option.map_eq_some_iff.mp hb
  rw [same, left, right]
  exact decide_eq_decide.mpr Quantity.place_inj.symm

theorem lt_eq (ha : a.place? = some p) (hb : b.place? = some q) : a.lt b = decide (p < q) := by
  rw [place?_eq] at ha hb
  obtain ⟨p, left, rfl⟩ := Option.map_eq_some_iff.mp ha
  obtain ⟨q, right, rfl⟩ := Option.map_eq_some_iff.mp hb
  rw [lt, left, right, Bool.eq_iff_iff, decide_eq_true_iff]
  exact Quantity.lt_iff_place_lt

theorem le_eq (ha : a.place? = some p) (hb : b.place? = some q) : a.le b = decide (p ≤ q) := by
  rw [le, lt_eq ha hb, same_eq ha hb, ← Bool.decide_or]
  exact decide_eq_decide.mpr le_iff_lt_or_eq.symm

theorem same_comm (a b : Num) : a.same b = b.same a := by
  unfold same
  cases a.quantity? <;> cases b.quantity? <;> simp [eq_comm]

end Num

end Wireboard
