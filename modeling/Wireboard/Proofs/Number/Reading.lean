import Wireboard.Number.Reading
import Wireboard.Proofs.Text.Pieces

/-!
# Reading digits

Digits have no blanks around them and no sign before them, so what is left of reading a whole number
is to take the digits one by one.  Decimal digits of any script are all taken
(`readInt_of_decimals`), and of other digits something is left over (`readInt_of_others`).  So a
whole number is read as it was written, with its sign (`readInt_intText`).
-/

namespace Wireboard.Number

open Text

theorem isBlank_of_isPadding {c : Char} (padding : isPadding c = true) : isBlank c = true := by
  rcases Bool.or_eq_true_iff.mp padding with space | control
  · rw [beq_iff_eq.mp space]
    decide
  · simp only [Bool.and_eq_true, decide_eq_true_eq] at control
    exact List.any_eq_true.mpr ⟨(0x9, 0xd), by decide, by simpa using control⟩

variable {cs : List Char}

/-- Blanks around a text that has none in it are taken away. -/
theorem trim_append {P : Char → Bool} (blank : ∀ c, P c = true → isBlank c = true)
    {before after : List Char} (front : ∀ c ∈ before, P c = true) (back : ∀ c ∈ after, P c = true)
    (some : cs ≠ []) (solid : ∀ c ∈ cs, isBlank c = false) :
    (((before ++ (cs ++ after)).dropWhile P).reverse.dropWhile P).reverse = cs := by
  have drop {front cs : List Char} (after : List Char) (lead : ∀ c ∈ front, P c = true)
      (some : cs ≠ []) (solid : ∀ c ∈ cs, isBlank c = false) :
      (front ++ (cs ++ after)).dropWhile P = cs ++ after := by
    obtain ⟨c, cs, rfl⟩ := List.exists_cons_of_ne_nil some
    rw [List.dropWhile_append_of_pos lead]
    refine List.dropWhile_cons_of_neg fun first => ?_
    cases (blank c first).symm.trans (solid c List.mem_cons_self)
  have rest : (after.reverse ++ (cs.reverse ++ [])).dropWhile P = cs.reverse ++ [] :=
    drop [] (fun c member => back c (List.mem_reverse.mp member))
      (fun none => some (List.reverse_eq_nil_iff.mp none))
      fun c member => solid c (List.mem_reverse.mp member)
  rw [List.append_nil] at rest
  rw [drop after front some solid, List.reverse_append, rest, List.reverse_reverse]

theorem unpad_of_solid (some : cs ≠ []) (solid : ∀ c ∈ cs, isBlank c = false) : unpad cs = cs := by
  have nothing (P : Char → Bool) : ∀ c ∈ [], P c = true := fun _ member => by cases member
  have trimmed {P : Char → Bool} (blank : ∀ c, P c = true → isBlank c = true) :=
    trim_append blank (nothing P) (nothing P) some solid
  simp only [List.nil_append, List.append_nil] at trimmed
  unfold unpad strip
  split
  · exact trimmed fun _ => isBlank_of_isPadding
  · exact trimmed fun _ => id

/-- There are no blanks to take away around digits. -/
theorem unpad_of_digits (some : cs ≠ []) (digits : cs.all isDigit = true) : unpad cs = cs :=
  unpad_of_solid some fun c member => isBlank_of_isDigit (List.all_eq_true.mp digits c member)

theorem takeSign_of_digits (digits : cs.all isDigit = true) : takeSign cs = (false, cs) := by
  unfold takeSign
  split
  next => exact absurd (List.all_eq_true.mp digits '-' List.mem_cons_self) (by decide)
  next => exact absurd (List.all_eq_true.mp digits '+' List.mem_cons_self) (by decide)
  next => rfl

/-- Decimal digits are taken one by one. -/
theorem takeDigitsAfter_of_decimals (digit : Bool) (decimals : cs.all isDecimal = true) :
    takeDigitsAfter digit cs = (cs.map digitValue, []) := by
  induction cs generalizing digit with
  | nil => rfl
  | cons c cs ih =>
    rw [List.all_cons, Bool.and_eq_true] at decimals
    obtain ⟨d, value⟩ := Option.isSome_iff_exists.mp decimals.1
    rw [takeDigitsAfter, value, ih true decimals.2, List.map_cons, digitValue, value,
      Option.getD_some]

/-- Something is left over where not all digits are decimal. -/
theorem takeDigitsAfter_of_others (digit : Bool) (digits : cs.all isDigit = true)
    (other : cs.all isDecimal = false) : (takeDigitsAfter digit cs).2 ≠ [] := by
  induction cs generalizing digit with
  | nil => cases other
  | cons c cs ih =>
    rw [List.all_cons, Bool.and_eq_true] at digits
    rw [List.all_cons] at other
    unfold takeDigitsAfter
    cases value : decimalValue? c with
    | some d =>
      rw [isDecimal, value] at other
      exact ih true digits.2 other
    | none =>
      have plain : c ≠ '_' := by
        rintro rfl
        exact absurd digits.1 (by decide)
      rw [if_neg fun mark => plain mark.1]
      exact List.cons_ne_nil _ _

/-- Decimal digits after a sign are read unless they are too many. -/
theorem readInt_of_takeSign {body : List Char} {negative : Bool} (unpadded : unpad cs = cs)
    (sign : takeSign cs = (negative, body)) (some : body ≠ [])
    (decimals : body.all isDecimal = true) :
    readInt cs = if digitLimit < body.length then .tooLong body.length
      else .value (if negative then -(ofDigits (body.map digitValue) : Int)
        else ofDigits (body.map digitValue)) := by
  unfold readInt takeDigits
  rw [unpadded, sign]
  dsimp only
  rw [takeDigitsAfter_of_decimals false decimals, ← List.length_map digitValue]
  cases mapped : body.map digitValue with
  | nil => exact absurd (List.map_eq_nil_iff.mp mapped) some
  | cons d ds => rfl

theorem readInt_of_decimals (some : cs ≠ []) (decimals : cs.all isDecimal = true) :
    readInt cs = if digitLimit < cs.length then .tooLong cs.length
      else .value (ofDigits (cs.map digitValue)) := by
  have digits : cs.all isDigit = true := List.all_eq_true.mpr fun c member =>
    isDigit_of_isDecimal (List.all_eq_true.mp decimals c member)
  exact readInt_of_takeSign (unpad_of_digits some digits) (takeSign_of_digits digits) some decimals

/-- Digits of another sort are no number. -/
theorem readInt_of_others (digits : cs.all isDigit = true) (other : cs.all isDecimal = false) :
    readInt cs = .malformed := by
  have left := takeDigitsAfter_of_others false digits other
  have some : cs ≠ [] := by
    rintro rfl
    cases other
  unfold readInt takeDigits
  rw [unpad_of_digits some digits, takeSign_of_digits digits]
  dsimp only
  cases taken : takeDigitsAfter false cs with
  | mk ds rest =>
    rw [taken] at left
    cases rest with
    | nil => exact absurd rfl left
    | cons c rest => cases ds <;> rfl

/-- Digits of ASCII write the number that they write in the library. -/
theorem ofDigits_of_isDigit (digits : ∀ c ∈ cs, c.isDigit = true) :
    cs.all isDecimal = true ∧ ofDigits (cs.map digitValue) = Nat.ofDigitChars 10 cs 0 := by
  have values : cs.map digitValue = cs.map (·.toNat - 48) :=
    List.map_congr_left fun c member => digitValue_of_isDigit (digits c member)
  refine ⟨List.all_eq_true.mpr fun c member => isDecimal_of_isDigit (digits c member), ?_⟩
  rw [values, ofDigits, List.foldl_map, Nat.ofDigitChars_eq_foldl]
  rfl

theorem readInt_of_isDigit (some : cs ≠ []) (digits : ∀ c ∈ cs, c.isDigit = true)
    (few : cs.length ≤ digitLimit) : readInt cs = .value (Nat.ofDigitChars 10 cs 0) := by
  obtain ⟨decimals, value⟩ := ofDigits_of_isDigit digits
  rw [readInt_of_decimals some decimals, if_neg (Nat.not_lt.mpr few), value]

theorem isDigit_of_mem_toDigits {m : Nat} : ∀ c ∈ Nat.toDigits 10 m, c.isDigit = true :=
  fun _ member => Nat.isDigit_of_mem_toDigits (by decide) (by decide) member

/-- A whole number that is written in decimal digits is read as it was written. -/
theorem readInt_toDigits {m : Nat} (few : (Nat.toDigits 10 m).length ≤ digitLimit) :
    readInt (Nat.toDigits 10 m) = .value m := by
  rw [readInt_of_isDigit Nat.toDigits_ne_nil isDigit_of_mem_toDigits few,
    Nat.ofDigitChars_ten_toDigits]

theorem toList_intText_negSucc (m : Nat) :
    (intText (.negSucc m)).toList = '-' :: Nat.toDigits 10 (m + 1) := by
  rw [intText, String.toList_append, Nat.toList_repr]
  rfl

/-- There is something in the text of a whole number, and no blank. -/
theorem solid_intText (n : Int) :
    (intText n).toList ≠ [] ∧ ∀ c ∈ (intText n).toList, isBlank c = false := by
  have digits {m : Nat} : ∀ c ∈ Nat.toDigits 10 m, isBlank c = false := fun c member =>
    isBlank_of_isDigit (isDigit_of_isDecimal (isDecimal_of_isDigit
      (isDigit_of_mem_toDigits c member)))
  cases n with
  | ofNat m =>
    rw [intText, Nat.toList_repr]
    exact ⟨Nat.toDigits_ne_nil, digits⟩
  | negSucc m =>
    rw [toList_intText_negSucc]
    exact ⟨List.cons_ne_nil _ _, List.forall_mem_cons.mpr ⟨by decide, digits⟩⟩

/-- A whole number is read as it was written, with its sign. -/
theorem readInt_intText {n : Int} (few : (Nat.toDigits 10 n.natAbs).length ≤ digitLimit) :
    readInt (intText n).toList = .value n := by
  have unpadded := unpad_of_solid (solid_intText n).1 (solid_intText n).2
  cases n with
  | ofNat m =>
    rw [intText, Nat.toList_repr]
    exact readInt_toDigits few
  | negSucc m =>
    obtain ⟨decimals, value⟩ := ofDigits_of_isDigit (isDigit_of_mem_toDigits (m := m + 1))
    rw [toList_intText_negSucc] at unpadded ⊢
    rw [Int.natAbs_negSucc] at few
    rw [readInt_of_takeSign unpadded rfl Nat.toDigits_ne_nil decimals,
      if_neg (Nat.not_lt.mpr few), value, Nat.ofDigitChars_ten_toDigits]
    rfl

/-- A whole number has a text if it has few enough digits. -/
theorem hasText_iff {n : Int} :
    hasText n = true ↔ (Nat.toDigits 10 n.natAbs).length ≤ digitLimit := by
  have below {m limit : Nat} (positive : 0 < limit) :
      m < pow10 limit ↔ (Nat.toDigits 10 m).length ≤ limit :=
    (Nat.length_toDigits_le_iff (by decide) positive).symm
  exact decide_eq_true_iff.trans (below (by decide))

end Wireboard.Number
