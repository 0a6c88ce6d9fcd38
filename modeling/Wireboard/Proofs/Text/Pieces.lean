import Mathlib.Data.List.TakeWhile
import Wireboard.Text.Digit
import Wireboard.Text.Pieces

/-!
# Pieces, letters and digits

A text is cut at marks.  A piece without the mark ends at the first mark, so a text that was put
together from such pieces is taken apart into them again (`Text.splitAt_intercalate`).

Which marks a piece has not is mostly said by the class of its characters.  The classes are ranges
of code points, so what is said of a class is said of the ends of its ranges.
-/

namespace Wireboard.Text

/-! ## Cuts -/

variable {c : Char} {xs ys xs' ys' : List Char}

theorem beforeFirst_of_notMem (free : c ∉ xs) : beforeFirst c xs = xs := by
  refine List.takeWhile_eq_self_iff.mpr fun x member => ?_
  exact bne_iff_ne.mpr fun same => free (same ▸ member)

theorem beforeFirst_append (free : c ∉ xs) : beforeFirst c (xs ++ c :: ys) = xs := by
  have kept : ∀ x ∈ xs, (x != c) = true := fun x member =>
    bne_iff_ne.mpr fun same => free (same ▸ member)
  rw [beforeFirst, List.takeWhile_append_of_pos kept, List.takeWhile_cons_of_neg (by simp),
    List.append_nil]

theorem afterFirst_append (free : c ∉ xs) : afterFirst c (xs ++ c :: ys) = ys := by
  have kept : ∀ x ∈ xs, (x != c) = true := fun x member =>
    bne_iff_ne.mpr fun same => free (same ▸ member)
  rw [afterFirst, List.dropWhile_append_of_pos kept, List.dropWhile_cons_of_neg (by simp)]
  rfl

theorem afterLast_of_notMem (free : c ∉ ys) : afterLast c ys = ys := by
  have free' : c ∉ ys.reverse := fun member => free (List.mem_reverse.mp member)
  rw [afterLast, ← beforeFirst, beforeFirst_of_notMem free', List.reverse_reverse]

theorem afterLast_append (free : c ∉ ys) : afterLast c (xs ++ c :: ys) = ys := by
  have free' : c ∉ ys.reverse := fun member => free (List.mem_reverse.mp member)
  rw [afterLast, List.reverse_append, List.reverse_cons, List.append_assoc, List.singleton_append,
    ← beforeFirst, beforeFirst_append free', List.reverse_reverse]

theorem splitAt_of_notMem (free : c ∉ xs) : splitAt c xs = [xs] := by
  induction xs with
  | nil => rfl
  | cons x xs ih =>
    obtain ⟨other, free⟩ := not_or.mp (List.mem_cons.not.mp free)
    rw [splitAt, if_neg (Ne.symm other), ih free]

theorem splitAt_append (free : c ∉ xs) : splitAt c (xs ++ c :: ys) = xs :: splitAt c ys := by
  induction xs with
  | nil => rw [List.nil_append, splitAt, if_pos rfl]
  | cons x xs ih =>
    obtain ⟨other, free⟩ := not_or.mp (List.mem_cons.not.mp free)
    rw [List.cons_append, splitAt, if_neg (Ne.symm other), ih free]

/-- The pieces are parts of the text, and the first one is its beginning. -/
theorem splitAt_infix (c : Char) (xs : List Char) :
    ∃ first rest, splitAt c xs = first :: rest ∧ first <+: xs ∧ ∀ piece ∈ rest, piece <:+: xs := by
  induction xs with
  | nil => exact ⟨[], [], rfl, List.nil_prefix, List.forall_mem_nil _⟩
  | cons x xs ih =>
    obtain ⟨first, rest, eq, front, parts⟩ := ih
    have later : ∀ piece ∈ rest, piece <:+: x :: xs := fun piece member =>
      List.infix_cons (parts piece member)
    rw [splitAt, eq]
    split
    next =>
      refine ⟨[], first :: rest, rfl, List.nil_prefix, List.forall_mem_cons.mpr ⟨?_, later⟩⟩
      exact List.infix_cons front.isInfix
    next => exact ⟨x :: first, rest, rfl, List.cons_prefix_cons.mpr ⟨rfl, front⟩, later⟩

theorem infix_of_mem_splitAt {piece : List Char} (member : piece ∈ splitAt c xs) :
    piece <:+: xs := by
  obtain ⟨first, rest, eq, front, parts⟩ := splitAt_infix c xs
  rw [eq] at member
  rcases List.mem_cons.mp member with rfl | later
  · exact front.isInfix
  · exact parts piece later

/-- Pieces without the mark are found again. -/
theorem splitAt_intercalate {pieces : List (List Char)} (some : pieces ≠ [])
    (free : ∀ piece ∈ pieces, c ∉ piece) : splitAt c ([c].intercalate pieces) = pieces := by
  induction pieces with
  | nil => exact absurd rfl some
  | cons piece rest ih =>
    obtain ⟨here, later⟩ := List.forall_mem_cons.mp free
    cases rest with
    | nil =>
      rw [List.intercalate_singleton]
      exact splitAt_of_notMem here
    | cons next rest =>
      rw [List.intercalate_cons_cons, List.append_assoc, List.singleton_append,
        splitAt_append here, ih (List.cons_ne_nil _ _) later]

/-- A text is the beginning of another, beyond the first mark of both, if the pieces before the mark
agree and the rest is the beginning of the rest. -/
theorem cut_prefix_iff (free : c ∉ xs) (free' : c ∉ xs') :
    xs ++ c :: ys <+: xs' ++ c :: ys' ↔ xs = xs' ∧ ys <+: ys' := by
  constructor
  · rintro ⟨more, eq⟩
    rw [List.append_assoc, List.cons_append] at eq
    have before := congrArg (beforeFirst c) eq
    have after := congrArg (afterFirst c) eq
    rw [beforeFirst_append free, beforeFirst_append free'] at before
    rw [afterFirst_append free, afterFirst_append free'] at after
    exact ⟨before, more, after⟩
  · rintro ⟨rfl, more, rfl⟩
    exact ⟨more, by simp⟩

/-! ## Letters and digits -/

theorem toNat_of_isDigit (digit : c.isDigit = true) : 48 ≤ c.toNat ∧ c.toNat ≤ 57 :=
  (Bool.and_eq_true_iff.mp digit).imp of_decide_eq_true of_decide_eq_true

theorem toNat_of_isAlphanum (plain : c.isAlphanum = true) : 48 ≤ c.toNat ∧ c.toNat ≤ 122 := by
  rcases Bool.or_eq_true_iff.mp plain with letter | digit
  · rcases Bool.or_eq_true_iff.mp letter with upper | lower
    · have range : 65 ≤ c.toNat ∧ c.toNat ≤ 90 := of_decide_eq_true upper
      omega
    · have range : 97 ≤ c.toNat ∧ c.toNat ≤ 122 :=
        (Bool.and_eq_true_iff.mp lower).imp of_decide_eq_true of_decide_eq_true
      omega
  · have range := toNat_of_isDigit digit
    omega

theorem isAlpha_of_lowerLetter (lower : (lowerLetter c).isLower = true) : c.isAlpha = true := by
  unfold lowerLetter at lower
  split at lower
  next upper => exact Bool.or_eq_true_iff.mpr (.inl (decide_eq_true upper))
  next => exact Bool.or_eq_true_iff.mpr (.inr lower)

theorem isAlpha_of_mem_lowerAscii (lower : (lowerAscii xs).all Char.isLower = true)
    (member : c ∈ xs) : c.isAlpha = true :=
  isAlpha_of_lowerLetter (List.all_eq_true.mp lower _ (List.mem_map_of_mem member))

/-- A digit has no small form. -/
theorem lowerLetter_of_toNat_lt (low : c.toNat < 65) : lowerLetter c = c := by
  refine if_neg fun upper => ?_
  have above : 65 ≤ c.toNat := upper.1
  omega

theorem lowerAscii_of_toNat_lt (low : ∀ x ∈ xs, x.toNat < 65) : lowerAscii xs = xs := by
  rw [lowerAscii, List.map_congr_left fun x member => lowerLetter_of_toNat_lt (low x member),
    List.map_id']

/-- The value of a decimal digit. -/
def digitValue (c : Char) : Nat := (decimalValue? c).getD 0

theorem decimalValue?_of_isDigit (digit : c.isDigit = true) :
    decimalValue? c = some (c.toNat - 48) := by
  have within := toNat_of_isDigit digit
  have range : '0' ≤ c ∧ c ≤ '9' := within
  rw [decimalValue?, if_pos (by omega), if_pos range]

theorem isDecimal_of_isDigit (digit : c.isDigit = true) : isDecimal c = true := by
  rw [isDecimal, decimalValue?_of_isDigit digit, Option.isSome_some]

theorem digitValue_of_isDigit (digit : c.isDigit = true) : digitValue c = c.toNat - 48 := by
  rw [digitValue, decimalValue?_of_isDigit digit, Option.getD_some]

theorem isDigit_of_isDecimal (decimal : isDecimal c = true) : isDigit c = true := by
  rw [isDigit, decimal, Bool.true_or]

/-! ## Digits of other scripts -/

/-- Where the digits of all sorts stand. -/
def digitRanges : List (Nat × Nat) := (zeroDigits.map fun z => (z, z + 9)) ++ otherDigitRanges

theorem exists_range_of_isDigit {c : Char} (digit : isDigit c = true) :
    ∃ r ∈ digitRanges, r.1 ≤ c.toNat ∧ c.toNat ≤ r.2 := by
  rcases Bool.or_eq_true_iff.mp digit with decimal | other
  · unfold isDecimal decimalValue? at decimal
    split at decimal
    next =>
      split at decimal
      next ascii =>
        have lower : 48 ≤ c.toNat := ascii.1
        have upper : c.toNat ≤ 57 := ascii.2
        exact ⟨(0x30, 0x30 + 9), by decide, lower, upper⟩
      next => cases decimal
    next =>
      rw [Option.isSome_map] at decimal
      obtain ⟨z, found⟩ := Option.isSome_iff_exists.mp decimal
      have within := List.find?_some found
      simp only [Bool.and_eq_true, decide_eq_true_eq] at within
      refine ⟨(z, z + 9), List.mem_append_left _ ?_, within.1, by omega⟩
      exact List.mem_map.mpr ⟨z, List.mem_of_find?_eq_some found, rfl⟩
  · obtain ⟨r, member, within⟩ := List.any_eq_true.mp other
    simp only [Bool.and_eq_true, decide_eq_true_eq] at within
    exact ⟨r, List.mem_append_right _ member, within⟩

/-- No digit is blank. -/
theorem isBlank_of_isDigit {c : Char} (digit : isDigit c = true) : isBlank c = false := by
  obtain ⟨r, member, low, high⟩ := exists_range_of_isDigit digit
  have apart : ∀ r ∈ digitRanges, ∀ r' ∈ blankRanges, r.2 < r'.1 ∨ r'.2 < r.1 := by decide +kernel
  refine Bool.eq_false_iff.mpr fun blank => ?_
  obtain ⟨r', member', within⟩ := List.any_eq_true.mp blank
  simp only [Bool.and_eq_true, decide_eq_true_eq] at within
  have := apart r member r' member'
  omega

end Wireboard.Text
