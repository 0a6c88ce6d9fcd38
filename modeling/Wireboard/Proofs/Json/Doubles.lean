import Wireboard.Proofs.Json.RoundTrip
import Wireboard.Proofs.Number.Shortest

/-!
# Doubles read back

A double is written as a whole part, places behind a point and an exponent, of which either the
places or the exponent may be missing.  However the digits are laid out, the reader finds a decimal
of the same value (`exists_layout`, `Layout.readNumber_text`), and this rounds to the double.  So
every double that is a number reads back from its text (`readsBack_of_decode_ne`).
-/

namespace Wireboard.Json

open Binary64 Number

/-! ## Layouts -/

@[simp] theorem digitValues_append (cs ds : List Char) :
    digitValues (cs ++ ds) = digitValues cs ++ digitValues ds :=
  List.map_append

@[simp] theorem length_digitValues (cs : List Char) : (digitValues cs).length = cs.length :=
  List.length_map _

/-- The digits of a number that is no whole number to the reader. -/
structure Layout where
  whole : List Char
  places : List Char
  exponent : Option Int
  whole_digits : ∀ c ∈ whole, c.isDigit = true
  places_digits : ∀ c ∈ places, c.isDigit = true
  lead : whole = ['0'] ∨ ∃ c cs, whole = c :: cs ∧ c ≠ '0'
  double : places ≠ [] ∨ exponent ≠ none

namespace Layout

variable (l : Layout)

/-- The places behind their point. -/
def pointed : List Char := if l.places = [] then [] else '.' :: l.places

/-- The text of the exponent. -/
def scaled : List Char := l.exponent.elim [] fun e => (exponentText e).toList

/-- The text without a sign. -/
def text : List Char := l.whole ++ (l.pointed ++ l.scaled)

/-- All digits as one number. -/
def number : Nat := ofDigits (digitValues (l.whole ++ l.places))

/-- The power of ten of the last digit. -/
def weight : Int := l.exponent.getD 0 - l.places.length

end Layout

theorem exists_exponentText (e : Int) :
    ∃ ds, (exponentText e).toList = 'e' :: (if e < 0 then '-' else '+') :: ds ∧
      (∀ c ∈ ds, c.isDigit = true) ∧ ds ≠ [] ∧ ofDigits (digitValues ds) = e.natAbs := by
  unfold exponentText
  dsimp only
  rw [String.toList_append, ← String.length_toList, Nat.toList_repr]
  have digits := isDigit_of_mem_toDigits (m := e.natAbs)
  by_cases short : (Nat.toDigits 10 e.natAbs).length < 2
  · refine ⟨'0' :: _, ?_, List.forall_mem_cons.mpr ⟨rfl, digits⟩, List.cons_ne_nil _ _,
      ofDigits_toDigits _⟩
    split <;> simp
  · refine ⟨_, ?_, digits, Nat.toDigits_ne_nil, ofDigits_toDigits _⟩
    split <;> simp

theorem exponentPart_of_digits (negative : Bool) {ds : List Char}
    (digits : ∀ c ∈ ds, c.isDigit = true) (some : ds ≠ []) :
    exponentPart ('e' :: (if negative then '-' else '+') :: ds)
      = .some (if negative then -(ofDigits (digitValues ds) : Int)
        else ofDigits (digitValues ds), []) := by
  obtain ⟨c, cs, rfl⟩ := List.exists_cons_of_ne_nil some
  cases negative
  all_goals
    simp only [exponentPart, takeSign, Bool.false_eq_true, if_false, if_true, true_or,
      digitRun_of_digits digits]
    rfl

/-- An exponent reads back. -/
@[simp] theorem exponentPart_exponentText (e : Int) :
    exponentPart (exponentText e).toList = some (e, []) := by
  obtain ⟨ds, text, digits, some, value⟩ := exists_exponentText e
  have read := exponentPart_of_digits (decide (e < 0)) digits some
  rw [value] at read
  simp only [decide_eq_true_eq] at read
  rw [text, read]
  congr 2
  split <;> omega

namespace Layout

variable (l : Layout)

theorem stop_scaled : ∀ c ∈ l.scaled.head?, isAsciiDigit c = false := by
  unfold scaled
  cases l.exponent with
  | none => exact fun c member => by cases member
  | some e =>
    obtain ⟨ds, text, -⟩ := exists_exponentText e
    rw [Option.elim_some, text]
    rintro c ⟨⟩
    rfl

theorem stop_pointed : ∀ c ∈ (l.pointed ++ l.scaled).head?, isAsciiDigit c = false := by
  unfold pointed
  split
  next => exact l.stop_scaled
  next =>
    rintro c ⟨⟩
    rfl

theorem exists_head : ∃ c cs, l.text = c :: cs ∧ c.isDigit = true := by
  have head : ∃ c cs, l.whole = c :: cs := by
    rcases l.lead with zero | ⟨c, cs, eq, -⟩
    · exact ⟨_, _, zero⟩
    · exact ⟨c, cs, eq⟩
  obtain ⟨c, cs, eq⟩ := head
  refine ⟨c, _, by rw [text, eq, List.cons_append], ?_⟩
  exact l.whole_digits c (eq ▸ List.mem_cons_self)

@[simp] theorem wholePart_text :
    wholePart l.text = some (digitValues l.whole, l.pointed ++ l.scaled) := by
  rw [text]
  rcases l.lead with zero | ⟨c, cs, eq, nonzero⟩
  · rw [zero]
    rfl
  · rw [← digitRun_append_of_digits l.whole_digits l.stop_pointed]
    have digit : isAsciiDigit c = true :=
      isAsciiDigit_of_isDigit (l.whole_digits c (eq ▸ List.mem_cons_self))
    rw [eq, List.cons_append, wholePart_cons nonzero, if_pos digit]

@[simp] theorem placesPart_text : placesPart (l.pointed ++ l.scaled)
    = if l.places = [] then none else some (digitValues l.places, l.scaled) := by
  unfold pointed
  split
  next none =>
    unfold scaled
    cases l.exponent with
    | none => rfl
    | some e =>
      obtain ⟨ds, text, -⟩ := exists_exponentText e
      rw [Option.elim_some, text]
      rfl
  next some =>
    obtain ⟨c, cs, eq⟩ := List.exists_cons_of_ne_nil some
    have run := digitRun_append_of_digits l.places_digits l.stop_scaled
    rw [List.cons_append, placesPart, run, eq]
    rfl

@[simp] theorem exponentPart_scaled : exponentPart l.scaled = l.exponent.map fun e => (e, []) := by
  unfold scaled
  cases l.exponent with
  | none => rfl
  | some e => exact exponentPart_exponentText e

@[simp] theorem takeMinus_text (negative : Bool) :
    takeMinus ((if negative then ['-'] else []) ++ l.text) = (negative, l.text) := by
  cases negative with
  | true => rfl
  | false =>
    obtain ⟨c, cs, eq, digit⟩ := l.exists_head
    rw [eq]
    exact takeMinus_of_isDigit digit cs

/-- However it is laid out, the reader takes it for all the digits over their power of ten. -/
theorem readNumber_text (negative : Bool) :
    readNumber ((if negative then ['-'] else []) ++ l.text)
      = .ok (.float (ofDecimal negative l.number l.weight), []) := by
  have scaled := l.exponentPart_scaled
  rw [readNumber, l.takeMinus_text]
  dsimp only
  rw [l.wholePart_text]
  dsimp only
  rw [l.placesPart_text, number, weight, digitValues_append]
  by_cases none : l.places = []
  · obtain ⟨e, exponent⟩ := Option.ne_none_iff_exists'.mp (l.double.resolve_left (not_not.mpr none))
    have unpointed : l.pointed = [] := if_pos none
    rw [exponent] at scaled
    rw [if_pos none, Option.elim_none, unpointed, List.nil_append, scaled, exponent, none]
    rfl
  · rw [if_neg none, Option.elim_some, scaled, ← length_digitValues]
    cases exponent : l.exponent with
    | none =>
      have unscaled : l.scaled = [] := by rw [Layout.scaled, exponent, Option.elim_none]
      rw [unscaled]
      rfl
    | some e => rfl

end Layout

/-! ## The layouts of decimals -/

@[simp] theorem ofDigits_append (ds es : List Nat) :
    ofDigits (ds ++ es) = ofDigits ds * pow10 es.length + ofDigits es := by
  induction es using List.reverseRecOn with
  | nil => simp [ofDigits]
  | append_singleton es e ih =>
    have step : ∀ l : List Nat, ofDigits (l ++ [e]) = 10 * ofDigits l + e := fun l => by
      simp [ofDigits]
    rw [← List.append_assoc, step, step, ih, List.length_append, List.length_singleton,
      show pow10 (es.length + 1) = pow10 es.length * 10 from rfl]
    ring

@[simp] theorem ofDigits_zeros (n : Nat) : ofDigits (digitValues (List.replicate n '0')) = 0 := by
  induction n with
  | zero => rfl
  | succ n ih => exact ih

theorem isDigit_replicate (n : Nat) : ∀ c ∈ List.replicate n '0', c.isDigit = true :=
  fun _ member => List.eq_of_mem_replicate member ▸ rfl

/-- A layout of a decimal: the text of the decimal and a number of the same value. -/
structure Layout.Shows (l : Layout) (d : Shortest.Decimal) : Prop where
  text : (layOut valueStyle d).toList = l.text
  value : (l.number : ℚ) * 10 ^ l.weight = d.digits * 10 ^ d.exponent
  few : d.digits < pow10 20 → l.number < pow10 40

section Decimals

variable {d : Shortest.Decimal}

@[simp] theorem toList_zeros (n : Nat) : (zeros n).toList = List.replicate n '0' :=
  String.toList_ofList

/-- The power of ten of the first digit. -/
def leading (d : Shortest.Decimal) : Int := (Nat.repr d.digits).length + d.exponent - 1

theorem leading_eq (d : Shortest.Decimal) :
    leading d = (Nat.toDigits 10 d.digits).length + d.exponent - 1 := by
  rw [leading, ← String.length_toList, Nat.toList_repr]

/-- One digit before the point, and an exponent. -/
theorem exists_shows_of_far (positive : 0 < d.digits)
    (far : leading d < valueStyle.lowest ∨ valueStyle.highest ≤ leading d) :
    ∃ l : Layout, l.Shows d := by
  obtain ⟨c, cs, eq, nonzero⟩ := exists_toDigits_cons positive
  have digits := isDigit_of_mem_toDigits (m := d.digits)
  have value := ofDigits_toDigits d.digits
  rw [eq] at digits value
  obtain ⟨first, others⟩ := List.forall_mem_cons.mp digits
  refine ⟨⟨[c], cs, some (leading d), List.forall_mem_singleton.mpr first, others,
    .inr ⟨c, [], rfl, nonzero⟩, .inr (Option.some_ne_none _)⟩, ?_, ?_, fun few => ?_⟩
  · refine (congrArg String.toList (if_pos far)).trans ?_
    rw [Layout.text, Layout.pointed, Layout.scaled]
    simp only [String.toList_append, String.toList_ofList, Nat.toList_repr, eq, List.take_succ_cons,
      List.take_zero, List.drop_succ_cons, List.drop_zero, Option.elim_some, List.append_assoc]
    cases cs <;> simp [leading]
  · have weight : Option.getD (some (leading d)) 0 - cs.length = d.exponent := by
      rw [leading_eq, eq, List.length_cons, Option.getD_some]
      push_cast
      ring
    rw [Layout.number, Layout.weight, weight]
    congr 2
  · exact lt_trans (lt_of_eq_of_lt value few) (by decide)

section

variable (positive : 0 < d.digits)
  (near : ¬ (leading d < valueStyle.lowest ∨ valueStyle.highest ≤ leading d))
include positive near

/-- A whole number, with a point behind it. -/
theorem exists_shows_of_whole (whole : 0 ≤ d.exponent) : ∃ l : Layout, l.Shows d := by
  obtain ⟨c, cs, eq, nonzero⟩ := exists_toDigits_cons positive
  have value : ofDigits (digitValues (Nat.toDigits 10 d.digits
      ++ List.replicate d.exponent.toNat '0' ++ ['0']))
        = d.digits * pow10 (d.exponent.toNat + 1) := by
    rw [List.append_assoc, ← List.replicate_succ', digitValues_append, ofDigits_append,
      ofDigits_zeros, length_digitValues, List.length_replicate, Nat.add_zero]
    congr 1
    exact ofDigits_toDigits d.digits
  refine ⟨⟨Nat.toDigits 10 d.digits ++ List.replicate d.exponent.toNat '0', ['0'], none,
    List.forall_mem_append.mpr ⟨isDigit_of_mem_toDigits, isDigit_replicate _⟩,
    List.forall_mem_singleton.mpr rfl,
    .inr ⟨c, _, by rw [eq, List.cons_append], nonzero⟩, .inl (List.cons_ne_nil _ _)⟩, ?_, ?_,
    fun few => ?_⟩
  · refine (congrArg String.toList ((if_neg near).trans (if_pos whole))).trans ?_
    rw [Layout.text, Layout.pointed, Layout.scaled]
    simp [valueStyle, Nat.toList_repr]
  · rw [Layout.number, value, Layout.weight, Nat.cast_mul, cast_pow10, pow_succ, zpow_toNat whole]
    simp only [Option.getD_none, List.length_singleton]
    norm_num
    ring
  · have short : d.exponent.toNat + 1 ≤ 16 := by
      simp only [leading_eq, eq, List.length_cons, valueStyle] at near
      omega
    rw [Layout.number, value]
    calc d.digits * pow10 (d.exponent.toNat + 1)
        ≤ d.digits * pow10 16 := Nat.mul_le_mul_left _ (Nat.pow_le_pow_right (by decide) short)
      _ < pow10 20 * pow10 16 := Nat.mul_lt_mul_of_pos_right few (by decide)
      _ < pow10 40 := by decide

/-- Digits on either side of the point. -/
theorem exists_shows_of_pointed (places : ¬ 0 ≤ d.exponent) (first : 0 ≤ leading d) :
    ∃ l : Layout, l.Shows d := by
  obtain ⟨c, cs, eq, nonzero⟩ := exists_toDigits_cons positive
  have digits := isDigit_of_mem_toDigits (m := d.digits)
  have value := ofDigits_toDigits d.digits
  have length := leading_eq d
  have split := List.take_append_drop (leading d + 1).toNat (Nat.toDigits 10 d.digits)
  have behind : ((Nat.toDigits 10 d.digits).drop (leading d + 1).toNat).length
      = (-d.exponent).toNat := by
    rw [List.length_drop]
    omega
  have some : (Nat.toDigits 10 d.digits).drop (leading d + 1).toNat ≠ [] := by
    intro none
    rw [none, List.length_nil] at behind
    omega
  refine ⟨⟨(Nat.toDigits 10 d.digits).take (leading d + 1).toNat,
    (Nat.toDigits 10 d.digits).drop (leading d + 1).toNat, none,
    fun c member => digits c (List.mem_of_mem_take member),
    fun c member => digits c (List.mem_of_mem_drop member), .inr ⟨c, cs.take (leading d).toNat, ?_,
    nonzero⟩, .inl some⟩, ?_, ?_, fun few => ?_⟩
  · rw [eq, show (leading d + 1).toNat = (leading d).toNat + 1 by omega, List.take_succ_cons]
  · refine (congrArg String.toList
      ((if_neg near).trans ((if_neg places).trans (if_pos first)))).trans ?_
    rw [Layout.text, Layout.pointed, Layout.scaled, if_neg some]
    simp [leading, Nat.toList_repr]
  · rw [Layout.number, Layout.weight]
    dsimp only
    rw [split, behind, Option.getD_none]
    congr 2
    omega
  · rw [Layout.number, split]
    exact lt_trans (lt_of_eq_of_lt value few) (by decide)

omit positive in
/-- Zeros before the digits. -/
theorem exists_shows_of_small (places : ¬ 0 ≤ d.exponent) (first : ¬ 0 ≤ leading d) :
    ∃ l : Layout, l.Shows d := by
  have value : ofDigits (digitValues (['0'] ++ (List.replicate (-leading d - 1).toNat '0'
      ++ Nat.toDigits 10 d.digits))) = d.digits := by
    have zero : ofDigits (digitValues ['0']) = 0 := rfl
    rw [digitValues_append, ofDigits_append, digitValues_append, ofDigits_append, ofDigits_zeros,
      zero, Nat.zero_mul, Nat.zero_mul, Nat.zero_add, Nat.zero_add]
    exact ofDigits_toDigits d.digits
  refine ⟨⟨['0'], List.replicate (-leading d - 1).toNat '0' ++ Nat.toDigits 10 d.digits, none,
    List.forall_mem_singleton.mpr rfl,
    List.forall_mem_append.mpr ⟨isDigit_replicate _, isDigit_of_mem_toDigits⟩,
    .inl rfl, .inl fun none => Nat.toDigits_ne_nil (List.append_eq_nil_iff.mp none).2⟩, ?_, ?_,
    fun few => ?_⟩
  · refine (congrArg String.toList
      ((if_neg near).trans ((if_neg places).trans (if_neg first)))).trans ?_
    rw [Layout.text, Layout.pointed, Layout.scaled]
    simp [leading, Nat.toList_repr]
  · rw [Layout.number, Layout.weight, value, Option.getD_none, List.length_append,
      List.length_replicate]
    congr 2
    have := leading_eq d
    omega
  · rw [Layout.number, value]
    exact lt_trans few (by decide)

end

/-- Every decimal other than zero has a layout. -/
theorem exists_layout (positive : 0 < d.digits) : ∃ l : Layout, l.Shows d := by
  by_cases far : leading d < valueStyle.lowest ∨ valueStyle.highest ≤ leading d
  · exact exists_shows_of_far positive far
  · by_cases whole : 0 ≤ d.exponent
    · exact exists_shows_of_whole positive far whole
    · by_cases first : 0 ≤ leading d
      · exact exists_shows_of_pointed positive far whole first
      · exact exists_shows_of_small far whole first

end Decimals

/-! ## Reading back -/

@[simp] theorem toList_signText (negative : Bool) (text : String) :
    (signText negative text).toList = (if negative then ['-'] else []) ++ text.toList := by
  cases negative <;> simp [signText]

theorem Layout.reads (l : Layout) (negative : Bool) :
    Reads ((if negative then ['-'] else []) ++ l.text)
      (.float (ofDecimal negative l.number l.weight)) := by
  have digit : (((if negative then ['-'] else []) ++ l.text).take 2).any Char.isDigit = true := by
    obtain ⟨c, cs, eq, digit⟩ := l.exists_head
    rw [eq]
    cases negative <;> simp [digit]
  have atom := (readAtom_of_digit digit).trans (l.readNumber_text negative)
  refine @reads_of_readAtom _ [] _ ?_ rfl
  rw [skipSpace_of_readAtom atom]
  exact atom

/-- Zero is laid out by two digits, whatever its sign. -/
def zeroLayout : Layout :=
  ⟨['0'], ['0'], none, List.forall_mem_singleton.mpr rfl, List.forall_mem_singleton.mpr rfl,
    .inl rfl, .inl (List.cons_ne_nil _ _)⟩

/-- The text of a finite double is a layout that rounds to it. -/
theorem exists_layout_of_fits {p : Parts} (fits : p.Fits) :
    ∃ l : Layout, ofDecimal p.negative l.number l.weight = p.double ∧
      (if p.mantissa = 0 then signText p.negative "0.0" else
        signText p.negative (layOut valueStyle ((Shortest.decimal p).trim 400))).toList
      = (if p.negative then ['-'] else []) ++ l.text := by
  split
  next zero =>
    have none : zeroLayout.number = 0 := rfl
    refine ⟨zeroLayout, ?_, toList_signText _ _⟩
    rw [none]
    exact ofDecimal_zero fits zero _
  next nonzero =>
    obtain ⟨covers, few⟩ := Shortest.covers_trim_decimal fits nonzero 400
    have positive : 0 < ((Shortest.decimal p).trim 400).digits := by
      refine Nat.pos_of_ne_zero fun zero => ?_
      have := covers.positive nonzero
      rw [zero, Nat.cast_zero, zero_mul] at this
      exact lt_irrefl _ this
    obtain ⟨l, text, value, bound⟩ := exists_layout positive
    refine ⟨l, ofDecimal_of_covers fits nonzero (bound few) (value ▸ covers), ?_⟩
    rw [toList_signText, text]

/-- Every double that is a number reads back from its text. -/
theorem readsBack_of_decode_ne {x : Float} (number : decode x ≠ .notANumber) : ReadsBack x := by
  refine Reads.read ?_
  unfold shortestText
  cases decoded : decode x with
  | notANumber => exact absurd decoded number
  | infinite negative =>
    rw [eq_infinity_of_decode decoded]
    cases negative with
    | false => exact @reads_of_readAtom _ [] _ rfl rfl
    | true => exact @reads_of_readAtom _ [] _ rfl rfl
  | finite p =>
    obtain ⟨eq, fits⟩ := eq_double_of_decode decoded
    obtain ⟨l, double, text⟩ := exists_layout_of_fits fits
    have same : x = ofDecimal p.negative l.number l.weight := eq.trans double.symm
    dsimp only
    rw [text, same]
    exact l.reads p.negative

/-! ## What is read -/

theorem decode_ne_of_readNumber {cs tail : List Char} {v : Value}
    (ok : readNumber cs = .ok (v, tail)) : ∀ x ∈ v.doubles, decode x ≠ .notANumber := by
  unfold readNumber at ok
  dsimp only at ok
  split at ok
  next => cases ok
  next =>
    split at ok
    next =>
      split at ok
      next => cases ok
      next =>
        cases ok
        exact List.forall_mem_nil _
    next =>
      cases ok
      exact List.forall_mem_singleton.mpr (decode_ofDecimal_ne _ _ _)

/-- The doubles in what is read are numbers: a word stands for the one that is not. -/
theorem hereditary_number :
    Hereditary fun v => ∀ x ∈ v.doubles, decode x ≠ .notANumber where
  constant := by
    intro e member
    simp only [constants, List.mem_cons, List.not_mem_nil, or_false] at member
    rcases member with rfl | rfl | rfl | rfl | rfl | rfl
    · exact List.forall_mem_nil _
    · exact List.forall_mem_nil _
    · exact List.forall_mem_nil _
    · exact List.forall_mem_nil _
    · exact List.forall_mem_singleton.mpr (decode_infinity_ne false)
    · exact List.forall_mem_singleton.mpr (decode_infinity_ne true)
  number := decode_ne_of_readNumber
  str _ := List.forall_mem_nil _
  list each x inside :=
    have ⟨v, member, inside⟩ := Value.mem_doubles_list.mp inside
    each v member x inside
  obj each x inside :=
    have ⟨e, member, inside⟩ := Value.mem_doubles_obj.mp inside
    each e (Table.mem_of_mem_ofEntries member) x inside

theorem readsBack_of_read {text : String} {v : Value} (ok : read text = .ok v) :
    ∀ x ∈ v.doubles, ReadsBack x :=
  fun x inside => readsBack_of_decode_ne (hereditary_number.of_read ok x inside)

/-- What was read from a text is read again from its own text. -/
theorem read_line_of_read {text : String} {v : Value} (ok : read text = .ok v) :
    read (line v) = .ok v :=
  read_line (tidy_of_read ok) (readsBack_of_read ok)

end Wireboard.Json
