import Wireboard.Json.Printer
import Wireboard.Json.Reader
import Wireboard.Proofs.Number.Reading

/-!
# Reading back what was written: texts, numbers and words

The reader takes the longest token that stands at the start of a text, so a token reads back only if
what follows does not go on with it.  In a written text a comma, a new line, a closing bracket or
nothing at all follows a value; `Delimited` says so, and the `_append` lemmas say that such a
continuation is left alone.  With them it is enough to know how a token reads on its own.
-/

namespace Wireboard.Json

/-! ## Texts -/

/-- The two digits of a control character, behind two zeros. -/
theorem hexDigits_of_lt_32 : ∀ n < 32,
    Text.hexDigits 4 n = ['0', '0', (n / 16).digitChar, (n % 16).digitChar] := by
  decide

theorem hexFour?_of_lt_32 : ∀ n < 32,
    hexFour? '0' '0' (n / 16).digitChar (n % 16).digitChar = some n := by
  decide

/-- A step that gives a character puts it in front of what the rest gives. -/
theorem scanString_of_step {opening rest : List Char} {c x : Char} {size : Nat}
    (step : stringStep opening c rest = .char x size) :
    scanString opening 0 (c :: rest)
      = (scanString opening (size - 1) rest).map fun r => (x :: r.1, r.2) := by
  simp only [scanString, step]
  cases scanString opening (size - 1) rest <;> rfl

/-- An escape by a letter is one step of two characters. -/
theorem scanString_letter {opening tail : List Char} {e c x : Char} (same : c = x)
    (step : stringStep opening '\\' (e :: tail) = .char x 2) :
    scanString opening 0 ('\\' :: e :: tail)
      = (scanString opening 0 tail).map fun r => (c :: r.1, r.2) :=
  same ▸ scanString_of_step step

/-- An escape by four digits is one step of six characters.  It looks at one character behind the
digits, so there must be one. -/
theorem scanString_control (opening : List Char) {n : Nat} (control : n < 32) (e : Char)
    (rest : List Char) :
    scanString opening 0 ('\\' :: 'u' :: Text.hexDigits 4 n ++ e :: rest)
      = (scanString opening 0 (e :: rest)).map fun r => (Char.ofNat n :: r.1, r.2) := by
  have plain : ¬ (0xd800 ≤ n ∧ n < 0xdc00) := by omega
  have char : Text.charOf n = Char.ofNat n := by
    have noHalf : Text.isSurrogate n = false := by
      simp only [Text.isSurrogate, Bool.and_eq_false_iff, decide_eq_false_iff_not]
      omega
    simp only [Text.charOf, noHalf, Bool.false_eq_true, if_false]
    rw [if_neg (by omega)]
  have step : stringStep opening '\\'
      ('u' :: '0' :: '0' :: (n / 16).digitChar :: (n % 16).digitChar :: e :: rest)
        = .char (Char.ofNat n) 6 := by
    show codePointStep ('0' :: '0' :: (n / 16).digitChar :: (n % 16).digitChar :: e :: rest) = _
    simp only [codePointStep, hexFour?_of_lt_32 n control, if_neg plain, char]
  rw [hexDigits_of_lt_32 n control]
  exact scanString_of_step step

/-- A written character reads back as itself. -/
theorem scanString_escape (opening : List Char) (c : Char) {tail : List Char} (more : tail ≠ []) :
    scanString opening 0 (escape c ++ tail)
      = (scanString opening 0 tail).map fun r => (c :: r.1, r.2) := by
  obtain ⟨e, rest, rfl⟩ := List.exists_cons_of_ne_nil more
  have byCode {n : Nat} (code : c.toNat = n) : c = Char.ofNat n := by
    rw [← code, Char.ofNat_toNat]
  unfold escape
  split
  next same => exact scanString_letter same rfl
  next noQuote =>
  split
  next same => exact scanString_letter same rfl
  next noBackslash =>
  split
  next same => exact scanString_letter same rfl
  next =>
  split
  next same => exact scanString_letter same rfl
  next =>
  split
  next same => exact scanString_letter same rfl
  next =>
  split
  next code => exact scanString_letter (byCode code) rfl
  next =>
  split
  next code => exact scanString_letter (byCode code) rfl
  next =>
  split
  next control =>
    have reads := scanString_control opening control e rest
    rw [Char.ofNat_toNat] at reads
    exact reads
  next plain =>
    have step : stringStep opening c (e :: rest) = .char c 1 := by
      simp only [stringStep, if_neg noQuote, if_neg noBackslash, if_neg plain]
    exact scanString_of_step step

/-- A written text reads back as itself, up to its closing quote. -/
theorem scanString_flatMap_escape (opening s tail : List Char) :
    scanString opening 0 (s.flatMap escape ++ '"' :: tail) = .ok (s, tail) := by
  induction s with
  | nil => rfl
  | cons c s ih =>
    rw [List.flatMap_cons, List.append_assoc, scanString_escape opening c (by simp), ih]
    rfl

/-! ## What may follow -/

/-- What may stand behind a value. -/
def delimiters : List Char := [',', '\n', ']', '\x7d']

/-- Nothing, a comma, a new line or a closing bracket follows. -/
def Delimited (rest : List Char) : Prop := rest = [] ∨ ∃ c ∈ delimiters, ∃ tail, rest = c :: tail

theorem delimited_cons {c : Char} (known : c ∈ delimiters) (tail : List Char) :
    Delimited (c :: tail) :=
  .inr ⟨c, known, tail, rfl⟩

theorem Delimited.cases {rest : List Char} (delimited : Delimited rest) :
    rest = [] ∨ ∃ tail, rest = ',' :: tail ∨ rest = '\n' :: tail ∨ rest = ']' :: tail
      ∨ rest = '\x7d' :: tail := by
  rcases delimited with none | ⟨c, known, tail, rfl⟩
  · exact .inl none
  · refine .inr ⟨tail, ?_⟩
    simpa [delimiters] using known

/-! ## Numbers -/

section Numbers

variable {rest : List Char} (cs : List Char) (delimited : Delimited rest)
include delimited

theorem digitRun_append :
    digitRun (cs ++ rest) = ((digitRun cs).1, (digitRun cs).2 ++ rest) := by
  induction cs with
  | nil => rcases delimited.cases with rfl | ⟨tail, rfl | rfl | rfl | rfl⟩ <;> rfl
  | cons c cs ih =>
    simp only [digitRun, Prod.mk.injEq] at ih ⊢
    cases digit : isAsciiDigit c with
    | false => simp [digit]
    | true => simpa [List.takeWhile_cons, List.dropWhile_cons, digit] using ih

theorem placesPart_append :
    placesPart (cs ++ rest) = (placesPart cs).map fun r => (r.1, r.2 ++ rest) := by
  cases cs with
  | nil => rcases delimited.cases with rfl | ⟨tail, rfl | rfl | rfl | rfl⟩ <;> rfl
  | cons c cs =>
    by_cases point : c = '.'
    · rw [point]
      simp only [placesPart, List.cons_append, digitRun_append cs delimited]
      cases found : digitRun cs with
      | mk ds tail => cases ds <;> rfl
    · simp [placesPart, point]

theorem takeSign_append :
    Number.takeSign (cs ++ rest) = ((Number.takeSign cs).1, (Number.takeSign cs).2 ++ rest) := by
  cases cs with
  | nil => rcases delimited.cases with rfl | ⟨tail, rfl | rfl | rfl | rfl⟩ <;> rfl
  | cons c cs =>
    by_cases minus : c = '-'
    · rw [minus]; rfl
    · by_cases plus : c = '+'
      · rw [plus]; rfl
      · simp [Number.takeSign, minus, plus]

theorem exponentPart_append :
    exponentPart (cs ++ rest) = (exponentPart cs).map fun r => (r.1, r.2 ++ rest) := by
  cases cs with
  | nil => rcases delimited.cases with rfl | ⟨tail, rfl | rfl | rfl | rfl⟩ <;> rfl
  | cons c cs =>
    simp only [exponentPart, List.cons_append, takeSign_append cs delimited]
    split
    next =>
      rw [digitRun_append _ delimited]
      cases found : digitRun (Number.takeSign cs).2 with
      | mk ds tail => cases ds <;> rfl
    next => rfl

theorem takeMinus_append :
    takeMinus (cs ++ rest) = ((takeMinus cs).1, (takeMinus cs).2 ++ rest) := by
  cases cs with
  | nil => rcases delimited.cases with rfl | ⟨tail, rfl | rfl | rfl | rfl⟩ <;> rfl
  | cons c cs =>
    by_cases minus : c = '-'
    · rw [minus]; rfl
    · simp [takeMinus, minus]

omit delimited in
theorem wholePart_cons {c : Char} (nonzero : c ≠ '0') (cs : List Char) : wholePart (c :: cs)
    = if isAsciiDigit c then some (digitRun (c :: cs)) else none := by
  simp [wholePart]

variable {cs}

theorem wholePart_append {found : List Nat × List Char} (whole : wholePart cs = some found) :
    wholePart (cs ++ rest) = some (found.1, found.2 ++ rest) := by
  cases cs with
  | nil => cases whole
  | cons c cs =>
    by_cases zero : c = '0'
    · rw [zero] at whole ⊢
      cases whole
      rfl
    · rw [wholePart_cons zero] at whole
      rw [List.cons_append, wholePart_cons zero, ← List.cons_append, digitRun_append _ delimited]
      split at whole
      next digit =>
        cases whole
        rw [if_pos digit]
      next => cases whole

/-- A number that is followed by nothing it could go on with reads as it does on its own. -/
theorem readNumber_append {v : Value} {tail : List Char} (ok : readNumber cs = .ok (v, tail)) :
    readNumber (cs ++ rest) = .ok (v, tail ++ rest) := by
  unfold readNumber at ok ⊢
  rw [takeMinus_append cs delimited]
  dsimp only at ok ⊢
  cases whole : wholePart (takeMinus cs).2 with
  | none =>
    rw [whole] at ok
    cases ok
  | some found =>
    obtain ⟨ds, afterWhole⟩ := found
    rw [whole] at ok
    rw [wholePart_append delimited whole]
    dsimp only at ok ⊢
    rw [placesPart_append afterWhole delimited]
    cases places : placesPart afterWhole with
    | none =>
      rw [places] at ok
      dsimp only [Option.map_none, Option.elim_none] at ok ⊢
      rw [exponentPart_append afterWhole delimited]
      cases exponent : exponentPart afterWhole with
      | none =>
        rw [exponent] at ok
        dsimp only [Option.map_none] at ok ⊢
        split at ok
        next => cases ok
        next short =>
          cases ok
          rw [if_neg short]
      | some e =>
        rw [exponent] at ok
        cases ok
        rfl
    | some p =>
      rw [places] at ok
      dsimp only [Option.map_some, Option.elim_some] at ok ⊢
      rw [exponentPart_append p.2 delimited]
      cases exponent : exponentPart p.2 with
      | none | some =>
        rw [exponent] at ok
        cases ok
        rfl

end Numbers

/-! ## Whole numbers -/

theorem isAsciiDigit_of_isDigit {c : Char} (digit : c.isDigit = true) : isAsciiDigit c = true := by
  simpa [Char.isDigit, isAsciiDigit, Char.le_def] using digit

/-- The values of digits. -/
def digitValues (cs : List Char) : List Nat := cs.map (·.toNat - 48)

theorem digitRun_append_of_digits {cs rest : List Char} (digits : ∀ c ∈ cs, c.isDigit = true)
    (stop : ∀ c ∈ rest.head?, isAsciiDigit c = false) :
    digitRun (cs ++ rest) = (digitValues cs, rest) := by
  induction cs with
  | nil =>
    cases rest with
    | nil => rfl
    | cons c rest => simp [digitRun, digitValues, stop c rfl]
  | cons c cs ih =>
    obtain ⟨first, others⟩ := List.forall_mem_cons.mp digits
    have run := ih others
    simp only [digitRun, digitValues, Prod.mk.injEq] at run ⊢
    simpa [isAsciiDigit_of_isDigit first] using run

theorem digitRun_of_digits {cs : List Char} (digits : ∀ c ∈ cs, c.isDigit = true) :
    digitRun cs = (digitValues cs, []) := by
  rw [← digitRun_append_of_digits digits (by simp), List.append_nil]

/-- A number other than zero does not begin with a zero. -/
theorem exists_toDigits_cons {m : Nat} (positive : 0 < m) :
    ∃ c cs, Nat.toDigits 10 m = c :: cs ∧ c ≠ '0' := by
  induction m using Nat.strongRecOn with
  | ind m ih =>
    rw [Nat.toDigits_eq_if (by decide)]
    split
    next small => exact ⟨_, [], rfl, fun zero => by simp at zero; omega⟩
    next big =>
      obtain ⟨c, cs, eq, nonzero⟩ := ih (m / 10) (by omega) (by omega)
      rw [eq]
      exact ⟨c, _, rfl, nonzero⟩

@[simp] theorem ofDigits_toDigits (m : Nat) :
    Number.ofDigits (digitValues (Nat.toDigits 10 m)) = m := by
  have reads : Nat.ofDigitChars 10 (Nat.toDigits 10 m) 0 = m := Nat.ofDigitChars_ten_toDigits
  rw [Nat.ofDigitChars_eq_foldl] at reads
  rw [Number.ofDigits, digitValues, List.foldl_map]
  exact reads

@[simp] theorem wholePart_toDigits (m : Nat) :
    wholePart (Nat.toDigits 10 m) = some (digitValues (Nat.toDigits 10 m), []) := by
  rcases Nat.eq_zero_or_pos m with rfl | positive
  · rfl
  · have digits := Number.isDigit_of_mem_toDigits (m := m)
    rw [← digitRun_of_digits digits]
    obtain ⟨c, cs, eq, nonzero⟩ := exists_toDigits_cons positive
    rw [eq] at digits ⊢
    rw [wholePart_cons nonzero, if_pos (isAsciiDigit_of_isDigit (digits c List.mem_cons_self))]

theorem takeMinus_of_isDigit {c : Char} (digit : c.isDigit = true) (cs : List Char) :
    takeMinus (c :: cs) = (false, c :: cs) := by
  unfold takeMinus
  split
  next same =>
    cases same
    exact absurd digit (by decide)
  next => rfl

@[simp] theorem takeMinus_toDigits (m : Nat) :
    takeMinus (Nat.toDigits 10 m) = (false, Nat.toDigits 10 m) := by
  obtain ⟨c, cs, eq⟩ := List.exists_cons_of_ne_nil (Nat.toDigits_ne_nil (n := m) (b := 10))
  have digit := Number.isDigit_of_mem_toDigits c (eq ▸ List.mem_cons_self)
  rw [eq, takeMinus_of_isDigit digit]

theorem readNumber_of_whole {cs body : List Char} {negative : Bool} {ds : List Nat}
    (sign : takeMinus cs = (negative, body)) (whole : wholePart body = some (ds, []))
    (few : ds.length ≤ Number.digitLimit) :
    readNumber cs = .ok
      (.int (if negative then -(Number.ofDigits ds : Int) else Number.ofDigits ds), []) := by
  have short : ¬ Number.digitLimit < ds.length := Nat.not_lt.mpr few
  simp only [readNumber, sign, whole, placesPart, exponentPart, Option.elim_none, if_neg short]

/-- A whole number of few enough digits reads back. -/
theorem readNumber_intText {n : Int} (short : Number.hasText n = true) :
    readNumber (Number.intText n).toList = .ok (.int n, []) := by
  have few : (digitValues (Nat.toDigits 10 n.natAbs)).length ≤ Number.digitLimit :=
    (List.length_map _).trans_le (Number.hasText_iff.mp short)
  cases n with
  | ofNat m =>
    rw [Number.intText, Nat.toList_repr,
      readNumber_of_whole (takeMinus_toDigits m) (wholePart_toDigits m) few, ofDigits_toDigits]
    rfl
  | negSucc m =>
    have sign : takeMinus (Number.intText (.negSucc m)).toList = (true, Nat.toDigits 10 (m + 1)) :=
      congrArg takeMinus (Number.toList_intText_negSucc m)
    rw [readNumber_of_whole sign (wholePart_toDigits (m + 1)) few, ofDigits_toDigits]
    rfl

/-! ## Words -/

theorem afterWord?_append {word cs rest tail : List Char} (found : afterWord? word cs = some tail) :
    afterWord? word (cs ++ rest) = some (tail ++ rest) := by
  unfold afterWord? at found ⊢
  split at found
  next isPrefix =>
    cases found
    obtain ⟨suffix, rfl⟩ := List.isPrefixOf_iff_prefix.mp isPrefix
    rw [if_pos (List.isPrefixOf_iff_prefix.mpr ⟨suffix ++ rest, by rw [List.append_assoc]⟩)]
    simp
  next => cases found

/-- A word without delimiters does not go on into what follows a value. -/
theorem afterWord?_append_eq_none {word cs rest : List Char} (delimited : Delimited rest)
    (plain : ∀ c ∈ delimiters, c ∉ word) (missing : afterWord? word cs = none) :
    afterWord? word (cs ++ rest) = none := by
  have absent : ¬ word <+: cs := by
    intro within
    rw [afterWord?, if_pos (List.isPrefixOf_iff_prefix.mpr within)] at missing
    cases missing
  refine if_neg fun isPrefix => ?_
  have within : word <+: cs ++ rest := List.isPrefixOf_iff_prefix.mp isPrefix
  rcases List.prefix_or_prefix_of_prefix within (List.prefix_append cs rest) with short | long
  · exact absent short
  · obtain ⟨more, rfl⟩ := long
    have ahead : more <+: rest := (List.prefix_append_right_inj cs).mp within
    cases more with
    | nil => exact absent ⟨[], by simp⟩
    | cons c more =>
      have member : c ∈ cs ++ c :: more := by simp
      obtain ⟨tail, rfl⟩ := ahead
      rcases delimited with none | ⟨d, known, _, same⟩
      · cases none
      · cases same
        exact plain c known member

/-- The first of some words that stands at the start of a text, and what follows. -/
theorem findSome?_append {cs rest : List Char} (words : List (List Char × Value))
    (delimited : Delimited rest) (plain : ∀ e ∈ words, ∀ c ∈ delimiters, c ∉ e.1) :
    words.findSome? (fun e => (afterWord? e.1 (cs ++ rest)).map fun tail => (e.2, tail))
      = (words.findSome? fun e => (afterWord? e.1 cs).map fun tail => (e.2, tail)).map
        fun r => (r.1, r.2 ++ rest) := by
  induction words with
  | nil => rfl
  | cons e words ih =>
    obtain ⟨first, others⟩ := List.forall_mem_cons.mp plain
    cases found : afterWord? e.1 cs with
    | none => simp [found, afterWord?_append_eq_none delimited first found, ih others]
    | some tail => simp [found, afterWord?_append found]

theorem constants_plain : ∀ e ∈ constants, ∀ c ∈ delimiters, c ∉ e.1 := by
  have none : (constants.all fun e => delimiters.all fun c => !e.1.contains c) = true := by decide
  intro e member c delimiter
  have here := List.all_eq_true.mp (List.all_eq_true.mp none e member) c delimiter
  simpa using here

/-- A word or a number that is followed by nothing it could go on with reads as it does on its
own. -/
theorem readAtom_append {cs rest tail : List Char} {v : Value} (delimited : Delimited rest)
    (ok : readAtom cs = .ok (v, tail)) : readAtom (cs ++ rest) = .ok (v, tail ++ rest) := by
  unfold readAtom at ok ⊢
  rw [findSome?_append constants delimited constants_plain]
  cases found : constants.findSome? fun e => (afterWord? e.1 cs).map fun tail => (e.2, tail) with
  | none =>
    rw [found] at ok
    exact readNumber_append delimited ok
  | some r =>
    rw [found] at ok
    cases ok
    rfl

/-- There is no digit among the first two letters of a word for a value. -/
theorem constants_letters :
    ∀ e ∈ constants, 2 ≤ e.1.length ∧ (e.1.take 2).any Char.isDigit = false := by
  decide

/-- Where a digit stands first or second, the text begins with a number or with nothing. -/
theorem readAtom_of_digit {cs : List Char} (digit : (cs.take 2).any Char.isDigit = true) :
    readAtom cs = readNumber cs := by
  have none : constants.findSome? (fun e => (afterWord? e.1 cs).map fun tail => (e.2, tail))
      = none := by
    refine List.findSome?_eq_none_iff.mpr fun e member => ?_
    obtain ⟨long, letters⟩ := constants_letters e member
    rw [Option.map_eq_none_iff]
    refine if_neg fun isPrefix => ?_
    obtain ⟨suffix, rfl⟩ := List.isPrefixOf_iff_prefix.mp isPrefix
    rw [List.take_append_of_le_length long, letters] at digit
    cases digit
  rw [readAtom, none]

theorem exists_digit_toDigits (m : Nat) :
    ∃ c cs, Nat.toDigits 10 m = c :: cs ∧ c.isDigit = true := by
  obtain ⟨c, cs, eq⟩ := List.exists_cons_of_ne_nil (Nat.toDigits_ne_nil (n := m) (b := 10))
  refine ⟨c, cs, eq, ?_⟩
  exact Nat.isDigit_of_mem_toDigits (n := m) (b := 10) (by decide) (by decide) (by rw [eq]; simp)

/-- A whole number is no word, so it reads back as a number. -/
theorem readAtom_intText {n : Int} (short : Number.hasText n = true) :
    readAtom (Number.intText n).toList = .ok (.int n, []) := by
  rw [← readNumber_intText short]
  apply readAtom_of_digit
  cases n with
  | ofNat m =>
    obtain ⟨c, cs, eq, digit⟩ := exists_digit_toDigits m
    rw [Number.intText, Nat.toList_repr, eq]
    simp [digit]
  | negSucc m =>
    obtain ⟨c, cs, eq, digit⟩ := exists_digit_toDigits (m + 1)
    rw [Number.intText, String.toList_append, Nat.toList_repr, eq]
    simp [digit]

end Wireboard.Json
