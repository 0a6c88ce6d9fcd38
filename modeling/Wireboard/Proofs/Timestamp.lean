import Mathlib.Data.List.Forall2
import Wireboard.Timestamp

/-!
# Later instants have later texts

The text of an instant is a row of numbers, from the year down to the millisecond, each with its own
number of places and its own sign behind it (`dayText_eq_written`).  Such rows are compared like the
numbers in them (`written_lt_written`): a number that is filled up with zeros stands before every
greater number with as many places.

So what is left is a fact about the calendar.  The walk over the years ends in the year and at the
day that it should (`splitYear_eq`), where the days before a year are counted by the rule of the
leap years, and neither this walk nor the one over the months ever goes back when the day goes
forward.  Together this gives the order of the texts (`ofMilliseconds_lt_ofMilliseconds`).
-/

namespace Wireboard.Timestamp

/-! ## Numbers in places -/

/-- The last digits of a number, in so many places. -/
def places : Nat → Nat → List Char
  | 0, _ => []
  | width + 1, n => places width (n / 10) ++ [Nat.digitChar (n % 10)]

@[simp] theorem length_places (width n : Nat) : (places width n).length = width := by
  induction width generalizing n with
  | zero => rfl
  | succ width ih => rw [places, List.length_append, ih, List.length_singleton]

@[simp] theorem places_zero (width : Nat) : places width 0 = List.replicate width '0' := by
  induction width with
  | zero => rfl
  | succ width ih => rw [places, Nat.zero_div, ih, List.replicate_succ']; rfl

/-- A number that has room in the places is filled up with zeros. -/
theorem toList_padded {width n : Nat} (wide : 0 < width) (room : n < pow10 width) :
    (padded width n).toList = places width n := by
  have digits : (padded width n).toList
      = List.replicate (width - (Nat.toDigits 10 n).length) '0' ++ Nat.toDigits 10 n := by
    rw [padded, String.toList_append, String.toList_ofList, Nat.toList_repr, ← String.length_toList,
      Nat.toList_repr]
  rw [digits]
  clear digits
  induction width generalizing n with
  | zero => cases wide
  | succ width ih =>
    rw [Nat.toDigits_eq_if (by decide), places]
    by_cases single : n < 10
    · rw [if_pos single, Nat.div_eq_of_lt single, Nat.mod_eq_of_lt single, places_zero]
      rfl
    · have inner : n / 10 < pow10 width := by
        have := room
        rw [show pow10 (width + 1) = pow10 width * 10 from rfl] at this
        omega
      have wider : 0 < width := by
        refine Nat.pos_of_ne_zero fun empty => ?_
        rw [empty] at inner
        have : n / 10 < 1 := inner
        omega
      rw [if_neg single, List.length_append, List.length_singleton, Nat.add_sub_add_right,
        ← List.append_assoc, ih wider inner]

theorem digitChar_lt_digitChar {a b : Nat} (lt : a < b) (digit : b < 10) :
    Nat.digitChar a < Nat.digitChar b := by
  rw [Char.lt_def, UInt32.lt_iff_toNat_lt]
  show (Nat.digitChar a).toNat < (Nat.digitChar b).toNat
  rw [Nat.toNat_digitChar_of_lt_ten digit, Nat.toNat_digitChar_of_lt_ten (by omega)]
  omega

/-- Of two texts that begin with equally long parts, the first difference decides. -/
theorem append_lt_append {xs ys us vs : List Char} (even : xs.length = ys.length)
    (lt : xs < ys ∨ xs = ys ∧ us < vs) : xs ++ us < ys ++ vs := by
  induction xs generalizing ys with
  | nil =>
    cases List.eq_nil_of_length_eq_zero even.symm
    rcases lt with lt | ⟨-, lt⟩
    · exact absurd lt (List.lt_irrefl _)
    · exact lt
  | cons x xs ih =>
    cases ys with
    | nil => cases even
    | cons y ys =>
      rw [List.cons_append, List.cons_append, List.cons_lt_cons_iff]
      rcases lt with lt | ⟨same, lt⟩
      · rcases List.cons_lt_cons_iff.mp lt with first | ⟨rfl, rest⟩
        · exact .inl first
        · exact .inr ⟨rfl, ih (Nat.succ.inj even) (.inl rest)⟩
      · cases same
        exact .inr ⟨rfl, ih rfl (.inr ⟨rfl, lt⟩)⟩

theorem places_lt_places {width m n : Nat} (lt : m < n) (room : n < pow10 width) :
    places width m < places width n := by
  induction width generalizing m n with
  | zero =>
    have none : n < 1 := room
    omega
  | succ width ih =>
    rw [show pow10 (width + 1) = pow10 width * 10 from rfl] at room
    refine append_lt_append (by rw [length_places, length_places]) ?_
    by_cases tens : m / 10 = n / 10
    · refine .inr ⟨by rw [tens], ?_⟩
      rw [List.cons_lt_cons_iff]
      exact .inl (digitChar_lt_digitChar (by omega) (by omega))
    · exact .inl (ih (by omega) (by omega))

/-! ## Rows of numbers -/

/-- How a number of a row is written: in how many places, and what stands behind it. -/
structure Slot where
  width : Nat
  sign : String

/-- The number has room in the slot. -/
def Slot.Fits (slot : Slot) (n : Nat) : Prop := 0 < slot.width ∧ n < pow10 slot.width

/-- Numbers one behind the other, each in its slot. -/
def written : List Slot → List Nat → String
  | slot :: slots, n :: ns => padded slot.width n ++ slot.sign ++ written slots ns
  | _, _ => ""

/-- Rows of numbers with the same slots are compared like their numbers. -/
theorem written_lt_written {slots : List Slot} {ms ns : List Nat}
    (fits : List.Forall₂ Slot.Fits slots ms) (fits' : List.Forall₂ Slot.Fits slots ns)
    (lt : ms < ns) : written slots ms < written slots ns := by
  induction fits generalizing ns with
  | nil =>
    cases fits'
    exact absurd lt (List.lt_irrefl _)
  | @cons slot m slots ms fit fits ih =>
    obtain _ | @⟨_, n, _, ns, fit', fits'⟩ := fits'
    simp only [written, String.lt_iff, String.toList_append, List.append_assoc,
      toList_padded fit.1 fit.2, toList_padded fit'.1 fit'.2]
    refine append_lt_append (by rw [length_places, length_places]) ?_
    rcases List.cons_lt_cons_iff.mp lt with first | ⟨rfl, rest⟩
    · exact .inl (places_lt_places first fit'.2)
    · exact .inr ⟨rfl, append_lt_append rfl (.inr ⟨rfl, String.lt_iff.mp (ih fits' rest)⟩)⟩

/-! ## Years -/

/-- The days from the first day of the year 1 to the first day of a year. -/
def daysTo (year : Nat) : Nat :=
  365 * (year - 1) + (year - 1) / 4 - (year - 1) / 100 + (year - 1) / 400

theorem succ_div_eq (n k : Nat) : (n + 1) / k = n / k + if (n + 1) % k = 0 then 1 else 0 := by
  rw [Nat.succ_div]
  simp only [Nat.dvd_iff_mod_eq_zero]

variable {year : Nat}

theorem daysTo_succ (first : 1 ≤ year) : daysTo (year + 1) = daysTo year + yearDays year := by
  obtain ⟨before, rfl⟩ := Nat.exists_eq_add_of_le' first
  have fewer : before / 100 ≤ before / 4 := Nat.div_le_div_left (by decide) (by decide)
  simp only [daysTo, yearDays, isLeap, Nat.add_sub_cancel, Bool.or_eq_true, Bool.and_eq_true,
    beq_iff_eq, bne_iff_ne, succ_div_eq before]
  generalize before / 4 = quarters at *
  generalize before / 100 = centuries at *
  generalize before / 400 = cycles at *
  split <;> split <;> split <;> split <;> omega

theorem daysTo_le_daysTo {later : Nat} (first : 1 ≤ year) (le : year ≤ later) :
    daysTo year ≤ daysTo later := by
  induction le with
  | refl => exact Nat.le_refl _
  | @step later le ih =>
    rw [Nat.succ_eq_add_one, daysTo_succ (Nat.le_trans first le)]
    omega

theorem yearDays_ge (year : Nat) : 365 ≤ yearDays year := by
  unfold yearDays
  split <;> omega

/-- The walk over the years ends in a year that has the day. -/
theorem splitYear_eq (fuel : Nat) (day : Nat) (first : 1 ≤ year) (enough : day < fuel * 365) :
    1 ≤ (splitYear fuel year day).1
      ∧ daysTo (splitYear fuel year day).1 + (splitYear fuel year day).2 = daysTo year + day
      ∧ (splitYear fuel year day).2 < yearDays (splitYear fuel year day).1 := by
  induction fuel generalizing year day with
  | zero => omega
  | succ fuel ih =>
    rw [splitYear]
    by_cases inside : day < yearDays year
    · rw [if_pos inside]
      exact ⟨first, rfl, inside⟩
    · rw [if_neg inside]
      have long := yearDays_ge year
      obtain ⟨positive, total, last⟩ :=
        ih (day - yearDays year) (Nat.le_succ_of_le first) (by omega)
      refine ⟨positive, ?_, last⟩
      rw [total, daysTo_succ first]
      omega

/-- The year of a day, and the day of the year. -/
def yearOf (day : Nat) : Nat × Nat := splitYear (day / 365 + 1) 1 day

theorem yearOf_eq (day : Nat) :
    1 ≤ (yearOf day).1 ∧ daysTo (yearOf day).1 + (yearOf day).2 = day
      ∧ (yearOf day).2 < yearDays (yearOf day).1 := by
  have split := splitYear_eq (day / 365 + 1) day (Nat.le_refl 1) (by omega)
  rw [show daysTo 1 = 0 from rfl, Nat.zero_add] at split
  exact split

variable {day day' : Nat}

/-- A later day is in a later year, or in the same year and later there. -/
theorem yearOf_lt (lt : day < day') :
    (yearOf day).1 < (yearOf day').1
      ∨ (yearOf day).1 = (yearOf day').1 ∧ (yearOf day).2 < (yearOf day').2 := by
  obtain ⟨-, total, -⟩ := yearOf_eq day
  obtain ⟨first', total', last'⟩ := yearOf_eq day'
  rcases Nat.lt_trichotomy (yearOf day).1 (yearOf day').1 with less | same | greater
  · exact .inl less
  · rw [same] at total
    exact .inr ⟨same, by omega⟩
  · have next := daysTo_le_daysTo (Nat.le_succ_of_le first') greater
    rw [Nat.succ_eq_add_one, daysTo_succ first'] at next
    omega

theorem yearOf_le (counted : day < allDays) : (yearOf day).1 ≤ 9999 := by
  obtain ⟨-, total, -⟩ := yearOf_eq day
  refine Nat.le_of_not_lt fun late => ?_
  have beyond : daysTo 10000 ≤ daysTo (yearOf day).1 := daysTo_le_daysTo (by decide) late
  have all : daysTo 10000 = allDays := rfl
  omega

/-! ## Months -/

theorem month_le_splitMonth (months : List Nat) (month day : Nat) :
    month ≤ (splitMonth months month day).1 := by
  induction months generalizing month day with
  | nil => exact Nat.le_refl _
  | cons days months ih =>
    rw [splitMonth]
    split
    · exact Nat.le_refl month
    · exact Nat.le_of_succ_le (ih ..)

/-- A later day of the year is in a later month, or in the same month and later there. -/
theorem splitMonth_lt (months : List Nat) (month : Nat) (lt : day < day') :
    (splitMonth months month day).1 < (splitMonth months month day').1
      ∨ (splitMonth months month day).1 = (splitMonth months month day').1
        ∧ (splitMonth months month day).2 < (splitMonth months month day').2 := by
  induction months generalizing month day day' with
  | nil => exact .inr ⟨rfl, Nat.succ_lt_succ lt⟩
  | cons days months ih =>
    rw [splitMonth, splitMonth]
    by_cases inside' : day' < days
    · rw [if_pos inside', if_pos (Nat.lt_trans lt inside')]
      exact .inr ⟨rfl, Nat.succ_lt_succ lt⟩
    · rw [if_neg inside']
      by_cases inside : day < days
      · rw [if_pos inside]
        exact .inl (month_le_splitMonth ..)
      · rw [if_neg inside]
        exact ih (month + 1) (by omega)

/-- The days of some months together. -/
def daysOf : List Nat → Nat
  | [] => 0
  | days :: months => days + daysOf months

/-- No month has more days than the longest one, and there are no more months than listed. -/
theorem splitMonth_le {months : List Nat} {longest : Nat} (short : ∀ days ∈ months, days ≤ longest)
    (month : Nat) (inside : day < daysOf months) :
    (splitMonth months month day).1 < month + months.length
      ∧ (splitMonth months month day).2 ≤ longest := by
  induction months generalizing month day with
  | nil => cases inside
  | cons days months ih =>
    obtain ⟨own, others⟩ := List.forall_mem_cons.mp short
    rw [daysOf] at inside
    rw [splitMonth, List.length_cons]
    by_cases here : day < days
    · rw [if_pos here]
      exact ⟨by omega, by omega⟩
    · rw [if_neg here]
      obtain ⟨few, small⟩ := ih others (month + 1) (show day - days < daysOf months by omega)
      exact ⟨by omega, small⟩

theorem daysOf_monthDays (year : Nat) : daysOf (monthDays year) = yearDays year := by
  unfold monthDays yearDays
  cases isLeap year <;> rfl

theorem monthDays_le (year : Nat) : ∀ days ∈ monthDays year, days ≤ 31 := by
  unfold monthDays
  cases isLeap year <;> simp

/-- The month of a day, and the day of the month. -/
def monthOf (day : Nat) : Nat × Nat := splitMonth (monthDays (yearOf day).1) 1 (yearOf day).2

theorem monthOf_le (day : Nat) : (monthOf day).1 ≤ 12 ∧ (monthOf day).2 ≤ 31 := by
  obtain ⟨-, -, inside⟩ := yearOf_eq day
  rw [← daysOf_monthDays] at inside
  obtain ⟨few, small⟩ := splitMonth_le (monthDays_le _) 1 inside
  exact ⟨Nat.le_of_lt_succ few, small⟩

/-! ## Instants -/

/-- The numbers in the text of a time of a day, from the year to the millisecond. -/
def reading (day rest : Nat) : List Nat :=
  [(yearOf day).1, (monthOf day).1, (monthOf day).2, rest / 3600000, rest / 60000 % 60,
    rest / 1000 % 60, rest % 1000]

/-- The slots of these numbers. -/
def slots : List Slot := [⟨4, "-"⟩, ⟨2, "-"⟩, ⟨2, "T"⟩, ⟨2, ":"⟩, ⟨2, ":"⟩, ⟨2, "."⟩, ⟨3, "Z"⟩]

theorem dayText_eq_written (day rest : Nat) :
    dayText day rest = written slots (reading day rest) := by
  have date : dateText day = padded 4 (yearOf day).1 ++ "-" ++ padded 2 (monthOf day).1 ++ "-"
      ++ padded 2 (monthOf day).2 := rfl
  simp only [dayText, clockText, date, slots, reading, written, String.append_assoc,
    String.append_empty]

variable {rest : Nat}

theorem fits_reading (counted : day < allDays) (inside : rest < dayLength) :
    List.Forall₂ Slot.Fits slots (reading day rest) := by
  have year : (yearOf day).1 < 10000 := Nat.lt_succ_of_le (yearOf_le counted)
  obtain ⟨month, dayOfMonth⟩ := monthOf_le day
  have hours : rest / 3600000 < 100 := by
    rw [dayLength] at inside
    omega
  refine .cons ⟨by decide, year⟩ (.cons ⟨by decide, ?_⟩ (.cons ⟨by decide, ?_⟩
    (.cons ⟨by decide, hours⟩ (.cons ⟨by decide, ?_⟩ (.cons ⟨by decide, ?_⟩
      (.cons ⟨by decide, ?_⟩ .nil))))))
  · exact Nat.lt_of_le_of_lt month (by decide)
  · exact Nat.lt_of_le_of_lt dayOfMonth (by decide)
  · exact Nat.lt_trans (Nat.mod_lt _ (by decide)) (by decide : 60 < pow10 2)
  · exact Nat.lt_trans (Nat.mod_lt _ (by decide)) (by decide : 60 < pow10 2)
  · exact Nat.mod_lt _ (by decide)

theorem reading_lt_of_day_lt (lt : day < day') (rest rest' : Nat) :
    reading day rest < reading day' rest' := by
  rw [reading, reading, List.cons_lt_cons_iff]
  rcases yearOf_lt lt with year | ⟨year, dayOfYear⟩
  · exact .inl year
  · refine .inr ⟨year, ?_⟩
    rw [List.cons_lt_cons_iff, List.cons_lt_cons_iff]
    have month := splitMonth_lt (monthDays (yearOf day).1) 1 dayOfYear
    rw [monthOf, monthOf, ← year]
    rcases month with first | ⟨same, second⟩
    · exact .inl first
    · exact .inr ⟨same, .inl second⟩

theorem reading_lt_of_rest_lt (day : Nat) {rest' : Nat} (lt : rest < rest') :
    reading day rest < reading day rest' := by
  simp only [reading, List.cons_lt_cons_iff, true_and, Nat.lt_irrefl, false_or]
  omega

theorem dayText_lt_dayText {rest' : Nat} (counted : day < allDays) (counted' : day' < allDays)
    (inside : rest < dayLength) (inside' : rest' < dayLength)
    (lt : day < day' ∨ day = day' ∧ rest < rest') : dayText day rest < dayText day' rest' := by
  rw [dayText_eq_written, dayText_eq_written]
  refine written_lt_written (fits_reading counted inside) (fits_reading counted' inside') ?_
  rcases lt with earlier | ⟨rfl, earlier⟩
  · exact reading_lt_of_day_lt earlier rest rest'
  · exact reading_lt_of_rest_lt day earlier

variable {instant : Int}

/-- An instant that has a text is a time of one of the days that are counted. -/
theorem ofMilliseconds_eq_ok {time : String} (shown : ofMilliseconds instant = .ok time) :
    ∃ day rest : Nat, day < allDays ∧ rest < dayLength
      ∧ instant + daysBefore * dayLength = day * dayLength + rest ∧ time = dayText day rest := by
  rw [ofMilliseconds] at shown
  split at shown
  next => cases shown
  next =>
    split at shown
    next => cases shown
    next =>
      split at shown
      next => cases shown
      next counted =>
        rw [Int.fdiv_eq_ediv_of_nonneg _ (by decide)] at counted shown
        rw [Int.fmod_eq_emod_of_nonneg _ (by decide)] at shown
        refine ⟨_, _, ?_, ?_, ?_, (Except.ok.inj shown).symm⟩ <;>
          simp only [allDays, daysBefore, dayLength] at counted ⊢ <;> omega

/-- All instants from 1970 to the end of the year 9999 have texts. -/
theorem exists_ofMilliseconds (first : 0 ≤ instant) (last : instant < 253402300800000) :
    ∃ time, ofMilliseconds instant = .ok time := by
  have small : ¬ ((pow2 31 : Int) ≤ instant.fdiv dayLength
      ∨ instant.fdiv dayLength < -(pow2 31 : Int)) := by
    rw [Int.fdiv_eq_ediv_of_nonneg _ (by decide), show pow2 31 = 2147483648 from rfl]
    simp only [dayLength]
    omega
  have few : ¬ mostDays < (instant.fdiv dayLength).natAbs := by
    rw [Int.fdiv_eq_ediv_of_nonneg _ (by decide)]
    simp only [dayLength, mostDays]
    omega
  have counted : ¬ (instant.fdiv dayLength + daysBefore < 0
      ∨ (allDays : Int) ≤ instant.fdiv dayLength + daysBefore) := by
    rw [Int.fdiv_eq_ediv_of_nonneg _ (by decide)]
    simp only [dayLength, daysBefore, allDays]
    omega
  rw [ofMilliseconds, if_neg small, if_neg few, if_neg counted]
  exact ⟨_, rfl⟩

/-- Later instants have later texts. -/
theorem ofMilliseconds_lt_ofMilliseconds {instant' : Int} {time time' : String}
    (shown : ofMilliseconds instant = .ok time) (shown' : ofMilliseconds instant' = .ok time')
    (lt : instant < instant') : time < time' := by
  obtain ⟨day, rest, counted, inside, total, rfl⟩ := ofMilliseconds_eq_ok shown
  obtain ⟨day', rest', counted', inside', total', rfl⟩ := ofMilliseconds_eq_ok shown'
  refine dayText_lt_dayText counted counted' inside inside' ?_
  simp only [dayLength] at inside inside' total total'
  omega

end Wireboard.Timestamp
