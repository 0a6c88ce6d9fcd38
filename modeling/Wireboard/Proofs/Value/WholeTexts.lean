import Wireboard.Proofs.Number.Reading
import Wireboard.Proofs.Value.Comparisons

/-!
# Whole numbers as texts

A whole number goes through a text unharmed: written, padded with blanks and read again it is the
same number, however many digits it has up to the limit of texts.  The reader takes a text for a
whole number before it tries a double, so no digit is lost where doubles are too coarse, and the
signs compare such a text with a whole number as two whole numbers.
-/

namespace Wireboard

open Text Number

namespace Value

variable {a b : Value}

/-- Places can be compared where they come from. -/
theorem ComparesAs.of_strictMono {α β : Type} [LinearOrder α] [LinearOrder β] {f : α → β}
    (mono : StrictMono f) {l r : α} (as : a.ComparesAs b (f l) (f r)) : a.ComparesAs b l r where
  eq := as.eq.trans (decide_eq_decide.mpr mono.injective.eq_iff)
  ne := as.ne.trans (decide_eq_decide.mpr mono.injective.ne_iff)
  gt := as.gt.trans (decide_eq_decide.mpr mono.lt_iff_lt)
  lt := as.lt.trans (decide_eq_decide.mpr mono.lt_iff_lt)
  ge := as.ge.trans (decide_eq_decide.mpr mono.le_iff_le)
  le := as.le.trans (decide_eq_decide.mpr mono.le_iff_le)

/-- Values that stand for whole numbers are compared as these, unless both are texts. -/
theorem comparesAs_whole {m n : Int} (left : a.toNum? = some (.int m))
    (right : b.toNum? = some (.int n)) (other : ¬ AreTexts a b) : a.ComparesAs b m n := by
  have mono : StrictMono fun k : Int => (((k : ℚ) : WithTop ℚ) : WithBot (WithTop ℚ)) :=
    fun _ _ less => WithBot.coe_lt_coe.mpr (WithTop.coe_lt_coe.mpr (Int.cast_lt.mpr less))
  exact .of_strictMono mono (comparesAs_numbers left right other rfl rfl)

theorem readNum?_of_readInt {s : String} {cs : List Char} {n : Int}
    (stripped : strip s.toList = cs) (some : cs ≠ []) (reads : readInt cs = .value n) :
    readNum? s = .some (.int n) := by
  rw [readNum?, stripped]
  split
  next => exact absurd rfl some
  next => rw [reads]

/-- The blanks of ASCII. -/
def asciiBlanks : List Char :=
  ['\t', '\n', '\x0b', '\x0c', '\r', '\x1c', '\x1d', '\x1e', '\x1f', ' ']

theorem isBlank_of_mem_asciiBlanks {c : Char} (member : c ∈ asciiBlanks) : isBlank c = true := by
  have all : asciiBlanks.all isBlank = true := by decide
  exact List.all_eq_true.mp all c member

/-- A whole number of at most 4300 digits has a text, and whatever blanks of ASCII are put before
and after it, that text is taken for the number: among numbers, as an index, and by every sign of
comparison with a whole number on the other side. -/
theorem whole_survives_text {n : Int} (few : (Nat.toDigits 10 n.natAbs).length ≤ 4300)
    {before after : String} (front : ∀ c ∈ before.toList, c ∈ asciiBlanks)
    (back : ∀ c ∈ after.toList, c ∈ asciiBlanks) :
    ∃ text, (Value.int n).toText = .ok text ∧
      (Value.str (before ++ text ++ after)).toNum? = some (.int n) ∧
      (Value.str (before ++ text ++ after)).toNum = .int n ∧
      (Value.str (before ++ text ++ after)).toIndex? = some n ∧
      ∀ m : Int, (Value.int m).ComparesAs (.str (before ++ text ++ after)) m n ∧
        (Value.str (before ++ text ++ after)).ComparesAs (.int m) n m := by
  obtain ⟨some, solid⟩ := solid_intText n
  have stripped : strip (before ++ intText n ++ after).toList = (intText n).toList := by
    rw [String.toList_append, String.toList_append, List.append_assoc]
    exact trim_append (fun _ => id) (fun c member => isBlank_of_mem_asciiBlanks (front c member))
      (fun c member => isBlank_of_mem_asciiBlanks (back c member)) some solid
  have number : (Value.str (before ++ intText n ++ after)).toNum? = .some (.int n) :=
    readNum?_of_readInt stripped some (readInt_intText few)
  refine ⟨intText n, if_pos (hasText_iff.mpr few), number, ?_, ?_, fun m => ⟨?_, ?_⟩⟩
  · rw [toNum, number, Option.getD_some]
  · rw [toIndex?, number]
  · refine comparesAs_whole rfl number ?_
    rintro ⟨_, _, left, -⟩
    cases left
  · refine comparesAs_whole number rfl ?_
    rintro ⟨_, _, -, right⟩
    cases right

theorem whole_survives_text_oneBelow :
    ∃ text, (Value.int (-9007199254740993)).toText = .ok text ∧
      (Value.str (String.ofList asciiBlanks ++ text ++ "\n")).toIndex? = some (-9007199254740993) ∧
      compareBy "<" (.str (String.ofList asciiBlanks ++ text ++ "\n")) (.int (-9007199254740992))
        = true := by
  have blanks : ∀ c ∈ (String.ofList asciiBlanks).toList, c ∈ asciiBlanks := by
    rw [String.toList_ofList]
    exact fun _ => id
  obtain ⟨text, written, -, -, index, compares⟩ :=
    @whole_survives_text (-9007199254740993) (by decide) _ "\n" blanks
      (List.forall_mem_singleton.mpr (by decide))
  exact ⟨text, written, index, (compares (-9007199254740992)).2.lt.trans (by decide)⟩

end Value

end Wireboard
