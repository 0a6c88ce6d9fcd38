import Wireboard.Proofs.Json.RoundTrip
import Wireboard.Value.Coerce

/-!
# Values that survive their text

The text of a value says all about it but one thing: where a double comes from that is no number.
When the text is read back, all of these come from a text.  So what survives is the value as it is
written (`Value.asWritten`), and it survives wherever the reader takes whole numbers and doubles
back (`Value.Survives.exists_text`).
-/

namespace Wireboard

namespace Value

mutual

/-- The value with all doubles that are no numbers coming from a text. -/
def asWritten : Value → Value
  | .nan _ => .nan .written
  | .list items => .list (asWrittenItems items)
  | .obj fields => .obj (asWrittenFields fields)
  | .null => .null
  | .bool b => .bool b
  | .int n => .int n
  | .float x => .float x
  | .str s => .str s

/-- The items as they are written. -/
def asWrittenItems : List Value → List Value
  | [] => []
  | v :: rest => v.asWritten :: asWrittenItems rest

/-- The fields as they are written. -/
def asWrittenFields : List (String × Value) → List (String × Value)
  | [] => []
  | (name, v) :: rest => (name, v.asWritten) :: asWrittenFields rest

end

mutual

@[simp] theorem hasText_asWritten : (v : Value) → v.asWritten.hasText = v.hasText
  | .nan _ | .null | .bool _ | .int _ | .float _ | .str _ => by simp [asWritten, hasText]
  | .list items => by rw [asWritten, hasText, hasText, hasTextItems_asWritten items]
  | .obj fields => by rw [asWritten, hasText, hasText, hasTextFields_asWritten fields]

@[simp] theorem hasTextItems_asWritten :
    (items : List Value) → hasTextItems (asWrittenItems items) = hasTextItems items
  | [] => rfl
  | v :: rest => by
    rw [asWrittenItems, hasTextItems, hasTextItems, hasText_asWritten v,
      hasTextItems_asWritten rest]

@[simp] theorem hasTextFields_asWritten : (fields : List (String × Value)) →
    hasTextFields (asWrittenFields fields) = hasTextFields fields
  | [] => rfl
  | (name, v) :: rest => by
    rw [asWrittenFields, hasTextFields, hasTextFields, hasText_asWritten v,
      hasTextFields_asWritten rest]

end

end Value

namespace Json

open Value

mutual

/-- The text does not tell where a double comes from. -/
@[simp] theorem line_asWritten : (v : Value) → line v.asWritten = line v
  | .nan _ | .null | .bool _ | .int _ | .float _ | .str _ => by simp [asWritten, line, atomText]
  | .list items => by rw [asWritten, line, line, lineItems_asWritten items]
  | .obj fields => by rw [asWritten, line, line, lineFields_asWritten fields]

@[simp] theorem lineItems_asWritten : (items : List Value) →
    lineItems (asWrittenItems items) = lineItems items
  | [] => rfl
  | [v] => by rw [asWrittenItems, asWrittenItems, lineItems, lineItems, line_asWritten v]
  | v :: w :: rest => by
    calc lineItems (asWrittenItems (v :: w :: rest))
        = line v.asWritten ++ ", " ++ lineItems (asWrittenItems (w :: rest)) := rfl
      _ = line v ++ ", " ++ lineItems (w :: rest) := by
        rw [line_asWritten v, lineItems_asWritten (w :: rest)]

@[simp] theorem lineFields_asWritten : (fields : List (String × Value)) →
    lineFields (asWrittenFields fields) = lineFields fields
  | [] => rfl
  | [(name, v)] => by
    rw [asWrittenFields, asWrittenFields, lineFields, lineFields, line_asWritten v]
  | (name, v) :: e :: rest => by
    calc lineFields (asWrittenFields ((name, v) :: e :: rest))
        = stringText name ++ ": " ++ line v.asWritten ++ ", "
            ++ lineFields (asWrittenFields (e :: rest)) := rfl
      _ = stringText name ++ ": " ++ line v ++ ", " ++ lineFields (e :: rest) := by
        rw [line_asWritten v, lineFields_asWritten (e :: rest)]

end

end Json

/-- The value comes back from its text as it is written. -/
structure Value.Survives (v : Value) : Prop where
  tidy : v.asWritten.Tidy
  doubles : ∀ x ∈ v.asWritten.doubles, Json.ReadsBack x

theorem Value.survives_int {n : Int} (small : n.natAbs < 1000) : (Value.int n).Survives :=
  ⟨tidy_int_of_lt_1000 small, fun x member => by cases member⟩

theorem Value.survives_null : Value.null.Survives := ⟨.null, fun x member => by cases member⟩

/-- A value that survives has a text, and this says something and reads back. -/
theorem Value.Survives.exists_text {v : Value} (survives : v.Survives) :
    ∃ text, v.toJson = .ok text ∧ text ≠ "" ∧ Json.read text = .ok v.asWritten := by
  have back : Json.read (Json.line v) = .ok v.asWritten := by
    rw [← Json.line_asWritten]
    exact Json.read_line survives.tidy survives.doubles
  have long : v.hasText = true := by
    rw [← hasText_asWritten]
    exact survives.tidy.hasText
  refine ⟨Json.line v, if_pos long, fun empty => ?_, back⟩
  rw [empty] at back
  cases back

end Wireboard
