import Wireboard.Value.Basic
import Wireboard.Number.Text
import Wireboard.Text.Quoted

/-!
# The shown form of values

The form in which a value stands in a message or replaces a text: texts as they are at the top and
quoted inside, lists in brackets, objects in braces, and words for null and the truth values.

Only whole numbers beyond the digit limit have no such form; `hasText` says whether a value is
free of them.
-/

namespace Wireboard.Value

mutual

/-- Every whole number in the value has a text. -/
def hasText : Value → Bool
  | .int n => Number.hasText n
  | .list items => hasTextItems items
  | .obj fields => hasTextFields fields
  | _ => true

/-- Every whole number in the items has a text. -/
def hasTextItems : List Value → Bool
  | [] => true
  | v :: rest => hasText v && hasTextItems rest

/-- Every whole number in the fields has a text. -/
def hasTextFields : List (String × Value) → Bool
  | [] => true
  | (_, v) :: rest => hasText v && hasTextFields rest

end

mutual

/-- The shown form of a value inside another one. -/
def shown : Value → String
  | .null => "None"
  | .bool true => "True"
  | .bool false => "False"
  | .int n => Number.intText n
  | .float x => Number.floatText x
  | .nan _ => Number.valueEnds.notANumber
  | .str s => Text.quoted s
  | .list items => "[" ++ shownItems items ++ "]"
  | .obj fields => "\x7b" ++ shownFields fields ++ "\x7d"

/-- The shown items, with commas between them. -/
def shownItems : List Value → String
  | [] => ""
  | [v] => shown v
  | v :: rest => shown v ++ ", " ++ shownItems rest

/-- The shown fields, with commas between them. -/
def shownFields : List (String × Value) → String
  | [] => ""
  | [(k, v)] => Text.quoted k ++ ": " ++ shown v
  | (k, v) :: rest => Text.quoted k ++ ": " ++ shown v ++ ", " ++ shownFields rest

end

/-- The shown form of a value on its own: a text is itself. -/
def plain : Value → String
  | .str s => s
  | v => shown v

end Wireboard.Value
