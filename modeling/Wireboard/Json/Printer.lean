import Wireboard.Text.Unwritable
import Wireboard.Value.Show

/-!
# JSON texts

The JSON text of a value, on one line or indented.  Characters beyond ASCII stand as they are;
quotes, backslashes and control characters are escaped.  Doubles are written with the fewest
digits that read back, and the three that are no finite numbers by the usual words.
-/

namespace Wireboard.Json

def escape (c : Char) : List Char :=
  if c = '"' then ['\\', '"']
  else if c = '\\' then ['\\', '\\']
  else if c = '\n' then ['\\', 'n']
  else if c = '\r' then ['\\', 'r']
  else if c = '\t' then ['\\', 't']
  else if c.toNat = 8 then ['\\', 'b']
  else if c.toNat = 12 then ['\\', 'f']
  else if c.toNat < 32 then '\\' :: 'u' :: Text.hexDigits 4 c.toNat
  else [c]

def stringText (s : String) : String :=
  String.ofList ('"' :: s.toList.flatMap escape ++ ['"'])

/-- The words for what is not finite. -/
def openEnds : Number.OpenEnds := ⟨"NaN", "Infinity"⟩

/-- A number, text or constant; brackets are added by the callers below. -/
def atomText : Value → String
  | .null => "null"
  | .bool true => "true"
  | .bool false => "false"
  | .int n => Number.intText n
  | .float x => Number.shortestText openEnds x
  | .nan _ => openEnds.notANumber
  | .str s => stringText s
  | .list _ | .obj _ => ""

/-- The name of a field, where it is a value of another kind: the characters of its text. -/
def nameText : Value → String
  | .str s => s
  | v => atomText v

mutual

def line : Value → String
  | .list items => "[" ++ lineItems items ++ "]"
  | .obj fields => "\x7b" ++ lineFields fields ++ "\x7d"
  | v => atomText v

def lineItems : List Value → String
  | [] => ""
  | [v] => line v
  | v :: rest => line v ++ ", " ++ lineItems rest

def lineFields : List (String × Value) → String
  | [] => ""
  | [(k, v)] => stringText k ++ ": " ++ line v
  | (k, v) :: rest => stringText k ++ ": " ++ line v ++ ", " ++ lineFields rest

end

/-- A new line, indented by two spaces for each level. -/
def newLine (level : Nat) : String :=
  String.ofList ('\n' :: List.replicate (2 * level) ' ')

mutual

/-- The text of a value that stands at a level of indentation. -/
def block (level : Nat) : Value → String
  | .list [] => "[]"
  | .list items =>
    "[" ++ newLine (level + 1) ++ blockItems (level + 1) items ++ newLine level ++ "]"
  | .obj [] => "\x7b\x7d"
  | .obj fields =>
    "\x7b" ++ newLine (level + 1) ++ blockFields (level + 1) fields ++ newLine level ++ "\x7d"
  | v => atomText v

/-- The items of a list, each on a line of its own. -/
def blockItems (level : Nat) : List Value → String
  | [] => ""
  | [v] => block level v
  | v :: rest => block level v ++ "," ++ newLine level ++ blockItems level rest

/-- The fields of an object, each on a line of its own. -/
def blockFields (level : Nat) : List (String × Value) → String
  | [] => ""
  | [(k, v)] => stringText k ++ ": " ++ block level v
  | (k, v) :: rest =>
    stringText k ++ ": " ++ block level v ++ "," ++ newLine level ++ blockFields level rest

end

def indented (v : Value) : String := block 0 v

/-! ## Pieces

A file is written piece by piece: every text on its own, an item of a list together with what leads
to it.  Where a piece cannot be written the file ends before it. -/

/-- The value is a list or an object. -/
def isNested : Value → Bool
  | .list _ | .obj _ => true
  | _ => false

mutual

/-- The pieces of the indented text of a value that stands at a level of indentation. -/
def pieces (level : Nat) : Value → List String
  | .list [] => ["[]"]
  | .list items =>
    itemPieces (level + 1) ("[" ++ newLine (level + 1)) items ++ [newLine level, "]"]
  | .obj [] => ["\x7b\x7d"]
  | .obj fields =>
    "\x7b" :: newLine (level + 1) :: fieldPieces (level + 1) fields ++ [newLine level, "\x7d"]
  | v => [atomText v]

/-- The pieces of the items of a list, given what leads to the first of them. -/
def itemPieces (level : Nat) (lead : String) : List Value → List String
  | [] => []
  | v :: rest =>
    (if isNested v then lead :: pieces level v else [lead ++ atomText v])
      ++ itemPieces level ("," ++ newLine level) rest

def fieldPieces (level : Nat) : List (String × Value) → List String
  | [] => []
  | [(k, v)] => stringText k :: ": " :: pieces level v
  | (k, v) :: rest =>
    stringText k :: ": " :: pieces level v ++ ("," ++ newLine level) :: fieldPieces level rest

end

/-- The first piece that cannot be written into a file, with the text before it and what is wrong
with it. -/
def unwritable? (v : Value) : Option (String × Text.CharTrouble) :=
  let isWritable (piece : String) : Bool := (Text.Medium.utf8.trouble? piece.toList).isNone
  let all := pieces 0 v
  match all.dropWhile isWritable with
  | [] => none
  | piece :: _ =>
    (Text.Medium.utf8.trouble? piece.toList).map fun t =>
      (String.join (all.takeWhile isWritable), t)

end Wireboard.Json
