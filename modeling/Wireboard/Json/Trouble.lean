/-!
# What is wrong with a JSON text

A text is refused for one reason at one position.  The position is told in three ways: by line and
column, both counted from one, and by the number of characters before it.
-/

namespace Wireboard.Json

/-- Why a text is refused. -/
inductive Reason where
  | expectingValue
  | expectingName
  | expectingColon
  | expectingComma
  | unterminated
  | controlCharacter
  | badEscape
  | badCodePoint
  | extraData
  | byteOrderMark
deriving DecidableEq, Repr

def Reason.message : Reason → String
  | .expectingValue => "Expecting value"
  | .expectingName => "Expecting property name enclosed in double quotes"
  | .expectingColon => "Expecting ':' delimiter"
  | .expectingComma => "Expecting ',' delimiter"
  | .unterminated => "Unterminated string starting at"
  | .controlCharacter => "Invalid control character at"
  | .badEscape => "Invalid \\escape"
  | .badCodePoint => "Invalid \\uXXXX escape"
  | .extraData => "Extra data"
  | .byteOrderMark => "Unexpected UTF-8 BOM (decode using utf-8-sig)"

/-- A reason and its place. -/
structure Trouble where
  reason : Reason
  line : Nat
  column : Nat
  position : Nat
deriving DecidableEq, Repr

/-- The message for a refused text. -/
def Trouble.message (t : Trouble) : String :=
  s!"{t.reason.message}: line {t.line} column {t.column} (char {t.position})"

def Trouble.locate (text : List Char) (reason : Reason) (position : Nat) : Trouble :=
  let before := text.take position
  let lastLine := before.reverse.takeWhile (· != '\n')
  ⟨reason, before.count '\n' + 1, lastLine.length + 1, position⟩

end Wireboard.Json
