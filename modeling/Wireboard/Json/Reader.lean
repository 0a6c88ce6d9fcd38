import Wireboard.Fault
import Wireboard.Number.Reading
import Wireboard.Value.Basic

/-!
# Reading JSON texts

The reader goes through the characters from left to right and stops at the first trouble, or where
a list or an object is nested so deep that there is no room for it.  It accepts the words `NaN`,
`Infinity` and `-Infinity`, tells whole numbers from doubles by the presence of a point or an
exponent, and keeps the last of several fields of one name in the place of the first.

Positions are carried as the number of characters that are left, so no function needs to know
where it stands in the text; the place is worked out once, at the end.
-/

namespace Wireboard.Json

/-- Why reading stops: a trouble, with the number of characters left there, a whole number with too
many digits, or a list or an object that is nested too deeply. -/
inductive Halt where
  | trouble (reason : Reason) (left : Nat)
  | tooLong (digits : Nat)
  | tooDeep (task : Descent)
deriving DecidableEq, Repr

/-- The space between tokens. -/
def isSpace (c : Char) : Bool := c == ' ' || c == '\t' || c == '\n' || c == '\r'

/-- The text after the space in front of it. -/
def skipSpace (cs : List Char) : List Char := cs.dropWhile isSpace

/-! ## Strings -/

/-- The value of a hexadecimal digit. -/
def hexValue? (c : Char) : Option Nat :=
  if '0' ≤ c ∧ c ≤ '9' then some (c.toNat - 48)
  else if 'a' ≤ c ∧ c ≤ 'f' then some (c.toNat - 87)
  else if 'A' ≤ c ∧ c ≤ 'F' then some (c.toNat - 55)
  else none

/-- The number that four hexadecimal digits write. -/
def hexFour? (a b c d : Char) : Option Nat := do
  let a ← hexValue? a
  let b ← hexValue? b
  let c ← hexValue? c
  let d ← hexValue? d
  return a * 4096 + b * 256 + c * 16 + d

/-- The character that an escape letter stands for. -/
def escaped? (c : Char) : Option Char :=
  if c = '"' ∨ c = '\\' ∨ c = '/' then some c
  else if c = 'b' then some (Char.ofNat 8)
  else if c = 'f' then some (Char.ofNat 12)
  else if c = 'n' then some '\n'
  else if c = 'r' then some '\r'
  else if c = 't' then some '\t'
  else none

inductive StringStep where
  | close
  | char (c : Char) (size : Nat)
  | bad (reason : Reason) (left : Nat)
deriving DecidableEq, Repr

/-- The escape of a code point by four digits, after the letter `u`.  A pair of escapes for two
surrogates is one character.  There must be something after the digits. -/
def codePointStep (cs : List Char) : StringStep :=
  match cs with
  | a :: b :: c :: d :: e :: rest =>
    match hexFour? a b c d with
    | none => .bad .badCodePoint (cs.length + 1)
    | some high =>
      if 0xd800 ≤ high ∧ high < 0xdc00 then
        match e, rest with
        | '\\', 'u' :: p :: q :: r :: s :: _ :: _ =>
          match hexFour? p q r s with
          | none => .bad .badCodePoint rest.length
          | some low =>
            if 0xdc00 ≤ low ∧ low < 0xe000 then
              .char (Text.charOf (0x10000 + (high - 0xd800) * 1024 + (low - 0xdc00))) 12
            else .char (Text.charOf high) 6
        | _, _ => .char (Text.charOf high) 6
      else .char (Text.charOf high) 6
  | _ => .bad .badCodePoint (cs.length + 1)

/-- One step inside a string, from its next character and those after it.  `opening` is the text
from the opening quote on. -/
def stringStep (opening : List Char) (c : Char) (rest : List Char) : StringStep :=
  if c = '"' then .close
  else if c = '\\' then
    match rest with
    | [] => .bad .unterminated opening.length
    | 'u' :: cs => codePointStep cs
    | e :: _ =>
      match escaped? e with
      | some x => .char x 2
      | none => .bad .badEscape (rest.length + 1)
  else if c.toNat < 32 then .bad .controlCharacter (rest.length + 1)
  else .char c 1

/-- The characters of a string up to its closing quote, and what follows.  `opening` is the text
from the opening quote on; `skip` characters belong to the step before. -/
def scanString (opening : List Char) : Nat → List Char → Except Halt (List Char × List Char)
  | _, [] => .error (.trouble .unterminated opening.length)
  | skip + 1, _ :: rest => scanString opening skip rest
  | 0, c :: rest =>
    match stringStep opening c rest with
    | .close => .ok ([], rest)
    | .bad reason left => .error (.trouble reason left)
    | .char x size =>
      match scanString opening (size - 1) rest with
      | .ok (xs, tail) => .ok (x :: xs, tail)
      | .error h => .error h

/-! ## Numbers -/

def isAsciiDigit (c : Char) : Bool := decide ('0' ≤ c) && decide (c ≤ '9')

/-- The digits at the start of a text, and what follows them. -/
def digitRun (cs : List Char) : List Nat × List Char :=
  ((cs.takeWhile isAsciiDigit).map (·.toNat - 48), cs.dropWhile isAsciiDigit)

/-- The whole part of a number: a lone zero, or digits that start with another one. -/
def wholePart (cs : List Char) : Option (List Nat × List Char) :=
  match cs with
  | '0' :: rest => some ([0], rest)
  | c :: _ => if isAsciiDigit c then some (digitRun cs) else none
  | [] => none

/-- The places after a point, if there are any. -/
def placesPart (cs : List Char) : Option (List Nat × List Char) :=
  match cs with
  | '.' :: rest =>
    match digitRun rest with
    | ([], _) => none
    | found => some found
  | _ => none

def exponentPart (cs : List Char) : Option (Int × List Char) :=
  match cs with
  | c :: rest =>
    if c = 'e' ∨ c = 'E' then
      let (negative, body) := Number.takeSign rest
      match digitRun body with
      | ([], _) => none
      | (ds, tail) =>
        some (if negative then -(Number.ofDigits ds : Int) else Number.ofDigits ds, tail)
    else none
  | [] => none

/-- The minus sign in front, and what follows it. -/
def takeMinus (cs : List Char) : Bool × List Char :=
  match cs with
  | '-' :: rest => (true, rest)
  | _ => (false, cs)

/-- The longest number at the start of a text.  Without places and exponent it is whole. -/
def readNumber (cs : List Char) : Except Halt (Value × List Char) :=
  let (negative, body) := takeMinus cs
  match wholePart body with
  | none => .error (.trouble .expectingValue cs.length)
  | some (whole, afterWhole) =>
    match placesPart afterWhole, exponentPart ((placesPart afterWhole).elim afterWhole (·.2)) with
    | none, none =>
      if Number.digitLimit < whole.length then .error (.tooLong whole.length)
      else
        .ok (.int (if negative then -(Number.ofDigits whole : Int) else Number.ofDigits whole),
          afterWhole)
    | places, exponent =>
      let ds := (places.map (·.1)).getD []
      let e := (exponent.map (·.1)).getD 0
      let tail := exponent.elim (places.elim afterWhole (·.2)) (·.2)
      .ok (.float (Number.ofDecimal negative (Number.ofDigits (whole ++ ds)) (e - ds.length)), tail)

/-! ## Values -/

/-- The word stands at the start of the text. -/
def afterWord? (word cs : List Char) : Option (List Char) :=
  if word.isPrefixOf cs then some (cs.drop word.length) else none

def constants : List (List Char × Value) := [
  ("null".toList, .null), ("true".toList, .bool true), ("false".toList, .bool false),
  ("NaN".toList, .nan .written),
  ("Infinity".toList, .float (Binary64.infinity false)),
  ("-Infinity".toList, .float (Binary64.infinity true))]

/-- A word for a value, or a number. -/
def readAtom (cs : List Char) : Except Halt (Value × List Char) :=
  match constants.findSome? fun e => (afterWord? e.1 cs).map fun rest => (e.2, rest) with
  | some found => .ok found
  | none => readNumber cs

/-- The room inside of a list or an object, if there is any; without a limit there always is. -/
def inside? : Option Nat → Option (Option Nat)
  | none => some none
  | some 0 => none
  | some (room + 1) => some (some room)

mutual

/-- The value at the start of a text, and what follows it. -/
def readValue (room : Option Nat) : Nat → List Char → Except Halt (Value × List Char)
  | 0, cs => .error (.trouble .expectingValue cs.length)
  | fuel + 1, cs =>
    match cs with
    | '"' :: rest =>
      match scanString cs 0 rest with
      | .ok (s, tail) => .ok (.str (String.ofList s), tail)
      | .error h => .error h
    | '[' :: rest =>
      match inside? room with
      | none => .error (.tooDeep .readingList)
      | some room =>
        match skipSpace rest with
        | ']' :: tail => .ok (.list [], tail)
        | body =>
          match readItems room fuel body with
          | .ok (items, tail) => .ok (.list items, tail)
          | .error h => .error h
    | '\x7b' :: rest =>
      match inside? room with
      | none => .error (.tooDeep .readingObject)
      | some room =>
        match skipSpace rest with
        | '\x7d' :: tail => .ok (.obj [], tail)
        | body =>
          match readFields room fuel body with
          | .ok (fields, tail) => .ok (.obj (Table.ofEntries fields), tail)
          | .error h => .error h
    | _ => readAtom cs

/-- The items of a list up to its closing bracket, and what follows. -/
def readItems (room : Option Nat) : Nat → List Char → Except Halt (List Value × List Char)
  | 0, cs => .error (.trouble .expectingValue cs.length)
  | fuel + 1, cs =>
    match readValue room fuel cs with
    | .error h => .error h
    | .ok (v, afterValue) =>
      match skipSpace afterValue with
      | ']' :: tail => .ok ([v], tail)
      | ',' :: rest =>
        match readItems room fuel (skipSpace rest) with
        | .ok (vs, tail) => .ok (v :: vs, tail)
        | .error h => .error h
      | other => .error (.trouble .expectingComma other.length)

/-- The fields of an object up to its closing brace, and what follows. -/
def readFields (room : Option Nat) :
    Nat → List Char → Except Halt (List (String × Value) × List Char)
  | 0, cs => .error (.trouble .expectingName cs.length)
  | fuel + 1, cs =>
    match cs with
    | '"' :: rest =>
      match scanString cs 0 rest with
      | .error h => .error h
      | .ok (name, afterName) =>
        match skipSpace afterName with
        | ':' :: afterColon =>
          match readValue room fuel (skipSpace afterColon) with
          | .error h => .error h
          | .ok (v, afterValue) =>
            match skipSpace afterValue with
            | '\x7d' :: tail => .ok ([(String.ofList name, v)], tail)
            | ',' :: more =>
              match readFields room fuel (skipSpace more) with
              | .ok (fields, tail) => .ok ((String.ofList name, v) :: fields, tail)
              | .error h => .error h
            | other => .error (.trouble .expectingComma other.length)
        | other => .error (.trouble .expectingColon other.length)
    | other => .error (.trouble .expectingName other.length)

end

/-- The one value in a row of characters, with space around it. -/
def readChars (cs : List Char) (room : Option Nat := none) : Except Halt Value :=
  match readValue room (2 * cs.length + 2) (skipSpace cs) with
  | .error h => .error h
  | .ok (v, afterValue) =>
    match skipSpace afterValue with
    | [] => .ok v
    | rest => .error (.trouble .extraData rest.length)

/-- The value of a whole text.  A byte order mark has no place in a text. -/
def readText (cs : List Char) (room : Option Nat := none) : Except Halt Value :=
  if cs.head? = some (Char.ofNat 0xfeff) then .error (.trouble .byteOrderMark cs.length)
  else readChars cs room

/-- The cause of failure for a reader that stopped in a text. -/
def Halt.toFault (cs : List Char) : Halt → Fault
  | .trouble reason left => .json (Trouble.locate cs reason (cs.length - left))
  | .tooLong digits => .tooLongToRead digits
  | .tooDeep task => .tooDeep task

/-- Read a text.  If there is a limit, lists and objects may be nested only so deep. -/
def read (text : String) (room : Option Nat := none) : Except Fault Value :=
  let cs := text.toList
  (readText cs room).mapError (·.toFault cs)

/-- Read a text from bytes, in the encoding that they show. -/
def readBytes (bytes : List UInt8) (room : Option Nat := none) : Except Fault Value := do
  let cs ← (Text.decodeDetected bytes).mapError Fault.bytes
  (readChars cs room).mapError (·.toFault cs)

end Wireboard.Json
