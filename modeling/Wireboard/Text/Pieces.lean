/-!
# Cutting texts at a character

A text is cut at the first or the last place of a character, or at every place of it.
-/

namespace Wireboard.Text

/-- The pieces between the places of a character; there is always one more piece than places. -/
def splitAt (c : Char) : List Char → List (List Char)
  | [] => [[]]
  | x :: xs =>
    if x = c then [] :: splitAt c xs
    else
      match splitAt c xs with
      | piece :: pieces => (x :: piece) :: pieces
      | [] => [[x]]

/-- What stands before the first place of a character. -/
def beforeFirst (c : Char) (cs : List Char) : List Char := cs.takeWhile (· != c)

/-- What stands after the first place of a character; nothing if it has none. -/
def afterFirst (c : Char) (cs : List Char) : List Char := (cs.dropWhile (· != c)).drop 1

/-- What stands after the last place of a character; everything if it has none. -/
def afterLast (c : Char) (cs : List Char) : List Char := (cs.reverse.takeWhile (· != c)).reverse

/-- A letter of ASCII in its small form. -/
def lowerLetter (c : Char) : Char :=
  if 'A' ≤ c ∧ c ≤ 'Z' then Char.ofNat (c.toNat + 32) else c

/-- The text with the letters of ASCII in their small form. -/
def lowerAscii (cs : List Char) : List Char := cs.map lowerLetter

/-- The first text occurs in the second. -/
def occursIn (piece : List Char) : List Char → Bool
  | [] => piece.isEmpty
  | c :: rest => piece.isPrefixOf (c :: rest) || occursIn piece rest

end Wireboard.Text
