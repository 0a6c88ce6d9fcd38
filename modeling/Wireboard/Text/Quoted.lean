import Wireboard.Text.Printable
import Wireboard.Text.Surrogate

/-!
# Quoted texts

A text inside the shown form of a value stands between quotes.  The quote is the single one,
unless the text has single quotes and no double ones.  The backslash and the quote itself are
escaped, three controls have letters, and what cannot be shown is written by its code point.
-/

namespace Wireboard.Text

/-- The digits of a number in base sixteen, at least so many. -/
def hexDigits (width n : Nat) : List Char :=
  let ds := Nat.toDigits 16 n
  List.replicate (width - ds.length) '0' ++ ds

/-- A code point in digits, as many as its size needs. -/
def escapedCode (code : Nat) : List Char :=
  if code < 0x100 then '\\' :: 'x' :: hexDigits 2 code
  else if code < 0x10000 then '\\' :: 'u' :: hexDigits 4 code
  else '\\' :: 'U' :: hexDigits 8 code

def quoteFor (cs : List Char) : Char :=
  if cs.contains '\'' && !cs.contains '"' then '"' else '\''

def escapeIn (quote : Char) (c : Char) : List Char :=
  if c = quote ∨ c = '\\' then ['\\', c]
  else if c = '\n' then ['\\', 'n']
  else if c = '\r' then ['\\', 'r']
  else if c = '\t' then ['\\', 't']
  else if isPrintable c then [c]
  else escapedCode (codeOf c)

def quoted (s : String) : String :=
  let cs := s.toList
  let q := quoteFor cs
  String.ofList (q :: cs.flatMap (escapeIn q) ++ [q])

end Wireboard.Text
