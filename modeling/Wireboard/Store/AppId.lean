import Wireboard.Value.Coerce

/-!
# App ids as file names

An app is kept in a file that bears its id, so the characters that could lead out of the directory
are taken away: slashes, backslashes and dots.  An id with nothing left is refused.
-/

namespace Wireboard.Store

/-- A character that may not stand in the name of a file. -/
def isUnsafe (c : Char) : Bool := c == '/' || c == '.' || c == '\\'

def stripUnsafe (id : String) : String := String.ofList (id.toList.filter (!isUnsafe ·))

/-- The file name for an id, without ending. -/
def fileStem (id : Value) : Except Fault String := do
  let text ← (id.orElse (.str "")).toPlain
  let stem := stripUnsafe text
  if stem = "" then throw (.invalidAppId id.shown) else return stem

end Wireboard.Store
