import Wireboard.Text.Upper
import Wireboard.Value.Dictionary
import Wireboard.Value.Show

/-!
# Notices

What the program tells whoever operates it, as opposed to what an app tells its user.  A notice has
a level, the name of the part that it comes from, a text and some context.  Notices are always
made; how many of them are shown is decided by a threshold.
-/

namespace Wireboard

/-- How serious something is. -/
inductive Level where
  | debug
  | info
  | warning
  | error
deriving DecidableEq, Repr

namespace Level

def all : List Level := [.debug, .info, .warning, .error]

/-- The word for a level in the log of an app. -/
def word : Level → String
  | .debug => "debug"
  | .info => "info"
  | .warning => "warning"
  | .error => "error"

def name : Level → String
  | .debug => "DEBUG"
  | .info => "INFO"
  | .warning => "WARNING"
  | .error => "ERROR"

/-- The place of a level on the scale of thresholds. -/
def severity : Level → Int
  | .debug => 10
  | .info => 20
  | .warning => 30
  | .error => 40

/-- The level of a word; a word for no level counts as information. -/
def ofWord (s : String) : Level := (all.find? (·.word == s)).getD .info

/-- The level that a value names; what names no level counts as information. -/
def ofValue (v : Value) : Except Fault Level :=
  (v.named? fun word => some (ofWord word)).map (·.getD .info)

end Level

structure Notice where
  level : Level
  source : String
  text : String
  context : Table Value := []
deriving DecidableEq

namespace Notice

/-- The name that the names of all parts begin with. -/
def rootName : String := "miniappruntime"

def fullName (name : String) : String :=
  if name == rootName || name.startsWith (rootName ++ ".") then name
  else rootName ++ "." ++ name

/-- The names of the parts that every notice has; no entry of a context may bear them. -/
def ownNames : List String := ["self", "message"]

/-- Give a notice by a method, with a context that leaves its own parts alone. -/
def give (method : String) (n : Notice) : Except Fault Notice :=
  match n.context.find? fun e => ownNames.contains e.1 with
  | some e => .error (.contextClash method e.1)
  | none => .ok n

/-- The entries of a context, with blanks between them. -/
def contextText (context : Table Value) : String :=
  " ".intercalate (context.map fun e => e.1 ++ "=" ++ e.2.shown)

/-- The text of a notice with its context. -/
def rendered (n : Notice) : String :=
  match n.context with
  | [] => n.text
  | context => n.text ++ " | " ++ contextText context

def line (n : Notice) (time : String) : String :=
  time ++ " | " ++ rightpad n.level.name 8 ++ " | " ++ n.source ++ " - " ++ n.rendered
where
  /-- Blanks at the end, up to a width. -/
  rightpad (s : String) (width : Nat) : String :=
    s ++ String.ofList (List.replicate (width - s.length) ' ')

end Notice

/-- From which severity on notices are shown. -/
structure Threshold where
  severity : Int
deriving DecidableEq, Repr

namespace Threshold

/-- The threshold of a part that has none of its own. -/
def standard : Threshold := ⟨30⟩

def names : Table Int := [
  ("CRITICAL", 50), ("FATAL", 50), ("ERROR", 40), ("WARN", 30), ("WARNING", 30), ("INFO", 20),
  ("DEBUG", 10), ("NOTSET", 0)]

/-- The threshold of a name, in capital letters or not; an unknown name asks for information. -/
def ofName (s : String) : Threshold := ⟨(names.get? (Text.upper s)).getD 20⟩

/-- The threshold that a value stands for: a number, or a name. -/
def ofValue : Value → Except Fault Threshold
  | .str name => .ok (ofName name)
  | .int n => .ok ⟨n⟩
  | .bool b => .ok ⟨if b then 1 else 0⟩
  | v => .error (.notAThreshold v.shown)

/-- The severity that counts: a threshold of zero leaves it to the standard one. -/
def effective (t : Threshold) : Int :=
  if t.severity = 0 then standard.severity else t.severity

def shows (t : Threshold) (n : Notice) : Bool := decide (t.effective ≤ n.level.severity)

end Threshold

end Wireboard
