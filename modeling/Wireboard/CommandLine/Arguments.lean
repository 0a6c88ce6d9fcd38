import Wireboard.Text.Digit
import Wireboard.Text.Pieces
import Wireboard.Text.Quoted

/-!
# Arguments

A command line is a row of words and switches.  A switch may be written in full, or by any beginning
of its long name that no other switch shares, and its value may stand behind it or be joined to it
with an equals sign.  After `--` everything is a word, and so is a negative number.

A form says which switches there are and which word it needs.  Whatever is left over is handed back,
for somebody else to judge.
-/

namespace Wireboard.CommandLine

structure Switch where
  /-- The ways to write it in full. -/
  names : List String
  /-- It has a value; then this says what is wrong with a value, if anything is. -/
  value? : Option (String → Option String) := none

/-- How a switch is called in messages. -/
def Switch.title (s : Switch) : String := "/".intercalate s.names

structure Form where
  program : String
  usage : String
  /-- What is said after the usage to whoever asks for help. -/
  details : String
  switches : List Switch
  /-- The word that has to be there. -/
  word : String
  /-- The word is taken together with everything after it. -/
  takesRest : Bool := false

/-- Why a command line is not carried out. -/
inductive Refusal where
  /-- It asks for help. -/
  | help (form : Form)
  /-- Something is wrong with it. -/
  | wrong (form : Form) (text : String)

def Form.wrongArgument (form : Form) (argument text : String) : Refusal :=
  .wrong form ("argument " ++ argument ++ ": " ++ text)

/-- What an argument is taken for. -/
inductive Token where
  | word (s : String)
  | separator
  /-- A switch, as it was written, with its full name and the value joined to it. -/
  | switch (written : String) (s : Switch) (name : String) (joined? : Option String)
  | unknown (s : String)

/-- The argument as it was written. -/
def Token.text : Token → String
  | .word s | .unknown s | .switch s _ _ _ => s
  | .separator => "--"

/-- A negative number: it is not taken for a switch. -/
def isNegative (cs : List Char) : Bool :=
  let body := if cs.getLast? = some '\n' then cs.dropLast else cs
  match body with
  | '-' :: digits =>
    let whole := digits.takeWhile Text.isDecimal
    match digits.dropWhile Text.isDecimal with
    | [] => !whole.isEmpty
    | '.' :: places => !places.isEmpty && places.all Text.isDecimal
    | _ => false
  | _ => false

namespace Form

def names (form : Form) : List (String × Switch) :=
  form.switches.flatMap fun s => s.names.map fun n => (n, s)

/-- An argument before and after its first equals sign. -/
def atEquals? (cs : List Char) : Option (String × String) :=
  if cs.contains '=' then
    some (String.ofList (Text.beforeFirst '=' cs), String.ofList (Text.afterFirst '=' cs))
  else none

/-- What an argument that is no name of a switch could be short for. -/
def candidates (form : Form) (s : String) : List Token :=
  match s.toList with
  | '-' :: '-' :: _ =>
    let start := ((atEquals? s.toList).map (·.1)).getD s
    let joined? := (atEquals? s.toList).map (·.2)
    form.names.filterMap fun (name, switch) =>
      if start.toList.isPrefixOf name.toList then some (.switch s switch name joined?) else none
  | '-' :: c :: rest =>
    form.names.filterMap fun (name, switch) =>
      if name = String.ofList ['-', c] then
        some (.switch s switch name (some (String.ofList rest)))
      else if s.toList.isPrefixOf name.toList then some (.switch s switch name none)
      else none
  | _ => []

/-- The switch whose name stands before an equals sign. -/
def joinedSwitch? (form : Form) (s : String) : Option Token := do
  let (name, value) ← atEquals? s.toList
  let switch ← form.names.lookup name
  return .switch s switch name (some value)

/-- What an argument before the separator is taken for. -/
def token (form : Form) (s : String) : Except Refusal Token :=
  if s.toList.head? ≠ some '-' then .ok (.word s)
  else
    match form.names.lookup s with
    | some switch => .ok (.switch s switch s none)
    | none =>
      if s = "-" then .ok (.word s)
      else
        match form.joinedSwitch? s with
        | some t => .ok t
        | none =>
          match form.candidates s with
          | [t] => .ok t
          | [] => .ok (if isNegative s.toList || s.toList.contains ' ' then .word s else .unknown s)
          | ts =>
            let matching := ", ".intercalate (ts.map fun t => match t with
              | .switch _ _ name _ => name
              | t => t.text)
            .error (.wrong form ("ambiguous option: " ++ s ++ " could match " ++ matching))

def tokens (form : Form) : List String → Except Refusal (List Token)
  | [] => .ok []
  | s :: rest =>
    if s = "--" then .ok (.separator :: rest.map .word)
    else do return (← form.token s) :: (← form.tokens rest)

end Form

structure Found where
  /-- The switches with their values, in order.  A separator that is joined to a switch is no
  value. -/
  values : List (String × Option String) := []
  /-- The word, or the word with everything after it. -/
  words? : Option (List String) := none
  /-- What nobody asked for. -/
  extras : List String := []

namespace Form

/-- The complaint about a value that a switch does not take. -/
def ignored (form : Form) (s : Switch) (value : String) : Refusal :=
  form.wrongArgument s.title ("ignored explicit argument " ++ Text.quoted value)

/-- A switch that asks for help, with something joined to it: letters after a single dash are
switches of their own, and anything else is wrong. -/
def helpWith (form : Form) (s : Switch) (name : String) : List Char → Refusal
  | [] => form.ignored s ""
  | c :: rest =>
    let isLong := name.toList.take 2 == ['-', '-']
    if !isLong && form.names.any (·.1 == String.ofList ['-', c]) then
      if rest.isEmpty then .help form else helpWith form s name rest
    else form.ignored s (String.ofList (c :: rest))

/-- The value of a switch, if nothing is wrong with it. -/
def checked (form : Form) (s : Switch) (check : String → Option String) (value : String) :
    Except Refusal (String × Option String) :=
  match check value with
  | some text => .error (form.wrongArgument s.title text)
  | none => .ok (s.title, some value)

/-- The value that is joined to a switch, if nothing is wrong with it. -/
def checkedJoined (form : Form) (s : Switch) (check : String → Option String) (value : String) :
    Except Refusal (String × Option String) :=
  if value = "--" then .ok (s.title, none) else form.checked s check value

/-- Go through the arguments. -/
def collect (form : Form) (found : Found) : List Token → Except Refusal Found
  | [] => .ok found
  | .word w :: rest =>
    if found.words?.isSome then
      form.collect { found with extras := found.extras ++ [w] } rest
    else if form.takesRest then .ok { found with words? := some (w :: rest.map Token.text) }
    else
      match rest with
      | .separator :: rest => form.collect { found with words? := some [w] } rest
      | rest => form.collect { found with words? := some [w] } rest
  | .separator :: rest =>
    match found.words?, rest with
    | none, .word w :: rest =>
      if form.takesRest then
        .ok { found with words? := some ("--" :: w :: rest.map Token.text) }
      else form.collect { found with words? := some [w] } rest
    | _, rest => form.collect { found with extras := found.extras ++ ["--"] } rest
  | .unknown s :: rest => form.collect { found with extras := found.extras ++ [s] } rest
  | .switch _ s name joined? :: rest =>
    match s.value?, joined? with
    | none, none => .error (.help form)
    | none, some joined => .error (form.helpWith s name joined.toList)
    | some check, some joined => do
      let value ← form.checkedJoined s check joined
      form.collect { found with values := found.values ++ [value] } rest
    | some check, none =>
      match rest with
      | .word w :: rest => do
        form.collect { found with values := found.values ++ [← form.checked s check w] } rest
      | _ => .error (form.wrongArgument s.title "expected one argument")

def read (form : Form) (args : List String) : Except Refusal (List String × Found) := do
  let found ← form.collect {} (← form.tokens args)
  match found.words? with
  | some words => return (words, found)
  | none => throw (.wrong form ("the following arguments are required: " ++ form.word))

end Form

end Wireboard.CommandLine
