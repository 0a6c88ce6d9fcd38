import Wireboard.CommandLine.Arguments
import Wireboard.Number.Reading
import Wireboard.Notice

/-!
# Commands

What the program can be told to do: check a document, tell about it, or run it.
-/

namespace Wireboard.CommandLine

/-- An event to deliver: its type and its target. -/
structure Event where
  type : String
  target : String
deriving DecidableEq, Repr

inductive Command where
  | validate (file : String)
  | info (file : String)
  /-- Run for some seconds, with events as they were written. -/
  | run (file : String) (seconds : Value) (events : List Value)

/-- What the program is told: how much to tell, and what to do. -/
structure Invocation where
  level : Value
  command : Command

/-! ## Forms -/

def helpSwitch : Switch := { names := ["-h", "--help"] }

/-- The switch for the threshold of notices. -/
def levelSwitch : Switch := { names := ["--log-level"], value? := some fun _ => none }

/-- The switch for the time to run. -/
def durationSwitch : Switch where
  names := ["--duration"]
  value? := some fun s =>
    if (Number.readFloat? s.toList).isSome then none
    else some ("invalid float value: " ++ Text.quoted s)

def eventSwitch : Switch := { names := ["--event"], value? := some fun _ => none }

/-- What is said about every form with a file. -/
def fileDetails : String := "\npositional arguments:\n  file\n\noptions:\n"

/-- The form of a command that has a file and no switches. -/
def plainForm (name : String) : Form where
  program := Notice.rootName ++ " " ++ name
  usage := Notice.rootName ++ " " ++ name ++ " [-h] file"
  details := fileDetails ++ "  -h, --help  show this help message and exit\n"
  switches := [helpSwitch]
  word := "file"

def runForm : Form where
  program := Notice.rootName ++ " run"
  usage := Notice.rootName ++ " run [-h] [--duration DURATION] [--event EVENT] file"
  details := fileDetails
    ++ "  -h, --help           show this help message and exit\n"
    ++ "  --duration DURATION  Seconds to keep timers running (default: 0).\n"
    ++ "  --event EVENT        Deliver an event after start, as TYPE:TARGET (e.g.\n"
    ++ "                       onClick:btn_1). Repeatable.\n"
  switches := [helpSwitch, durationSwitch, eventSwitch]
  word := "file"

def commandNames : List String := ["validate", "info", "run"]

def mainForm : Form where
  program := Notice.rootName
  usage := Notice.rootName ++ " [-h] [--log-level LOG_LEVEL] \x7bvalidate,info,run\x7d ..."
  details := "\npositional arguments:\n  \x7bvalidate,info,run\x7d\n"
    ++ "    validate            Check that a file is a valid mini-app document.\n"
    ++ "    info                Summarize pages, components and nodes.\n"
    ++ "    run                 Run an app headless (stdout callbacks, in-memory\n"
    ++ "                        storage).\n"
    ++ "\noptions:\n"
    ++ "  -h, --help            show this help message and exit\n"
    ++ "  --log-level LOG_LEVEL\n"
    ++ "                        Log level for the package logger (default: WARNING).\n"
  switches := [helpSwitch, levelSwitch]
  word := "command"
  takesRest := true

/-! ## Reading -/

/-- The values of a switch, in order; where it has none it has an empty list. -/
def valuesOf (found : Found) (s : Switch) : List Value :=
  (found.values.filter (·.1 == s.title)).map fun e => (e.2.map .str).getD (.list [])

/-- The complaint about an unknown command. -/
def unknownCommand (name : String) : Refusal :=
  mainForm.wrongArgument mainForm.word ("invalid choice: " ++ Text.quoted name ++ " (choose from "
    ++ ", ".intercalate (commandNames.map Text.quoted) ++ ")")

/-- The command of a name and what follows it, and what is left over. -/
def readCommand (name : String) (args : List String) : Except Refusal (Command × List String) := do
  if name = "validate" then
    let (words, found) ← (plainForm name).read args
    return (.validate (words.headD ""), found.extras)
  else if name = "info" then
    let (words, found) ← (plainForm name).read args
    return (.info (words.headD ""), found.extras)
  else if name = "run" then
    let (words, found) ← runForm.read args
    let seconds := (valuesOf found durationSwitch).getLastD (.int 0)
    return (.run (words.headD "") seconds (valuesOf found eventSwitch), found.extras)
  else throw (unknownCommand name)

/-- What a command line tells the program. -/
def read (args : List String) : Except Refusal Invocation := do
  let (words, found) ← mainForm.read args
  let (command, extras) ← readCommand (words.headD "") words.tail
  match found.extras ++ extras with
  | [] =>
    return { level := (valuesOf found levelSwitch).getLastD (.str "WARNING"), command }
  | extras => throw (.wrong mainForm ("unrecognized arguments: " ++ " ".intercalate extras))

/-- The event that a value writes: the type and the target with a colon between them. -/
def Event.ofValue (v : Value) : Except Fault Event :=
  let s := v.plain
  let type := Text.strip (Text.beforeFirst ':' s.toList)
  if !s.toList.contains ':' || type.isEmpty then .error (.invalidEvent s)
  else .ok ⟨String.ofList type, String.ofList (Text.strip (Text.afterFirst ':' s.toList))⟩

end Wireboard.CommandLine
