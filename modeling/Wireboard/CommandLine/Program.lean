import Wireboard.CommandLine.Info
import Wireboard.CommandLine.Show
import Wireboard.Document.Decode
import Wireboard.Store.Tree

/-!
# The program

What the program writes and how it ends, given the command line and what the path on it leads to.
-/

namespace Wireboard.CommandLine

/-! ## Files -/

/-- The steps of a path that lead somewhere. -/
def pathSteps (path : String) : List String :=
  ((Text.splitAt '/' path.toList).filter fun step => !step.isEmpty && step != ['.']).map
    String.ofList

/-- The path without steps that lead nowhere. -/
def plainPath (path : String) : String :=
  let slashes := path.toList.takeWhile (· == '/')
  let root := if slashes.length = 2 then "//" else if slashes.isEmpty then "" else "/"
  let plain := root ++ "/".intercalate (pathSteps path)
  if plain = "" then "." else plain

def Command.file : Command → String
  | .validate file | .info file | .run file _ _ => plainPath file

/-- What the file of a command leads to in a tree. -/
def Command.place (command : Command) (t : Store.Tree) : Store.Place :=
  t.place command.file (pathSteps command.file)

/-- What is written about a file that is not there. -/
def missingFile (path : String) : Output :=
  { stderr := "Error: file not found: " ++ path ++ "\n", ending := .exit 2 }

def appOf (file : Store.Bytes) : Except Fault App := do App.ofText (← Store.textOf file)

/-! ## Commands -/

/-- What a command needs besides its file, or what is wrong with it. -/
def Command.events : Command → Except Fault (List Event)
  | .run _ _ events => events.mapM Event.ofValue
  | _ => .ok []

/-- What a command comes to: something to write, or an app to run. -/
inductive Task where
  | write (out : Output)
  | run (board : Board) (seconds : Float) (events : List Event)

/-- What a command comes to on the app in its file. -/
def Command.taskOn (command : Command) (events : List Event) (app : App) : Except Fault Task :=
  match command with
  | .validate _ => return .write { stdout := validText app, ending := .exit 0 }
  | .info _ => return .write { stdout := ← infoText app, ending := .exit 0 }
  | .run _ seconds _ => do
    let seconds ← seconds.toFloat
    return .run (← Board.ofApp {} app) seconds events

def Task.ofFault (f : Fault) : Task := .write ({ ending := .exit 0 : Output }.failing f)

/-- What a command comes to.  The events are looked at before the file. -/
def Command.task (command : Command) (place : Store.Place) : Task :=
  match command.events, place with
  | .error f, _ => .ofFault f
  | .ok _, .missing => .write (missingFile command.file)
  | .ok _, .unusable f => .ofFault f
  | .ok events, .file bytes =>
    match (do command.taskOn events (← appOf bytes) : Except Fault Task) with
    | .ok task => task
    | .error f => .ofFault f

/-- Carry out a command on its file. -/
def Command.output (command : Command) (threshold : Threshold) (place : Store.Place)
    (draws : List Num) (time : String) : Output :=
  match command.task place with
  | .write out => out
  | .run board seconds events =>
    (((Show.opening board draws events).wait (spanOf seconds)).closing).output threshold time

/-- Run the program in a directory with some files. -/
def output (args : List String) (t : Store.Tree) (draws : List Num) (time : String) : Output :=
  match read args with
  | .error r => r.output
  | .ok i =>
    match Threshold.ofValue i.level with
    | .error f => { ending := .fault f }
    | .ok threshold => i.command.output threshold (i.command.place t) draws time

end Wireboard.CommandLine
