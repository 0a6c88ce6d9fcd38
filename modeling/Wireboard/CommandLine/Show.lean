import Wireboard.CommandLine.Output
import Wireboard.Engine.Time
import Wireboard.Rehearsal.Stage

/-!
# Running an app without a screen

The callbacks of the app become lines of output, the host has a clipboard and nothing else, and data
is kept in memory.  The app is started, gets its events, runs for a while and is stopped.
-/

namespace Wireboard.CommandLine

def callbackLine? : Callback → Option String
  | .setText target text => some s!"[setText] {target} = {text}"
  | .setStyle target property value => some s!"[setStyle] {target}.{property} = {value}"
  | .alert text => some s!"[alert] {text}"
  | .log _ message => some s!"[log] {message.plain}"
  | .navigate page => some s!"[navigate] {page}"
  | .input _ => none

def Output.write (threshold : Threshold) (time : String) (out : Output) : Happening → Output
  | .callback c =>
    match callbackLine? c with
    | some line => { out with stdout := out.stdout ++ line ++ "\n" }
    | none => out
  | .notice n =>
    if threshold.shows n then { out with stderr := out.stderr ++ n.line time ++ "\n" } else out
  | .asked _ | .sent _ => out

/-- The stage of an app without a screen. -/
def headlessStage (draws : List Num) : Rehearsal.Stage where
  audience := .mute
  host := .headless {}
  proxy := .net (.direct ({} : Config).httpTimeout) []
  draws := draws

/-- The limit of steps; no run of an app comes near it. -/
def stepLimit : Nat := pow10 15

/-- A run of an app: the machine, or how it failed. -/
structure Show where
  board : Board
  machine : Machine Rehearsal.Stage
  failure? : Option Fault := none

namespace Show

/-- Go on with the show, unless it has failed. -/
def goOn (s : Show) (f : Machine Rehearsal.Stage → Machine Rehearsal.Stage) : Show :=
  match s.failure? with
  | some _ => s
  | none =>
    let m := f s.machine
    let failure? := m.finished.findSome? fun e => match e.2 with
      | .error f => some f
      | .ok _ => none
    { s with machine := { m with finished := [] }, failure? }

/-- Run a job to its end, with everything that becomes ready. -/
def perform (s : Show) (j : Job) : Show :=
  s.goOn fun m =>
    (m.spawn (some 0) false m.freshContext (Machine.jobCode j)).settle s.board
      Rehearsal.Stage.surroundings stepLimit

/-- Start the app and deliver the events. -/
def opening (board : Board) (draws : List Num) (events : List Event) : Show :=
  events.foldl (fun s e => s.perform (.handle (.str e.type) (.str e.target)))
    ({ board, machine := { outside := headlessStage draws } : Show }.perform .start)

/-- Let time pass. -/
def wait (s : Show) (span : Rat) : Show :=
  s.goOn fun m => m.advance s.board Rehearsal.Stage.surroundings stepLimit span

/-- Stop the app and wait for what is still under way. -/
def closing (s : Show) : Show :=
  s.goOn fun m =>
    ((m.runNow s.board Rehearsal.Stage.surroundings stepLimit .stop).enqueue (.checkIdle 0)).settle
      s.board Rehearsal.Stage.surroundings stepLimit

/-- Take out what has happened since the last time. -/
def takeNews (s : Show) : List Happening × Show :=
  (s.machine.history.reverse, { s with machine := { s.machine with history := [] } })

/-- How long nothing will happen, up to a point in time. -/
def pause (s : Show) (goal : Rat) : Rat :=
  match s.machine.nextTime? with
  | some time => (if time < goal then time else goal) - s.machine.now
  | none => goal - s.machine.now

/-- What is written in the end. -/
def output (s : Show) (threshold : Threshold) (time : String) : Output :=
  let out := s.takeNews.1.foldl (Output.write threshold time) { ending := .exit 0 }
  match s.failure? with
  | some f => out.failing f
  | none => out

end Show

/-- The time for which an app runs, in milliseconds. -/
def spanOf (seconds : Float) : Rat :=
  match Binary64.quantity? seconds with
  | some (.ratio r) => if r < 0 then 0 else r * 1000
  | _ => 0

end Wireboard.CommandLine
