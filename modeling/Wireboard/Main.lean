import Std.Time.DateTime.Timestamp
import Wireboard.CommandLine.Program
import Wireboard.Timestamp

/-!
# The command line

Reading the file, writing the lines and letting real time pass; everything else is decided by the
program.
-/

namespace Wireboard.CommandLine

/-- The time, as it stands at the beginning of a line. -/
def timeNow : IO String := do
  return Timestamp.lineText (← Std.Time.Timestamp.now).toMillisecondsSinceUnixEpoch.val.toNat

/-- What cannot be done with a file, by the number that the system gives it. -/
def fileFault? (code : UInt32) : Option FileFault :=
  if code = 21 then some .isDirectory
  else if code = 20 then some .notDirectory
  else if code = 36 then some .nameTooLong
  else none

def readPlace (path : String) : IO Store.Place := do
  if path.contains (Char.ofNat 0) then return .unusable .zeroInName
  try
    return .file (← IO.FS.readBinFile path).toList
  catch
    | .noFileOrDirectory .. => return .missing
    | e =>
      let code? : Option UInt32 := match e with
        | .inappropriateType _ code _ | .invalidArgument _ code _ | .otherError code _ => some code
        | _ => none
      match code?.bind fileFault? with
      | some cause => return .unusable (.file cause path)
      | none => throw e

/-- Some numbers of chance. -/
def drawSome : IO (List Num) :=
  (List.range 1024).mapM fun _ => do
    return .float ((← IO.rand 0 (pow2 53 - 1)).toFloat / (pow2 53).toFloat)

/-- Write an output and give its exit code. -/
def finishWith (out : Output) : IO UInt32 := do
  (← IO.getStdout).putStr out.stdout
  (← IO.getStderr).putStr out.stderr
  match out.ending with
  | .exit code => return code.toUInt32
  | .fault f =>
    (← IO.getStderr).putStrLn f.message
    return 1

def writeNews (threshold : Threshold) (s : Show) : IO Show := do
  let (news, s) := s.takeNews
  let out := news.foldl (Output.write threshold (← timeNow)) { ending := .exit 0 }
  discard (finishWith out)
  (← IO.getStdout).flush
  return s

/-- Let an app run up to a point in time, and write what happens when it happens. -/
partial def live (threshold : Threshold) (s : Show) (goal : Rat) : IO Show := do
  let s ← writeNews threshold s
  let span := s.pause goal
  if s.failure?.isSome || span ≤ 0 then return s
  IO.sleep span.ceil.toNat.toUInt32
  live threshold (s.wait span) goal

end Wireboard.CommandLine

open Wireboard Wireboard.CommandLine in
/-- Run the program on the real clock, files and streams. -/
def main (args : List String) : IO UInt32 := do
  match CommandLine.read args with
  | .error refusal => finishWith refusal.output
  | .ok i =>
    match Threshold.ofValue i.level with
    | .error f => finishWith { ending := .fault f }
    | .ok threshold =>
      match i.command.task (← readPlace i.command.file) with
      | .write out => finishWith out
      | .run board seconds events =>
        let s ← live threshold (Show.opening board (← drawSome) events) (spanOf seconds)
        finishWith (s.closing.output threshold (← timeNow))
