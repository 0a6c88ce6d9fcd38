import Wireboard.CommandLine.Command

/-!
# Output

What the program writes, and how it ends.
-/

namespace Wireboard.CommandLine

/-- How the program ends. -/
inductive Ending where
  | exit (code : Nat)
  /-- Something went wrong that the program does not know how to put. -/
  | fault (f : Fault)
deriving DecidableEq

/-- What the program writes and how it ends. -/
structure Output where
  stdout : String := ""
  stderr : String := ""
  ending : Ending
deriving DecidableEq

/-- What is written about a command line that is not carried out. -/
def Refusal.output : Refusal → Output
  | .help form => { stdout := "usage: " ++ form.usage ++ "\n" ++ form.details, ending := .exit 0 }
  | .wrong form text =>
    { stderr := "usage: " ++ form.usage ++ "\n" ++ form.program ++ ": error: " ++ text ++ "\n"
      ending := .exit 2 }

/-- The output, ended by a fault.  A value that cannot be used is reported; anything else is not the
program's to report. -/
def Output.failing (out : Output) (f : Fault) : Output :=
  if f.isBadValue then
    { out with stderr := out.stderr ++ "Error: " ++ f.message ++ "\n", ending := .exit 1 }
  else { out with ending := .fault f }

end Wireboard.CommandLine
