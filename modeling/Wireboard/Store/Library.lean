import Wireboard.Document.Decode
import Wireboard.Document.Encode
import Wireboard.Document.Summary
import Wireboard.Notice
import Wireboard.Store.AppId
import Wireboard.Store.Tree

/-!
# Libraries of apps

A library keeps apps by id and lists them, the one saved last first.  Saving sets the time of the
last change.  A library in memory is a table.  A library in a directory keeps every app in a file of
its own, named by the id without dots and slashes; files that hold no app are left out of the list.
-/

namespace Wireboard.Store

/-- Apps in memory, by id. -/
structure Shelf where
  apps : Table App := []
deriving DecidableEq

namespace Shelf

def load (s : Shelf) (id : Value) : Except Fault (Option App) := id.named? s.apps.get?

def save (s : Shelf) (time : String) (app : App) : App × Shelf :=
  let app := app.touch time
  (app, ⟨s.apps.put app.id app⟩)

/-- Delete an app; was there one? -/
def delete (s : Shelf) (id : Value) : Except Fault (Bool × Shelf) := do
  match ← id.named? fun name => if s.apps.has name then some name else none with
  | some name => return (true, ⟨s.apps.erase name⟩)
  | none => return (false, s)

def list (s : Shelf) : Except Fault (List Summary) :=
  Summary.sort (s.apps.map fun e => Summary.ofApp e.2)

end Shelf

/-- The files of a directory, by name. -/
structure Directory where
  path : String
  files : Table Bytes := []
deriving DecidableEq

namespace Directory

/-- What the names of files with apps end with. -/
def suffix : String := ".json"

def fileName (id : Value) : Except Fault String := (fileStem id).map (· ++ suffix)

def appOf (file : Bytes) (reach : Reach := {}) : Except Fault App := do
  App.load (← Json.read (← textOf file) reach.reading) reach

/-- Refuse a name that is too long for a file of the directory. -/
def checkLength (d : Directory) (name : String) : Except Fault Unit :=
  if longestName < name.utf8ByteSize then .error (.file .nameTooLong (d.path ++ "/" ++ name))
  else .ok ()

/-- The file of a name, if it is there.  No file has a name with a character of code zero. -/
def find? (d : Directory) (name : String) : Except Fault (Option Bytes) := do
  if name.contains (Char.ofNat 0) then return none
  d.checkLength name
  return d.files.get? name

/-- What is added to the name of a file while it is being written. -/
def draftSuffix : String := ".tmp"

/-- Write a value to a file: a draft first, which then takes the place of the file.  A draft that
cannot be finished stays. -/
def write (d : Directory) (name : String) (v : Value) : Except Fault Unit × Directory :=
  let draft := name ++ draftSuffix
  if name.contains (Char.ofNat 0) then (.error .zeroInName, d)
  else
    match d.checkLength draft, v.toJsonIndented, Json.unwritable? v with
    | .error f, _, _ | .ok (), .error f, _ => (.error f, d)
    | .ok (), .ok _, some (begun, trouble) =>
      (.error (.unwritable trouble), { d with files := d.files.put draft (fileOf begun) })
    | .ok (), .ok text, none =>
      (.ok (), { d with files := (d.files.erase draft).put name (fileOf text) })

def load (d : Directory) (id : Value) : Except Fault (Option App) := do
  match ← d.find? (← fileName id) with
  | none => return none
  | some file => return some (← appOf file)

def save (d : Directory) (time : String) (app : App) : Except Fault App × Directory :=
  let app := app.touch time
  match fileName (.str app.id) with
  | .error f => (.error f, d)
  | .ok name =>
    let (outcome, d) := d.write name app.toValue
    (outcome.map fun _ => app, d)

/-- Delete an app; was there one? -/
def delete (d : Directory) (id : Value) : Except Fault (Bool × Directory) := do
  let name ← fileName id
  match ← d.find? name with
  | some _ => return (true, { d with files := d.files.erase name })
  | none => return (false, d)

/-- The notice about a file that is left out. -/
def skipNotice (d : Directory) (name : String) (f : Fault) : Notice where
  level := .warning
  source := "miniappruntime.storage.json_files"
  text := "Skipping unreadable app file"
  context := [("path", .str (d.path ++ "/" ++ name)), ("error", .str f.message)]

def isAppFile (name : String) : Bool := name.endsWith suffix

/-- The summary of a file, or the notice why there is none.  A document whose parts have the wrong
shape altogether is not passed over, and neither is what is nested too deeply. -/
def summaryOf (d : Directory) (name : String) (file : Bytes) (reach : Reach := {}) :
    Except Fault (Summary ⊕ Notice) :=
  match appOf file reach with
  | .ok app => .ok (.inl (Summary.ofApp app))
  | .error f => if f.isBadValue then .ok (.inr (d.skipNotice name f)) else .error f

/-- The summaries of the apps, and the notices about files that were left out. -/
def list (d : Directory) (reach : Reach := {}) : Except Fault (List Summary) × List Notice :=
  let entries := d.files.filter fun e => isAppFile e.1
  match entries.mapM fun e => d.summaryOf e.1 e.2 reach with
  | .error f => (.error f, [])
  | .ok parts => (Summary.sort (parts.filterMap Sum.getLeft?) reach, parts.filterMap Sum.getRight?)

end Directory

end Wireboard.Store
