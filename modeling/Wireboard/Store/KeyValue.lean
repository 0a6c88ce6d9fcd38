import Wireboard.Json.Reader
import Wireboard.Store.Texts
import Wireboard.Value.Coerce
import Wireboard.Value.Dictionary

/-!
# Stores of texts by key

Apps keep their data as texts under keys.  A store in memory is a dictionary and keeps whatever it
is given.  A store in a file keeps its entries as one JSON object and reads the file again before
every operation, so that several programs may share it; of what it reads only texts count.  A file
that cannot be read is left alone.
-/

namespace Wireboard.Store

/-- A file that may be there or not. -/
structure File where
  bytes? : Option Bytes := none
deriving DecidableEq

namespace File

/-- The texts among the fields of an object; any other value has none. -/
def textFields : Value → Table String
  | .obj fields => fields.filterMap fun e => match e.2 with
    | .str s => some (e.1, s)
    | _ => none
  | _ => []

def entries (f : File) : Except Fault (Table String) :=
  match f.bytes? with
  | none => .ok []
  | some bytes => do return textFields (← Json.read (← textOf bytes))

def fieldsOf (t : Table String) : Table Value := t.map fun e => (e.1, .str e.2)

def ofFields (fields : Table Value) : Except Fault File := do
  let text ← (Value.obj fields).toJsonIndented
  match Json.unwritable? (.obj fields) with
  | some (_, trouble) => throw (.unwritable trouble)
  | none => return ⟨some (fileOf text)⟩

/-- The text under a key, null if there is none. -/
def get (f : File) (key : Value) : Except Fault Value := do
  let t ← f.entries
  return ((← key.named? t.get?).map .str).getD .null

/-- The fields with one more.  Whatever is no text is no name of a field yet. -/
def withField (fields : Table Value) (key v : Value) : Table Value :=
  match key with
  | .str name => fields.put name v
  | key => fields ++ [(Json.nameText key, v)]

def set (f : File) (key v : Value) : Except Fault File := do
  let t ← f.entries
  discard key.toKey
  discard key.toPlain
  ofFields (withField (fieldsOf t) key v)

/-- Take the text under a key away.  The file is written only if there was one. -/
def delete (f : File) (key : Value) : Except Fault File := do
  let t ← f.entries
  match ← key.named? fun name => if t.has name then some name else none with
  | some name => ofFields (fieldsOf (t.erase name))
  | none => return f

end File

inductive KeyValue where
  | memory (entries : Dictionary)
  | file (f : File)
deriving DecidableEq

namespace KeyValue

/-- What is under a key, null if there is nothing. -/
def get (s : KeyValue) (key : Value) : Except Fault Value :=
  match s with
  | .memory entries => do return (entries.get? (← key.toKey)).getD .null
  | .file f => f.get key

def set (s : KeyValue) (key v : Value) : Except Fault KeyValue :=
  match s with
  | .memory entries => do
    discard key.toKey
    return .memory (entries.put key v)
  | .file f => (f.set key v).map .file

/-- Take what is under a key away. -/
def delete (s : KeyValue) (key : Value) : Except Fault KeyValue :=
  match s with
  | .memory entries => do return .memory (entries.erase (← key.toKey))
  | .file f => (f.delete key).map .file

/-- The keys of a store in memory, in order. -/
def keys : KeyValue → List Value
  | .memory entries => entries.names
  | .file _ => []

end KeyValue

end Wireboard.Store
