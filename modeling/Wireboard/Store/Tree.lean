import Wireboard.Store.Texts
import Wireboard.Table

/-!
# Trees of files

A tree is a directory with files in it and below it.  A path is walked step by step from there: two
dots lead up, and whoever leaves the tree that way finds only directories and nothing by name.  Only
the last step may lead to a file.
-/

namespace Wireboard.Store

/-- What a path leads to. -/
inductive Place where
  | file (bytes : Bytes)
  | missing
  /-- Something that cannot be read. -/
  | unusable (f : Fault)
deriving DecidableEq

/-- The files of a directory and below it, by their paths from there. -/
structure Tree where
  files : Table Bytes := []
deriving DecidableEq

/-- Where a walk has got to. -/
inductive Spot where
  /-- A directory of the tree, by the names on the way there, the last one first. -/
  | inside (names : List String)
  /-- The directory above all others. -/
  | root
  /-- Another directory outside of the tree. -/
  | outside
  | file (bytes : Bytes)
deriving DecidableEq

/-- The most bytes that the name of a file may have. -/
def longestName : Nat := 255

/-- The bytes that no path reaches. -/
def longestPath : Nat := 4096

/-- The directories that every system has. -/
def rootDirectories : List String := [
  "bin", "boot", "dev", "etc", "home", "lib", "media", "mnt", "opt", "proc", "root", "run", "sbin",
  "srv", "sys", "tmp", "usr", "var"]

/-- The path that some names make, the last one first. -/
def pathOf (names : List String) : String := "/".intercalate names.reverse

namespace Tree

/-- There are files below a path. -/
def isDirectory (t : Tree) (path : String) : Bool :=
  t.files.any fun e => e.1.startsWith (path ++ "/")

/-- Where a name leads from a directory, or what is wrong with it; `none` if it leads nowhere. -/
def enter (t : Tree) (spot : Spot) (name : String) : Except (Option FileFault) Spot :=
  if longestName < name.utf8ByteSize then .error (some .nameTooLong)
  else
    match spot with
    | .inside names =>
      let path := pathOf (name :: names)
      match t.files.get? path with
      | some bytes => .ok (.file bytes)
      | none => if t.isDirectory path then .ok (.inside (name :: names)) else .error none
    | .root => if rootDirectories.contains name then .ok .outside else .error none
    | .outside => .error none
    | .file _ => .error (some .notDirectory)

def step (t : Tree) (spot : Spot) (name : String) : Except (Option FileFault) Spot :=
  match spot with
  | .file _ => .error (some .notDirectory)
  | .inside [] => if name = ".." then .ok .outside else t.enter spot name
  | .inside (_ :: names) => if name = ".." then .ok (.inside names) else t.enter spot name
  | .root => if name = ".." then .ok .root else t.enter spot name
  | .outside => if name = ".." then .ok .outside else t.enter spot name

/-- Where some steps lead. -/
def walk (t : Tree) (spot : Spot) : List String → Except (Option FileFault) Spot
  | [] => .ok spot
  | name :: rest => do t.walk (← t.step spot name) rest

/-- What a path leads to, given its steps. -/
def place (t : Tree) (path : String) (steps : List String) : Place :=
  let start : Spot := if path.startsWith "/" then .root else .inside []
  if path.contains (Char.ofNat 0) then .unusable .zeroInName
  else if longestPath ≤ path.utf8ByteSize then .unusable (.file .nameTooLong path)
  else
    match t.walk start steps with
    | .ok (.file bytes) => .file bytes
    | .ok _ => .unusable (.file .isDirectory path)
    | .error (some cause) => .unusable (.file cause path)
    | .error none => .missing

end Tree

end Wireboard.Store
