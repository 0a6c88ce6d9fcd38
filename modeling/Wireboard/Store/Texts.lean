import Wireboard.Fault

/-!
# Text files

A file is a row of bytes.  As a text it is UTF-8 with line ends of any kind.
-/

namespace Wireboard.Store

abbrev Bytes := List UInt8

def fileOf (text : String) : Bytes := text.toUTF8.toList

def textOf (file : Bytes) : Except Fault String :=
  ((Text.decodeUtf8 file).mapError Fault.bytes).map fun cs => String.ofList (Text.unifyLines cs)

end Wireboard.Store
