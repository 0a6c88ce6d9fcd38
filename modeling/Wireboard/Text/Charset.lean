import Wireboard.Text.Encoding
import Wireboard.Text.Pieces

/-!
# Character sets by name

A response may name the set of characters that its text is written in.  Most sets have many names;
case does not count, and neither does how the parts of a name are joined.  A text is read with the
replacement character for whatever is no character of the set.
-/

namespace Wireboard.Text

inductive Charset where
  | utf8
  /-- UTF-8 that may begin with a mark. -/
  | markedUtf8
  /-- UTF-16; without a given order of bytes it may begin with a mark. -/
  | utf16 (bigEndian? : Option Bool)
  | ascii
  | latin1
  | latin9
  | windows1252
deriving DecidableEq, Repr

namespace Charset

/-- The characters of Latin 9 that are not those of Latin 1. -/
def latin9Characters : List (Nat × Nat) := [
  (0xa4, 0x20ac), (0xa6, 0x160), (0xa8, 0x161), (0xb4, 0x17d), (0xb8, 0x17e), (0xbc, 0x152),
  (0xbd, 0x153), (0xbe, 0x178)]

/-- The characters of Windows 1252 that are not those of Latin 1; some bytes have none. -/
def windows1252Characters : List (Nat × Nat) := [
  (0x80, 0x20ac), (0x81, 0xfffd), (0x82, 0x201a), (0x83, 0x192), (0x84, 0x201e), (0x85, 0x2026),
  (0x86, 0x2020), (0x87, 0x2021), (0x88, 0x2c6), (0x89, 0x2030), (0x8a, 0x160), (0x8b, 0x2039),
  (0x8c, 0x152), (0x8d, 0xfffd), (0x8e, 0x17d), (0x8f, 0xfffd), (0x90, 0xfffd), (0x91, 0x2018),
  (0x92, 0x2019), (0x93, 0x201c), (0x94, 0x201d), (0x95, 0x2022), (0x96, 0x2013), (0x97, 0x2014),
  (0x98, 0x2dc), (0x99, 0x2122), (0x9a, 0x161), (0x9b, 0x203a), (0x9c, 0x153), (0x9d, 0xfffd),
  (0x9e, 0x17e), (0x9f, 0x178)]

/-- The character of a byte, where some are not those of Latin 1. -/
def byteChar (others : List (Nat × Nat)) (b : UInt8) : Char :=
  Char.ofNat ((others.lookup b.toNat).getD b.toNat)

/-- The text without the mark of UTF-8. -/
def unmarked : List UInt8 → List UInt8
  | 0xef :: 0xbb :: 0xbf :: rest => rest
  | bytes => bytes

/-- Read UTF-16, with the replacement character for what is no character. -/
def decodeUtf16 : Option Bool → List UInt8 → List Char
  | some bigEndian, bytes => decodeLossyBy (stepUtf16Strict bigEndian) 0 bytes
  | none, 0xfe :: 0xff :: rest => decodeLossyBy (stepUtf16Strict true) 0 rest
  | none, 0xff :: 0xfe :: rest => decodeLossyBy (stepUtf16Strict false) 0 rest
  | none, bytes => decodeLossyBy (stepUtf16Strict false) 0 bytes

/-- Read a text, with the replacement character for what is no character of the set. -/
def decode : Charset → List UInt8 → List Char
  | .utf8, bytes => decodeLossy bytes
  | .markedUtf8, bytes => decodeLossy (unmarked bytes)
  | .utf16 bigEndian?, bytes => decodeUtf16 bigEndian? bytes
  | .ascii, bytes => bytes.map fun b => if b < 128 then Char.ofNat b.toNat else replacement
  | .latin1, bytes => bytes.map (byteChar [])
  | .latin9, bytes => bytes.map (byteChar latin9Characters)
  | .windows1252, bytes => bytes.map (byteChar windows1252Characters)

/-- The names of the sets, in small letters and with low lines between their parts. -/
def names : List (Charset × List String) := [
  (.markedUtf8, ["utf_8_sig"]),
  (.utf16 none, ["utf_16", "utf16", "u16"]),
  (.utf16 (some false), ["utf_16_le", "utf_16le", "unicodelittleunmarked"]),
  (.utf16 (some true), ["utf_16_be", "utf_16be", "unicodebigunmarked"]),
  (.ascii, ["ascii", "us_ascii", "us", "646", "cp367", "ibm367", "csascii", "iso646_us",
    "iso_ir_6", "ansi_x3_4_1968", "ansi_x3.4_1968", "ansi_x3.4_1986", "iso_646.irv_1991"]),
  (.latin1, ["latin_1", "latin1", "latin", "l1", "iso_8859_1", "iso8859_1", "iso8859", "8859",
    "cp819", "ibm819", "csisolatin1", "iso_8859_1_1987", "iso_ir_100"]),
  (.latin9, ["latin9", "l9", "iso_8859_15", "iso8859_15"]),
  (.windows1252, ["cp1252", "windows_1252", "1252"])]

/-- A character that belongs to a part of a name. -/
def isNameChar (c : Char) : Bool := c.isAlphanum || c == '.'

/-- A name with its parts joined by low lines. -/
def joined (cs : List Char) : List Char :=
  let parts := splitAt '_' (cs.map fun c => if isNameChar c then c else '_')
  ['_'].intercalate (parts.filter fun part => !part.isEmpty)

/-- The set of a name.  A name that is unknown stands for UTF-8. -/
def ofName (cs : List Char) : Charset :=
  let name := String.ofList (joined (lowerAscii cs))
  ((names.find? fun e => e.2.contains name).map (·.1)).getD .utf8

end Charset

end Wireboard.Text
