import Wireboard.Text.Surrogate

/-!
# Texts as bytes

Reading the characters of a file or of an answer from its bytes.  Each encoding is given by one
step: from the bytes that are left, either a character and the number of bytes it takes, or a
fault, with the number of bytes it covers and a reason.  `decode` stops at the first fault;
`decodeLossy` puts the replacement character in its place and goes on.

Files refuse half of a surrogate pair; data texts let it pass.
-/

namespace Wireboard.Text

inductive Encoding where
  | utf8
  | utf16 (bigEndian : Bool)
  | utf32 (bigEndian : Bool)
deriving DecidableEq, Repr

def Encoding.name : Encoding → String
  | .utf8 => "utf-8"
  | .utf16 false => "utf-16-le"
  | .utf16 true => "utf-16-be"
  | .utf32 false => "utf-32-le"
  | .utf32 true => "utf-32-be"

/-- Why bytes are refused. -/
inductive ByteReason where
  | invalidStart
  | invalidContinuation
  | unexpectedEnd
  | truncated
  | notInRange
deriving DecidableEq, Repr

def ByteReason.message : ByteReason → String
  | .invalidStart => "invalid start byte"
  | .invalidContinuation => "invalid continuation byte"
  | .unexpectedEnd => "unexpected end of data"
  | .truncated => "truncated data"
  | .notInRange => "code point not in range(0x110000)"

/-- Bytes that could not be read: the encoding, the position, how many they are, the first one. -/
structure ByteTrouble where
  encoding : Encoding
  position : Nat
  size : Nat
  byte : UInt8
  reason : ByteReason
deriving DecidableEq, Repr

/-- Two hexadecimal digits. -/
def hexByte (b : UInt8) : String :=
  let ds := Nat.toDigits 16 b.toNat
  String.ofList (List.replicate (2 - ds.length) '0' ++ ds)

/-- The message for bytes that could not be read. -/
def ByteTrouble.message (t : ByteTrouble) : String :=
  let what :=
    if t.size = 1 then s!"byte 0x{hexByte t.byte} in position {t.position}"
    else s!"bytes in position {t.position}-{t.position + t.size - 1}"
  s!"'{t.encoding.name}' codec can't decode {what}: {t.reason.message}"

inductive Step where
  | char (c : Char) (size : Nat)
  | bad (reason : ByteReason) (size : Nat)
deriving DecidableEq, Repr

/-- A byte that continues a character. -/
def isContinuation (b : UInt8) : Bool := decide (0x80 ≤ b.toNat) && decide (b.toNat < 0xc0)

/-- The six bits of a continuing byte. -/
def low6 (b : UInt8) : Nat := b.toNat % 64

def mayFollow (first second : UInt8) : Bool :=
  isContinuation second &&
    match first.toNat with
    | 0xe0 => decide (0xa0 ≤ second.toNat)
    | 0xed => decide (second.toNat < 0xa0)
    | 0xf0 => decide (0x90 ≤ second.toNat)
    | 0xf4 => decide (second.toNat < 0x90)
    | _ => true

/-- One step in UTF-8, from a first byte and those after it. -/
def stepUtf8 (first : UInt8) (rest : List UInt8) : Step :=
  let b := first.toNat
  if b < 0x80 then .char (Char.ofNat b) 1
  else if b < 0xc2 ∨ 0xf5 ≤ b then .bad .invalidStart 1
  else
    match rest with
    | [] => .bad .unexpectedEnd 1
    | second :: rest₂ =>
      if !mayFollow first second then .bad .invalidContinuation 1
      else if b < 0xe0 then .char (charOf (b % 32 * 64 + low6 second)) 2
      else
        match rest₂ with
        | [] => .bad .unexpectedEnd 2
        | third :: rest₃ =>
          if !isContinuation third then .bad .invalidContinuation 2
          else if b < 0xf0 then
            .char (charOf (b % 16 * 4096 + low6 second * 64 + low6 third)) 3
          else
            match rest₃ with
            | [] => .bad .unexpectedEnd 3
            | fourth :: _ =>
              if !isContinuation fourth then .bad .invalidContinuation 3
              else
                let low := low6 second * 4096 + low6 third * 64 + low6 fourth
                .char (charOf (b % 8 * 262144 + low)) 4

/-- A step in UTF-8 that lets encoded surrogates pass. -/
def stepUtf8Loose (first : UInt8) (rest : List UInt8) : Step :=
  match rest with
  | second :: third :: _ =>
    if first.toNat = 0xed ∧ 0xa0 ≤ second.toNat ∧ isContinuation second ∧ isContinuation third then
      .char (charOf (0xd000 + low6 second * 64 + low6 third)) 3
    else stepUtf8 first rest
  | _ => stepUtf8 first rest

/-- A number of two bytes. -/
def unit16 (bigEndian : Bool) (a b : UInt8) : Nat :=
  if bigEndian then a.toNat * 256 + b.toNat else b.toNat * 256 + a.toNat

def stepUtf16 (bigEndian : Bool) (first : UInt8) (rest : List UInt8) : Step :=
  match rest with
  | [] => .bad .truncated 1
  | second :: rest₂ =>
    let u := unit16 bigEndian first second
    match rest₂ with
    | third :: fourth :: _ =>
      let v := unit16 bigEndian third fourth
      if 0xd800 ≤ u ∧ u < 0xdc00 ∧ 0xdc00 ≤ v ∧ v < 0xe000 then
        .char (charOf (0x10000 + (u - 0xd800) * 1024 + (v - 0xdc00))) 4
      else .char (charOf u) 2
    | _ => .char (charOf u) 2

/-- A step in UTF-16 that refuses half of a pair. -/
def stepUtf16Strict (bigEndian : Bool) (first : UInt8) (rest : List UInt8) : Step :=
  match stepUtf16 bigEndian first rest with
  | .char c 2 =>
    if !isStandIn c then .char c 2
    else if codeOf c < 0xdc00 ∧ rest.length < 3 then .bad .unexpectedEnd (rest.length + 1)
    else .bad .invalidStart 2
  | s => s

def stepUtf32 (bigEndian : Bool) (first : UInt8) (rest : List UInt8) : Step :=
  match rest with
  | second :: third :: fourth :: _ =>
    let high := unit16 bigEndian first second
    let low := unit16 bigEndian third fourth
    let code := if bigEndian then high * 65536 + low else low * 65536 + high
    if 0x10ffff < code then .bad .notInRange 4 else .char (charOf code) 4
  | _ => .bad .truncated (rest.length + 1)

def Encoding.step : Encoding → UInt8 → List UInt8 → Step
  | .utf8 => stepUtf8Loose
  | .utf16 bigEndian => stepUtf16 bigEndian
  | .utf32 bigEndian => stepUtf32 bigEndian

/-- Read bytes by steps from a position on; `skip` bytes belong to the character before. -/
def decodeFrom (encoding : Encoding) (step : UInt8 → List UInt8 → Step) :
    Nat → Nat → List UInt8 → Except ByteTrouble (List Char)
  | _, _, [] => .ok []
  | position, skip + 1, _ :: rest => decodeFrom encoding step (position + 1) skip rest
  | position, 0, b :: rest =>
    match step b rest with
    | .char c size =>
      match decodeFrom encoding step (position + 1) (size - 1) rest with
      | .ok cs => .ok (c :: cs)
      | .error t => .error t
    | .bad reason size => .error ⟨encoding, position, size, b, reason⟩

/-- Read UTF-8, refusing encoded surrogates. -/
def decodeUtf8 (bytes : List UInt8) : Except ByteTrouble (List Char) :=
  decodeFrom .utf8 stepUtf8 0 0 bytes

/-- Read bytes by steps, with the replacement character for each part that is no character; `skip`
bytes belong to the part before. -/
def decodeLossyBy (step : UInt8 → List UInt8 → Step) : Nat → List UInt8 → List Char
  | _, [] => []
  | skip + 1, _ :: rest => decodeLossyBy step skip rest
  | 0, b :: rest =>
    match step b rest with
    | .char c size => c :: decodeLossyBy step (size - 1) rest
    | .bad _ size => replacement :: decodeLossyBy step (size - 1) rest

/-- Read UTF-8 with the replacement character for each maximal part that is no character. -/
def decodeLossy (bytes : List UInt8) : List Char := decodeLossyBy stepUtf8 0 bytes

/-- The encoding of a data text and the number of bytes of its mark, told from the first bytes: a
byte order mark, or where the zero bytes are. -/
def detect : List UInt8 → Encoding × Nat
  | 0x00 :: 0x00 :: 0xfe :: 0xff :: _ => (.utf32 true, 4)
  | 0xff :: 0xfe :: 0x00 :: 0x00 :: _ => (.utf32 false, 4)
  | 0xfe :: 0xff :: _ => (.utf16 true, 2)
  | 0xff :: 0xfe :: _ => (.utf16 false, 2)
  | 0xef :: 0xbb :: 0xbf :: _ => (.utf8, 3)
  | a :: b :: c :: d :: _ =>
    if a = 0 then (if b = 0 then .utf32 true else .utf16 true, 0)
    else if b = 0 then (if c = 0 ∧ d = 0 then .utf32 false else .utf16 false, 0)
    else (.utf8, 0)
  | [a, b] =>
    if a = 0 then (.utf16 true, 0) else if b = 0 then (.utf16 false, 0) else (.utf8, 0)
  | _ => (.utf8, 0)

/-- Read a data text in the encoding that its first bytes tell.  Positions count from the start of
the bytes, except that a UTF-8 mark is not counted. -/
def decodeDetected (bytes : List UInt8) : Except ByteTrouble (List Char) :=
  let (encoding, mark) := detect bytes
  let start := if encoding = .utf8 then 0 else mark
  decodeFrom encoding encoding.step start 0 (bytes.drop mark)

/-- Line ends as single characters: a carriage return, alone or before a line feed, is a line
feed. -/
def unifyLines : List Char → List Char
  | [] => []
  | '\r' :: '\n' :: rest => '\n' :: unifyLines rest
  | '\r' :: rest => '\n' :: unifyLines rest
  | c :: rest => c :: unifyLines rest

end Wireboard.Text
