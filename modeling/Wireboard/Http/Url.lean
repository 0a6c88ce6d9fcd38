import Wireboard.Number.Reading
import Wireboard.Value.Dictionary

/-!
# Addresses that may be asked

An app may ask only for `http` and `https` addresses of hosts outside the own machine and network.
The guard looks at the scheme and at the host of the address: the part between the two slashes and
the next slash, question mark or hash, after the last `@`, without port and brackets.

An address that cannot be taken apart is not asked either: unbalanced brackets, brackets around
something that is no address of version six or later, anything but a port beside brackets, and
characters that a resolver would read as one of the marks `/ ? # @ :`.
-/

namespace Wireboard.Http

open Text

/-! ## Numeric addresses -/

/-- One of the four numbers of an address of version four, without needless zeros. -/
def isOctet (cs : List Char) : Bool :=
  cs.all (fun c => decide ('0' ≤ c) && decide (c ≤ '9')) && !cs.isEmpty
    && decide (cs.length ≤ 3) && (cs == ['0'] || cs.head? != some '0')
    && decide (Number.ofDigits (cs.map (·.toNat - 48)) ≤ 255)

/-- An address of version four. -/
def isIPv4 (cs : List Char) : Bool :=
  let octets := splitAt '.' cs
  octets.length == 4 && octets.all isOctet

/-- One of the eight groups of an address of version six. -/
def isGroup (cs : List Char) : Bool :=
  cs.all (fun c =>
    (decide ('0' ≤ c) && decide (c ≤ '9')) || (decide ('a' ≤ c) && decide (c ≤ 'f'))
      || (decide ('A' ≤ c) && decide (c ≤ 'F')))
    && !cs.isEmpty && decide (cs.length ≤ 4)

/-- The groups of an address of version six, where a last group in the form of version four counts
for two. -/
def groups? (cs : List Char) : Option (List (List Char)) :=
  let parts := splitAt ':' cs
  if parts.length < 3 then none
  else
    match parts.getLast? with
    | some final =>
      if final.contains '.' then
        if isIPv4 final then some (parts.dropLast ++ [['0'], ['0']]) else none
      else some parts
    | none => none

/-- The groups before and after the run of zeros that two colons leave out are well formed.  A
colon at either end belongs to such a pair. -/
def isSkipping (parts : List (List Char)) (skip : Nat) : Bool :=
  let high := parts.take skip
  let low := parts.drop (skip + 1)
  let high := if high.head? = some [] then high.drop 1 else high
  let low := if low.getLast? = some [] then low.dropLast else low
  let leads := parts.head? != some [] || high.isEmpty
  let trails := parts.getLast? != some [] || low.isEmpty
  leads && trails && decide (high.length + low.length ≤ 7) && high.all isGroup && low.all isGroup

/-- The positions of the empty groups that are not at an end. -/
def innerGaps (parts : List (List Char)) : List Nat :=
  (List.range parts.length).filter fun i =>
    decide (0 < i) && decide (i + 1 < parts.length) && parts[i]? == some []

/-- An address of version six, with an optional zone after a percent sign. -/
def isIPv6 (cs : List Char) : Bool :=
  let zone := afterFirst '%' cs
  let zoneFits := !cs.contains '%' || (!zone.isEmpty && !zone.contains '%')
  let address := beforeFirst '%' cs
  !cs.contains '/' && zoneFits &&
    match groups? address with
    | none => false
    | some parts =>
      decide (parts.length ≤ 9) &&
        match innerGaps parts with
        | [] => parts.length == 8 && parts.all isGroup
        | [skip] => isSkipping parts skip
        | _ => false

/-- An address of a later version, by its form alone. -/
def isFutureAddress (cs : List Char) : Bool :=
  match cs with
  | 'v' :: rest =>
    let version := beforeFirst '.' rest
    let tail := afterFirst '.' rest
    !version.isEmpty && version.all (fun c => isGroup [c]) && !tail.isEmpty && !tail.contains '\n'
  | _ => false

/-- What may stand in brackets. -/
def isBracketed (cs : List Char) : Bool :=
  if cs.head? = some 'v' then isFutureAddress cs else isIPv6 cs

/-! ## Taking an address apart -/

/-- Characters that turn into one of the marks of an address when a name is looked up. -/
def disguisedMarks : List Nat := [
  0x2047, 0x2048, 0x2049, 0x2100, 0x2101, 0x2105, 0x2106, 0x2a74, 0xfe13, 0xfe16, 0xfe55, 0xfe56,
  0xfe5f, 0xfe6b, 0xff03, 0xff0f, 0xff1a, 0xff1f, 0xff20]

def isSchemeChar (c : Char) : Bool :=
  (decide ('a' ≤ c) && decide (c ≤ 'z')) || (decide ('A' ≤ c) && decide (c ≤ 'Z'))
    || (decide ('0' ≤ c) && decide (c ≤ '9')) || c == '+' || c == '-' || c == '.'

/-- The text without the controls and blanks before it and without line breaks and tabs in it. -/
def tidy (cs : List Char) : List Char :=
  (cs.dropWhile fun c => decide (c.toNat ≤ 32)).filter fun c => c != '\t' && c != '\r' && c != '\n'

/-- The scheme of an address, in small letters, and what follows its colon.  Without a scheme the
first part is empty. -/
def splitScheme (cs : List Char) : List Char × List Char :=
  let scheme := beforeFirst ':' cs
  let starts :=
    match scheme with
    | c :: _ => isSchemeChar c && c.isAlpha
    | [] => false
  if cs.contains ':' && starts && scheme.all isSchemeChar then
    (lowerAscii scheme, afterFirst ':' cs)
  else ([], cs)

/-- The part of an address that names the host: after two slashes, up to the next mark. -/
def authority (cs : List Char) : List Char :=
  match cs with
  | '/' :: '/' :: rest => rest.takeWhile fun c => c != '/' && c != '?' && c != '#'
  | _ => []

/-- The host of an authority as it is written: what stands in the brackets after the last `@`, or
there before the port. -/
def writtenHost (authority : List Char) : List Char :=
  let info := afterLast '@' authority
  if info.contains '[' then beforeFirst ']' (afterFirst '[' info) else beforeFirst ':' info

/-- Nothing stands before the brackets after the last `@`, and nothing but a port after them. -/
def bracketsStandAlone (authority : List Char) : Bool :=
  let info := afterLast '@' authority
  let after := afterFirst ']' (afterFirst '[' info)
  !info.contains '[' || (info.head? == some '[' && (after.isEmpty || after.head? == some ':'))

/-- The authority has balanced brackets around what may stand in them, and no disguised mark.  Where
there are brackets at all, the host must be such that it may stand in them. -/
def isSound (authority : List Char) : Bool :=
  let opens := authority.contains '['
  let closes := authority.contains ']'
  opens == closes
    && (!opens || (bracketsStandAlone authority && isBracketed (writtenHost authority)))
    && authority.all fun c => !disguisedMarks.contains c.toNat

/-- The host of an authority, in small letters. -/
def hostOf (authority : List Char) : List Char := lowerAscii (writtenHost authority)

/-! ## The guard -/

def ownHosts : List String := ["localhost", "127.0.0.1", "0.0.0.0"]

/-- The beginnings of hosts of the own machine and network. -/
def ownPrefixes : List String := ["10.", "192.168.", "127."]

/-- The host lies in the own network from `172.16` to `172.31`. -/
def isOwnRange (host : List Char) : Bool :=
  match splitAt '.' host with
  | [first, second, _, _] =>
    first == "172".toList &&
      match Number.readInt second with
      | .value n => decide (16 ≤ n) && decide (n ≤ 31)
      | _ => false
  | _ => false

/-- The host may not be asked. -/
def isOwnHost (host : List Char) : Bool :=
  ownHosts.contains (String.ofList host)
    || ownPrefixes.any (fun p => p.toList.isPrefixOf host)
    || isOwnRange host

/-- The address may not be asked. -/
def isBlocked (url : String) : Bool :=
  let (scheme, rest) := splitScheme (tidy url.toList)
  let authority := authority rest
  let host := hostOf authority
  !isSound authority
    || !(String.ofList scheme == "http" || String.ofList scheme == "https")
    || host.isEmpty || isOwnHost host

/-- The value, taken for an address, may not be asked.  A vacant value is the empty address. -/
def isBlockedValue (v : Value) : Except Fault Bool :=
  match v with
  | .str url => .ok (isBlocked url)
  | v => do
    discard v.toKey
    if v.isVacant then return isBlocked "" else throw (.noPart v.kindName "decode")

end Wireboard.Http
