import Wireboard.Http.Exchange
import Wireboard.Json.Reader
import Wireboard.Text.Blank
import Wireboard.Text.Charset

/-!
# A client for rehearsals

A rehearsal has no net, but it has a client that writes requests and reads responses.  It sends
headers that are ASCII, texts that can be written and values that have strict JSON, and goes by no
address.  The text of a response is read in the set of characters that its type names, with
replacements for what is no text.
-/

namespace Wireboard.Rehearsal

open Http Text

/-! ## Requests -/

def written (medium : Text.Medium) (s : String) : Except Fault String :=
  match medium.trouble? s.toList with
  | some t => .error (.unwritable t)
  | none => .ok s

/-- Headers that are texts: ASCII, names and values alike. -/
def headerTexts (headers : Table Value) : Except Fault (Table String) :=
  headers.mapM fun e => do
    let name ← written .ascii e.1
    match e.2 with
    | .str text => return (name, ← written .ascii text)
    | v => throw (.notAHeader v.kindName)

mutual

/-- What keeps a value out of strict JSON, found from left to right: a whole number that has no
text, or a double that is not finite. -/
def strictFault? : Value → Option Fault
  | .int n => if Number.hasText n then none else some .tooLongToWrite
  | .float x =>
    match Binary64.quantity? x with
    | some (.ratio _) => none
    | _ => some .notFinite
  | .nan _ => some .notFinite
  | .list items => strictFaultOfItems? items
  | .obj fields => strictFaultOfFields? fields
  | .null | .bool _ | .str _ => none

/-- What keeps some values out of strict JSON. -/
def strictFaultOfItems? : List Value → Option Fault
  | [] => none
  | v :: rest => strictFault? v <|> strictFaultOfItems? rest

/-- What keeps some fields out of strict JSON. -/
def strictFaultOfFields? : List (String × Value) → Option Fault
  | [] => none
  | (_, v) :: rest => strictFault? v <|> strictFaultOfFields? rest

end

/-- The content can be written. -/
def checked : Content → Except Fault Unit
  | .none => .ok ()
  | .text s => discard (written .utf8 s)
  | .json v =>
    match strictFault? v with
    | some f => .error f
    | none => .ok ()

/-- The headers with the name of the client, if they name none. -/
def withAgent (headers : Table Value) : Table Value :=
  if headers.any fun e => lowered e.1 == "user-agent" then headers
  else ("User-Agent", .str "python-httpx/0.28.1") :: headers

/-! ## Responses

The type of a response is followed by parameters, each of them a name and a value, with semicolons
between them.  A value may stand in quotes, and a semicolon in quotes does not count.  The parameter
`charset` names the set of characters of the text. -/

/-- Cut at the semicolons that are not in quotes; a quote after a backslash is part of the text. -/
def cutParameters (quoted : Bool) : List Char → List (List Char)
  | [] => [[]]
  | '\\' :: '"' :: rest => prepend ['\\', '"'] (cutParameters quoted rest)
  | c :: rest =>
    if c = ';' && !quoted then [] :: cutParameters quoted rest
    else prepend [c] (cutParameters (if c = '"' then !quoted else quoted) rest)
where
  /-- Put characters before the first piece. -/
  prepend (cs : List Char) : List (List Char) → List (List Char)
    | [] => [cs]
    | piece :: pieces => (cs ++ piece) :: pieces

/-- A value without the quotes around it. -/
def unquote (cs : List Char) : List Char :=
  if 1 < cs.length && cs.head? == some '"' && cs.getLast? == some '"' then unescape (inner cs)
  else if 1 < cs.length && cs.head? == some '<' && cs.getLast? == some '>' then inner cs
  else cs
where
  /-- The text without its first and last character. -/
  inner (cs : List Char) : List Char := (cs.drop 1).dropLast
  /-- A backslash before a quote or another backslash is left out. -/
  unescape : List Char → List Char
    | '\\' :: '\\' :: rest => '\\' :: unescape rest
    | '\\' :: '"' :: rest => '"' :: unescape rest
    | c :: rest => c :: unescape rest
    | [] => []

/-- The value of the first parameter of a name. -/
def parameter? (type : List Char) (name : String) : Option (List Char) :=
  let parts := cutParameters false type
  (parts.find? fun part => lowerAscii (strip (beforeFirst '=' part)) == name.toList).map fun part =>
    unquote (strip (afterFirst '=' part))

/-- The set of characters that a type names, UTF-8 if it names none. -/
def charsetOf (type : String) : Charset :=
  (parameter? type.toList "charset").elim .utf8 Charset.ofName

/-- The header of a name, however it is written; several of them with commas between them. -/
def header (headers : Table String) (name : String) : String :=
  ", ".intercalate ((headers.filter fun e => lowered e.1 == name).map (·.2))

/-- The phrases that go with statuses. -/
def phrases : List (Nat × String) := [
  (100, "Continue"), (101, "Switching Protocols"), (102, "Processing"), (103, "Early Hints"),
  (200, "OK"), (201, "Created"), (202, "Accepted"), (203, "Non-Authoritative Information"),
  (204, "No Content"), (205, "Reset Content"), (206, "Partial Content"), (207, "Multi-Status"),
  (208, "Already Reported"), (226, "IM Used"), (300, "Multiple Choices"),
  (301, "Moved Permanently"), (302, "Found"), (303, "See Other"), (304, "Not Modified"),
  (305, "Use Proxy"), (307, "Temporary Redirect"), (308, "Permanent Redirect"),
  (400, "Bad Request"), (401, "Unauthorized"), (402, "Payment Required"), (403, "Forbidden"),
  (404, "Not Found"), (405, "Method Not Allowed"), (406, "Not Acceptable"),
  (407, "Proxy Authentication Required"), (408, "Request Timeout"), (409, "Conflict"),
  (410, "Gone"), (411, "Length Required"), (412, "Precondition Failed"),
  (413, "Request Entity Too Large"), (414, "Request-URI Too Long"),
  (415, "Unsupported Media Type"), (416, "Requested Range Not Satisfiable"),
  (417, "Expectation Failed"), (418, "I'm a teapot"), (421, "Misdirected Request"),
  (422, "Unprocessable Entity"), (423, "Locked"), (424, "Failed Dependency"), (425, "Too Early"),
  (426, "Upgrade Required"), (428, "Precondition Required"), (429, "Too Many Requests"),
  (431, "Request Header Fields Too Large"), (451, "Unavailable For Legal Reasons"),
  (500, "Internal Server Error"), (501, "Not Implemented"), (502, "Bad Gateway"),
  (503, "Service Unavailable"), (504, "Gateway Timeout"), (505, "HTTP Version Not Supported"),
  (506, "Variant Also Negotiates"), (507, "Insufficient Storage"), (508, "Loop Detected"),
  (510, "Not Extended"), (511, "Network Authentication Required")]

/-- The phrase that goes with a status, empty if none does. -/
def phrase (status : Nat) : String := (phrases.lookup status).getD ""

def client : Client where
  send method url headers content := do
    let headers ← headerTexts (withAgent headers)
    checked content
    return { method, url, headers, content }
  header := header
  json body := Json.readBytes body
  text headers body :=
    .ok (String.ofList ((charsetOf (header headers "content-type")).decode body))
  phrase := phrase

end Wireboard.Rehearsal
