import Wireboard.Json.Trouble
import Wireboard.Text.Encoding
import Wireboard.Text.Unwritable

/-!
# What can go wrong

Every failure of the library is one of these causes.  The cause says what happened; `message` is
the only place where it is put into words.
-/

namespace Wireboard

/-- Why a document is refused. -/
inductive FormatFault where
  | notAnObject
  | missingName
  | notAList (key : String)
  | badJson (trouble : Json.Trouble)
deriving DecidableEq, Repr

/-- The words for a refused document. -/
def FormatFault.message : FormatFault → String
  | .notAnObject => "Mini app must be a JSON object (dict)"
  | .missingName => "Invalid app format: missing 'name'"
  | .notAList key => s!"Invalid app format: '{key}' must be a list"
  | .badJson t => s!"Invalid app JSON: {t.message}"

/-- What cannot be done with a file. -/
inductive FileFault where
  | isDirectory
  | notDirectory
  | nameTooLong
deriving DecidableEq, Repr

/-- The number and the words by which the system tells about a file. -/
def FileFault.words : FileFault → String
  | .isDirectory => "[Errno 21] Is a directory"
  | .notDirectory => "[Errno 20] Not a directory"
  | .nameTooLong => "[Errno 36] File name too long"

/-- What has gone too far down: each of these goes through a value and the members of its members,
and has only so much room for it. -/
inductive Descent where
  | readingList
  | readingObject
  | copying
  | showing
  | writing
  | comparing
deriving DecidableEq, Repr

/-- The words for what has gone too far down. -/
def Descent.message : Descent → String
  | .readingList =>
    "maximum recursion depth exceeded while decoding a JSON array from a unicode string"
  | .readingObject =>
    "maximum recursion depth exceeded while decoding a JSON object from a unicode string"
  | .copying | .writing => "maximum recursion depth exceeded"
  | .showing => "maximum recursion depth exceeded while getting the repr of an object"
  | .comparing => "maximum recursion depth exceeded in comparison"

/-- A cause of failure: of one that can be put into words.  Kinds of values are named as
`Value.kindName` does. -/
inductive Fault where
  /-- A whole number has more digits than a text may have. -/
  | tooLongToWrite
  /-- A text has more digits than a whole number is read from. -/
  | tooLongToRead (digits : Nat)
  /-- A value is nested too deeply for what was to be done with it. -/
  | tooDeep (task : Descent)
  /-- A whole number lies beyond all doubles. -/
  | beyondDoubles
  /-- A quotient of whole numbers lies beyond all doubles. -/
  | quotientBeyondDoubles
  /-- A whole number was asked of an infinite double. -/
  | infiniteToInt
  /-- A whole number was asked of a double that is no number. -/
  | notANumberToInt
  /-- A text is no whole number. -/
  | notAnInt (text : String)
  /-- A text is no double. -/
  | notAFloat (text : String)
  /-- A value of this kind is neither a number nor a text of one. -/
  | notNumeric (kind : String)
  /-- A double has no place in strict JSON. -/
  | notFinite
  /-- An instant lies beyond the days that have dates. -/
  | dateOutOfRange
  /-- An instant is so many days away that nobody counts them. -/
  | tooManyDays (days : Int)
  /-- An instant is so many days away that they cannot be counted. -/
  | uncountableDays
  /-- A text is no JSON. -/
  | json (trouble : Json.Trouble)
  /-- A value of this kind is no text that could be read. -/
  | notReadable (kind : String)
  /-- Bytes are no text. -/
  | bytes (trouble : Text.ByteTrouble)
  /-- A text has characters for which there is no room where it should go. -/
  | unwritable (trouble : Text.CharTrouble)
  /-- A document is refused. -/
  | format (cause : FormatFault)
  /-- A value of this kind has no members to go through. -/
  | notIterable (kind : String)
  /-- A value of this kind has no fields. -/
  | notAMapping (kind : String)
  /-- The member at this position is no pair of a name and a value. -/
  | notAPair (position : Nat)
  /-- A member at this position has not two parts but so many. -/
  | wrongLength (position length : Nat)
  /-- Values of these kinds cannot be compared by a sign. -/
  | unordered (sign left right : String)
  /-- Values of these kinds cannot be multiplied. -/
  | notMultipliable (left right : String)
  /-- A value of this kind cannot be rounded. -/
  | notRoundable (kind : String)
  /-- A text cannot be written by a code for numbers. -/
  | notANumberFormat (code : String)
  /-- A value of this kind cannot be written by a code at all. -/
  | notFormattable (kind : String)
  /-- Nothing can be filed under a value of this kind. -/
  | notAKey (kind : String)
  /-- A value of this kind has no part of a name. -/
  | noPart (kind part : String)
  /-- A header has a value of this kind. -/
  | notAHeader (kind : String)
  /-- A setting is unknown. -/
  | unknownSetting (name : String)
  /-- A threshold is neither a number nor a name. -/
  | notAThreshold (shown : String)
  /-- A notice has a context with a name that its own parts have. -/
  | contextClash (method name : String)
  /-- A host cannot do what it was asked. -/
  | unavailable (text : String)
  /-- An outbound request failed. -/
  | proxy (status : Int) (text : String)
  /-- A call took too long. -/
  | timedOut
  /-- A listener or a store gave up with these words. -/
  | raised (text : String)
  /-- An app id has nothing left that could name a file. -/
  | invalidAppId (shown : String)
  /-- An event on the command line is not written as type and target. -/
  | invalidEvent (text : String)
  /-- A file name has a character of code zero. -/
  | zeroInName
  /-- Something cannot be done with a file. -/
  | file (cause : FileFault) (path : String)
deriving DecidableEq, Repr

/-- The words for a cause. -/
def Fault.message : Fault → String
  | .tooLongToWrite =>
    "Exceeds the limit (4300 digits) for integer string conversion; "
      ++ "use sys.set_int_max_str_digits() to increase the limit"
  | .tooLongToRead digits =>
    s!"Exceeds the limit (4300 digits) for integer string conversion: value has {digits} digits; "
      ++ "use sys.set_int_max_str_digits() to increase the limit"
  | .tooDeep task => task.message
  | .beyondDoubles => "int too large to convert to float"
  | .quotientBeyondDoubles => "integer division result too large for a float"
  | .infiniteToInt => "cannot convert float infinity to integer"
  | .notANumberToInt => "cannot convert float NaN to integer"
  | .notAnInt text => s!"invalid literal for int() with base 10: {Text.quoted text}"
  | .notAFloat text => s!"could not convert string to float: {Text.quoted text}"
  | .notNumeric kind => s!"float() argument must be a string or a real number, not '{kind}'"
  | .notFinite => "Out of range float values are not JSON compliant"
  | .dateOutOfRange => "date value out of range"
  | .tooManyDays days => s!"days={days}; must have magnitude <= 999999999"
  | .uncountableDays => "Python int too large to convert to C int"
  | .json t => t.message
  | .notReadable kind => s!"the JSON object must be str, bytes or bytearray, not {kind}"
  | .bytes t => t.message
  | .unwritable t => t.message
  | .format cause => cause.message
  | .notIterable kind => s!"'{kind}' object is not iterable"
  | .notAMapping kind => s!"'{kind}' object is not a mapping"
  | .notAPair position =>
    s!"cannot convert dictionary update sequence element #{position} to a sequence"
  | .wrongLength position length =>
    s!"dictionary update sequence element #{position} has length {length}; 2 is required"
  | .unordered sign left right =>
    s!"'{sign}' not supported between instances of '{left}' and '{right}'"
  | .notMultipliable left right => s!"unsupported operand type(s) for *: '{left}' and '{right}'"
  | .notRoundable kind => s!"type {kind} doesn't define __round__ method"
  | .notANumberFormat code => s!"Unknown format code '{code}' for object of type 'str'"
  | .notFormattable kind => s!"unsupported format string passed to {kind}.__format__"
  | .notAKey kind => s!"unhashable type: '{kind}'"
  | .noPart kind part => s!"'{kind}' object has no attribute '{part}'"
  | .notAHeader kind => s!"Header value must be str or bytes, not <class '{kind}'>"
  | .unknownSetting name =>
    s!"RuntimeConfig.__init__() got an unexpected keyword argument '{name}'"
  | .notAThreshold shown => s!"Level not an integer or a valid string: {shown}"
  | .contextClash method name =>
    s!"StructuredLogger.{method}() got multiple values for argument '{name}'"
  | .unavailable text => text
  | .proxy _ text => text
  | .timedOut => ""
  | .raised text => text
  | .invalidAppId shown => s!"Invalid app id: {shown}"
  | .invalidEvent text => s!"Invalid --event '{text}' (expected TYPE:TARGET)"
  | .zeroInName => "embedded null byte"
  | .file cause path => s!"{cause.words}: {Text.quoted path}"

/-- The cause lies in a value that cannot be used, and not in the way that it was used. -/
def Fault.isBadValue : Fault → Bool
  | .tooLongToWrite | .tooLongToRead _ | .notANumberToInt | .notAnInt _ | .notAFloat _ | .notFinite
  | .json _ | .bytes _ | .unwritable _ | .format _ | .wrongLength _ _ | .notANumberFormat _
  | .invalidAppId _ | .invalidEvent _ | .zeroInName => true
  | .tooDeep _ | .beyondDoubles | .quotientBeyondDoubles | .infiniteToInt | .notNumeric _
  | .dateOutOfRange | .tooManyDays _ | .uncountableDays | .notReadable _ | .notIterable _
  | .notAMapping _ | .notAPair _ | .unordered _ _ _ | .notMultipliable _ _ | .notRoundable _
  | .notFormattable _ | .notAKey _ | .noPart _ _ | .notAHeader _ | .unknownSetting _
  | .notAThreshold _ | .contextClash _ _ | .unavailable _ | .proxy _ _ | .timedOut | .raised _
  | .file _ _ => false

end Wireboard
