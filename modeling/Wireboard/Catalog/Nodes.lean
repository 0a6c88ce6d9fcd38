import Wireboard.Catalog.Basic

/-!
# The kinds of nodes

Every kind of node that the engine knows, with its name in documents and its description for the
editor.  A node of any other kind does nothing.
-/

namespace Wireboard

inductive NodeKind where
  | onAppStart
  | onClick
  | onKeyPress
  | onTimer
  | setText
  | setStyle
  | showAlert
  | logMessage
  | setVariable
  | navigatePage
  | stringLiteral
  | numberLiteral
  | getVariable
  | concat
  | mathOp
  | getInputValue
  | createList
  | listAdd
  | listGet
  | listRemove
  | listLength
  | numberOf
  | textOf
  | randomNumber
  | ifCondition
  | compareValues
  | negate
  | andOr
  | forLoop
  | whileLoop
  | saveData
  | loadData
  | deleteData
  | getClipboard
  | setClipboard
  | getLocation
  | getBattery
  | sendNotification
  | geminiChat
  | httpRequest
  | functionDefine
  | functionReturn
  | functionCall
deriving DecidableEq, Repr

namespace NodeKind

/-- All kinds, in the order of the catalogue. -/
def all : List NodeKind := [
  .onAppStart, .onClick, .onKeyPress, .onTimer, .setText, .setStyle, .showAlert, .logMessage,
  .setVariable, .navigatePage, .stringLiteral, .numberLiteral, .getVariable, .concat, .mathOp,
  .getInputValue, .createList, .listAdd, .listGet, .listRemove, .listLength, .numberOf, .textOf,
  .randomNumber, .ifCondition, .compareValues, .negate, .andOr, .forLoop, .whileLoop, .saveData,
  .loadData, .deleteData, .getClipboard, .setClipboard, .getLocation, .getBattery,
  .sendNotification, .geminiChat, .httpRequest, .functionDefine, .functionReturn, .functionCall]

def name : NodeKind → String
  | .onAppStart => "onAppStart"
  | .onClick => "onClick"
  | .onKeyPress => "onKeyPress"
  | .onTimer => "onTimer"
  | .setText => "setText"
  | .setStyle => "setStyle"
  | .showAlert => "showAlert"
  | .logMessage => "log"
  | .setVariable => "setVariable"
  | .navigatePage => "navigatePage"
  | .stringLiteral => "stringLiteral"
  | .numberLiteral => "numberLiteral"
  | .getVariable => "getVariable"
  | .concat => "concat"
  | .mathOp => "mathOp"
  | .getInputValue => "getInputValue"
  | .createList => "createList"
  | .listAdd => "listAdd"
  | .listGet => "listGet"
  | .listRemove => "listRemove"
  | .listLength => "listLength"
  | .numberOf => "toNumber"
  | .textOf => "toString"
  | .randomNumber => "randomNumber"
  | .ifCondition => "ifCondition"
  | .compareValues => "compare"
  | .negate => "not"
  | .andOr => "andOr"
  | .forLoop => "forLoop"
  | .whileLoop => "whileLoop"
  | .saveData => "saveData"
  | .loadData => "loadData"
  | .deleteData => "deleteData"
  | .getClipboard => "getClipboard"
  | .setClipboard => "setClipboard"
  | .getLocation => "getLocation"
  | .getBattery => "getBattery"
  | .sendNotification => "sendNotification"
  | .geminiChat => "geminiChat"
  | .httpRequest => "httpRequest"
  | .functionDefine => "functionDefine"
  | .functionReturn => "functionReturn"
  | .functionCall => "functionCall"

def ofName? (s : String) : Option NodeKind := all.find? (·.name == s)

/-- The pin that hands on control. -/
def execPin : Pin := ⟨"exec", "", .exec⟩

def targetProperty : Table Property := [("targetId", ⟨.string, "Target component", .str "", none⟩)]

/-- The property that names stored data. -/
def keyProperty : Table Property := [("key", ⟨.string, "Key", .str "myKey", none⟩)]

def functionProperty : Table Property :=
  [("funcName", ⟨.string, "Function name", .str "myFunction", none⟩)]

def definition : NodeKind → Definition
  | .onAppStart => {
    category := .event
    label := "App start"
    description := "Runs when the app starts"
    outputs := [execPin] }
  | .onClick => {
    category := .event
    label := "Click event"
    description := "Runs when a UI component is clicked"
    outputs := [execPin]
    properties := targetProperty }
  | .onKeyPress => {
    category := .event
    label := "Key press event"
    description := "Runs when a specific key is pressed"
    outputs := [execPin, ⟨"key", "Key", .string⟩]
    properties := [("key", ⟨.string, "Key", .str "", none⟩)] }
  | .onTimer => {
    category := .event
    label := "Timer"
    description := "Runs repeatedly at a fixed interval"
    outputs := [execPin]
    properties := [("interval", ⟨.number, "Interval (ms)", .int 1000, none⟩),
      ("repeat", ⟨.boolean, "Repeat", .bool true, none⟩)] }
  | .setText => {
    category := .action
    label := "Set text"
    description := "Changes the text of a UI component"
    inputs := [execPin, ⟨"value", "Value", .string⟩]
    outputs := [execPin]
    properties := targetProperty }
  | .setStyle => {
    category := .action
    label := "Set style"
    description := "Changes a style property of a UI component"
    inputs := [execPin, ⟨"value", "Value", .string⟩]
    outputs := [execPin]
    properties := targetProperty ++ [("property", ⟨.string, "CSS property", .str "color", none⟩)] }
  | .showAlert => {
    category := .action
    label := "Show alert"
    description := "Shows an alert message"
    inputs := [execPin, ⟨"message", "Message", .string⟩]
    outputs := [execPin] }
  | .logMessage => {
    category := .action
    label := "Log"
    description := "Writes a message to the log"
    inputs := [execPin, ⟨"message", "Message", .any⟩]
    outputs := [execPin] }
  | .setVariable => {
    category := .action
    label := "Set variable"
    description := "Stores a value in a variable"
    inputs := [execPin, ⟨"value", "Value", .any⟩]
    outputs := [execPin]
    properties := [("varName", ⟨.string, "Variable name", .str "myVar", none⟩)] }
  | .navigatePage => {
    category := .action
    label := "Navigate page"
    description := "Switches the visible UI page"
    inputs := [execPin]
    outputs := [execPin]
    properties := [("pageId", ⟨.string, "Page ID", .str "page_0", none⟩)] }
  | .stringLiteral => {
    category := .data
    label := "String"
    description := "Constant string value"
    outputs := [⟨"value", "Value", .string⟩]
    properties := [("value", ⟨.string, "Value", .str "Hello", none⟩)] }
  | .numberLiteral => {
    category := .data
    label := "Number"
    description := "Constant number value"
    outputs := [⟨"value", "Value", .number⟩]
    properties := [("value", ⟨.number, "Value", .int 0, none⟩)] }
  | .getVariable => {
    category := .data
    label := "Get variable"
    description := "Reads a stored variable"
    outputs := [⟨"value", "Value", .any⟩]
    properties := [("varName", ⟨.string, "Variable name", .str "myVar", none⟩)] }
  | .concat => {
    category := .data
    label := "Concatenate"
    description := "Joins two strings"
    inputs := [⟨"a", "A", .string⟩, ⟨"b", "B", .string⟩]
    outputs := [⟨"value", "Result", .string⟩] }
  | .mathOp => {
    category := .data
    label := "Math operation"
    description := "Arithmetic on two numbers"
    inputs := [⟨"a", "A", .number⟩, ⟨"b", "B", .number⟩]
    outputs := [⟨"value", "Result", .number⟩]
    properties := [("operator", ⟨.select, "Operator", .str "+", some ["+", "-", "*", "/"]⟩)] }
  | .getInputValue => {
    category := .data
    label := "Get input value"
    description := "Reads the value of a UI input"
    outputs := [⟨"value", "Value", .string⟩]
    properties := targetProperty }
  | .createList => {
    category := .data
    label := "Create list"
    description := "Creates an empty list"
    outputs := [⟨"value", "List", .list⟩] }
  | .listAdd => {
    category := .data
    label := "List add"
    description := "Appends an item to a list"
    inputs := [execPin, ⟨"list", "List", .list⟩, ⟨"item", "Item", .any⟩]
    outputs := [execPin, ⟨"value", "Result", .list⟩] }
  | .listGet => {
    category := .data
    label := "List get"
    description := "Gets an item by index"
    inputs := [⟨"list", "List", .list⟩, ⟨"index", "Index", .number⟩]
    outputs := [⟨"value", "Value", .any⟩] }
  | .listRemove => {
    category := .data
    label := "List remove"
    description := "Removes the item at an index"
    inputs := [execPin, ⟨"list", "List", .list⟩, ⟨"index", "Index", .number⟩]
    outputs := [execPin, ⟨"value", "Result", .list⟩] }
  | .listLength => {
    category := .data
    label := "List length"
    description := "Returns the number of items"
    inputs := [⟨"list", "List", .list⟩]
    outputs := [⟨"value", "Length", .number⟩] }
  | .numberOf => {
    category := .data
    label := "To number"
    description := "Converts a value to a number"
    inputs := [⟨"value", "Value", .any⟩]
    outputs := [⟨"value", "Number", .number⟩] }
  | .textOf => {
    category := .data
    label := "To string"
    description := "Converts a value to a string"
    inputs := [⟨"value", "Value", .any⟩]
    outputs := [⟨"value", "String", .string⟩] }
  | .randomNumber => {
    category := .data
    label := "Random number"
    description := "Generates a random number in a range"
    outputs := [⟨"value", "Value", .number⟩]
    properties := [("min", ⟨.number, "Min", .int 0, none⟩),
      ("max", ⟨.number, "Max", .int 100, none⟩),
      ("integer", ⟨.boolean, "Integer only", .bool true, none⟩)] }
  | .ifCondition => {
    category := .logic
    label := "If"
    description := "Branches on a condition"
    inputs := [execPin, ⟨"condition", "Condition", .boolean⟩]
    outputs := [⟨"true", "True", .exec⟩, ⟨"false", "False", .exec⟩] }
  | .compareValues => {
    category := .logic
    label := "Compare"
    description := "Compares two values"
    inputs := [⟨"a", "A", .any⟩, ⟨"b", "B", .any⟩]
    outputs := [⟨"result", "Result", .boolean⟩]
    properties := [("operator",
      ⟨.select, "Operator", .str "==", some ["==", "!=", ">", "<", ">=", "<="]⟩)] }
  | .negate => {
    category := .logic
    label := "NOT"
    description := "Inverts a boolean"
    inputs := [⟨"value", "Value", .boolean⟩]
    outputs := [⟨"result", "Result", .boolean⟩] }
  | .andOr => {
    category := .logic
    label := "AND / OR"
    description := "Combines two booleans"
    inputs := [⟨"a", "A", .boolean⟩, ⟨"b", "B", .boolean⟩]
    outputs := [⟨"result", "Result", .boolean⟩]
    properties := [("operator", ⟨.select, "Operator", .str "AND", some ["AND", "OR"]⟩)] }
  | .forLoop => {
    category := .logic
    label := "For loop"
    description := "Repeats for each index in [start, end)"
    inputs := [execPin, ⟨"start", "Start", .number⟩, ⟨"end", "End", .number⟩]
    outputs := [⟨"loop", "Loop", .exec⟩, ⟨"done", "Done", .exec⟩, ⟨"index", "Index", .number⟩] }
  | .whileLoop => {
    category := .logic
    label := "While loop"
    description := "Repeats while a condition holds"
    inputs := [execPin, ⟨"condition", "Condition", .boolean⟩]
    outputs := [⟨"loop", "Loop", .exec⟩, ⟨"done", "Done", .exec⟩]
    properties := [("maxIterations", ⟨.number, "Max iterations", .int 1000, none⟩)] }
  | .saveData => {
    category := .storage
    label := "Save data"
    description := "Stores a value under a key"
    inputs := [execPin, ⟨"value", "Value", .any⟩]
    outputs := [execPin]
    properties := keyProperty }
  | .loadData => {
    category := .storage
    label := "Load data"
    description := "Reads the value stored under a key"
    outputs := [⟨"value", "Value", .any⟩]
    properties := keyProperty }
  | .deleteData => {
    category := .storage
    label := "Delete data"
    description := "Removes a key from storage"
    inputs := [execPin]
    outputs := [execPin]
    properties := keyProperty }
  | .getClipboard => {
    category := .hardware
    label := "Read clipboard"
    description := "Reads text from the clipboard"
    inputs := [execPin]
    outputs := [execPin, ⟨"value", "Text", .string⟩] }
  | .setClipboard => {
    category := .hardware
    label := "Copy to clipboard"
    description := "Writes text to the clipboard"
    inputs := [execPin, ⟨"value", "Text", .string⟩]
    outputs := [execPin] }
  | .getLocation => {
    category := .hardware
    label := "GPS location"
    description := "Gets the current position"
    inputs := [execPin]
    outputs := [execPin, ⟨"lat", "Latitude", .number⟩, ⟨"lon", "Longitude", .number⟩] }
  | .getBattery => {
    category := .hardware
    label := "Battery"
    description := "Gets the battery level"
    inputs := [execPin]
    outputs := [execPin, ⟨"level", "Level (%)", .number⟩, ⟨"charging", "Charging", .boolean⟩] }
  | .sendNotification => {
    category := .hardware
    label := "Send notification"
    description := "Shows a desktop notification"
    inputs := [execPin, ⟨"body", "Body", .string⟩]
    outputs := [execPin]
    properties := [("title", ⟨.string, "Title", .str "EssentialBoardOS", none⟩)] }
  | .geminiChat => {
    category := .api
    label := "Gemini chat"
    description := "Asks the chat backend for a reply"
    inputs := [execPin, ⟨"prompt", "Prompt", .string⟩]
    outputs := [execPin, ⟨"response", "Response", .string⟩]
    properties := [("template", ⟨.string, "Template", .str "", none⟩)] }
  | .httpRequest => {
    category := .api
    label := "HTTP request"
    description := "Calls an external API through the proxy"
    inputs := [execPin, ⟨"url", "URL", .string⟩, ⟨"body", "Body", .string⟩]
    outputs := [execPin, ⟨"execError", "Error", .exec⟩, ⟨"data", "Response data", .any⟩,
      ⟨"status", "Status code", .number⟩]
    properties := [
      ("method", ⟨.select, "Method", .str "GET", some ["GET", "POST", "PUT", "DELETE", "PATCH"]⟩),
      ("jsonPath", ⟨.string, "JSON path", .str "", none⟩),
      ("headers", ⟨.string, "Headers (JSON)", .str "\x7b\x7d", none⟩)] }
  | .functionDefine => {
    category := .function
    label := "Define function"
    description := "Defines a reusable function body"
    outputs := [execPin, ⟨"param1", "Parameter 1", .any⟩, ⟨"param2", "Parameter 2", .any⟩]
    properties := functionProperty }
  | .functionReturn => {
    category := .function
    label := "Return"
    description := "Returns a value from the current function"
    inputs := [execPin, ⟨"value", "Return value", .any⟩] }
  | .functionCall => {
    category := .function
    label := "Call function"
    description := "Calls a defined function"
    inputs := [execPin, ⟨"param1", "Parameter 1", .any⟩, ⟨"param2", "Parameter 2", .any⟩]
    outputs := [execPin, ⟨"result", "Result", .any⟩]
    properties := functionProperty }

/-- Put a kind into the group of its category, which is opened at the end if there is none. -/
def addToGroup (groups : List (Category × List NodeKind)) (k : NodeKind) :
    List (Category × List NodeKind) :=
  match groups with
  | [] => [(k.definition.category, [k])]
  | (c, kinds) :: rest =>
    if c = k.definition.category then (c, kinds ++ [k]) :: rest
    else (c, kinds) :: addToGroup rest k

/-- The kinds by category, in the order of the catalogue. -/
def byCategory : List (Category × List NodeKind) := all.foldl addToGroup []

end NodeKind

end Wireboard
