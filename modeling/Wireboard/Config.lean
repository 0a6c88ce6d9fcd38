import Wireboard.Value.Coerce

/-!
# Settings of the engine

What the engine falls back to when a node leaves a property out, and its limits.  Settings are
values of any kind; one that is of no use where it is needed is a failure there and not before.
-/

namespace Wireboard

/-- The settings of the engine. -/
structure Config where
  /-- What every key of stored data begins with. -/
  storagePrefix : Value := .str "ebos-miniapp-"
  /-- The interval of a timer that has none, in milliseconds. -/
  timerInterval : Value := .int 1000
  /-- The most rounds of a loop that has no limit of its own. -/
  maxIterations : Value := .int 1000
  /-- How long to wait for a position, in seconds; null is for as long as it takes. -/
  geolocationTimeout : Value := .float 10
  /-- How long to wait for an answer from the net, in seconds. -/
  httpTimeout : Value := .float 10
  /-- The title of a notification that has none. -/
  notificationTitle : Value := .str "EssentialBoardOS"
  /-- The name of a function that has none. -/
  functionName : Value := .str "myFunction"
  /-- The page to go to when none is named. -/
  pageId : Value := .str "page_0"
  /-- How deep function calls may nest in one chain. -/
  maxCallDepth : Value := .int 64
deriving DecidableEq

namespace Config

def keyText (key : Value) : Except Fault String := (key.orElse (.str "myKey")).toPlain

/-- The key under which data is stored. -/
def storageKey (c : Config) (key : Value) : Except Fault String := do
  return (← c.storagePrefix.toPlain) ++ (← keyText key)

/-- The settings by name. -/
def toTable (c : Config) : Table Value := [
  ("storage_prefix", c.storagePrefix),
  ("default_timer_interval_ms", c.timerInterval),
  ("default_max_iterations", c.maxIterations),
  ("geolocation_timeout_s", c.geolocationTimeout),
  ("http_timeout_s", c.httpTimeout),
  ("default_notification_title", c.notificationTitle),
  ("default_function_name", c.functionName),
  ("default_page_id", c.pageId),
  ("max_call_depth", c.maxCallDepth)]

def toValue (c : Config) : Value := .obj c.toTable

/-- The standard settings with some of them changed, by name. -/
def ofTable (t : Table Value) : Except Fault Config :=
  let base : Config := {}
  let setting (name : String) (other : Value) : Value := (t.get? name).getD other
  match t.find? fun e => !base.toTable.has e.1 with
  | some e => .error (.unknownSetting e.1)
  | none => .ok {
      storagePrefix := setting "storage_prefix" base.storagePrefix
      timerInterval := setting "default_timer_interval_ms" base.timerInterval
      maxIterations := setting "default_max_iterations" base.maxIterations
      geolocationTimeout := setting "geolocation_timeout_s" base.geolocationTimeout
      httpTimeout := setting "http_timeout_s" base.httpTimeout
      notificationTitle := setting "default_notification_title" base.notificationTitle
      functionName := setting "default_function_name" base.functionName
      pageId := setting "default_page_id" base.pageId
      maxCallDepth := setting "max_call_depth" base.maxCallDepth }

end Config

end Wireboard
