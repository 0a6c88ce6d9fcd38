import Wireboard.Fault
import Wireboard.Value.Basic

/-!
# Hosts

A host lends an app what lies outside of it: the clipboard, the position, the battery,
notifications and someone to chat with.  A bare host has none of that and refuses every call.  A
headless host has a clipboard, shows notifications by keeping them, and knows a position and a
battery only if it was given them.  A host may say anything, so what it says is a value of any kind.
-/

namespace Wireboard

/-- A place on the globe. -/
structure Position where
  latitude : Value
  longitude : Value
deriving DecidableEq

/-- The state of a battery: how full it is, from zero to one, and whether it is being charged. -/
structure Battery where
  level : Value
  charging : Value
deriving DecidableEq

namespace Permission

/-- Notifications may be shown. -/
def granted : Value := .str "granted"

/-- Notifications may not be shown. -/
def denied : Value := .str "denied"

end Permission

/-- A host without a screen. -/
structure Headless where
  clipboard : Value := .str ""
  position? : Option Position := none
  battery? : Option Battery := none
  permission : Value := Permission.granted
  notifications : List (Value × Value) := []
deriving DecidableEq

inductive Host where
  | bare
  | headless (h : Headless)
deriving DecidableEq

namespace Host

def readClipboard : Host → Except Fault Value
  | .bare => .error (.unavailable "clipboard read is not available")
  | .headless h => .ok h.clipboard

/-- Put something on the clipboard. -/
def writeClipboard (host : Host) (v : Value) : Except Fault Host :=
  match host with
  | .bare => .error (.unavailable "clipboard write is not available")
  | .headless h => .ok (.headless { h with clipboard := v })

def position : Host → Except Fault Position
  | .bare => .error (.unavailable "geolocation is not available")
  | .headless h =>
    match h.position? with
    | some p => .ok p
    | none => .error (.unavailable "no position configured")

def battery : Host → Except Fault Battery
  | .bare => .error (.unavailable "battery status is not available")
  | .headless h =>
    match h.battery? with
    | some b => .ok b
    | none => .error (.unavailable "no battery configured")

/-- Whether notifications may be shown. -/
def permission : Host → Value
  | .bare => Permission.denied
  | .headless h => h.permission

def notify (host : Host) (title body : Value) : Except Fault Host :=
  match host with
  | .bare => .error (.unavailable "notifications are not available")
  | .headless h => .ok (.headless { h with notifications := h.notifications ++ [(title, body)] })

def chat (_ : Host) (_prompt : Value) : Except Fault Value :=
  .error (.unavailable "chat backend is not available")

/-- The notifications that were shown. -/
def notifications : Host → List (Value × Value)
  | .bare => []
  | .headless h => h.notifications

def clipboard? : Host → Option Value
  | .bare => none
  | .headless h => some h.clipboard

end Host

end Wireboard
