import Wireboard.Circuit
import Wireboard.Engine.Machine

/-!
# Doing acts

What each act does to the machine and to the chain on whose behalf it is done.
-/

namespace Wireboard.Machine

variable {σ : Type}

/-- The notice that goes with an entry in the log. -/
def entryNotice (app : String) (level : Level) (message : Value) : Notice where
  level := level
  source := Attempt.noticeSource
  text := message.plain
  context := [("app_id", .str app)]

/-- Do an act on behalf of a chain. -/
def perform (b : Board) (env : Surroundings σ) (m : Machine σ) (c : Context) :
    (a : Act) → a.Reply × Context × Machine σ
  | .isStale => (c.epoch != m.epoch, c, m)
  | .beginChain => ((), m.freshContext, m)
  | .depth => (c.depth, c, m)
  | .frame function => (c.frame? function, c, m)
  | .push f => ((), c.push f, m)
  | .pop => (c.pop.1, c.pop.2, m)
  | .setResult v =>
    match c.setResult v with
    | some c => (true, c, m)
    | none => (false, c, m)
  | .enter key =>
    match c.enter key with
    | some c => (true, c, m)
    | none => (false, c, m)
  | .leave key => ((), c.leave key, m)
  | .lookup name => ((m.bindings.get? (.text name)).getD .null, c, m)
  | .assign name v => ((), c, { m with bindings := m.bindings.put (.str name) v })
  | .scratch node => (m.scratchOf node, c, m)
  | .remember node memo =>
    ((), c, { m with scratch := m.scratch.put node ((m.scratchOf node).keep memo) })
  | .journal level message =>
    ((), c, { m with journal := ⟨level, message⟩ :: m.journal }.witness
      (.notice (entryNotice b.appId level message)))
  | .notice n => ((), c, m.witness (.notice n))
  | .status => (m.status, c, m)
  | .markStarted => ((), c, { m with status := .started, journal := [] })
  | .markStopped =>
    ((), c, { m with status := .stopped, epoch := m.epoch + 1, timers := [] })
  | .dispatch type target => ((), c, m.dispatch none type target)
  | .arm node period? repeats => ((), c, m.arm node period? repeats)
  | .callback cb =>
    match env.react m.outside cb with
    | (some r, s) => (some r, c, { m with outside := s }.witness (.callback cb))
    | (none, s) => (none, c, { m with outside := s })
  | .permission => (env.permission m.outside, c, m)
  | .random =>
    let (x, s) := env.random m.outside
    (x, c, { m with outside := s })
  | .mark => (m.nextId, c, { m with nextId := m.nextId + 1 })
  | .load key => (env.load m.outside key, c, m)
  | .save key text =>
    let (r, s) := env.save m.outside key text
    (r, c, { m with outside := s })
  | .remove key =>
    let (r, s) := env.remove m.outside key
    (r, c, { m with outside := s })

end Wireboard.Machine
