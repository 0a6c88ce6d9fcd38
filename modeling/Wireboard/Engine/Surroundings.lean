import Wireboard.Engine.Act
import Wireboard.Http.Exchange

/-!
# What surrounds the engine

Listeners, a host, the net, a store and a source of chance: everything that the engine does not
decide itself.  The engine knows them only through these functions over a state of their own, so
that they may be a real host, a script for a rehearsal, or anything else.
-/

namespace Wireboard

/-- Something that can be seen from outside. -/
inductive Happening where
  /-- A listener was called. -/
  | callback (c : Callback)
  /-- A notice was given. -/
  | notice (n : Notice)
  /-- A request reached the host or the proxy. -/
  | asked (r : Request)
  /-- A request left for the net. -/
  | sent (o : Http.Outgoing)
deriving DecidableEq

/-- The answer to a request: now, or later under a number of the answerer's choice. -/
inductive Answer (α : Type) where
  | now (r : Except Fault α)
  | later (ticket : Nat)

/-- Everything outside of the engine, over a state. -/
structure Surroundings (σ : Type) where
  /-- Call a listener; `none` if nobody listens to that. -/
  react : σ → Callback → Option Reaction × σ
  /-- May notifications be shown? -/
  permission : σ → Except Fault Value
  /-- A random number. -/
  random : σ → Num × σ
  /-- Take a request. -/
  ask : σ → (r : Request) → Answer r.Reply × List Happening × σ
  /-- Answer a request that was put off. -/
  resume : σ → (r : Request) → (ticket : Nat) → Except Fault r.Reply × List Happening × σ
  /-- Load stored data. -/
  load : σ → String → Except Fault Value
  /-- Store data. -/
  save : σ → String → String → Except Fault Unit × σ
  /-- Delete stored data. -/
  remove : σ → String → Except Fault Unit × σ

end Wireboard
