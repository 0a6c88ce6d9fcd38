import Wireboard.Engine.Lifecycle
import Wireboard.Proofs.Engine.Etiquette

/-!
# Ranks and insights

Here is the etiquette that holds most of what the rest of the theory needs to know about the bodies
of jobs, their *conduct*.  It has two sides.

*What is done at all.*  Acts, requests and jobs have ranks, and a script of some rank does nothing
of a higher one.  Talking (rank zero) is to write into the log, to give notices and to do what a
listener orders; reading (one) is to pull data; working (two) is to execute nodes; and beginning
(three) is to begin chains and to set timers.  Starting the app and handling an event count as
talking, because the rule below three is a rule for an engine that *stays stopped*: then an event
is ignored, and no script that becomes started is followed any further.

*What has to be known first.*  What the user sees, a variable, and the next node along a wire are
touched only by a strand that has just found its chain to be current.  Timers are set only by a
strand that has just found the engine started.  And the result of a node that calls a function is
what the call has just returned.

`Insight` is what a strand has just learnt, and the mode of the etiquette.  Nearly every act makes a
strand forget, since a listener may stop the app whenever it is called; so does a request or a call
of another job, since everything may have changed then.
-/

namespace Wireboard

/-! ## Ranks -/

/-- Talking is zero, reading one, working two and beginning three. -/
def Callback.rank : Callback → Nat
  | .log _ _ => 0
  | .input _ => 1
  | .setText _ _ | .setStyle _ _ _ | .alert _ | .navigate _ => 2

/-- The rank of an act. -/
def Act.rank : Act → Nat
  | .isStale | .journal _ _ | .notice _ | .status | .markStarted | .markStopped
  | .dispatch _ _ => 0
  | .frame _ | .enter _ | .leave _ | .lookup _ | .scratch _ | .random | .mark | .load _ => 1
  | .depth | .push _ | .pop | .setResult _ | .assign _ _ | .remember _ _ | .permission
  | .save _ _ | .remove _ => 2
  | .beginChain | .arm _ _ _ => 3
  | .callback c => c.rank

/-- The rank of a request: chats are pulled, everything else is work. -/
def Request.rank : Request → Nat
  | .chat _ => 1
  | .readClipboard | .writeClipboard _ | .position _ | .battery | .permission | .notify _ _
  | .http _ => 2

/-- The rank of a job, given that the engine stays stopped. -/
def Job.rank : Job → Nat
  | .start | .stop | .handle _ _ | .log _ _ => 0
  | .pull _ _ | .resolve _ _ => 1
  | .fire _ _ | .execute _ _ | .iterate _ _ _ | .rounds _ _ _ => 2
  | .chain _ => 3

theorem Job.rank_le_three (j : Job) : j.rank ≤ 3 := by
  cases j <;> simp [rank]

/-- The job executes a node that a wire has reached. -/
def Job.isAlongWire : Job → Bool
  | .execute _ (some _) => true
  | _ => false

/-! ## Insights -/

/-- What a strand has just learnt. -/
inductive Insight where
  | nothing
  /-- The chain is not stale. -/
  | current
  /-- A call has returned this. -/
  | returned (v : Value)
  /-- A call has returned this, and the chain is not stale. -/
  | currentReturn (v : Value)
  /-- The engine is started. -/
  | started

namespace Insight

/-- The strand knows that its chain is not stale. -/
def isCurrent : Insight → Bool
  | .current | .currentReturn _ => true
  | .nothing | .returned _ | .started => false

/-- What is known once the chain has been found stale or not. -/
def checked (stale : Bool) : Insight → Insight
  | .returned v => bif stale then .nothing else .currentReturn v
  | _ => bif stale then .nothing else .current

/-- What is known once the status of the engine has been seen. -/
def ofStatus : Status → Insight
  | .started => .started
  | .constructed | .stopped => .nothing

/-- What is known after an act. -/
def after : Insight → (a : Act) → a.Reply → Insight
  | μ, .isStale, stale => μ.checked stale
  | _, .pop, v => .returned v
  | _, .status, s => ofStatus s
  | .started, .arm _ _ _, _ => .started
  | _, _, _ => .nothing

/-- The act is in order for a strand that knows this much.  `isCall` tells the nodes whose results
are the results of calls. -/
def Warrants (isCall : String → Prop) (μ : Insight) : Act → Prop
  | .callback c => c.isVisible = true → μ.isCurrent = true
  | .assign _ _ => μ.isCurrent = true
  | .arm _ _ _ => μ = .started
  | .remember node (.result v) => isCall node → μ = .currentReturn v
  | _ => True

end Insight

/-- The reply can be given.  Below the highest rank the engine stays stopped. -/
def Act.Expects (limit : Nat) : (a : Act) → a.Reply → Prop
  | .status, s => limit < 3 → (s : Status) = .stopped
  | .markStarted, _ => ¬ limit < 3
  | _, _ => True

/-- The conduct of scripts up to a rank. -/
def conduct (limit : Nat) (isCall : String → Prop) : Etiquette :=
  { Etiquette.plain Insight (fun μ a => a.rank ≤ limit ∧ μ.Warrants isCall a)
      (fun μ j => j.rank ≤ limit ∧ (j.isAlongWire = true → μ.isCurrent = true)) Insight.after
      (fun _ => .nothing) (fun _ _ => .nothing) fun _ _ _ => .nothing with
    expects := Act.Expects limit
    asks := fun _ r => r.rank ≤ limit }

end Wireboard
