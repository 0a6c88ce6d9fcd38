import Wireboard.Engine.Step

/-!
# Time and answers from outside

Time passes only when nothing is ready.  Then the next alarms go off, all that are set to the same
time: timers tick, and strands give up waiting.  Calls that were put off are answered from outside,
the oldest first.
-/

namespace Wireboard.Machine

variable {σ : Type}

/-- Something that happens at a time. -/
inductive Alarm where
  | timer (id : Nat)
  | deadline (strand : Nat)
deriving DecidableEq, Repr

def alarms (m : Machine σ) : List (Rat × Alarm) :=
  m.timers.filterMap (fun t => t.due?.map fun due => (due, .timer t.id))
    ++ m.calls.filterMap fun c => c.deadline?.map fun due => (due, .deadline c.strand.id)

def nextTime? (m : Machine σ) : Option Rat :=
  match m.alarms.map (·.1) with
  | [] => none
  | t :: rest => some (rest.foldl (fun a b => if b < a then b else a) t)

def alarmsAt (m : Machine σ) (time : Rat) : List Alarm :=
  (m.alarms.filter fun a => decide (a.1 = time)).map (·.2)

/-- An alarm goes off. -/
def ring (m : Machine σ) : Alarm → Machine σ
  | .timer id => m.enqueue (.tick id)
  | .deadline strand =>
    match m.calls.find? (·.strand.id == strand) with
    | none => m
    | some c =>
      { m with calls := m.calls.filter (·.strand.id != strand) }.enqueue c.givenUp

/-- The time of some alarms has come: they all go off before anybody learns of it. -/
def reach (m : Machine σ) (time : Rat) : Machine σ :=
  (m.alarmsAt time).foldl ring { m with now := time }

/-- Let time pass up to a point, with everything that is due on the way, but with not more than
some number of times at which something is due. -/
def advanceTo (b : Board) (env : Surroundings σ) (fuel : Nat) (goal : Rat) :
    Nat → Machine σ → Machine σ
  | 0, m => m
  | count + 1, m =>
    match m.nextTime? with
    | some time =>
      if time ≤ goal then advanceTo b env fuel goal count (settle b env fuel (m.reach time))
      else { m with now := goal }
    | none => { m with now := goal }

/-- Let time pass. -/
def advance (b : Board) (env : Surroundings σ) (fuel : Nat) (m : Machine σ) (span : Rat) :
    Machine σ :=
  let m := settle b env fuel m
  advanceTo b env fuel (m.now + span) fuel m

/-! ## Answers from outside -/

/-- Answer the oldest call for which there is an answer.  An answer of `none` leaves it to the
surroundings. -/
def release (m : Machine σ) (wanted : Request → Bool)
    (reply : (r : Request) → Option (Except Fault r.Reply)) : Option (Machine σ) :=
  match m.calls.find? fun c => wanted c.request with
  | none => none
  | some c =>
    some ({ m with calls := m.calls.filter (·.strand.id != c.strand.id) }.enqueue
      (.answer c (reply c.request)))

end Wireboard.Machine
