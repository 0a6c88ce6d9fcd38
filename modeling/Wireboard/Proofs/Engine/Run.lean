import Wireboard.Engine.Time

/-!
# Runs of the engine

A run is what the engine and the world around it do, move by move.  The engine moves by `step`.  The
world moves only while no strand is running: it enters the engine by one of its entrances, answers a
request that it has kept waiting, or lets time pass.  What listeners do is not a move of the world;
they are called in the middle of a strand and answer through the surroundings.

A run goes on for ever, since time may always pass; every finite course of events is the beginning
of one.  A course is like a run, but begins anywhere, with strands that can be told apart by their
numbers.  So what is said about a job in a course holds for whatever chain has called it, also for
one that no run leads to.

What a move does to the strands is said here once, and every invariant is derived from it:

* `Machine.Moves.cases`: a move is an impulse, a step of the running strand or the turn that is due;
* `Machine.Moves.running_cases`: the strand that runs next was waiting, or is what the running
  strand has become, or has just come in;
* `Machine.Moves.waits_cases`: a strand that waits was waiting before, or has just made a request,
  or has just come in;
* `Machine.Moves.core_cases`, `Machine.Moves.alters`: epoch, status, variables, scratch, log and
  timers change only by acts of the running strand, variables also by the world.
-/

namespace Wireboard

variable {σ : Type}

/-! ## What the world does -/

/-- The entrances of the engine whose work is done in a strand of its own. -/
inductive Entrance where
  | start
  | handle (type target : Value)
  | evaluate (node pin : String)
  | resolve (node pin : String)
  | executeNode (node : String)
  | executePin (node pin : String)
deriving DecidableEq

/-- What is run for an entrance. -/
def Entrance.job : Entrance → Job
  | .start => .start
  | .handle type target => .handle type target
  | .evaluate node pin => .pull node pin
  | .resolve node pin => .resolve node pin
  | .executeNode node => .execute node none
  | .executePin node pin => .fire node pin

/-- Nodes are executed without a trigger. -/
def Entrance.isDirect : Entrance → Bool
  | .executeNode _ | .executePin _ _ => true
  | .start | .handle _ _ | .evaluate _ _ | .resolve _ _ => false

/-- What the world does of its own accord. -/
inductive Impulse where
  /-- Have the work of an entrance done in a strand of its own, with calls under way as it pleases.
  -/
  | enter (label? : Option Nat) (tracked : Bool) (frames : List Frame) (e : Entrance)
  /-- Stop the app at once. -/
  | stop
  /-- Write into the log of the app at once. -/
  | log (level : Level) (message : Value)
  /-- Ask to be told when the machine is idle. -/
  | awaitIdle (label : Nat)
  /-- Set a variable. -/
  | assign (name v : Value)
  /-- Answer the oldest request of some kind. -/
  | release (wanted : Request → Bool) (reply : (r : Request) → Option (Except Fault r.Reply))
  /-- Let the time of some alarms come, or of none. -/
  | pass (time : Rat)

/-- The impulse has nodes executed without a trigger. -/
def Impulse.isDirect : Impulse → Bool
  | .enter _ _ _ e => e.isDirect
  | _ => false

/-- The strand that a turn is about; its code may still hang on an answer. -/
def Turn.strand? : Turn → Option Strand
  | .run _ s => some s
  | .lookUp c | .answer c _ => some c.strand
  | .windUp _ | .tick _ | .retire _ | .checkIdle _ => none

/-- The turn is about the strand with a number. -/
def Turn.isOf (id : Nat) (t : Turn) : Bool := t.strand?.any (·.id == id)

namespace Machine

/-- A strand that is about to run a job. -/
def newcomer (m : Machine σ) (j : Job) : Strand :=
  { id := m.nextId, context := m.freshContext, code := jobCode j }

/-- Have a job run before anything that is ready. -/
def interrupt (m : Machine σ) (j : Job) : Machine σ :=
  { m with nextId := m.nextId + 1, running? := some (m.newcomer j) }

/-- What an impulse does to the machine. -/
def receive (m : Machine σ) : Impulse → Machine σ
  | .enter label? tracked frames e =>
    m.spawn label? tracked { m.freshContext with frames } (jobCode e.job)
  | .stop => m.interrupt .stop
  | .log level message => m.interrupt (.log level message)
  | .awaitIdle label => m.enqueue (.checkIdle label)
  | .assign name v => { m with bindings := m.bindings.put name v }
  | .release wanted reply => (m.release wanted reply).getD m
  | .pass time => m.reach time

/-- One move: a step of the engine, or an impulse from the world while nothing is running. -/
def Moves (b : Board) (env : Surroundings σ) (m : Machine σ) (impulse? : Option Impulse)
    (m' : Machine σ) : Prop :=
  match impulse? with
  | none => m.step b env = some m'
  | some i => m.running? = none ∧ m' = m.receive i

/-- How many strands bear a number. -/
def tally (m : Machine σ) (id : Nat) : Nat :=
  m.running?.toList.countP (·.id == id) + m.queue.countP (·.isOf id)
    + m.calls.countP (·.strand.id == id)

/-- No number is borne twice, and those not yet given out are not borne at all. -/
structure Numbered (m : Machine σ) : Prop where
  once : ∀ id, m.tally id ≤ 1
  unborne : ∀ {id}, m.nextId ≤ id → m.tally id = 0

theorem numbered_fresh (s : σ) : ({ outside := s } : Machine σ).Numbered :=
  ⟨fun _ => Nat.zero_le _, fun _ => rfl⟩

end Machine

/-- A course of events: the machine at every time, and what the world did then. -/
structure Course (b : Board) (env : Surroundings σ) where
  state : Nat → Machine σ
  impulse? : Nat → Option Impulse
  first : (state 0).Numbered
  move : ∀ i, (state i).Moves b env (impulse? i) (state (i + 1))

/-- A run is a course that begins with nothing under way. -/
structure Run (b : Board) (env : Surroundings σ) extends Course b env where
  fresh : ∃ s, state 0 = { outside := s }

/-- The act that the strand is about to do. -/
def Strand.act? (s : Strand) : Option Act :=
  match s.code with
  | .act a _ => some a
  | .ret _ | .wait _ _ | .call _ _ => none

variable {a : Act}

theorem Strand.act?_of_code {s : Strand} {next : a.Reply → Code}
    (code : s.code = .act a next) : s.act? = some a := by
  rw [act?, code]

theorem Strand.code_of_act? {s : Strand} (acts : s.act? = some a) :
    ∃ next, s.code = .act a next := by
  unfold act? at acts
  split at acts
  next a' next code =>
    cases acts
    exact ⟨next, code⟩
  all_goals cases acts

/-- The job that the strand is about to call. -/
def Strand.job? (s : Strand) : Option Job :=
  match s.code with
  | .call j _ => some j
  | .ret _ | .act _ _ | .wait _ _ => none

theorem Strand.code_of_job? {s : Strand} {j : Job} (calls : s.job? = some j) :
    ∃ next, s.code = .call j next := by
  unfold job? at calls
  split at calls
  next j' next code =>
    cases calls
    exact ⟨next, code⟩
  all_goals cases calls

/-- The act concerns the frames of its chain. -/
def Act.handlesFrames : Act → Bool
  | .push _ | .pop | .setResult _ | .beginChain => true
  | _ => false

/-- The act concerns the open pulls of its chain. -/
def Act.handlesPulls : Act → Bool
  | .enter _ | .leave _ | .beginChain => true
  | _ => false

/-! ## Strands that wait -/

/-- The strand is what becomes of a call once it is answered, somehow. -/
def Call.Resumes (c : Call) (s : Strand) : Prop :=
  ∃ reply, s = { c.strand with code := c.next reply }

/-- The strand stands in the queue by this turn. -/
def Turn.Holds : Turn → Strand → Prop
  | .run _ t, s => s = t
  | .lookUp c, s => c.Resumes s
  | .answer c _, s => c.Resumes s
  | .windUp _, _ | .tick _, _ | .retire _, _ | .checkIdle _, _ => False

/-- What a timer has for good: its number and its node. -/
def Timer.badge (t : Timer) : Nat × String := (t.id, t.node)

namespace Machine

variable {b : Board} {env : Surroundings σ} {m m' : Machine σ} {s t : Strand}

/-- The strand is ready, or will be as soon as its request is answered. -/
def Waits (m : Machine σ) (s : Strand) : Prop :=
  (∃ t ∈ m.queue, t.Holds s) ∨ ∃ c ∈ m.calls, c.Resumes s

/-- The strand is running or waits. -/
def Bears (m : Machine σ) (s : Strand) : Prop := m.running? = some s ∨ m.Waits s

/-- The strand has just come in to run a job, with these frames. -/
structure Admits (m : Machine σ) (j : Job) (frames : List Frame) (s : Strand) : Prop where
  id : s.id = m.nextId
  epoch : s.context.epoch = m.epoch
  frames : s.context.frames = frames
  opened : s.context.opened = []
  code : s.code = jobCode j
  stack : s.stack = []

theorem admits_newcomer (m : Machine σ) (j : Job) : m.Admits j [] (m.newcomer j) :=
  ⟨rfl, rfl, rfl, rfl, rfl, rfl⟩

theorem waits_congr (queue : m'.queue = m.queue) (calls : m'.calls = m.calls) :
    m'.Waits s ↔ m.Waits s := by
  unfold Waits
  rw [queue, calls]

@[simp] theorem waits_enqueue (m : Machine σ) (t : Turn) :
    (m.enqueue t).Waits s ↔ m.Waits s ∨ t.Holds s := by
  simp only [Waits, enqueue, List.mem_append, List.mem_singleton, or_and_right, exists_or,
    exists_eq_left]
  exact or_right_comm

variable {turn : Turn}

theorem waits_of_queue {rest : List Turn} (queue : m.queue = turn :: rest) :
    m.Waits s ↔ turn.Holds s ∨ { m with queue := rest }.Waits s := by
  simp only [Waits, queue, List.mem_cons, or_and_right, exists_or, exists_eq_left, or_assoc]

/-- A new strand is the only one that spawning adds. -/
theorem admits_of_waits_spawn {label? : Option Nat} {tracked : Bool} {frames : List Frame}
    {j : Job} (h : (m.spawn label? tracked { m.freshContext with frames } (jobCode j)).Waits s) :
    m.Waits s ∨ m.Admits j frames s := by
  rcases (waits_enqueue _ _).mp h with waiting | new
  · exact .inl ((waits_congr rfl rfl).mp waiting)
  · cases (new : s = _)
    exact .inr ⟨rfl, rfl, rfl, rfl, rfl, rfl⟩

/-! ## Steps of a strand -/

/-- An act adds no strand but for an event that is to be handled. -/
theorem waits_of_perform {c : Context} (h : (perform b env m c a).2.2.Waits s) :
    m.Waits s ∨ ∃ type target, m.Admits (.handle type target) [] s := by
  have same (m' : Machine σ) (h : m'.Waits s) (queue : m'.queue = m.queue)
      (calls : m'.calls = m.calls) :
      m.Waits s ∨ ∃ type target, m.Admits (.handle type target) [] s :=
    .inl ((waits_congr queue calls).mp h)
  cases a with
  | dispatch type target =>
    rcases admits_of_waits_spawn h with waiting | new
    · exact .inl waiting
    · exact .inr ⟨type, target, new⟩
  | arm node period? repeats =>
    rcases (waits_enqueue _ _).mp h with waiting | none
    · exact same _ waiting rfl rfl
    · exact none.elim
  | callback cb =>
    simp only [perform] at h
    split at h <;> exact same _ h rfl rfl
  | setResult v =>
    simp only [perform] at h
    split at h <;> exact same _ h rfl rfl
  | enter key =>
    simp only [perform] at h
    split at h <;> exact same _ h rfl rfl
  | _ => exact same _ h rfl rfl

/-- Each part of a chain has acts of its own, by which alone it changes. -/
theorem perform_context_parts (b : Board) (env : Surroundings σ) (m : Machine σ) (c : Context)
    (a : Act) : (a ≠ .beginChain → (perform b env m c a).2.1.epoch = c.epoch) ∧
      (a.handlesFrames = false → (perform b env m c a).2.1.frames = c.frames) ∧
      (a.handlesPulls = false → (perform b env m c a).2.1.opened = c.opened) := by
  cases a with
  | beginChain => exact ⟨fun other => absurd rfl other, nofun, nofun⟩
  | push => exact ⟨fun _ => rfl, nofun, fun _ => rfl⟩
  | leave => exact ⟨fun _ => rfl, fun _ => rfl, nofun⟩
  | pop =>
    simp only [perform, Context.pop]
    split <;> exact ⟨fun _ => rfl, nofun, fun _ => rfl⟩
  | setResult v =>
    simp only [perform, Context.setResult]
    cases c.frames <;> exact ⟨fun _ => rfl, nofun, fun _ => rfl⟩
  | enter key =>
    simp only [perform, Context.enter]
    cases c.opened.contains key <;> exact ⟨fun _ => rfl, fun _ => rfl, nofun⟩
  | callback cb =>
    simp only [perform]
    split <;> exact ⟨fun _ => rfl, fun _ => rfl, fun _ => rfl⟩
  | _ => exact ⟨fun _ => rfl, fun _ => rfl, fun _ => rfl⟩

/-- What the running strand becomes by one step, unless it ends there. -/
inductive Advances (b : Board) (env : Surroundings σ) (m : Machine σ) (s : Strand) :
    Strand → Prop where
  | returns {r : Except Fault Value} {next : Continuation}
      {stack : List Continuation} :
      s.code = .ret r → s.stack = next :: stack →
      Advances b env m s { s with code := next r, stack }
  | acts {a : Act} {next : a.Reply → Code} :
      s.code = .act a next →
      Advances b env m s { s with
        context := (perform b env m s.context a).2.1
        code := next (perform b env m s.context a).1 }
  | answered {r : Request} {next : Except Fault r.Reply → Code}
      {reply : Except Fault r.Reply} :
      s.code = .wait r next → Advances b env m s { s with code := next reply }
  | calls {j : Job} {next : Continuation} :
      s.code = .call j next →
      Advances b env m s { s with code := (b.body j).run, stack := next :: s.stack }

theorem Advances.id_eq (step : Advances b env m s t) : t.id = s.id := by
  cases step <;> rfl

/-- A step changes the context by an act, or not at all. -/
theorem Advances.context_cases (step : Advances b env m s t) :
    (s.act? = none ∧ t.context = s.context) ∨
      ∃ a, s.act? = some a ∧ t.context = (perform b env m s.context a).2.1 := by
  cases step with
  | acts code => exact .inr ⟨_, Strand.act?_of_code code, rfl⟩
  | returns code _ | answered code | calls code =>
    refine .inl ⟨?_, rfl⟩
    rw [Strand.act?, code]

/-- The strand is what becomes of another one once its request is answered. -/
def Asks (s t : Strand) : Prop :=
  ∃ (r : Request) (next : Except Fault r.Reply → Code)
    (reply : Except Fault r.Reply), s.code = .wait r next ∧ t = { s with code := next reply }

theorem witnessAll_eq (m : Machine σ) (hs : List Happening) :
    m.witnessAll hs = { m with history := hs.reverse ++ m.history } := by
  unfold witnessAll
  induction hs generalizing m with
  | nil => rfl
  | cons h rest ih =>
    rw [List.foldl_cons, ih]
    simp [witness]

/-- To ask changes nothing but the surroundings and the history. -/
theorem eq_of_ask {r : Request} {answer : Answer r.Reply} (h : m.ask env r = (answer, m')) :
    ∃ outside history, m' = { m with outside, history } := by
  simp only [ask, witnessAll_eq] at h
  exact ⟨_, _, (congrArg Prod.snd h).symm⟩

/-- Where a strand with a number is put: it runs, stands in the queue or waits among the calls.
What will become of it may hang on an answer. -/
inductive Puts (m : Machine σ) (becomes : Strand → Prop) (id : Nat) : Machine σ → Prop where
  | runs {s : Strand} {outside : σ} {history : List Happening} :
      becomes s → s.id = id → Puts m becomes id { m with outside, history, running? := some s }
  | queues {turn : Turn} {outside : σ} {history : List Happening} :
      (∀ s, turn.Holds s → becomes s) → turn.strand?.map (·.id) = some id →
      Puts m becomes id ({ m with outside, history }.enqueue turn)
  | waits {c : Call} {outside : σ} {history : List Happening} :
      (∀ s, c.Resumes s → becomes s) → c.strand.id = id →
      Puts m becomes id { m with outside, history, calls := m.calls ++ [c] }

variable {id : Nat} {becomes : Strand → Prop}

theorem Puts.waits_cases (puts : m.Puts becomes id m') (h : m'.Waits t) :
    m.Waits t ∨ becomes t := by
  cases puts with
  | runs => exact .inl h
  | queues holds => exact ((waits_enqueue _ _).mp h).imp_right (holds t)
  | waits resumes =>
    rcases h with waiting | ⟨c, member, resumes'⟩
    · exact .inl (.inl waiting)
    · rcases List.mem_append.mp member with old | new
      · exact .inl (.inr ⟨c, old, resumes'⟩)
      · cases List.mem_singleton.mp new
        exact .inr (resumes t resumes')

theorem Puts.of_running (puts : m.Puts becomes id m') (idle : m.running? = none)
    (h : m'.running? = some t) : becomes t := by
  cases puts with
  | runs become =>
    cases Option.some.inj h
    exact become
  | queues | waits => cases idle.symm.trans h

/-- A strand that makes a request goes on or waits for the answer. -/
theorem puts_request (env : Surroundings σ) (m : Machine σ) (s : Strand) (r : Request)
    (next : Except Fault r.Reply → Code) :
    { m with running? := none }.Puts (fun t => ∃ reply, t = { s with code := next reply }) s.id
      (m.request env s r next) := by
  unfold request
  dsimp only
  split
  next =>
    split
    next asked =>
      obtain ⟨outside, history, rfl⟩ := eq_of_ask asked
      exact .runs ⟨_, rfl⟩ rfl
    next asked =>
      obtain ⟨outside, history, rfl⟩ := eq_of_ask asked
      exact .waits (fun _ resumes => resumes) rfl
  next => exact .queues (fun _ resumes => resumes) rfl
  next => exact .queues (fun _ resumes => resumes) rfl
  next => exact .queues (fun _ holds => ⟨_, holds⟩) rfl
  next => exact .runs ⟨_, rfl⟩ rfl

/-- A strand that ends leaves a turn in the queue at most. -/
theorem exists_finish_eq (m : Machine σ) (s : Strand) (r : Except Fault Value) :
    ∃ finished, m.finish s r = { m with
      running? := none
      queue := m.queue ++ if s.tracked then [.retire s.id] else []
      finished } := by
  refine ⟨(m.finish s r).finished, ?_⟩
  unfold finish
  dsimp only
  split <;> split <;> simp [enqueue, *]

@[simp] theorem finish_running? (m : Machine σ) (s : Strand) (r : Except Fault Value) :
    (m.finish s r).running? = none := by
  obtain ⟨finished, eq⟩ := exists_finish_eq m s r
  rw [eq]

theorem waits_of_finish {r : Except Fault Value} (h : (m.finish s r).Waits t) : m.Waits t := by
  obtain ⟨finished, eq⟩ := exists_finish_eq m s r
  rw [eq] at h
  rcases h with ⟨turn, member, holds⟩ | waiting
  · rcases List.mem_append.mp member with old | new
    · exact .inl ⟨turn, old, holds⟩
    · split at new
      · cases List.mem_singleton.mp new
        exact holds.elim
      · cases new
  · exact .inr waiting

theorem waits_of_stepStrand (h : (m.stepStrand b env s).Waits t) :
    m.Waits t ∨ Asks s t ∨ ∃ type target, m.Admits (.handle type target) [] t := by
  unfold stepStrand at h
  split at h
  next =>
    split at h
    · exact .inl (waits_of_finish h)
    · exact .inl h
  next =>
    rcases waits_of_perform h with waiting | new
    · exact .inl waiting
    · exact .inr (.inr new)
  next r next code =>
    rcases (puts_request env m s r next).waits_cases h with waiting | ⟨reply, rfl⟩
    · exact .inl waiting
    · exact .inr (.inl ⟨r, next, reply, code, rfl⟩)
  next => exact .inl h

theorem running_of_stepStrand (h : (m.stepStrand b env s).running? = some t) :
    Advances b env m s t := by
  unfold stepStrand at h
  split at h
  next r code =>
    split at h
    next => rw [finish_running?] at h; cases h
    next stack =>
      cases Option.some.inj h
      exact .returns code stack
  next code =>
    cases Option.some.inj h
    exact .acts code
  next r next code =>
    obtain ⟨reply, rfl⟩ := (puts_request env m s r next).of_running rfl h
    exact .answered code
  next code =>
    cases Option.some.inj h
    exact .calls code

/-! ## Turns -/

/-- A turn takes up the strand that it is about. -/
theorem puts_take (env : Surroundings σ) (m : Machine σ) (about : turn.strand? = some s) :
    m.Puts turn.Holds s.id (m.take env turn) := by
  cases turn with
  | run laps s =>
    cases about
    cases laps with
    | zero => exact .runs rfl rfl
    | succ laps => exact .queues (fun _ holds => holds) rfl
  | lookUp c =>
    cases about
    simp only [take, lookUp]
    split
    next asked =>
      obtain ⟨outside, history, rfl⟩ := eq_of_ask asked
      exact .queues (fun _ holds => ⟨_, holds⟩) rfl
    next asked =>
      obtain ⟨outside, history, rfl⟩ := eq_of_ask asked
      split
      · exact .queues (fun _ holds => ⟨_, holds⟩) rfl
      · exact .waits (fun _ resumes => resumes) rfl
  | answer c reply? =>
    cases about
    simp only [take, answer, witnessAll_eq]
    cases reply? with
    | some _ | none =>
      split
      · exact .queues (fun _ holds => ⟨_, holds⟩) rfl
      · exact .runs ⟨_, rfl⟩ rfl
  | windUp | tick | retire | checkIdle => cases about

@[simp] theorem lookUp_running? (m : Machine σ) (c : Call) :
    (m.lookUp env c).running? = m.running? := by
  unfold lookUp
  split
  next asked =>
    obtain ⟨outside, history, rfl⟩ := eq_of_ask asked
    rfl
  next asked =>
    obtain ⟨outside, history, rfl⟩ := eq_of_ask asked
    split <;> rfl

/-- A timer that ticks has a chain begun at its node. -/
theorem waits_of_tick (h : (m.tick id).Waits t) :
    m.Waits t ∨ ∃ timer ∈ m.timers, m.Admits (.chain timer.node) [] t := by
  unfold tick at h
  split at h
  · exact .inl h
  next timer found =>
    rcases admits_of_waits_spawn ((waits_congr rfl rfl).mp h) with waiting | new
    · exact .inl waiting
    · exact .inr ⟨timer, List.mem_of_find?_eq_some found, new⟩

@[simp] theorem tick_running? (m : Machine σ) (id : Nat) : (m.tick id).running? = m.running? := by
  unfold tick
  split <;> rfl

theorem waits_of_retire (h : (m.retire id).Waits t) : m.Waits t := by
  rcases h with ⟨turn, member, holds⟩ | waiting
  · rcases List.mem_append.mp member with old | new
    · exact .inl ⟨turn, old, holds⟩
    · obtain ⟨w, -, rfl⟩ := List.mem_map.mp new
      exact holds.elim
  · exact .inr waiting

theorem checkIdle_cases (m : Machine σ) (label : Nat) :
    ∃ finished waiters, m.checkIdle label = { m with finished, waiters } := by
  unfold checkIdle
  split <;> exact ⟨_, _, rfl⟩

/-- Taking a turn adds no strand but for the chain of a timer. -/
theorem waits_of_take (h : (m.take env turn).Waits t) :
    m.Waits t ∨ turn.Holds t ∨ ∃ timer ∈ m.timers, m.Admits (.chain timer.node) [] t := by
  cases turn with
  | run | lookUp | answer => exact ((puts_take env m rfl).waits_cases h).imp_right .inl
  | windUp id => exact .inl h
  | tick id => exact (waits_of_tick h).imp_right .inr
  | retire id => exact .inl (waits_of_retire h)
  | checkIdle label =>
    obtain ⟨finished, waiters, eq⟩ := checkIdle_cases m label
    rw [take, eq] at h
    exact .inl h

/-- Only a strand that holds the turn runs by it. -/
theorem running_of_take (idle : m.running? = none) (h : (m.take env turn).running? = some t) :
    turn.Holds t := by
  have impossible {m' : Machine σ} (same : m'.running? = m.running?) (h : m'.running? = some t) :
      turn.Holds t := by
    rw [same, idle] at h
    cases h
  cases turn with
  | run | lookUp | answer => exact (puts_take env m rfl).of_running idle h
  | windUp id => exact impossible rfl h
  | tick id => exact impossible (tick_running? m id) h
  | retire id => exact impossible rfl h
  | checkIdle label =>
    obtain ⟨finished, waiters, eq⟩ := checkIdle_cases m label
    rw [take, eq] at h
    exact impossible rfl h

/-! ## Impulses -/

theorem waits_of_ring {alarm : Machine.Alarm} (h : (m.ring alarm).Waits t) : m.Waits t := by
  cases alarm with
  | timer id =>
    rcases (waits_enqueue _ _).mp h with waiting | none
    · exact waiting
    · exact none.elim
  | deadline strand =>
    simp only [ring] at h
    split at h
    · exact h
    next c found =>
      rcases (waits_enqueue _ _).mp h with (waiting | ⟨c', member, resumes⟩) | rfl
      · exact .inl waiting
      · exact .inr ⟨c', (List.mem_filter.mp member).1, resumes⟩
      · exact .inr ⟨c, List.mem_of_find?_eq_some found, _, rfl⟩

theorem waits_of_reach {time : Rat} (h : (m.reach time).Waits t) : m.Waits t := by
  have rings (alarms : List Machine.Alarm) (m' : Machine σ)
      (h : (alarms.foldl ring m').Waits t) : m'.Waits t := by
    induction alarms generalizing m' with
    | nil => exact h
    | cons a rest ih => exact waits_of_ring (ih _ h)
  exact rings (m.alarmsAt time) { m with now := time } h

@[simp] theorem ring_running? (m : Machine σ) (alarm : Machine.Alarm) :
    (m.ring alarm).running? = m.running? := by
  cases alarm with
  | timer id => rfl
  | deadline strand =>
    simp only [ring]
    split <;> rfl

@[simp] theorem reach_running? (m : Machine σ) (time : Rat) :
    (m.reach time).running? = m.running? := by
  have rings (alarms : List Machine.Alarm) (m' : Machine σ) :
      (alarms.foldl ring m').running? = m'.running? := by
    induction alarms generalizing m' with
    | nil => rfl
    | cons a rest ih => rw [List.foldl_cons, ih, ring_running?]
  exact rings (m.alarmsAt time) _

theorem release_cases (m : Machine σ) (wanted : Request → Bool)
    (reply : (r : Request) → Option (Except Fault r.Reply)) :
    (m.release wanted reply).getD m = m ∨ ∃ c ∈ m.calls, (m.release wanted reply).getD m =
      { m with calls := m.calls.filter (·.strand.id != c.strand.id) }.enqueue
        (.answer c (reply c.request)) := by
  unfold release
  split
  · exact .inl rfl
  next c found => exact .inr ⟨c, List.mem_of_find?_eq_some found, rfl⟩

variable {i : Impulse}

theorem waits_of_receive (h : (m.receive i).Waits t) :
    m.Waits t ∨ ∃ label? tracked frames e,
      i = .enter label? tracked frames e ∧ m.Admits e.job frames t := by
  cases i with
  | enter label? tracked frames e =>
    rcases admits_of_waits_spawn h with waiting | new
    · exact .inl waiting
    · exact .inr ⟨label?, tracked, frames, e, rfl, new⟩
  | stop => exact .inl h
  | log level message => exact .inl h
  | awaitIdle label =>
    rcases (waits_enqueue _ _).mp h with waiting | none
    · exact .inl waiting
    · exact none.elim
  | assign name v => exact .inl h
  | release wanted reply =>
    rcases release_cases m wanted reply with eq | ⟨c, member, eq⟩
    · rw [receive, eq] at h
      exact .inl h
    · rw [receive, eq] at h
      rcases (waits_enqueue _ _).mp h with (waiting | ⟨c', member', resumes⟩) | resumes
      · exact .inl (.inl waiting)
      · exact .inl (.inr ⟨c', (List.mem_filter.mp member').1, resumes⟩)
      · exact .inl (.inr ⟨c, member, resumes⟩)
  | pass time => exact .inl (waits_of_reach h)

/-- A strand that runs by an impulse is one that stops the app or writes into its log. -/
theorem running_of_receive (idle : m.running? = none) (h : (m.receive i).running? = some t) :
    (i = .stop ∧ t = m.newcomer .stop) ∨
      ∃ level message, i = .log level message ∧ t = m.newcomer (.log level message) := by
  have impossible {m' : Machine σ} (same : m'.running? = m.running?) (h : m'.running? = some t) :
      False := by
    rw [same, idle] at h
    cases h
  cases i with
  | enter label? tracked frames e => exact (impossible rfl h).elim
  | stop => exact .inl ⟨rfl, (Option.some.inj h).symm⟩
  | log level message => exact .inr ⟨level, message, rfl, (Option.some.inj h).symm⟩
  | awaitIdle label => exact (impossible rfl h).elim
  | assign name v => exact (impossible rfl h).elim
  | release wanted reply =>
    rcases release_cases m wanted reply with eq | ⟨c, -, eq⟩
    · rw [receive, eq] at h
      exact (impossible rfl h).elim
    · rw [receive, eq] at h
      exact (impossible rfl h).elim
  | pass time => exact (impossible (reach_running? m time) h).elim

/-! ## Moves -/

/-- The job of a strand that comes in by a move, and the frames it comes with. -/
inductive Summons (m : Machine σ) (impulse? : Option Impulse) : Job → List Frame → Prop where
  /-- A listener has an event handled. -/
  | event (type target : Value) : Summons m impulse? (.handle type target) []
  /-- A timer ticks. -/
  | timer {t : Timer} : t ∈ m.timers → Summons m impulse? (.chain t.node) []
  /-- The world enters. -/
  | entrance {label? : Option Nat} {tracked : Bool} {frames : List Frame} {e : Entrance} :
      impulse? = some (.enter label? tracked frames e) → Summons m impulse? e.job frames
  /-- The world stops the app. -/
  | stop : impulse? = some .stop → Summons m impulse? .stop []
  /-- The world writes into the log. -/
  | log {level : Level} {message : Value} :
      impulse? = some (.log level message) → Summons m impulse? (.log level message) []

variable {impulse? : Option Impulse}

/-- A move is an impulse, a step of the running strand or the turn that is due. -/
theorem Moves.cases (move : m.Moves b env impulse? m') :
    (∃ i, impulse? = some i ∧ m.running? = none ∧ m' = m.receive i) ∨
      (∃ s, m.running? = some s ∧ m' = m.stepStrand b env s) ∨
      ∃ turn rest, m.running? = none ∧ m.queue = turn :: rest ∧
        m' = { m with queue := rest }.take env turn := by
  cases impulse? with
  | some i => exact .inl ⟨i, rfl, move⟩
  | none =>
    simp only [Moves, step] at move
    split at move
    next s running => exact .inr (.inl ⟨s, running, (Option.some.inj move).symm⟩)
    next idle =>
      split at move
      next => cases move
      next turn rest queue =>
        exact .inr (.inr ⟨turn, rest, idle, queue, (Option.some.inj move).symm⟩)

/-- Where the strands that wait after a move come from. -/
theorem Moves.waits_cases (move : m.Moves b env impulse? m') (h : m'.Waits t) :
    m.Waits t ∨ (∃ s, m.running? = some s ∧ Asks s t) ∨
      ∃ j frames, m.Summons impulse? j frames ∧ m.Admits j frames t := by
  rcases move.cases with ⟨i, rfl, -, rfl⟩ | ⟨s, running, rfl⟩ | ⟨turn, rest, -, queue, rfl⟩
  · rcases waits_of_receive h with waiting | ⟨label?, tracked, frames, e, rfl, new⟩
    · exact .inl waiting
    · exact .inr (.inr ⟨_, _, .entrance rfl, new⟩)
  · rcases waits_of_stepStrand h with waiting | asking | ⟨type, target, new⟩
    · exact .inl waiting
    · exact .inr (.inl ⟨s, running, asking⟩)
    · exact .inr (.inr ⟨_, _, .event type target, new⟩)
  · rcases waits_of_take h with waiting | holds | ⟨timer, member, new⟩
    · exact .inl ((waits_of_queue queue).mpr (.inr waiting))
    · exact .inl ((waits_of_queue queue).mpr (.inl holds))
    · exact .inr (.inr ⟨_, _, .timer member, ⟨new.id, new.epoch, new.frames, new.opened, new.code,
        new.stack⟩⟩)

/-- Where the strand that runs after a move comes from. -/
theorem Moves.running_cases (move : m.Moves b env impulse? m') (h : m'.running? = some t) :
    (m.running? = none ∧ m.Waits t) ∨ (∃ s, m.running? = some s ∧ Advances b env m s t) ∨
      ∃ j frames, m.Summons impulse? j frames ∧ m.Admits j frames t := by
  rcases move.cases with ⟨i, rfl, idle, rfl⟩ | ⟨s, running, rfl⟩ | ⟨turn, rest, idle, queue, rfl⟩
  · rcases running_of_receive idle h with ⟨rfl, rfl⟩ | ⟨level, message, rfl, rfl⟩
    · exact .inr (.inr ⟨_, _, .stop rfl, admits_newcomer m _⟩)
    · exact .inr (.inr ⟨_, _, .log rfl, admits_newcomer m _⟩)
  · exact .inr (.inl ⟨s, running, running_of_stepStrand h⟩)
  · have holds : turn.Holds t := running_of_take (m := { m with queue := rest }) idle h
    exact .inl ⟨idle, (waits_of_queue queue).mpr (.inl holds)⟩

/-! ## The core

Epoch, status, variables, scratch, log and timers are touched by acts alone, apart from a variable
that the world sets and a timer that runs out. -/

/-- The second machine has the core of the first one; timers may have gone or be wound. -/
structure Spares (m m' : Machine σ) : Prop where
  epoch : m'.epoch = m.epoch
  status : m'.status = m.status
  bindings : m'.bindings = m.bindings
  scratch : m'.scratch = m.scratch
  journal : m'.journal = m.journal
  timers : (m'.timers.map Timer.badge).Sublist (m.timers.map Timer.badge)

theorem Spares.trans {m'' : Machine σ} (h : m.Spares m') (h' : m'.Spares m'') : m.Spares m'' where
  epoch := h'.epoch.trans h.epoch
  status := h'.status.trans h.status
  bindings := h'.bindings.trans h.bindings
  scratch := h'.scratch.trans h.scratch
  journal := h'.journal.trans h.journal
  timers := h'.timers.trans h.timers

theorem Puts.spares (puts : m.Puts becomes id m') : m.Spares m' := by
  cases puts <;> exact ⟨rfl, rfl, rfl, rfl, rfl, .refl _⟩

theorem spares_request (m : Machine σ) (s : Strand) (r : Request)
    (next : Except Fault r.Reply → Code) :
    m.Spares (m.request env s r next) := by
  obtain ⟨epoch, status, bindings, scratch, journal, timers⟩ := (puts_request env m s r next).spares
  exact ⟨epoch, status, bindings, scratch, journal, timers⟩

theorem spares_finish (m : Machine σ) (s : Strand) (r : Except Fault Value) :
    m.Spares (m.finish s r) := by
  obtain ⟨finished, eq⟩ := exists_finish_eq m s r
  rw [eq]
  exact ⟨rfl, rfl, rfl, rfl, rfl, .refl _⟩

theorem spares_updateTimer (m : Machine σ) (id : Nat) {f : Timer → Option Timer}
    (keeps : ∀ t t', f t = some t' → t'.badge = t.badge) : m.Spares (m.updateTimer id f) where
  epoch := rfl
  status := rfl
  bindings := rfl
  scratch := rfl
  journal := rfl
  timers := by
    show ((m.timers.filterMap _).map Timer.badge).Sublist _
    induction m.timers with
    | nil => exact .slnil
    | cons t rest ih =>
      rw [List.filterMap_cons]
      split
      next => exact ih.cons _
      next t' updated =>
        have same : t'.badge = t.badge := by
          split at updated
          · exact keeps t t' updated
          · cases updated
            rfl
        rw [List.map_cons, List.map_cons, same]
        exact ih.cons_cons _

theorem spares_tick (m : Machine σ) (id : Nat) : m.Spares (m.tick id) := by
  unfold tick
  split
  · exact ⟨rfl, rfl, rfl, rfl, rfl, .refl _⟩
  next timer found =>
    have spawned : m.Spares (m.spawn none true m.freshContext (jobCode (.chain timer.node))) :=
      ⟨rfl, rfl, rfl, rfl, rfl, .refl _⟩
    refine spawned.trans (spares_updateTimer _ _ fun t t' ticked => ?_)
    split at ticked
    · cases ticked
      rfl
    · cases ticked

theorem spares_take (m : Machine σ) (turn : Turn) : m.Spares (m.take env turn) := by
  cases turn with
  | run | lookUp | answer => exact (puts_take env m rfl).spares
  | windUp id =>
    refine spares_updateTimer m id fun t t' wound => ?_
    cases wound
    rfl
  | tick id => exact spares_tick m id
  | retire id => exact ⟨rfl, rfl, rfl, rfl, rfl, .refl _⟩
  | checkIdle label =>
    obtain ⟨finished, waiters, eq⟩ := checkIdle_cases m label
    rw [take, eq]
    exact ⟨rfl, rfl, rfl, rfl, rfl, .refl _⟩

theorem spares_ring (m : Machine σ) (alarm : Alarm) : m.Spares (m.ring alarm) := by
  cases alarm with
  | timer id => exact ⟨rfl, rfl, rfl, rfl, rfl, .refl _⟩
  | deadline strand =>
    simp only [ring]
    split <;> exact ⟨rfl, rfl, rfl, rfl, rfl, .refl _⟩

theorem spares_reach (m : Machine σ) (time : Rat) : m.Spares (m.reach time) := by
  have rings (alarms : List Alarm) (m' : Machine σ) : m'.Spares (alarms.foldl ring m') := by
    induction alarms generalizing m' with
    | nil => exact ⟨rfl, rfl, rfl, rfl, rfl, .refl _⟩
    | cons a rest ih => exact (spares_ring m' a).trans (ih _)
  have passed : m.Spares { m with now := time } := ⟨rfl, rfl, rfl, rfl, rfl, .refl _⟩
  exact passed.trans (rings (m.alarmsAt time) _)

theorem spares_receive (m : Machine σ) (other : ∀ name v, i ≠ .assign name v) :
    m.Spares (m.receive i) := by
  cases i with
  | assign name v => exact absurd rfl (other name v)
  | release wanted reply =>
    rcases release_cases m wanted reply with eq | ⟨c, -, eq⟩
    · rw [receive, eq]
      exact ⟨rfl, rfl, rfl, rfl, rfl, .refl _⟩
    · rw [receive, eq]
      exact ⟨rfl, rfl, rfl, rfl, rfl, .refl _⟩
  | pass time => exact spares_reach m time
  | _ => exact ⟨rfl, rfl, rfl, rfl, rfl, .refl _⟩

/-- The act that comes next. -/
def act? (m : Machine σ) : Option Act := m.running?.bind Strand.act?

/-- What becomes of the machine when the running strand does an act. -/
def acted (b : Board) (env : Surroundings σ) (m : Machine σ) (s : Strand) (a : Act)
    (next : a.Reply → Code) : Machine σ :=
  let (reply, context, m) := perform b env m s.context a
  { m with running? := some { s with context, code := next reply } }

/-- What a move does to the core: an act of the running strand, a variable set by the world, or
nothing. -/
theorem Moves.core_cases (move : m.Moves b env impulse? m') :
    (∃ s a next, m.running? = some s ∧ s.code = .act a next ∧ m' = m.acted b env s a next) ∨
      (∃ name v, impulse? = some (.assign name v) ∧
        m' = { m with bindings := m.bindings.put name v }) ∨
      (m.act? = none ∧ m.Spares m') := by
  rcases move.cases with ⟨i, rfl, idle, rfl⟩ | ⟨s, running, rfl⟩ | ⟨turn, rest, idle, -, rfl⟩
  · by_cases assigns : ∃ name v, i = .assign name v
    · obtain ⟨name, v, rfl⟩ := assigns
      exact .inr (.inl ⟨name, v, rfl, rfl⟩)
    · refine .inr (.inr ⟨by rw [act?, idle]; rfl, spares_receive m fun name v eq => ?_⟩)
      exact assigns ⟨name, v, eq⟩
  · have acts : m.act? = s.act? := by rw [act?, running]; rfl
    unfold stepStrand
    split
    next r code =>
      refine .inr (.inr ⟨by rw [acts, Strand.act?, code], ?_⟩)
      split
      · exact spares_finish m s r
      · exact ⟨rfl, rfl, rfl, rfl, rfl, .refl _⟩
    next a next code => exact .inl ⟨s, a, next, running, code, rfl⟩
    next r next code =>
      exact .inr (.inr ⟨by rw [acts, Strand.act?, code], spares_request m s r next⟩)
    next j next code =>
      exact .inr (.inr ⟨by rw [acts, Strand.act?, code], ⟨rfl, rfl, rfl, rfl, rfl, .refl _⟩⟩)
  · refine .inr (.inr ⟨by rw [act?, idle]; rfl, ?_⟩)
    have taken : m.Spares { m with queue := rest } := ⟨rfl, rfl, rfl, rfl, rfl, .refl _⟩
    exact taken.trans (spares_take _ turn)

/-- What a move may do to the core.  Each part of it has acts of its own, by which alone it changes;
variables are also set by the world. -/
structure Alters (impulse? : Option Impulse) (m m' : Machine σ) : Prop where
  epoch : m'.epoch = m.epoch ∨ m.act? = some .markStopped ∧ m'.epoch = m.epoch + 1
  status : m'.status = m.status ∨ m.act? = some .markStarted ∧ m'.status = .started ∨
    m.act? = some .markStopped ∧ m'.status = .stopped
  bindings : m'.bindings = m.bindings ∨
    (∃ name v, m.act? = some (.assign name v) ∧ m'.bindings = m.bindings.put (.str name) v) ∨
    ∃ name v, impulse? = some (.assign name v)
  scratch : (∃ node memo, m.act? = some (.remember node memo) ∧
      m'.scratch = m.scratch.put node ((m.scratchOf node).keep memo)) ∨
    (∀ node memo, m.act? ≠ some (.remember node memo)) ∧ m'.scratch = m.scratch
  journal : ∀ e ∈ m'.journal, e ∈ m.journal ∨ m.act? = some (.journal e.level e.message)
  /-- One timer is set, all are taken away, or some may go and others be wound. -/
  timers : (∃ node period? repeats, m.act? = some (.arm node period? repeats) ∧
      m'.timers = m.timers ++ [{ id := m.nextId, node, period?, repeats }]) ∨
    (m.act? = some .markStopped ∧ m'.timers = []) ∨
    m.act? ≠ some .markStopped ∧ (m'.timers.map Timer.badge).Sublist (m.timers.map Timer.badge)

theorem Spares.alters (spares : m.Spares m')
    (keeps : ∀ node memo, m.act? ≠ some (.remember node memo))
    (stops : m.act? ≠ some .markStopped) : Alters impulse? m m' :=
  ⟨.inl spares.epoch, .inl spares.status, .inl spares.bindings, .inr ⟨keeps, spares.scratch⟩,
    fun _ member => .inl (spares.journal ▸ member), .inr (.inr ⟨stops, spares.timers⟩)⟩

theorem Moves.alters (move : m.Moves b env impulse? m') : Alters impulse? m m' := by
  rcases move.core_cases with
    ⟨s, a, next, running, code, rfl⟩ | ⟨name, v, world, rfl⟩ | ⟨idle, spares⟩
  · have acts : m.act? = some a := by
      rw [act?, running]
      exact Strand.act?_of_code code
    have other {a' : Act} (ne : a ≠ a') : m.act? ≠ some a' :=
      fun eq => ne (Option.some.inj (acts.symm.trans eq))
    cases a with
    | assign name v =>
      exact ⟨.inl rfl, .inl rfl, .inr (.inl ⟨name, v, acts, rfl⟩),
        .inr ⟨fun _ _ => other nofun, rfl⟩, fun _ => .inl, .inr (.inr ⟨other nofun, .refl _⟩)⟩
    | remember node memo =>
      exact ⟨.inl rfl, .inl rfl, .inl rfl, .inl ⟨node, memo, acts, rfl⟩, fun _ => .inl,
        .inr (.inr ⟨other nofun, .refl _⟩)⟩
    | journal level message =>
      refine ⟨.inl rfl, .inl rfl, .inl rfl, .inr ⟨fun _ _ => other nofun, rfl⟩, fun e member => ?_,
        .inr (.inr ⟨other nofun, .refl _⟩)⟩
      rcases List.mem_cons.mp member with rfl | old
      · exact .inr acts
      · exact .inl old
    | markStarted =>
      exact ⟨.inl rfl, .inr (.inl ⟨acts, rfl⟩), .inl rfl, .inr ⟨fun _ _ => other nofun, rfl⟩,
        fun _ none => (by cases none), .inr (.inr ⟨other nofun, .refl _⟩)⟩
    | markStopped =>
      exact ⟨.inr ⟨acts, rfl⟩, .inr (.inr ⟨acts, rfl⟩), .inl rfl,
        .inr ⟨fun _ _ => other nofun, rfl⟩, fun _ => .inl, .inr (.inl ⟨acts, rfl⟩)⟩
    | arm node period? repeats =>
      exact ⟨.inl rfl, .inl rfl, .inl rfl, .inr ⟨fun _ _ => other nofun, rfl⟩, fun _ => .inl,
        .inl ⟨node, period?, repeats, acts, rfl⟩⟩
    | setResult | enter | callback =>
      refine Spares.alters ?_ (fun _ _ => other nofun) (other nofun)
      simp only [acted, perform]
      split <;> exact ⟨rfl, rfl, rfl, rfl, rfl, .refl _⟩
    | _ =>
      exact Spares.alters ⟨rfl, rfl, rfl, rfl, rfl, .refl _⟩ (fun _ _ => other nofun)
        (other nofun)
  · subst world
    have idle : m.act? = none := by rw [act?, move.1]; rfl
    exact ⟨.inl rfl, .inl rfl, .inr (.inr ⟨name, v, rfl⟩), .inr ⟨by simp [idle], rfl⟩,
      fun _ => .inl, .inr (.inr ⟨by simp [idle], .refl _⟩)⟩
  · exact spares.alters (by simp [idle]) (by simp [idle])

/-! ## Runs at the wish of the world

Every course that the world could wish for is a run: a wish is granted if nothing is running then;
otherwise the engine takes a step, and where there is none to take, time passes. -/

/-- The move that is made when the world wishes for something. -/
def comply (b : Board) (env : Surroundings σ) (m : Machine σ) (wish? : Option Impulse) :
    Option Impulse × Machine σ :=
  match m.running?, wish? with
  | none, some i => (some i, m.receive i)
  | _, _ =>
    match m.step b env with
    | some m' => (none, m')
    | none => (some (.pass m.now), m.receive (.pass m.now))

theorem moves_comply (b : Board) (env : Surroundings σ) (m : Machine σ) (wish? : Option Impulse) :
    m.Moves b env (m.comply b env wish?).1 (m.comply b env wish?).2 := by
  have idle_of_step (none : m.step b env = none) : m.running? = .none := by
    unfold step at none
    split at none
    next => cases none
    next idle => exact idle
  unfold comply
  split
  next idle => exact ⟨idle, rfl⟩
  next =>
    split
    next stepped => exact stepped
    next none => exact ⟨idle_of_step none, rfl⟩

/-- The world does what it wishes for, or lets no time pass. -/
theorem wished_of_comply {wish? : Option Impulse} (h : (m.comply b env wish?).1 = some i) :
    wish? = some i ∨ i = .pass m.now := by
  unfold comply at h
  split at h
  next => exact .inl h
  next =>
    split at h
    next => cases h
    next => exact .inr (Option.some.inj h).symm

end Machine

/-- Surroundings in which nobody listens and no request is ever answered. -/
def Surroundings.silent : Surroundings Unit where
  react _ _ := (none, ())
  permission _ := .ok .null
  random _ := (.int 0, ())
  ask _ _ := (.later 0, [], ())
  resume _ _ _ := (.error .timedOut, [], ())
  load _ _ := .ok .null
  save _ _ _ := (.ok (), ())
  remove _ _ := (.ok (), ())

/-- The machine at a time, if the world has its wishes. -/
def Run.stateOf (b : Board) (env : Surroundings σ) (outside : σ) (wish? : Nat → Option Impulse) :
    Nat → Machine σ
  | 0 => { outside }
  | k + 1 => ((stateOf b env outside wish? k).comply b env (wish? k)).2

/-- The run in which the world has its wishes. -/
def Run.ofWishes (b : Board) (env : Surroundings σ) (outside : σ) (wish? : Nat → Option Impulse) :
    Run b env where
  state := Run.stateOf b env outside wish?
  impulse? k := ((Run.stateOf b env outside wish? k).comply b env (wish? k)).1
  first := Machine.numbered_fresh outside
  fresh := ⟨outside, rfl⟩
  move _ := Machine.moves_comply b env _ _

/-- The run in which the app is started, and the world leaves it alone from then on. -/
def Run.ofStart (b : Board) (env : Surroundings σ) (outside : σ) : Run b env :=
  .ofWishes b env outside fun k => if k = 0 then some (.enter none false [] .start) else none

/-- The wire between two pins. -/
def Wire.link (node pin node' pin' : String) : Wire where
  source := ⟨node, pin⟩
  target := ⟨node', pin'⟩

/-- The board of a drawing that can be run. -/
def App.board (app : App) (config : Config := {}) : Board :=
  ((Board.ofApp config app).toOption).getD ⟨"", {}, {}, {}⟩

end Wireboard
