import Wireboard.Proofs.Engine.StrandEtiquette

/-!
# What strands know when they act

The bodies of all jobs keep to their conduct (`Conduct.suits`).  The places that matter are those
right after a strand has learnt something:

* that its chain is current, before the user sees something, before a variable is set and before the
  next node along a wire;
* what a call has returned, before the result is kept;
* that the engine is started, before timers are set.

Along every run, what a strand has learnt is true (`Run.observes`).  A strand that waits knows
nothing, since everything may have changed when it runs again.  So the only insight to look after is
that of the running strand, and it lasts until its next act.  That a chain is current or the engine
started is a fact about the machine as it is now.  That a call has just returned a value is a fact
about the moves before: the strand ended the call one move ago, or two if it has looked at its epoch
since.
-/

namespace Wireboard

variable {σ : Type} {b : Board} {env : Surroundings σ} {m m' : Machine σ} {s t : Strand} {a : Act}

/-! ## The bodies -/

/-- The nodes that `isCall` tells are nodes that call functions, and nothing else is filed under
their ids. -/
structure Board.Marks (b : Board) (isCall : String → Prop) : Prop where
  /-- Whatever is executed under such an id calls a function. -/
  executed : ∀ {node : String} {n : Node} {kind : NodeKind}, b.circuit.node? node = some n →
    NodeKind.ofName? n.kind = some kind → isCall n.id → kind = .functionCall
  /-- No trigger for keys has such an id. -/
  pressed : ∀ {n : Node} {kind : String}, n ∈ b.circuit.nodesOf kind → n.kind = "onKeyPress" →
    ¬ isCall n.id

theorem Board.Marks.not_isCall {isCall : String → Prop} (marks : b.Marks isCall)
    {n : Node} {kind : NodeKind} (holds : b.Holds n kind) (other : kind ≠ .functionCall) :
    ¬ isCall n.id := by
  obtain ⟨⟨id, found⟩, named⟩ := holds
  exact fun call => other (marks.executed found named call)

namespace Conduct

variable {limit : Nat} {isCall : String → Prop}

/-- What has just been found current is current. -/
@[simp] theorem isCurrent_checked (μ : Insight) : (μ.checked false).isCurrent = true := by
  cases μ <;> rfl

/-- An act that needs no insight is in order up to its rank. -/
theorem warrants_of_rank_le_one {a : Act} (rank : a.rank ≤ 1) (μ : Insight) :
    μ.Warrants isCall a := by
  cases a with
  | callback c =>
    cases c with
    | log | input => exact fun visible => by cases visible
    | setText | setStyle | alert | navigate => exact absurd rank (by simp [Act.rank, Callback.rank])
  | assign | remember | arm => exact absurd rank (by simp [Act.rank])
  | _ => trivial

/-- A node that calls no function may keep anything. -/
theorem warrants_remember {node : String} (other : ¬ isCall node) (memo : Memo) (μ : Insight) :
    μ.Warrants isCall (.remember node memo) := by
  cases memo with
  | result v => exact fun marked => absurd marked other
  | _ => trivial

theorem talks : (conduct limit isCall).Talks where
  act rank := ⟨by rw [rank]; exact Nat.zero_le _, warrants_of_rank_le_one (by omega) _⟩
  stop := ⟨Nat.zero_le _, fun along => by cases along⟩

theorem reads (le : 1 ≤ limit) : (conduct limit isCall).Reads where
  act rank _ _ := ⟨by rw [rank]; exact le, warrants_of_rank_le_one (by omega) _⟩
  chat _ := le
  pull _ := ⟨le, fun along => by cases along⟩

theorem request_rank_le (r : Request) : r.rank ≤ 2 := by
  cases r <;> simp [Request.rank]

theorem callback_rank_le (c : Callback) : c.rank ≤ 2 := by
  cases c <;> simp [Callback.rank]

/-- What a call has returned is known until the chain has been found current. -/
@[simp] theorem after_pop_isStale (μ : Insight) (v : Value) :
    (μ.after .pop v).after .isStale false = .currentReturn v := by
  cases μ <;> rfl

theorem works (marks : b.Marks isCall) (le : 2 ≤ limit) :
    (conduct limit isCall).Works b where
  toils n :=
    { ask := fun _ _ => Nat.le_trans (request_rank_le _) le
      look := by rintro μ a (rfl | rfl) - <;> exact ⟨le, trivial⟩
      display := fun _ => ⟨Nat.le_trans (callback_rank_le _) le, fun _ => isCurrent_checked _⟩
      assign := fun _ _ _ => ⟨le, isCurrent_checked _⟩
      keep := fun _ holds other => ⟨le, warrants_remember (marks.not_isCall holds other) _ _⟩
      collect := by
        rintro μ kind v - holds (rfl | rfl)
        · exact ⟨le, warrants_remember (marks.not_isCall holds (by decide)) _ _⟩
        · exact ⟨le, warrants_remember (marks.not_isCall holds (by decide)) _ _⟩
      save := fun _ _ _ _ _ => ⟨le, trivial⟩
      remove := fun _ _ _ => ⟨le, trivial⟩ }
  count _ := ⟨le, trivial⟩
  send _ _ _ _ _ _ := Nat.le_trans (request_rank_le _) le
  push _ _ _ _ _ := ⟨le, trivial⟩
  setResult _ _ _ := ⟨le, trivial⟩
  function _ _ := ⟨le, fun along => by cases along⟩
  pop _ := ⟨le, trivial⟩
  ordinary_pop _ := trivial
  result {μ _ _} _ _ := ⟨le, fun _ => after_pop_isStale μ _⟩
  ready_notice _ := trivial
  ready_depth _ := trivial
  fire _ _ := ⟨le, fun along => by cases along⟩
  iterate _ _ := ⟨le, fun along => by cases along⟩
  rounds _ _ := ⟨le, fun along => by cases along⟩
  wire _ := ⟨le, fun _ => isCurrent_checked _⟩
  filed _ := trivial

/-- Where an engine was found started and only timers were set since, that is still known. -/
theorem eq_started {μ : (conduct limit isCall).Mode}
    (h : (conduct limit isCall).Started μ) : μ = Insight.started := by
  induction h with
  | @status μ _ => cases (μ : Insight) <;> rfl
  | @arm μ _ _ _ _ _ known => rw [known]; rfl

theorem begins (marks : b.Marks isCall) (le : 3 ≤ limit) :
    (conduct limit isCall).Begins b where
  chain _ := ⟨le, trivial⟩
  press _ listed isKey := ⟨Nat.le_of_succ_le le, warrants_remember (marks.pressed listed isKey) _ _⟩
  arm started _ := ⟨le, eq_started started⟩
  listed _ := trivial

theorem suits (marks : b.Marks isCall) : (conduct limit isCall).Suits b limit where
  talks := talks
  reads := reads
  works := works marks
  begins := begins marks
  rank_le called := called.1
  ground_of_calls _ _ := trivial
  ordinary_entered _ _ := trivial
  ready_entered _ := .inl trivial
  enter called _ := ⟨called.1, trivial⟩
  begins_of_markStarted := Nat.le_of_not_lt
  begins_of_status expected awake := Nat.le_of_not_lt fun below => awake (expected below)
  ends_stop _ _ := trivial

end Conduct

/-- A board marks nothing if nothing is to be marked. -/
theorem Board.marks_none (b : Board) : b.Marks fun _ => False where
  executed _ _ marked := marked.elim
  pressed _ _ := id

/-! ## What a strand knows -/

variable {impulse? : Option Impulse}

theorem Machine.Moves.eq_stepStrand (move : m.Moves b env impulse? m')
    (running : m.running? = some s) : m' = m.stepStrand b env s := by
  rcases move.cases with ⟨-, -, idle, -⟩ | ⟨u, runs, eq⟩ | ⟨-, -, idle, -⟩
  · cases running.symm.trans idle
  · cases running.symm.trans runs
    exact eq
  · cases running.symm.trans idle

theorem Machine.Moves.eq_acted
    {next : a.Reply → Code} (move : m.Moves b env impulse? m')
    (running : m.running? = some s) (code : s.code = .act a next) :
    m' = m.acted b env s a next := by
  rw [move.eq_stepStrand running, stepStrand, code]
  rfl

theorem Machine.Moves.running_of_act
    {next : a.Reply → Code} (move : m.Moves b env impulse? m')
    (running : m.running? = some s) (code : s.code = .act a next) :
    m'.running? = some { s with
      context := (perform b env m s.context a).2.1
      code := next (perform b env m s.context a).1 } := by
  rw [move.eq_acted running code]
  rfl

namespace Run

variable (run : Run b env) {isCall : String → Prop} {k : Nat}

/-- At that time a strand ended a call that returned the value; the second strand is what has become
of it. -/
def Popped (k : Nat) (v : Value) (s : Strand) : Prop :=
  ∃ t, (run.state k).running? = some t ∧ t.act? = some .pop ∧ t.context.pop = (v, s.context)
    ∧ t.id = s.id

/-- The insight of a strand is true. -/
def Knows (k : Nat) (s : Strand) : Insight → Prop
  | .nothing => True
  | .current => s.context.epoch = (run.state k).epoch
  | .returned v => ∃ p, k = p + 1 ∧ run.Popped p v s
  | .currentReturn v =>
    s.context.epoch = (run.state k).epoch ∧ ∃ p, k = p + 2 ∧ run.Popped p v s
  | .started => (run.state k).status = .started

variable {run}

theorem Knows.epoch_eq {μ : Insight} (knows : run.Knows k s μ) (current : μ.isCurrent = true) :
    s.context.epoch = (run.state k).epoch := by
  cases μ with
  | current => exact knows
  | currentReturn v => exact knows.1
  | nothing | returned v | started => cases current

/-- What a strand learns by an act is true. -/
theorem Knows.after_act {μ : Insight} {next : a.Reply → Code}
    (knows : run.Knows k s μ) (running : (run.state k).running? = some s)
    (code : s.code = .act a next) (ran : (run.state (k + 1)).running? = some t) :
    run.Knows (k + 1) t
      (μ.after a (Machine.perform b env (run.state k) s.context a).1) := by
  have eq : run.state (k + 1) = (run.state k).acted b env s a next :=
    (run.move k).eq_acted running code
  have became : { s with
      context := (Machine.perform b env (run.state k) s.context a).2.1
      code := next (Machine.perform b env (run.state k) s.context a).1 } = t := by
    rw [eq] at ran
    exact Option.some.inj ran
  cases a with
  | isStale =>
    have same : t.context = s.context ∧ t.id = s.id := by rw [← became]; exact ⟨rfl, rfl⟩
    have epoch : (run.state (k + 1)).epoch = (run.state k).epoch := by rw [eq]; rfl
    show run.Knows (k + 1) t (μ.checked (s.context.epoch != (run.state k).epoch))
    by_cases current : s.context.epoch = (run.state k).epoch
    · have now : t.context.epoch = (run.state (k + 1)).epoch := by rw [same.1, epoch, current]
      rw [current, bne_self_eq_false]
      cases μ with
      | returned v =>
        obtain ⟨p, rfl, u, h⟩ := knows
        rw [← same.1, ← same.2] at h
        exact ⟨now, p, rfl, u, h⟩
      | nothing | current | currentReturn v | started => exact now
    · rw [bne_iff_ne.mpr current]
      cases μ <;> trivial
  | pop =>
    have same : t.context = s.context.pop.2 ∧ t.id = s.id := by rw [← became]; exact ⟨rfl, rfl⟩
    have pops : s.act? = some .pop := Strand.act?_of_code code
    have returned : run.Knows (k + 1) t (.returned s.context.pop.1) :=
      ⟨k, rfl, s, running, pops, by rw [same.1], same.2.symm⟩
    cases μ <;> exact returned
  | status =>
    have status : (run.state (k + 1)).status = (run.state k).status := by rw [eq]; rfl
    have seen : run.Knows (k + 1) t (.ofStatus (run.state k).status) := by
      cases held : (run.state k).status with
      | started => exact status.trans held
      | constructed | stopped => trivial
    cases μ <;> exact seen
  | arm node period? repeats =>
    have status : (run.state (k + 1)).status = (run.state k).status := by rw [eq]; rfl
    cases μ with
    | started => exact status.trans knows
    | nothing | current | returned v | currentReturn v => trivial
  | _ => cases μ <;> trivial

end Run

/-! ## Along a run -/

namespace Run

variable {isCall : String → Prop}

/-- At the highest rank every reply is reckoned with. -/
theorem expects_three (a : Act) (r : a.Reply) : a.Expects 3 r := by
  cases a with
  | status => exact fun low => absurd low (Nat.lt_irrefl 3)
  | markStarted => exact Nat.lt_irrefl 3
  | _ => trivial

/-- A job of any rank may come in. -/
theorem calls_of_summons (isCall) {j : Job} {frames : List Frame}
    (h : m.Summons impulse? j frames) :
    (conduct 3 isCall).calls Insight.nothing j := by
  cases h with
  | @entrance _ _ _ e _ => cases e <;> exact ⟨Job.rank_le_three _, fun along => by cases along⟩
  | _ => exact ⟨Job.rank_le_three _, fun along => by cases along⟩

variable {run : Run b env} {k : Nat}

/-- What a strand knows after a step is true. -/
theorem Knows.of_leads {β β' : (conduct 3 isCall).Bearing} (knows : run.Knows k s β.mode)
    (running : (run.state k).running? = some s) (leads : β.Leads b env (run.state k) s β')
    (ran : (run.state (k + 1)).running? = some t) : run.Knows (k + 1) t β'.mode := by
  cases leads with
  | acts code _ => exact knows.after_act running code ran
  | returns | answered | calls => trivial

variable (run)

/-- The running strand keeps to the conduct, and what it has learnt is true. -/
theorem observes (marks : b.Marks isCall) (running : (run.state k).running? = some s) :
    ∃ β : (conduct 3 isCall).Bearing, run.Knows k s β.mode ∧ s.Follows (conduct 3 isCall) β := by
  have carries : run.Carries 0 (fun _ => True)
      (fun _ s => ∃ under, s.Follows (conduct 3 isCall) ⟨Insight.nothing, under⟩)
      (fun k s => ∃ β : (conduct 3 isCall).Bearing,
        run.Knows k s β.mode ∧ s.Follows (conduct 3 isCall) β) := {
    rests := fun _ held _ => held
    resumes := fun _ _ ⟨under, follows⟩ _ => ⟨⟨Insight.nothing, under⟩, trivial, follows⟩
    advances := fun _ _ running ⟨_, knows, follows⟩ step ran => by
      obtain ⟨β', leads, follows'⟩ := follows.of_advances (Conduct.suits marks).governs step
        fun a _ _ => expects_three a _
      exact ⟨β', knows.of_leads running leads ran, follows'⟩
    asks := fun {k _ _} _ _ ⟨_, _, follows⟩ asks _ =>
      ⟨_, (follows.of_asks b env (run.state k) asks).2⟩
    enters := fun _ _ summons new => by
      have follows := Strand.Follows.of_admits new (calls_of_summons isCall summons)
        fun _ => trivial
      exact ⟨fun _ => ⟨[], follows⟩, fun _ => ⟨⟨Insight.nothing, []⟩, trivial, follows⟩⟩
    goes := fun _ _ _ => trivial }
  obtain ⟨-, -, known⟩ := carries.always trivial k
  exact known s running

/-- Whoever does an act knows what the conduct asks for. -/
theorem warranted (marks : b.Marks isCall) (running : (run.state k).running? = some s)
    (acts : s.act? = some a) : ∃ μ, run.Knows k s μ ∧ μ.Warrants isCall a := by
  obtain ⟨β, knows, follows⟩ := run.observes marks running
  exact ⟨_, knows, (follows.allows acts).2⟩

end Run

end Wireboard
