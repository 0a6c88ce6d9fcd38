import Wireboard.Proofs.Engine.Insights

/-!
# Stale chains

A chain is stale once the engine is in another epoch than the one in which the chain began.  Nothing
tears a stale chain down: it may still wait for the host, or be in the middle of a loop, and it goes
on to its end in its own time.  It is contained all the same.

Two facts carry this.  Epochs only grow, and no context is ahead of the engine, so a chain that has
fallen behind never catches up (`Run.epoch_mono`, `Run.epoch_le`).  And whatever a chain is to be
kept from needs the insight that the chain is current, which a stale chain cannot have
(`Run.epoch_eq_of_shows` and its companions).

The epoch of a strand changes only where it begins another chain, so it is the same chain for as
long as it does not (`Machine.Advances.epoch_eq`).
-/

namespace Wireboard

variable {σ : Type} {b : Board} {env : Surroundings σ} {m m' : Machine σ} {s t : Strand}

/-- The strand is about to change what the user sees. -/
def Strand.shows (s : Strand) : Bool :=
  match s.act? with
  | some (.callback c) => c.isVisible
  | _ => false

/-- The strand is about to execute a node that a wire has reached. -/
def Strand.followsWire (s : Strand) : Bool := s.job?.any Job.isAlongWire

/-! ## Epochs -/

namespace Machine

/-- What a strand becomes is of the same epoch, unless it begins another chain. -/
theorem Advances.epoch_eq (step : Advances b env m s t) (same : s.act? ≠ some .beginChain) :
    t.context.epoch = s.context.epoch := by
  cases step with
  | @acts a next code =>
    refine (perform_context_parts b env m s.context a).1 fun begins => same ?_
    exact (Strand.act?_of_code code).trans (congrArg some begins)
  | _ => rfl

/-- What a strand becomes is of the epoch that the strand had, or of the current one. -/
theorem Advances.epoch_cases (step : Advances b env m s t) :
    t.context.epoch = s.context.epoch ∨ t.context.epoch = m.epoch := by
  by_cases begins : s.act? = some .beginChain
  · cases step with
    | @acts a next code =>
      rw [Strand.act?, code] at begins
      cases begins
      exact .inr rfl
    | _ => exact .inl rfl
  · exact .inl (step.epoch_eq begins)

/-- No strand gets ahead of the engine by a step. -/
theorem Advances.epoch_le (step : Advances b env m s t) (le : s.context.epoch ≤ m.epoch) :
    t.context.epoch ≤ m.epoch := by
  rcases step.epoch_cases with old | new
  · exact Nat.le_trans (Nat.le_of_eq old) le
  · exact Nat.le_of_eq new

theorem Moves.epoch_mono {impulse? : Option Impulse} (move : m.Moves b env impulse? m') :
    m.epoch ≤ m'.epoch := by
  rcases move.alters.epoch with same | ⟨-, next⟩ <;> omega

/-- If no strand was ahead of the engine, none is ahead of where the engine was before the move. -/
theorem Moves.context_epoch_le {impulse? : Option Impulse} (move : m.Moves b env impulse? m')
    (all : ∀ s, m.Bears s → s.context.epoch ≤ m.epoch) (bears : m'.Bears t) :
    t.context.epoch ≤ m.epoch := by
  rcases bears with ran | waits
  · rcases move.running_cases ran with ⟨-, old⟩ | ⟨s, running, step⟩ | ⟨j, _, -, new⟩
    · exact all t (.inr old)
    · exact step.epoch_le (all s (.inl running))
    · exact Nat.le_of_eq new.epoch
  · rcases move.waits_cases waits with old | ⟨s, running, asks⟩ | ⟨j, _, -, new⟩
    · exact all t (.inr old)
    · obtain ⟨r, next, reply, -, rfl⟩ := asks
      exact all s (.inl running)
    · exact Nat.le_of_eq new.epoch

end Machine

namespace Run

variable (run : Run b env)

theorem epoch_mono {i j : Nat} (le : i ≤ j) : (run.state i).epoch ≤ (run.state j).epoch := by
  induction le with
  | refl => exact Nat.le_refl _
  | step _ ih => exact Nat.le_trans ih (run.move _).epoch_mono

/-- No strand is ahead of the engine. -/
theorem epoch_le (k : Nat) :
    ∀ s, (run.state k).Bears s → s.context.epoch ≤ (run.state k).epoch := by
  induction k with
  | zero =>
    obtain ⟨outside, eq⟩ := run.fresh
    intro s bears
    rw [eq] at bears
    rcases bears with running | ⟨_, none, -⟩ | ⟨_, none, -⟩
    · cases running
    · cases none
    · cases none
  | succ k ih =>
    intro t bears
    exact Nat.le_trans ((run.move k).context_epoch_le ih bears) (run.move k).epoch_mono

/-- Once behind, always behind. -/
theorem epoch_ne_of_le {i j : Nat} (le : i ≤ j) (bears : (run.state i).Bears s)
    (stale : s.context.epoch ≠ (run.state i).epoch) : s.context.epoch ≠ (run.state j).epoch := by
  have behind : s.context.epoch < (run.state i).epoch :=
    Nat.lt_of_le_of_ne (run.epoch_le i s bears) stale
  have later : (run.state i).epoch ≤ (run.state j).epoch := run.epoch_mono le
  exact Nat.ne_of_lt (Nat.lt_of_lt_of_le behind later)

/-! ## What only a current chain does -/

variable {k : Nat}

theorem epoch_eq_of_shows (running : (run.state k).running? = some s) (shows : s.shows = true) :
    s.context.epoch = (run.state k).epoch := by
  unfold Strand.shows at shows
  split at shows
  next c acts =>
    obtain ⟨μ, knows, warrants⟩ := run.warranted b.marks_none running acts
    exact knows.epoch_eq (warrants shows)
  next => cases shows

theorem epoch_eq_of_assign {name : String} {v : Value} (running : (run.state k).running? = some s)
    (acts : s.act? = some (.assign name v)) : s.context.epoch = (run.state k).epoch := by
  obtain ⟨μ, knows, warrants⟩ := run.warranted b.marks_none running acts
  exact knows.epoch_eq warrants

theorem epoch_eq_of_followsWire (running : (run.state k).running? = some s)
    (follows : s.followsWire = true) : s.context.epoch = (run.state k).epoch := by
  obtain ⟨β, knows, keeps⟩ := run.observes b.marks_none running
  obtain ⟨j, calls, along⟩ := (Option.any_eq_true _ _).mp follows
  exact knows.epoch_eq ((keeps.calls calls).2 along)

/-- While a stale chain runs, the variables stay as they are. -/
theorem bindings_eq_of_stale (running : (run.state k).running? = some s)
    (stale : s.context.epoch ≠ (run.state k).epoch) :
    (run.state (k + 1)).bindings = (run.state k).bindings := by
  have move := run.move k
  rcases move.alters.bindings with same | ⟨name, v, acts, -⟩ | ⟨name, v, world⟩
  · exact same
  · rw [Machine.act?, running] at acts
    exact absurd (run.epoch_eq_of_assign running acts) stale
  · -- The world does not move while a strand is running.
    rw [world] at move
    cases running.symm.trans move.1

/-- A stale chain stays stale, and is contained: it does not change what the user sees, sets no
variable and follows no wire; and it stays the same chain unless the strand begins another one. -/
theorem stale_contained {i j : Nat} (le : i ≤ j) {s : Strand} (bears : (run.state i).Bears s)
    (stale : s.context.epoch ≠ (run.state i).epoch) :
    s.context.epoch ≠ (run.state j).epoch ∧
      ∀ t, (run.state j).running? = some t → t.context.epoch = s.context.epoch →
        t.shows = false ∧ t.followsWire = false ∧
          (run.state (j + 1)).bindings = (run.state j).bindings ∧
          (t.act? ≠ some .beginChain → ∀ t',
            Machine.Advances b env (run.state j) t t' ∨ Machine.Asks t t' →
              t'.context.epoch = s.context.epoch) := by
  have behind : s.context.epoch ≠ (run.state j).epoch := run.epoch_ne_of_le le bears stale
  refine ⟨behind, fun t running same => ?_⟩
  have staleNow : t.context.epoch ≠ (run.state j).epoch := by rw [same]; exact behind
  refine ⟨?_, ?_, run.bindings_eq_of_stale running staleNow, ?_⟩
  · exact Bool.eq_false_iff.mpr fun shows => staleNow (run.epoch_eq_of_shows running shows)
  · exact Bool.eq_false_iff.mpr fun follows =>
      staleNow (run.epoch_eq_of_followsWire running follows)
  · rintro other t' (step | ⟨r, next, reply, -, rfl⟩)
    · exact (step.epoch_eq other).trans same
    · exact same

end Run

/-! ## A chain that is stopped in its tracks -/

/-- A drawing with two triggers for the start of the app.  Both lead to one node that sets a text,
and that one leads to another. -/
def twinStart : Board where
  appId := "twin"
  config := {}
  circuit :=
    { nodes := [("p", { id := "p", kind := "onAppStart" }),
        ("q", { id := "q", kind := "onAppStart" }),
        ("r", { id := "r", kind := "setText" }), ("s", { id := "s", kind := "setText" })]
      outgoing := [(⟨"p", "exec"⟩, [.link "p" "exec" "r" "exec"]),
        (⟨"q", "exec"⟩, [.link "q" "exec" "r" "exec"]),
        (⟨"r", "exec"⟩, [.link "r" "exec" "s" "exec"])] }

/-- Somebody listens to what the user sees, and stops the app at once whenever there is something.
-/
def stopAtSight : Surroundings Unit :=
  { Surroundings.silent with
    react := fun _ c => (if c.isVisible then some { orders := [.stop] } else none, ()) }

def twinRun : Run twinStart stopAtSight := .ofStart _ _ ()

/-- The first chain is stale after the first text, and is contained when it comes to the wire that
leads on. -/
theorem Run.stale_contained_twinRun :
    ∃ s, (twinRun.state 16).Bears s ∧ s.context.epoch ≠ (twinRun.state 16).epoch ∧
      ∃ t, (twinRun.state 21).running? = some t ∧ t.context.epoch = s.context.epoch ∧
        t.shows = false ∧ t.followsWire = false ∧
        (twinRun.state 22).bindings = (twinRun.state 21).bindings := by
  have first : (twinRun.state 16).running?.map (·.context.epoch) = some 0 := by decide +kernel
  have later : (twinRun.state 21).running?.map (·.context.epoch) = some 0 := by decide +kernel
  have now : (twinRun.state 16).epoch = 1 := by decide +kernel
  obtain ⟨s, running, epoch⟩ := Option.map_eq_some_iff.mp first
  obtain ⟨t, ran, epoch'⟩ := Option.map_eq_some_iff.mp later
  have stale : s.context.epoch ≠ (twinRun.state 16).epoch := by rw [epoch, now]; decide
  have same : t.context.epoch = s.context.epoch := by rw [epoch, epoch']
  obtain ⟨-, contained⟩ :=
    stale_contained twinRun (i := 16) (j := 21) (by decide) (.inl running) stale
  obtain ⟨shows, follows, bindings, -⟩ := contained t ran same
  exact ⟨s, .inl running, stale, t, ran, same, shows, follows, bindings⟩

end Wireboard
