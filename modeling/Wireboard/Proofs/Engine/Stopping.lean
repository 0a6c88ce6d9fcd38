import Wireboard.Proofs.Engine.Staleness

/-!
# What is still seen after a stop

A stop makes every chain stale that is under way, takes the timers away and has events ignored.  One
might expect that nothing is seen any more until the app is started again.  It is not so.  A strand
may have a row of chains to begin: one for each trigger of the start, or for each trigger that an
event matches; or it is the tick of a timer that has gone off and whose chain has not begun.  A
chain takes the epoch of the moment when it begins, so a chain of such a row that begins after the
stop is current, and is seen.

This is the only way.  `Run.begun_since_stop` says that whatever is seen between a stop and the next
start belongs to a chain that began after the stop, in a strand that was there at the stop and had
more to do than work off chains that had begun.

The proof follows all strands from the stop on.  Each of them stands in one of three ways, and every
move keeps it so (`Run.Standing`):

* it was there at the stop, with chains to begin;
* it was there at the stop and begins no more chains, so it is stale and stays stale;
* it has come in since.  Then it finds the engine stopped, and only talks or pulls data: no event is
  handled, and there are no timers to tick.
-/

namespace Wireboard

variable {σ : Type} {b : Board} {env : Surroundings σ} {m m' : Machine σ} {s t : Strand}

/-! ## Ranks alone -/

/-- The rule that confines strands to a rank and asks for nothing else, in an engine that stays
stopped. -/
def confined (limit : Nat) : Etiquette :=
  { Etiquette.steady (·.rank ≤ limit) (·.rank ≤ limit) with
    expects := Act.Expects limit
    asks := fun _ r => r.rank ≤ limit }

/-- Whoever keeps to the conduct of a rank is confined to it. -/
theorem Script.follows_confined {α : Type} {limit : Nat} {isCall : String → Prop} {μ : Insight}
    {Q : Insight → α → Prop} {x : Script α} (h : x.Follows (conduct limit isCall) Q μ) :
    x.Follows (confined limit) (fun _ _ => True) () := by
  induction x generalizing μ with
  | ret a => trivial
  | act a next ih => exact ⟨h.1.1, fun _ _ => False.elim, fun r expected => ih r (h.2.2 r expected)⟩
  | wait r next ih => exact ⟨h.1, fun x => ih x (h.2 x)⟩
  | call j next ih => exact ⟨h.1.1, fun x => ih x (h.2 x)⟩

theorem governs_confined (limit : Nat) (b : Board) : (confined limit).Governs b := by
  intro _ j rank
  have called : (conduct limit fun _ => False).calls Insight.current j := ⟨rank, fun _ => rfl⟩
  exact Script.follows_confined ((Conduct.suits b.marks_none).body_follows called)

/-- The strand does nothing above a rank, as long as the engine stays stopped. -/
def Strand.IsConfined (limit : Nat) (s : Strand) : Prop := ∃ β, s.Follows (confined limit) β

namespace Strand.IsConfined

variable {limit : Nat}

theorem rank_le {a : Act} (isConfined : s.IsConfined limit) (acts : s.act? = some a) :
    a.rank ≤ limit := by
  obtain ⟨β, follows⟩ := isConfined
  exact follows.allows acts

theorem of_advances (isConfined : s.IsConfined limit) (step : Machine.Advances b env m s t)
    (expected : ∀ a next, s.code = .act a next →
      a.Expects limit (Machine.perform b env m s.context a).1) : t.IsConfined limit := by
  obtain ⟨β, follows⟩ := isConfined
  obtain ⟨β', -, follows'⟩ := follows.of_advances (governs_confined limit b) step expected
  exact ⟨β', follows'⟩

theorem of_asks (b : Board) (env : Surroundings σ) (m : Machine σ) (isConfined : s.IsConfined limit)
    (asks : Machine.Asks s t) : t.IsConfined limit := by
  obtain ⟨β, follows⟩ := isConfined
  exact ⟨_, (follows.of_asks b env m asks).2⟩

end Strand.IsConfined

theorem Strand.exists_rank_of_shows (shows : s.shows = true) :
    ∃ a, s.act? = some a ∧ a.rank = 2 := by
  unfold Strand.shows at shows
  split at shows
  next c acts =>
    refine ⟨_, acts, ?_⟩
    cases c with
    | setText | setStyle | alert | navigate => rfl
    | log | input => cases shows
  next => cases shows

/-! ## A stopped engine -/

variable {impulse? : Option Impulse}

namespace Machine

/-- An app stays started as long as nobody stops it. -/
theorem Moves.started (move : m.Moves b env impulse? m') (started : m.status = .started)
    (other : m.act? ≠ some .markStopped) : m'.status = .started := by
  rcases move.alters.status with same | ⟨-, now⟩ | ⟨stops, -⟩
  · exact same.trans started
  · exact now
  · exact absurd stops other

/-- An app stays stopped as long as nobody starts it. -/
theorem Moves.stopped (move : m.Moves b env impulse? m') (stopped : m.status = .stopped)
    (other : m.act? ≠ some .markStarted) : m'.status = .stopped := by
  rcases move.alters.status with same | ⟨starts, -⟩ | ⟨-, now⟩
  · exact same.trans stopped
  · exact absurd starts other
  · exact now

/-- In a stopped engine that nobody starts, replies are as the confining rule reckons. -/
theorem expects_of_stopped (limit : Nat) {c : Context} {a : Act} (stopped : m.status = .stopped)
    (other : a ≠ .markStarted) : a.Expects limit (perform b env m c a).1 := by
  cases a with
  | status => exact fun _ => stopped
  | markStarted => exact absurd rfl other
  | _ => trivial

end Machine

/-! ## From a stop on -/

namespace Run

variable (run : Run b env) {i j k : Nat}

/-- The app is stopped at the first time, and not started before the second one.  Meanwhile no node
is executed without a trigger. -/
structure StaysStopped (i j : Nat) : Prop where
  stops : (run.state i).act? = some .markStopped
  unstarted : ∀ k, i < k → k < j → (run.state k).act? ≠ some .markStarted
  triggered : ∀ k, i < k → k < j → ∀ imp, run.impulse? k = some imp → imp.isDirect = false

/-- Strictly between the two times the strand with that number begins a chain. -/
def Begins (i j id : Nat) : Prop :=
  ∃ k, i < k ∧ k < j ∧ ∃ s, (run.state k).running? = some s ∧ s.id = id
    ∧ s.act? = some .beginChain

/-- The strand was there at the stop and had more to do than work off its chain. -/
def Outstanding (i id : Nat) : Prop :=
  ∃ t, (run.state (i + 1)).Bears t ∧ t.id = id ∧ ¬ t.IsConfined 2

/-- How a strand stands after a stop. -/
inductive Standing (i k : Nat) (s : Strand) : Prop where
  | outstanding : run.Outstanding i s.id →
      s.context.epoch ≤ (run.state i).epoch ∨ run.Begins i k s.id → Standing i k s
  | stale : s.IsConfined 2 → s.context.epoch ≤ (run.state i).epoch → Standing i k s
  | newcomer : s.IsConfined 1 → Standing i k s

/-- What holds from a stop on. -/
structure Hushed (i k : Nat) : Prop where
  epoch : (run.state i).epoch < (run.state k).epoch
  status : (run.state k).status = .stopped
  timers : (run.state k).timers = []
  strands : ∀ s, (run.state k).Bears s → run.Standing i k s

variable {run}

theorem Standing.later (h : run.Standing i k s) : run.Standing i (k + 1) s := by
  cases h with
  | outstanding had since =>
    refine .outstanding had (since.imp_right ?_)
    rintro ⟨l, after, before, begun⟩
    exact ⟨l, after, Nat.lt_succ_of_lt before, begun⟩
  | stale keeps epoch => exact .stale keeps epoch
  | newcomer keeps => exact .newcomer keeps

/-- The running strand keeps its standing by a step. -/
theorem Standing.advances (h : run.Standing i k s) (after : i < k)
    (running : (run.state k).running? = some s) (status : (run.state k).status = .stopped)
    (unstarted : (run.state k).act? ≠ some .markStarted)
    (step : Machine.Advances b env (run.state k) s t) : run.Standing i (k + 1) t := by
  have expected (limit : Nat) (a : Act) (next : a.Reply → Code)
      (code : s.code = .act a next) :
      a.Expects limit (Machine.perform b env (run.state k) s.context a).1 := by
    refine Machine.expects_of_stopped limit status fun starts => unstarted ?_
    rw [Machine.act?, running]
    exact (Strand.act?_of_code code).trans (congrArg some starts)
  cases h with
  | outstanding had since =>
    rw [← step.id_eq] at had since
    refine .outstanding had ?_
    by_cases begins : s.act? = some .beginChain
    · exact .inr ⟨k, after, Nat.lt_succ_self k, s, running, step.id_eq.symm, begins⟩
    · rw [step.epoch_eq begins]
      refine since.imp_right ?_
      rintro ⟨l, after, before, begun⟩
      exact ⟨l, after, Nat.lt_succ_of_lt before, begun⟩
  | stale keeps epoch =>
    have begins : s.act? ≠ some .beginChain := fun acts =>
      absurd (keeps.rank_le acts) (by decide)
    refine .stale (keeps.of_advances step (expected 2)) ?_
    rw [step.epoch_eq begins]
    exact epoch
  | newcomer keeps =>
    exact .newcomer (keeps.of_advances step (expected 1))

theorem Standing.asks (h : run.Standing i k s) (asks : Machine.Asks s t) :
    run.Standing i (k + 1) t := by
  have resumed {limit : Nat} (keeps : s.IsConfined limit) : t.IsConfined limit :=
    keeps.of_asks b env (run.state k) asks
  obtain ⟨r, next, reply, -, rfl⟩ := asks
  cases h.later with
  | outstanding had since => exact .outstanding had since
  | stale keeps epoch => exact .stale (resumed keeps) epoch
  | newcomer keeps => exact .newcomer (resumed keeps)

/-- Whoever comes in while there are no timers, and not to execute nodes, has little to do. -/
theorem standing_of_admits {job : Job} {frames : List Frame} (timers : m.timers = [])
    (triggered : ∀ imp, impulse? = some imp → imp.isDirect = false)
    (summons : m.Summons impulse? job frames) (new : m.Admits job frames t) :
    run.Standing i k t := by
  suffices job.rank ≤ 1 from .newcomer ⟨_, .of_admits (μ := ()) new this fun _ => trivial⟩
  cases summons with
  | event type target => exact Nat.zero_le _
  | timer member =>
    rw [timers] at member
    cases member
  | @entrance _ _ _ e given =>
    have indirect : e.isDirect = false := triggered _ given
    cases e with
    | executeNode | executePin => cases indirect
    | start | handle => exact Nat.zero_le _
    | evaluate | resolve => exact Nat.le_refl _
  | stop | log => exact Nat.zero_le _

variable (run)

/-- The stop itself: whoever is there has chains to begin, or has not and is stale. -/
theorem hushed_of_stop (stops : (run.state i).act? = some .markStopped) : run.Hushed i (i + 1) := by
  obtain ⟨s, running, acts⟩ := Option.bind_eq_some_iff.mp stops
  obtain ⟨next, code⟩ := Strand.code_of_act? acts
  have eq : run.state (i + 1) = (run.state i).acted b env s .markStopped next :=
    (run.move i).eq_acted running code
  have grows : (run.state i).epoch < (run.state (i + 1)).epoch := by
    rw [eq]
    exact Nat.lt_succ_self _
  refine ⟨grows, by rw [eq]; rfl, by rw [eq]; rfl, fun t bears => ?_⟩
  have epoch : t.context.epoch ≤ (run.state i).epoch :=
    (run.move i).context_epoch_le (run.epoch_le i) bears
  by_cases keeps : t.IsConfined 2
  · exact .stale keeps epoch
  · exact .outstanding ⟨t, bears, rfl, keeps⟩ (.inl epoch)

/-- Nobody sets a timer in a stopped engine. -/
theorem not_arm_of_stopped {node : String} {period? : Option Rat} {repeats : Bool}
    (running : (run.state k).running? = some s) (status : (run.state k).status = .stopped) :
    s.act? ≠ some (.arm node period? repeats) := by
  intro arms
  obtain ⟨μ, knows, warrants⟩ := run.warranted b.marks_none running arms
  rw [show μ = .started from warrants] at knows
  cases status.symm.trans (knows : (run.state k).status = .started)

theorem Hushed.next (h : run.Hushed i k) (after : i < k)
    (unstarted : (run.state k).act? ≠ some .markStarted)
    (triggered : ∀ imp, run.impulse? k = some imp → imp.isDirect = false) :
    run.Hushed i (k + 1) := by
  have timers : (run.state (k + 1)).timers = [] := by
    rcases (run.move k).alters.timers with
      ⟨node, period?, repeats, acts, -⟩ | ⟨-, none⟩ | ⟨-, fewer⟩
    · obtain ⟨s, running, arms⟩ := Option.bind_eq_some_iff.mp acts
      exact absurd arms (run.not_arm_of_stopped running h.status)
    · exact none
    · rw [h.timers, List.map_nil, List.sublist_nil] at fewer
      exact List.map_eq_nil_iff.mp fewer
  have grows : (run.state i).epoch < (run.state (k + 1)).epoch :=
    Nat.lt_of_lt_of_le h.epoch (run.move k).epoch_mono
  refine ⟨grows, (run.move k).stopped h.status unstarted, timers, fun t bears => ?_⟩
  rcases bears with ran | waits
  · rcases (run.move k).running_cases ran with
      ⟨-, old⟩ | ⟨s, running, step⟩ | ⟨job, _, summons, new⟩
    · exact (h.strands t (.inr old)).later
    · exact (h.strands s (.inl running)).advances after running h.status unstarted step
    · exact standing_of_admits h.timers triggered summons new
  · rcases (run.move k).waits_cases waits with old | ⟨s, running, asks⟩ | ⟨job, _, summons, new⟩
    · exact (h.strands t (.inr old)).later
    · exact (h.strands s (.inl running)).asks asks
    · exact standing_of_admits h.timers triggered summons new

theorem hushed_of_staysStopped (h : run.StaysStopped i j) (after : i < k) (before : k ≤ j) :
    run.Hushed i k := by
  induction k with
  | zero => exact absurd after (Nat.not_lt_zero i)
  | succ k ih =>
    rcases Nat.lt_succ_iff_lt_or_eq.mp after with later | rfl
    · exact (ih later (Nat.le_of_lt before)).next run later (h.unstarted k later before)
        (h.triggered k later before)
    · exact run.hushed_of_stop h.stops

/-- Whatever is seen between a stop and the next start is shown by a chain that began after the
stop, in a strand that was there at the stop with more to do than to work off its chain. -/
theorem begun_since_stop (stays : run.StaysStopped i j) (after : i < j)
    (running : (run.state j).running? = some s) (shows : s.shows = true) :
    run.Outstanding i s.id ∧ run.Begins i j s.id := by
  have hushed : run.Hushed i j := run.hushed_of_staysStopped stays after (Nat.le_refl j)
  have behind : ¬ s.context.epoch ≤ (run.state i).epoch := by
    rw [run.epoch_eq_of_shows running shows]
    exact Nat.not_le_of_lt hushed.epoch
  cases hushed.strands s (.inl running) with
  | outstanding had since => exact ⟨had, since.resolve_left behind⟩
  | stale keeps epoch => exact absurd epoch behind
  | newcomer keeps =>
    obtain ⟨a, acts, rank⟩ := Strand.exists_rank_of_shows shows
    have low : a.rank ≤ 1 := keeps.rank_le acts
    omega

/-- In the drawing with two triggers the listener stops the app in the first chain; the second chain
begins all the same, and its text is seen. -/
theorem begun_since_stop_twinRun :
    twinRun.StaysStopped 15 30 ∧ ∃ s, (twinRun.state 30).running? = some s ∧ s.shows = true ∧
      twinRun.Outstanding 15 s.id ∧ twinRun.Begins 15 30 s.id := by
  have unstarted : ∀ k < 30, 15 < k → (twinRun.state k).act? ≠ some .markStarted := by
    decide +kernel
  have triggered : ∀ k < 30, 15 < k → twinRun.impulse? k = none := by
    decide +kernel
  have stays : twinRun.StaysStopped 15 30 :=
    ⟨by decide +kernel, fun k after before => unstarted k before after,
      fun k after before imp given => by cases (triggered k before after).symm.trans given⟩
  have shown : (twinRun.state 30).running?.map (·.shows) = some true := by decide +kernel
  obtain ⟨s, running, shows⟩ := Option.map_eq_some_iff.mp shown
  exact ⟨stays, s, running, shows, begun_since_stop twinRun stays (by decide) running shows⟩

end Run

end Wireboard
