import Wireboard.Proofs.Engine.Course
import Wireboard.Proofs.Engine.LateAnswers

/-!
# Pulls are read-only

A pull finds a value.  It may go a long way for it, through many nodes, and it may fail or come back
to a pull that is open; but it changes nothing.  The variables, what nodes keep, what is stored, the
epoch and the status are the same afterwards, and so are the calls under way and the open pulls.
Nothing is shown to the user, and no node is executed.

A pull calls nothing but pulls (`Board.Trail.isWithinPull`), and these only look
(`Course.Busy.reads`).
What could still change something meanwhile is somebody else: a listener that stops the app, another
strand, or the world.  So they are taken to keep still (`Course.Alone`).
-/

namespace Wireboard

variable {σ τ : Type} {b : Board} {env : Surroundings σ} {contents : σ → τ}

/-- What is stored is changed by saving and deleting alone, also where answers are late. -/
structure Surroundings.StoresThroughout (env : Surroundings σ) (contents : σ → τ) : Prop
    extends env.Stores contents where
  resume : ∀ s r ticket, contents (env.resume s r ticket).2.2 = contents s

/-- The act looks at something, or opens or closes a pull. -/
def Act.Reads (a : Act) : Prop := a.isLook = true ∨ a.turnsPull = true

/-- Whoever reads shows nothing. -/
theorem Strand.shows_eq_false {s : Strand} (reads : ∀ a, s.act? = some a → a.Reads) :
    s.shows = false := by
  unfold shows
  split
  next c acts =>
    have look : (Act.callback c).isLook = true :=
      (reads _ acts).resolve_right fun turns => by cases turns
    cases c with
    | log | input => rfl
    | _ => cases look
  next => rfl

namespace Machine

variable {m m' m'' : Machine σ} {s : Strand}

/-- The second machine is like the first one in all that programs can change. -/
structure Leaves (contents : σ → τ) (m m' : Machine σ) : Prop where
  bindings : m'.bindings = m.bindings
  scratch : m'.scratch = m.scratch
  store : contents m'.outside = contents m.outside
  epoch : m'.epoch = m.epoch
  status : m'.status = m.status

theorem Leaves.refl (m : Machine σ) : m.Leaves contents m := ⟨rfl, rfl, rfl, rfl, rfl⟩

theorem Leaves.trans (h : Leaves contents m m') (h' : Leaves contents m' m'') :
    Leaves contents m m'' where
  bindings := h'.bindings.trans h.bindings
  scratch := h'.scratch.trans h.scratch
  store := h'.store.trans h.store
  epoch := h'.epoch.trans h.epoch
  status := h'.status.trans h.status

/-- Turns bring requests before the host and answers back, and store nothing. -/
theorem store_take (stores : env.StoresThroughout contents) (m : Machine σ) (turn : Turn) :
    contents (m.take env turn).outside = contents m.outside := by
  cases turn with
  | run laps s => cases laps <;> rfl
  | lookUp c =>
    have asked := ask_outside env m c.request
    have kept := stores.ask m.outside c.request
    rw [← asked] at kept
    simp only [take, lookUp]
    split
    next eq =>
      rw [eq] at kept
      exact kept
    next eq =>
      rw [eq] at kept
      split <;> exact kept
  | answer c reply? =>
    have kept := stores.resume m.outside c.request c.ticket
    simp only [take, answer, witnessAll_eq]
    cases reply? with
    | some reply => split <;> rfl
    | none => split <;> exact kept
  | windUp id | retire id => rfl
  | tick id =>
    simp only [take, tick]
    split <;> rfl
  | checkIdle label =>
    obtain ⟨finished, waiters, eq⟩ := checkIdle_cases m label
    rw [take, eq]

@[simp] theorem reach_outside (m : Machine σ) (time : Rat) :
    (m.reach time).outside = m.outside := by
  have rings (alarms : List Alarm) (m' : Machine σ) :
      (alarms.foldl ring m').outside = m'.outside := by
    induction alarms generalizing m' with
    | nil => rfl
    | cons alarm rest ih =>
      rw [List.foldl_cons, ih]
      cases alarm with
      | timer id => rfl
      | deadline strand =>
        simp only [ring]
        split <;> rfl
  exact rings (m.alarmsAt time) _

@[simp] theorem receive_outside (m : Machine σ) (i : Impulse) :
    (m.receive i).outside = m.outside := by
  cases i with
  | release wanted reply =>
    rcases release_cases m wanted reply with eq | ⟨c, -, eq⟩
    · rw [receive, eq]
    · rw [receive, eq]
      rfl
  | pass time => exact reach_outside m time
  | _ => rfl

/-- A move stores nothing unless a strand saves or removes something. -/
theorem Moves.store_eq {impulse? : Option Impulse} (stores : env.StoresThroughout contents)
    (move : m.Moves b env impulse? m') (saves : ∀ key text, m.act? ≠ some (.save key text))
    (removes : ∀ key, m.act? ≠ some (.remove key)) : contents m'.outside = contents m.outside := by
  rcases move.cases with ⟨i, -, -, rfl⟩ | ⟨s, running, rfl⟩ | ⟨turn, rest, -, -, rfl⟩
  · rw [receive_outside]
  · have acts : m.act? = s.act? := by rw [act?, running]; rfl
    rcases (writes_stepStrand (b := b) stores.toStores m s).store with
      same | ⟨key, text, eq⟩ | ⟨key, eq⟩
    · exact same
    · exact absurd (acts.trans eq) (saves key text)
    · exact absurd (acts.trans eq) (removes key)
  · exact store_take stores { m with queue := rest } turn

/-- A move leaves everything as it was if the running strand only reads and the world sets no
variable. -/
theorem Moves.leaves {impulse? : Option Impulse} (stores : env.StoresThroughout contents)
    (move : m.Moves b env impulse? m')
    (reads : ∀ s a, m.running? = some s → s.act? = some a → a.Reads)
    (still : ∀ name v, impulse? ≠ some (.assign name v)) : m.Leaves contents m' := by
  have never {a : Act} (look : a.isLook = false) (turns : a.turnsPull = false) :
      m.act? ≠ some a := by
    intro acts
    obtain ⟨s, running, acts⟩ := Option.bind_eq_some_iff.mp acts
    rcases reads s a running acts with yes | yes
    · cases look.symm.trans yes
    · cases turns.symm.trans yes
  have alters := move.alters
  refine ⟨?_, ?_, move.store_eq stores (fun _ _ => never rfl rfl) (fun _ => never rfl rfl),
    alters.epoch.resolve_right fun stops => never rfl rfl stops.1, ?_⟩
  · rcases alters.bindings with same | ⟨name, v, acts, -⟩ | ⟨name, v, assigns⟩
    · exact same
    · exact absurd acts (never rfl rfl)
    · exact absurd assigns (still name v)
  · rcases alters.scratch with ⟨node, memo, acts, -⟩ | ⟨-, same⟩
    · exact absurd acts (never rfl rfl)
    · exact same
  · rcases alters.status with same | ⟨acts, -⟩ | ⟨acts, -⟩
    · exact same
    · exact absurd acts (never rfl rfl)
    · exact absurd acts (never rfl rfl)

end Machine

/-! ## What pulls do -/

/-- The job is a pull, or a stop that a listener has ordered. -/
def Job.IsWithinPull (env : Surroundings σ) (j : Job) : Prop :=
  j.pulls = true ∨ j = .stop ∧ env.Orders .stop

/-- A pull calls nothing but pulls, and stops that a listener has ordered. -/
theorem Board.Sends.isWithinPull {j i : Job} {c d : Context} (sends : b.Sends env j c d i)
    (pulls : j.IsWithinPull env) : i.IsWithinPull env := by
  cases sends with
  | order ordered => exact .inr ⟨rfl, ordered⟩
  | pull | resolve | input | condition => exact .inl rfl
  | chain begins =>
    cases j with
    | chain | start | handle => obtain ⟨⟨⟩⟩ | ⟨⟨⟩, -⟩ := pulls
    | _ => cases begins
  | _ => obtain ⟨⟨⟩⟩ | ⟨⟨⟩, -⟩ := pulls

theorem Board.Trail.isWithinPull {j i : Job} {c d : Context} {under stack : List Continuation}
    (trail : b.Trail env c j under d i stack) (pulls : j.pulls = true) : i.IsWithinPull env := by
  induction trail with
  | begun => exact .inl pulls
  | inner _ _ sends _ ih => exact sends.isWithinPull ih

namespace Course

variable {course : Course b env} {s t : Strand} {j : Job} {next : Continuation} {p q l : Nat}

/-- While a pull is under way, its strand reads, and calls nothing but pulls. -/
theorem Busy.reads (busy : course.Busy s p l t) (calls : course.Calls p s j next)
    (quiet : ¬ env.Orders .stop) (pulls : j.pulls = true) :
    (∀ a, t.act? = some a → a.Reads) ∧ ∀ i, t.job? = some i → i.pulls = true := by
  obtain ⟨d, i, trail, honours⟩ := (busy.inside calls).trail
  have within := trail.isWithinPull pulls
  have inner : i.pulls = true := within.resolve_right fun stops => quiet stops.2
  constructor
  · intro a acts
    obtain ⟨goesOn, code⟩ := Strand.code_of_act? acts
    rw [code] at honours
    have does : b.Does i a := honours.2.1
    cases i with
    | pull | resolve =>
      cases a with
      | load => exact .inl rfl
      | save | remove => cases does
      | _ => exact does
    | _ => cases inner
  · intro k calls'
    obtain ⟨goesOn, code⟩ := Strand.code_of_job? calls'
    rw [code] at honours
    exact (Board.Sends.isWithinPull honours.2.1 within).resolve_right fun stops => quiet stops.2

/-- From one time to another nobody runs but the strand with a number, and the world sets no
variable. -/
structure Alone (course : Course b env) (i p q : Nat) : Prop where
  runs : ∀ l t, p ≤ l → l < q → (course.state l).running? = some t → t.id = i
  still : ∀ l name v, p ≤ l → l < q → course.impulse? l ≠ some (.assign name v)

/-- No other strand than the first one runs, and nothing comes from outside. -/
abbrev FirstAlone (course : Course b env) (p q : Nat) : Prop :=
  ∀ l < q, p ≤ l → (course.impulse? l).isNone = true ∧
    ((course.state l).running?.all fun t => t.id == 0) = true

theorem BeginsOn.alone {height : Nat} (begins : course.BeginsOn height p j)
    (calls : course.Calls p s j next) (alone : course.FirstAlone p q) :
    course.Alone s.id p q := by
  constructor
  · intro l t after before running
    have here := (alone l before after).2
    rw [(begins.stands calls).1]
    simpa [running] using here
  · intro l name v after before assigns
    have here := (alone l before after).1
    rw [assigns] at here
    cases here

/-- A strand that runs alone is busy with its job when it acts. -/
theorem Alone.busy {a : Act} {k : Nat} (alone : course.Alone s.id p q)
    (calls : course.Calls p s j next) (within : course.Within s p q) (le : p ≤ k) (before : k < q)
    (running : (course.state k).running? = some t) (acts : t.act? = some a) :
    course.Busy s p k t := by
  rcases Nat.lt_or_eq_of_le le with later | rfl
  · have runs : course.Runs s.id k t := ⟨running, alone.runs k t le before running⟩
    exact ⟨later, within.mono (Nat.le_of_lt before), runs, within k t later before runs⟩
  · cases Option.some.inj (calls.running.symm.trans running)
    rw [Strand.act?, calls.code] at acts
    cases acts

theorem leaves_of_alone (stores : env.StoresThroughout contents) (quiet : ¬ env.Orders .stop)
    (calls : course.Calls p s j next) (pulls : j.pulls = true) (alone : course.Alone s.id p q)
    (after : p ≤ q) (within : course.Within s p q) :
    (course.state p).Leaves contents (course.state q) := by
  induction q, after using Nat.le_induction with
  | base => exact .refl _
  | succ k le ih =>
    have before : (course.state p).Leaves contents (course.state k) :=
      ih ⟨fun l t ge lt => alone.runs l t ge (Nat.lt_succ_of_lt lt),
        fun l name v ge lt => alone.still l name v ge (Nat.lt_succ_of_lt lt)⟩
        (within.mono (Nat.le_succ k))
    refine before.trans ((course.move k).leaves stores ?_ fun name v =>
      alone.still k name v le (Nat.lt_succ_self k))
    intro t a running acts
    have busy := alone.busy calls within le (Nat.lt_succ_self k) running acts
    exact (busy.reads calls quiet pulls).1 a acts

/-- From the moment a pull is called to any moment while it is under way, nothing changes: not the
variables, not what nodes keep or what is stored, neither the epoch nor the status.  The strand
shows nothing and calls nothing but pulls meanwhile.  When the pull returns, it does so with a
value, and the chain is as it was. -/
theorem pull_changes_nothing (course : Course b env) (stores : env.StoresThroughout contents)
    (quiet : ¬ env.Orders .stop) (calls : course.Calls p s j next) (pulls : j.pulls = true)
    (after : p < q) (within : course.Within s p q) (alone : course.Alone s.id p q) :
    (course.state p).Leaves contents (course.state q) ∧
      (∀ l t, p < l → l < q → course.Runs s.id l t →
        t.shows = false ∧ ∀ i, t.job? = some i → i.pulls = true) ∧
      ∀ d x, course.Returns s p q d x → d = s.context ∧ ∃ v, x = .ok v := by
  refine ⟨leaves_of_alone stores quiet calls pulls alone (Nat.le_of_lt after) within, ?_, ?_⟩
  · intro l t later before runs
    have busy : course.Busy s p l t :=
      ⟨later, within.mono (Nat.le_of_lt before), runs, within l t later before runs⟩
    obtain ⟨reads, inner⟩ := busy.reads calls quiet pulls
    exact ⟨Strand.shows_eq_false reads, inner⟩
  · intro d x returns
    have yields := (returns.yields calls).1
    cases j with
    | pull node pin =>
      obtain ⟨same, v, ok, -⟩ := yields
      exact ⟨same, v, ok⟩
    | resolve node pin => exact yields
    | _ => cases pulls

end Course

/-- A drawing with a sum that is one of its own summands; the other one is stored. -/
def ringApp : App where
  id := "ring"
  name := .str "ring"
  nodes := [{ id := "sum", kind := "mathOp" }, { id := "kept", kind := "loadData" }]
  wires := [.link "sum" "result" "sum" "a", .link "kept" "value" "sum" "b"]

def ringBoard : Board := ringApp.board

/-- A variable is set; then the sum is pulled from outside. -/
def ringRun : Run ringBoard .shelf :=
  .ofWishes _ _ [("data", "3")] fun
    | 0 => some (.assign (.str "x") (.int 1))
    | 1 => some (.enter none false [] (.evaluate "sum" "result"))
    | _ => none

/-- The pull finds itself open, reports that, loads the other summand and returns. -/
theorem Course.pull_changes_nothing_ringRun : ∃ s next,
    ringRun.Calls 3 s (.pull "sum" "result") next ∧
      ringRun.Returns s 3 16 s.context (.ok (.int 0)) ∧
      (ringRun.state 3).Leaves (fun shelf => shelf) (ringRun.state 16) ∧
      (ringRun.state 16).bindings ≠ [] := by
  have fulfils : ringRun.Fulfils 0 3 (.pull "sum" "result") 16 (.ok (.int 0)) := by decide +kernel
  have alone : ringRun.FirstAlone 3 16 := by decide +kernel
  have quiet : ¬ Surroundings.shelf.Orders .stop := by
    rintro ⟨_, _, _, heard, -⟩
    cases heard
  obtain ⟨s, next, calls⟩ := fulfils.1.exists_calls
  obtain ⟨d, returns⟩ := fulfils.exists_returns calls
  obtain ⟨leaves, -, same⟩ := pull_changes_nothing ringRun.toCourse
    ⟨Surroundings.shelf_stores, fun _ _ _ => rfl⟩ quiet calls rfl (by decide)
    (fulfils.1.within calls fulfils.2.2.1) (fulfils.1.alone calls alone)
  obtain ⟨rfl, -⟩ := same d _ returns
  exact ⟨s, next, calls, returns, leaves, by decide +kernel⟩

end Wireboard
