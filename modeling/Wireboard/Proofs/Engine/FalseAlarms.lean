import Wireboard.Proofs.Engine.Alarms
import Wireboard.Proofs.Engine.Course

/-!
# No false alarms

A pull that finds itself open is cut off, and the log tells of a cycle.  In a drawing without a
cycle that must never happen, however often the wires lead to the same pin: a value that two others
need is pulled twice, one time after the other, and never inside of itself.

A strand is followed through all of its jobs (`Board.tracing`).  What a pull calls are stops and the
pulls of pins that its own pin needs, and what a stop calls are stops.  So the open keys of a chain
are those of the pulls on its stack, and each of these pins needs the one that is pulled on top
(`Board.Linked.needs`).  If no pin needs another one with its own key, the top one is let in
(`Run.Traces.fresh`), and nobody ever has a cycle to tell of (`Run.no_false_alarms`).

Keys are made of ids and pins with a colon between them, and ids may have colons too.  There the
keys of two pins may be the same although the pins are not, and then the alarm is false.
-/

namespace Wireboard

variable {σ : Type} {config : Config} {app : App} {b : Board} {env : Surroundings σ}
  {m : Machine σ} {s t : Strand}

/-! ## Following a strand through its jobs -/

/-- How far a pull is: it has not been let in yet, it is open, or it is closed. -/
inductive Gate where
  | ahead
  | inside
  | past
deriving DecidableEq

/-- What a strand is doing: a job, if it is doing any, and how far it is. -/
structure Station where
  job? : Option Job
  gate : Gate := .ahead

variable {q : PinRef}

namespace Station

/-- The key of what is being pulled. -/
def key? (μ : Station) : Option String :=
  match μ.job? with
  | some (.pull node pin) => some (Context.pullKey node pin)
  | _ => none

/-- The key that is open because of this. -/
def opened (μ : Station) : List String :=
  if μ.gate = .inside then μ.key?.toList else []

/-- Neither a pull nor a stop is under way. -/
def isFree (μ : Station) : Bool :=
  match μ.job? with
  | some (.pull _ _) | some .stop => false
  | _ => true

/-- An alarm is raised only at the wish of the world; pulls are opened and closed by themselves, and
chains begin elsewhere. -/
def Allows (μ : Station) : Act → Prop
  | .journal level message => IsAlarm level message → μ.job? = some (.log level message)
  | .enter key => μ.gate = .ahead ∧ μ.key? = some key
  | .leave key => μ.gate = .inside ∧ μ.key? = some key
  | .beginChain => μ.isFree = true
  | _ => True

/-- What was done is open, closed, or as far as before. -/
def after (μ : Station) : Act → Station
  | .enter _ => { μ with gate := .inside }
  | .leave _ => { μ with gate := .past }
  | _ => μ

/-- A pull calls what it needs while it is open, and stops; a stop calls stops. -/
def Calls (b : Board) (μ : Station) (j : Job) : Prop :=
  match μ.job? with
  | some .stop => j = .stop
  | some (.pull node pin) =>
    j = .stop ∨ μ.gate = .inside ∧ ∃ q, b.Needs ⟨node, pin⟩ q ∧ j = .pull q.node q.pin
  | _ => True

variable {μ : Station} {j : Job}

@[simp] theorem job?_after (μ : Station) (a : Act) : (μ.after a).job? = μ.job? := by
  cases a <;> rfl

theorem isFree_of_job (unpulling : ∀ node pin, j ≠ .pull node pin) (unstopping : j ≠ .stop)
    (g : Gate) : (⟨some j, g⟩ : Station).isFree = true := by
  cases j with
  | pull node pin => exact absurd rfl (unpulling node pin)
  | stop => exact absurd rfl unstopping
  | _ => rfl

theorem calls_of_isFree (free : μ.isFree = true) (j : Job) : μ.Calls b j := by
  unfold Calls
  unfold isFree at free
  split
  next stopping => rw [stopping] at free; cases free
  next pulling => rw [pulling] at free; cases free
  next => exact trivial

theorem opened_of_isFree (free : μ.isFree = true) : μ.opened = [] := by
  unfold opened key?
  unfold isFree at free
  split
  · split
    next pulling => rw [pulling] at free; cases free
    next => rfl
  · rfl

/-- Where neither a pull nor a stop is called, neither is under way. -/
theorem isFree_of_calls (called : μ.Calls b j) (unpulling : ∀ node pin, j ≠ .pull node pin)
    (unstopping : j ≠ .stop) : μ.isFree = true := by
  unfold Calls at called
  unfold isFree
  split at called
  next => exact absurd called unstopping
  next =>
    rcases called with stopping | ⟨-, q, -, pulling⟩
    · exact absurd stopping unstopping
    · exact absurd pulling (unpulling q.node q.pin)
  next other other' =>
    split
    next pulling => exact absurd pulling (other' _ _)
    next stopping => exact absurd stopping other
    next => rfl

/-- Where a pull is called, another one is open that needs it, or nothing is. -/
theorem opened_of_calls (called : μ.Calls b (.pull q.node q.pin)) :
    (∃ p, μ.job? = some (.pull p.node p.pin) ∧ μ.opened = [p.key] ∧ b.Needs p q) ∨
      μ.isFree = true := by
  unfold Calls at called
  split at called
  next => cases called
  next node pin pulling =>
    rcases called with stopping | ⟨inside, q', needs, eq⟩
    · cases stopping
    · cases q
      cases eq
      refine .inl ⟨⟨node, pin⟩, pulling, ?_, needs⟩
      rw [opened, if_pos inside, key?, pulling]
      rfl
  next other other' =>
    refine .inr ?_
    unfold isFree
    split
    next pulling => exact absurd pulling (other' _ _)
    next stopping => exact absurd stopping other
    next => rfl

end Station

/-- The pull was let in. -/
def Act.Granted : (a : Act) → a.Reply → Prop
  | .enter _, granted => granted = true
  | _, _ => True

/-- To be let in, and to pull nothing but what is needed. -/
abbrev Board.tracing (b : Board) : Etiquette where
  Mode := Station
  ordinary _ := False
  ready _ := False
  ends μ := μ.gate ≠ .inside
  ground _ := True
  allows := Station.Allows
  expects := Act.Granted
  alike _ _ _ := False
  after μ a _ := μ.after a
  asks _ _ := True
  answered μ := μ
  calls := Station.Calls b
  entered _ j := ⟨some j, .ahead⟩
  returned μ _ _ := μ
  ordinary_of_ready := id
  ends_of_ordinary := False.elim
  ordinary_after _ _ _ := id
  ordinary_answered := id
  ordinary_returned _ _ := id
  unheard_of_alike := Act.unheard_of_false

namespace Etiquette

/-- What may be done at a station that leaves it as it is. -/
def Stays (μ : Station) (a : Act) : Prop := μ.Allows a ∧ a.turnsPull = false

/-- At a station that is not an order to log something, one may stay calm. -/
theorem calm_stays (b : Board) (μ : Station) : Calm (Stays μ) (μ.Calls b) where
  act {a} other silent := by
    cases a with
    | journal => cases silent
    | enter | leave | beginChain => cases other
    | _ => exact ⟨trivial, rfl⟩
  entry plain := ⟨fun alarm => absurd alarm plain, rfl⟩
  stop := by
    unfold Station.Calls
    split
    · rfl
    · exact .inl rfl
    · exact trivial

/-- What stays at a station follows the strand there. -/
theorem from_of_stays {α : Type} {μ : Station} {x : Attempt α} {Q : Unit → Except Fault α → Prop}
    (stays : (steady (Stays μ) (μ.Calls b)).From () x Q) :
    b.tracing.From μ x fun ν r => ν = μ ∧ Q () r := by
  have still (a : Act) (allowed : Stays μ a) : μ.Allows a ∧ ∀ _ : a.Reply, μ.after a = μ := by
    refine ⟨allowed.1, fun _ => ?_⟩
    cases a with
    | enter | leave => cases allowed.2
    | _ => rfl
  exact Script.follows_of_steady (E := b.tracing) still (fun _ _ _ => id) (fun _ => trivial) rfl
    (fun _ called => ⟨called, fun _ => rfl⟩) stays

/-- A pull is opened, calls what it needs, and is closed, even if there was a failure. -/
theorem from_pull_tracing (filed : b.Filed) (node pin : String) :
    b.tracing.From ⟨some (.pull node pin), .ahead⟩ (b.pull node pin) fun ν _ =>
      ν.gate ≠ .inside := by
  have closed {g : Gate} (h : g ≠ .inside) :
      (⟨some (.pull node pin), g⟩ : Station).gate ≠ .inside := h
  unfold Board.pull
  split
  · exact from_pure (closed (by decide))
  next n found =>
    split
    · exact from_pure (closed (by decide))
    next kind named =>
      have key (g : Gate) : (⟨some (.pull node pin), g⟩ : Station).key?
          = some (Context.pullKey n.id pin) := by
        rw [filed.id_eq found]
        rfl
      refine from_act_bind rfl ⟨rfl, key _⟩ ?_
      rintro _ rfl
      have calm := calm_stays b ⟨some (.pull node pin), .inside⟩
      have needed : (steady (Stays ⟨some (.pull node pin), .inside⟩) _).Throughout
          (b.evaluate n pin kind) :=
        calm.throughout_evaluate pin ⟨⟨node, found⟩, named⟩ fun input asked q source =>
          .inr ⟨rfl, q, ⟨n, kind, input, found, named, asked, source⟩, rfl⟩
      refine from_bind (from_of_stays (Q := fun _ r => ∃ v, r = .ok v) ?_) ?_ ?_
      · refine from_tryCatch (needed () trivial) (fun _ v _ => ⟨v, rfl⟩) fun _ f _ => ?_
        refine from_bind (from_log_of_entry calm.speaks (calm.entry (.error ?_)) _)
          (fun _ _ _ => from_pure ⟨_, rfl⟩) ?_
        · simp [ToString.toString]
        · rintro _ _ ⟨-, failed⟩
          cases failed
      · rintro _ v ⟨rfl, -⟩
        exact from_act_bind rfl ⟨rfl, key _⟩ fun _ _ => from_pure (closed (by decide))
      · rintro _ f ⟨-, v, failed⟩
        cases failed

/-- All bodies follow the strand. -/
theorem tracing_governs (filed : b.Filed) : b.tracing.Governs b := by
  intro μ j _
  have calm := calm_stays b ⟨some j, .ahead⟩
  have stays (throughout : (steady (Stays ⟨some j, .ahead⟩)
      (Station.Calls b ⟨some j, .ahead⟩)).Throughout (b.body j)) :
      b.tracing.From ⟨some j, .ahead⟩ (b.body j) fun ν _ => ν.gate ≠ .inside := by
    refine from_mono (from_of_stays (throughout () trivial)) ?_
    rintro _ _ ⟨rfl, -⟩ inside
    cases inside
  by_cases pulls : ∃ node pin, j = .pull node pin
  · obtain ⟨node, pin, rfl⟩ := pulls
    exact from_pull_tracing filed node pin
  · by_cases stopping : j = .stop
    · subst stopping
      exact stays calm.throughout_stop
    · have unpulling (node pin : String) : j ≠ .pull node pin := fun eq => pulls ⟨node, pin, eq⟩
      have free := Station.isFree_of_job unpulling stopping .ahead
      refine stays (calm.throughout_body (Station.calls_of_isFree free) ⟨free, rfl⟩ unpulling
        stopping fun level message eq => ?_)
      subst eq
      exact ⟨fun _ => rfl, rfl⟩

end Etiquette

/-! ## Open keys -/

/-- Each job on the stack was called from the station below it. -/
def Board.Linked (b : Board) : Station → List (Station × Job) → Prop
  | μ, [] => μ.job? = none
  | μ, (ν, j) :: under => μ.job? = some j ∧ ν.Calls b j ∧ b.Linked ν under

/-- The keys that the jobs on a stack hold open. -/
def openedUnder (under : List (Station × Job)) : List String :=
  under.flatMap fun p => p.1.opened

variable {key : String}

namespace Board.Linked

variable {under : List (Station × Job)}

/-- It does not matter how far the job on top is. -/
theorem congr {μ ν : Station} (linked : b.Linked μ under) (same : ν.job? = μ.job?) :
    b.Linked ν under := by
  cases under with
  | nil => exact same.trans linked
  | cons p under => exact ⟨same.trans linked.1, linked.2⟩

/-- Below anything but pulls and stops nothing is open. -/
theorem openedUnder_eq_nil {μ : Station} (linked : b.Linked μ under) (free : μ.isFree = true) :
    openedUnder under = [] := by
  induction under generalizing μ with
  | nil => rfl
  | cons p under ih =>
    obtain ⟨ν, j⟩ := p
    obtain ⟨job, called, linked⟩ := linked
    have free' : ν.isFree = true := by
      unfold Station.isFree at free
      rw [job] at free
      refine Station.isFree_of_calls called ?_ ?_
      · rintro node pin rfl
        cases free
      · rintro rfl
        cases free
    rw [openedUnder, List.flatMap_cons, Station.opened_of_isFree free', List.nil_append]
    exact ih linked free'

/-- Whatever is open below a pull belongs to a pin that needs the one that is pulled. -/
theorem needs {μ : Station} (linked : b.Linked μ under)
    (pulling : μ.job? = some (.pull q.node q.pin)) (member : key ∈ openedUnder under) :
    ∃ p : PinRef, key = p.key ∧ Relation.TransGen b.Needs p q := by
  induction under generalizing μ q with
  | nil => cases member
  | cons e under ih =>
    obtain ⟨ν, j⟩ := e
    obtain ⟨job, called, linked⟩ := linked
    cases job.symm.trans pulling
    rw [openedUnder, List.flatMap_cons, List.mem_append] at member
    rcases Station.opened_of_calls called with ⟨p, pulling', opened, needs⟩ | free
    · rw [opened, List.mem_singleton] at member
      rcases member with rfl | below
      · exact ⟨p, rfl, .single needs⟩
      · obtain ⟨p', eq, trail⟩ := ih linked pulling' below
        exact ⟨p', eq, trail.tail needs⟩
    · rw [Station.opened_of_isFree free, ← openedUnder, linked.openedUnder_eq_nil free] at member
      rcases member with none | none <;> cases none

end Board.Linked

namespace Run

variable (run : Run b env)

/-- Somebody has called the job before. -/
def Called (k : Nat) (j : Job) : Prop := ∃ l s next, l < k ∧ run.Calls l s j next

/-- The strand is followed through its jobs; its open keys are those of the pulls on its stack, and
each job on it was called. -/
structure Traces (k : Nat) (s : Strand) (β : b.tracing.Bearing) : Prop where
  follows : s.Follows b.tracing β
  linked : b.Linked β.mode β.under
  opened : s.context.opened = β.mode.opened ++ openedUnder β.under
  called : ∀ p ∈ β.under, run.Called k p.2

variable {run} {k : Nat} {β : b.tracing.Bearing}

theorem Called.later {j : Job} (called : run.Called k j) : run.Called (k + 1) j := by
  obtain ⟨l, s, next, before, calls⟩ := called
  exact ⟨l, s, next, Nat.lt_succ_of_lt before, calls⟩

namespace Traces

section

variable (traces : run.Traces k s β) (acyclic : b.Acyclic) (apart : b.KeysApart)
include traces

theorem later : run.Traces (k + 1) s β :=
  ⟨traces.follows, traces.linked, traces.opened, fun p member => (traces.called p member).later⟩

include acyclic apart in
/-- What is about to be opened is not open. -/
theorem fresh (acts : s.act? = some (.enter key)) : key ∉ s.context.opened := by
  obtain ⟨ahead, pulls⟩ := traces.follows.allows acts
  obtain ⟨q, pulling, rfl⟩ :
      ∃ q : PinRef, β.mode.job? = some (.pull q.node q.pin) ∧ key = q.key := by
    unfold Station.key? at pulls
    split at pulls
    next node pin pulling => exact ⟨⟨node, pin⟩, pulling, (Option.some.inj pulls).symm⟩
    next => cases pulls
  have shut : β.mode.opened = [] := by
    rw [Station.opened, if_neg]
    rw [ahead]
    decide
  rw [traces.opened, shut, List.nil_append]
  intro member
  obtain ⟨p, same, needs⟩ := traces.linked.needs pulling member
  rw [apart p q needs same.symm] at needs
  exact acyclic q needs

include acyclic apart in
/-- The guard lets it in. -/
theorem granted (m : Machine σ) {a : Act} (acts : s.act? = some a) :
    a.Granted (Machine.perform b env m s.context a).1 := by
  cases a with
  | enter key =>
    have fresh := traces.fresh acyclic apart acts
    have entered : s.context.enter key
        = some { s.context with opened := key :: s.context.opened } := by
      simp [Context.enter, fresh]
    simp only [Act.Granted, Machine.perform, entered]
    rfl
  | _ => exact trivial

/-- An act opens the key of the pull on top, closes it, or leaves all as it is. -/
theorem opened_after (m : Machine σ) {a : Act} (acts : s.act? = some a)
    (granted : a.Granted (Machine.perform b env m s.context a).1) :
    (Machine.perform b env m s.context a).2.1.opened
      = (β.mode.after a).opened ++ openedUnder β.under := by
  have allowed := traces.follows.allows acts
  cases a with
  | enter key =>
    obtain ⟨ahead, pulls⟩ := allowed
    have before : β.mode.opened = [] := by
      rw [Station.opened, if_neg]
      rw [ahead]
      decide
    have after : (β.mode.after (.enter key)).opened = [key] := by
      show (β.mode.key?).toList = [key]
      rw [pulls]
      rfl
    rw [after, List.singleton_append, ← List.nil_append (openedUnder _), ← before, ← traces.opened]
    simp only [Act.Granted, Machine.perform] at granted ⊢
    split at granted
    next entered =>
      unfold Context.enter at entered
      split at entered
      next => cases entered
      next =>
        cases entered
        rfl
    next => cases granted
  | leave key =>
    obtain ⟨inside, pulls⟩ := allowed
    have before : β.mode.opened = [key] := by
      rw [Station.opened, if_pos inside, pulls]
      rfl
    show s.context.opened.erase key = [] ++ openedUnder β.under
    rw [traces.opened, before, List.singleton_append, List.erase_cons_head, List.nil_append]
  | beginChain =>
    have free : β.mode.isFree = true := allowed
    show [] = β.mode.opened ++ openedUnder β.under
    rw [Station.opened_of_isFree free, traces.linked.openedUnder_eq_nil free, List.nil_append]
  | _ =>
    rw [(Machine.perform_context_parts b env m s.context _).2.2 rfl, traces.opened]
    rfl

include acyclic apart in
/-- One step keeps all this. -/
theorem advances (filed : b.Filed) (running : (run.state k).running? = some s)
    (step : Machine.Advances b env (run.state k) s t) : ∃ β', run.Traces (k + 1) t β' := by
  have granted (a : Act) (next : a.Reply → Code)
      (code : s.code = .act a next) :
      a.Granted (Machine.perform b env (run.state k) s.context a).1 :=
    traces.granted acyclic apart _ (Strand.act?_of_code code)
  obtain ⟨β', leads, follows⟩ :=
    traces.follows.of_advances (Etiquette.tracing_governs filed) step granted
  have same (still : s.act? = none) : t.context = s.context := by
    rcases step.context_cases with ⟨-, context⟩ | ⟨a, acts, -⟩
    · exact context
    · cases still.symm.trans acts
  have later (p : Station × Job) (member : p ∈ β.under) : run.Called (k + 1) p.2 :=
    (traces.called p member).later
  have linked := traces.linked
  have opened := traces.opened
  cases leads with
  | @returns x p under code ended stacked _ =>
    have shut : β.mode.opened = [] := by rw [Station.opened, if_neg ended]
    rw [stacked] at linked opened later
    obtain ⟨-, -, linked⟩ := linked
    rw [shut, List.nil_append] at opened
    refine ⟨_, follows, linked, ?_, fun e member => later e (List.mem_cons_of_mem _ member)⟩
    rw [same (by rw [Strand.act?, code]), opened]
    rfl
  | @acts a next code allowed =>
    have acts := Strand.act?_of_code code
    refine ⟨_, follows, ?_, ?_, later⟩
    · exact linked.congr (Station.job?_after _ a)
    · rcases step.context_cases with ⟨still, -⟩ | ⟨a', acts', context⟩
      · cases still.symm.trans acts
      · cases acts'.symm.trans acts
        rw [context]
        exact traces.opened_after _ acts (granted a next code)
  | answered code _ =>
    refine ⟨_, follows, linked, ?_, later⟩
    rw [same (by rw [Strand.act?, code]), opened]
  | @calls j next code called =>
    refine ⟨_, follows, ⟨rfl, called, linked⟩, ?_, ?_⟩
    · rw [same (by rw [Strand.act?, code]), opened]
      rfl
    · intro p member
      rcases List.mem_cons.mp member with rfl | old
      · exact ⟨k, s, next, Nat.lt_succ_self k, running, code⟩
      · exact later p old

theorem asks (asks : Machine.Asks s t) : ∃ β', run.Traces (k + 1) t β' := by
  have follows := (traces.follows.of_asks b env (run.state k) asks).2
  obtain ⟨r, next, reply, code, rfl⟩ := asks
  exact ⟨_, follows, traces.linked, traces.opened, traces.later.called⟩

end

theorem of_admits {j : Job} {frames : List Frame} (new : (run.state k).Admits j frames t) :
    ∃ β, run.Traces (k + 1) t β := by
  refine ⟨_, Strand.Follows.of_admits (E := b.tracing) (μ := ⟨none, .ahead⟩) new trivial
    (fun _ inside => by cases inside), rfl, new.opened, fun p none => by cases none⟩

end Traces

/-- The log has no alarm but at the wish of the world. -/
def Quiet (run : Run b env) (k : Nat) : Prop :=
  ∀ e ∈ (run.state k).journal, IsAlarm e.level e.message → run.Called k (.log e.level e.message)

theorem Quiet.next (quiet : run.Quiet k)
    (traced : ∀ s, (run.state k).running? = some s → ∃ β, run.Traces k s β) :
    run.Quiet (k + 1) := by
  intro e member alarm
  rcases (run.move k).alters.journal e member with old | logs
  · exact (quiet e old alarm).later
  · obtain ⟨s, running, acts⟩ := Option.bind_eq_some_iff.mp logs
    obtain ⟨β, traces⟩ := traced s running
    have wished := traces.follows.allows acts alarm
    obtain ⟨mode, under⟩ := β
    cases under with
    | nil => cases traces.linked.symm.trans wished
    | cons p under =>
      have logs : p.2 = .log e.level e.message :=
        Option.some.inj (traces.linked.1.symm.trans wished)
      rw [← logs]
      exact (traces.called p List.mem_cons_self).later

section Drawing

variable (run) (filed : b.Filed) (acyclic : b.Acyclic) (apart : b.KeysApart)

include filed acyclic apart

/-- All this holds along every run. -/
theorem quiet_and_traced (k : Nat) :
    run.Quiet k ∧ ∀ s, (run.state k).running? = some s → ∃ β, run.Traces k s β := by
  let P : Nat → Strand → Prop := fun k s => ∃ β, run.Traces k s β
  have carries : run.Carries 0 run.Quiet P P := {
    rests := fun _ ⟨β, traces⟩ _ => ⟨β, traces.later⟩
    resumes := fun _ _ ⟨β, traces⟩ _ => ⟨β, traces.later⟩
    advances := fun _ _ running ⟨_, traces⟩ step _ =>
      traces.advances acyclic apart filed running step
    asks := fun _ _ ⟨_, traces⟩ asks _ => traces.asks asks
    enters := fun _ _ _ new => ⟨fun _ => Traces.of_admits new, fun _ => Traces.of_admits new⟩
    goes := fun _ quiet traced => quiet.next traced }
  have silent : run.Quiet 0 := by
    obtain ⟨outside, eq⟩ := run.fresh
    intro e member
    rw [eq] at member
    cases member
  obtain ⟨quiet, -, traced⟩ := carries.always silent k
  exact ⟨quiet, traced⟩

/-- Where a pin is about to be pulled, only such pins are open as need it. -/
theorem needs_of_opened {k : Nat} {s : Strand} {next : Continuation}
    (calls : run.Calls k s (.pull q.node q.pin) next) (member : key ∈ s.context.opened) :
    ∃ p : PinRef, key = p.key ∧ Relation.TransGen b.Needs p q := by
  obtain ⟨β, traces⟩ := (run.quiet_and_traced filed acyclic apart k).2 s calls.running
  have called : β.mode.Calls b (.pull q.node q.pin) := by
    have lead := traces.follows.code
    rw [calls.code] at lead
    exact lead.1
  rw [traces.opened] at member
  rcases Station.opened_of_calls called with ⟨p, pulling, opened, needs⟩ | free
  · rw [opened, List.mem_append, List.mem_singleton] at member
    rcases member with rfl | below
    · exact ⟨p, rfl, .single needs⟩
    · obtain ⟨p', eq, trail⟩ := traces.linked.needs pulling below
      exact ⟨p', eq, trail.tail needs⟩
  · rw [Station.opened_of_isFree free, traces.linked.openedUnder_eq_nil free] at member
    cases member

end Drawing

/-- In a drawing where no pin needs itself, and none needs another one with the same key, the guard
lets every pull in, and the log tells of no cycle unless somebody outside has written just that. -/
theorem no_false_alarms (built : Board.ofApp config app = .ok b) (acyclic : b.Acyclic)
    (apart : b.KeysApart) (run : Run b env) (k : Nat) :
    (∀ s key, (run.state k).running? = some s → s.act? = some (.enter key) →
      (Machine.perform b env (run.state k) s.context (.enter key)).1 = true) ∧
    ∀ e ∈ (run.state k).journal, IsAlarm e.level e.message →
      run.Called k (.log e.level e.message) := by
  obtain ⟨quiet, traced⟩ :=
    run.quiet_and_traced (Board.filed_of_ofApp built) acyclic apart k
  refine ⟨fun s key running acts => ?_, quiet⟩
  obtain ⟨β, traces⟩ := traced s running
  exact traces.granted acyclic apart (run.state k) acts

end Run

/-- A word is brought into two texts, and both are put together: a drawing in the form of a
diamond, without a cycle. -/
def diamondApp : App where
  id := "diamond"
  name := .str "diamond"
  nodes := [{ id := "start", kind := "onAppStart" },
    { id := "word", kind := "stringLiteral", properties := [("value", .str "la")] },
    { id := "left", kind := "toString" },
    { id := "right", kind := "toString" },
    { id := "both", kind := "concat" },
    { id := "keep", kind := "setVariable" }]
  wires := [.link "start" "exec" "keep" "exec", .link "both" "result" "keep" "value",
    .link "left" "result" "both" "a", .link "right" "result" "both" "b",
    .link "word" "value" "left" "value", .link "word" "value" "right" "value"]

def diamondBoard : Board := diamondApp.board

theorem diamondBoard_built : Board.ofApp {} diamondApp = .ok diamondBoard := rfl

theorem diamondBoard_acyclic : diamondBoard.Acyclic :=
  Board.acyclic_of_upwards diamondBoard_built (fun id => if id = "word" then 0
    else if id = "left" ∨ id = "right" then 1 else if id = "keep" then 3 else 2) (by decide)

theorem diamondBoard_keysApart : diamondBoard.KeysApart :=
  Board.keysApart_of_plain diamondBoard_built (by decide)

def diamondRun : Run diamondBoard .silent := .ofStart _ _ ()

/-- The word is pulled twice, and let in both times. -/
theorem Run.no_false_alarms_diamondRun : ∃ s s',
    (diamondRun.state 17).running? = some s ∧ s.act? = some (.enter "word:value") ∧
    (diamondRun.state 25).running? = some s' ∧ s'.act? = some (.enter "word:value") ∧
    (Machine.perform diamondBoard .silent (diamondRun.state 17) s.context
      (.enter "word:value")).1 = true ∧
    (Machine.perform diamondBoard .silent (diamondRun.state 25) s'.context
      (.enter "word:value")).1 = true ∧
    ∀ e ∈ (diamondRun.state 40).journal, IsAlarm e.level e.message →
      diamondRun.Called 40 (.log e.level e.message) := by
  have once : (diamondRun.state 17).act? = some (.enter "word:value") := by decide +kernel
  have again : (diamondRun.state 25).act? = some (.enter "word:value") := by decide +kernel
  obtain ⟨s, running, acts⟩ := Option.bind_eq_some_iff.mp once
  obtain ⟨s', running', acts'⟩ := Option.bind_eq_some_iff.mp again
  have calm := no_false_alarms diamondBoard_built diamondBoard_acyclic diamondBoard_keysApart
    diamondRun
  exact ⟨s, s', running, acts, running', acts', (calm 17).1 s _ running acts,
    (calm 25).1 s' _ running' acts', (calm 40).2⟩

end Wireboard
