import Wireboard.Proofs.Engine.StrandEtiquette
import Wireboard.Proofs.Engine.Numbers
import Wireboard.Proofs.Engine.Insights

/-!
# How far a strand has come with starting the app

To start an app, a strand looks whether it is started, makes it a started one, runs the chains of
the start triggers, looks once more, and then sets a timer for each node that is one.  Between the
two looks it may wait, and anything may happen; apart from that it is not interrupted.

So it matters how far a strand has come with it (`Progress`).  To become started and to set timers
in the course of starting only, and each thing once, is an etiquette (`Board.starting`), and a
strand that follows it has its past in its mode (`Run.Past`).  What comes of it are two statements
about runs: a strand makes the app a started one only if it was not, and only once
(`Run.Marks.first`), and it sets a timer only after that, and for each node only once
(`Run.Arms.first`).
-/

namespace Wireboard

variable {σ : Type} {b : Board} {env : Surroundings σ} {s t : Strand}

/-! ## How far a strand has come -/

/-- The act is one of those that starting the app consists of. -/
def Act.isOfStart : Act → Bool
  | .markStarted | .arm _ _ _ => true
  | _ => false

/-- How far a strand has come with starting the app. -/
inductive Progress where
  /-- It has not done anything yet. -/
  | outside
  /-- It is to start the app. -/
  | begun
  /-- It has just found the app not started. -/
  | cleared
  /-- It has made the app a started one. -/
  | marked
  /-- It has found the app started once more, and these nodes have no timer from it yet. -/
  | setting (rest : List Node)
  /-- It is about something else, or is done. -/
  | aside

variable {a : Act}

namespace Progress

/-- How far the strand has come after an act, if these are the nodes with timers. -/
def after (timers : List Node) : Progress → (a : Act) → a.Reply → Progress
  | .begun, .status, (status : Status) => if status = .started then .aside else .cleared
  | .cleared, .markStarted, _ => .marked
  | .marked, .status, (status : Status) => if status = .started then .setting timers else .aside
  | .marked, _, _ => .marked
  | .setting (_ :: rest), .arm _ _ _, _ => .setting rest
  | _, _, _ => .aside

/-- How far it has come when it goes on after something else. -/
def resumed : Progress → Progress
  | .marked => .marked
  | _ => .aside

/-- How far it has come in a job that it has called. -/
def entered : Progress → Job → Progress
  | .outside, .start => .begun
  | _, _ => .aside

/-- The act is in order. -/
def Permits (π : Progress) : Act → Prop
  | .markStarted => π = .cleared
  | .arm node _ _ => ∃ n rest, π = .setting (n :: rest) ∧ n.id = node
  | _ => True

theorem Permits.plain {π : Progress} (allowed : π.Permits a) (other : π = .aside ∨ π = .marked) :
    a.isOfStart = false := by
  cases a with
  | markStarted =>
    cases (allowed : π = .cleared)
    rcases other with eq | eq <;> cases eq
  | arm =>
    obtain ⟨n, rest, rfl, -⟩ := allowed
    rcases other with eq | eq <;> cases eq
  | _ => rfl

/-- The one may stand on top of the other: only what has nothing to do with starting has anything
under it. -/
def Over (π ρ : Progress) : Prop := π = .aside ∨ ρ = .outside

theorem over_of_head {π π' : Progress} {below : List Progress} (h : (π :: below).Pairwise Over)
    (aside : π = .aside → π' = .aside) : (π' :: below).Pairwise Over := by
  obtain ⟨first, rest⟩ := List.pairwise_cons.mp h
  exact List.pairwise_cons.mpr ⟨fun ρ member => (first ρ member).imp_left aside, rest⟩

/-- Only a look at the status clears the way. -/
theorem status_of_after {timers : List Node} {π : Progress} {r : a.Reply}
    (cleared : π.after timers a r = .cleared) :
    a = .status ∧ ∀ status : Status, HEq r status → status ≠ .started := by
  unfold after at cleared
  split at cleared
  next status =>
    split at cleared
    next => cases cleared
    next idle =>
      refine ⟨rfl, ?_⟩
      rintro _ ⟨⟩
      exact idle
  next => cases cleared
  next => split at cleared <;> cases cleared
  all_goals cases cleared

theorem resumed_ne_cleared (π : Progress) : π.resumed ≠ .cleared := by
  cases π <;> exact fun eq => by cases eq

theorem entered_ne_cleared (π : Progress) (j : Job) : π.entered j ≠ .cleared := by
  unfold entered
  split <;> exact fun eq => by cases eq

theorem entered_eq_aside {π : Progress} {j : Job} (other : ¬ (π = .outside ∧ j = .start)) :
    π.entered j = .aside := by
  unfold entered
  split
  next => exact absurd ⟨rfl, rfl⟩ other
  next => rfl

end Progress

/-- To become started and to set timers in the course of starting only, and each thing once. -/
def Board.starting (b : Board) : Etiquette where
  Mode := Progress
  ordinary π := π = .aside
  ready π := π = .aside
  ends _ := True
  ground _ := True
  allows := Progress.Permits
  expects _ _ := True
  alike _ _ _ := False
  after := Progress.after (b.circuit.nodesOf "onTimer")
  asks _ _ := True
  answered := Progress.resumed
  calls π j := π = .outside ∨ j ≠ .start
  entered := Progress.entered
  returned π _ _ := π.resumed
  ordinary_of_ready aside := aside
  ends_of_ordinary _ := trivial
  ordinary_after _ _ _ aside := by rw [aside]; rfl
  ordinary_answered aside := by rw [aside]; rfl
  ordinary_returned _ _ aside := by rw [aside]; rfl
  unheard_of_alike := Act.unheard_of_false

namespace Starting

open Etiquette

theorem speaks (b : Board) : b.starting.Speaks where
  entry _ := trivial
  act {_ a} talk _ := by
    cases a with
    | markStarted | arm => cases talk
    | _ => trivial
  isStale := trivial
  stop _ _ := .inr fun eq => by cases eq

theorem reads (b : Board) : b.starting.Reads where
  act {_ a} rank _ _ := by
    cases a with
    | markStarted | arm => cases rank
    | _ => trivial
  chat _ := trivial
  pull _ := .inr fun eq => by cases eq

theorem works (b : Board) : b.starting.Works b := by
  constructor
  case toils =>
    intro n
    constructor
    case look => rintro _ a (rfl | rfl) - <;> trivial
    all_goals
      intros
      trivial
  case function | fire | iterate | rounds | wire =>
    intros
    exact .inr fun eq => by cases eq
  case ordinary_pop =>
    rintro _ _ _ _ _ _ rfl
    rfl
  case ready_notice =>
    rintro _ _ _ rfl
    rfl
  case ready_depth =>
    rintro _ _ rfl
    rfl
  all_goals
    intros
    trivial

theorem triggers (b : Board) : b.starting.Triggers b :=
  ⟨fun _ => trivial, fun _ _ _ => trivial, fun _ => trivial⟩

/-- Talk does not lead away from starting. -/
theorem eq_marked_of_talked {π : b.starting.Mode} (talked : b.starting.Talked .marked π) :
    π = .marked := by
  induction talked with
  | refl => rfl
  | @act _ a _ _ talk ih =>
    rw [ih]
    cases a with
    | status => cases talk
    | _ => rfl
  | stop _ ih =>
    rw [ih]
    rfl

/-- Nor do the chains of the start triggers. -/
theorem from_chains (nodes : List Node) :
    b.starting.From .marked (nodes.forM fun n => Board.chain n.id) fun π _ => π = .marked := by
  induction nodes with
  | nil => exact from_pure rfl
  | cons n rest ih =>
    have first : b.starting.From .marked (Board.chain n.id) fun π _ => π = .marked := by
      refine from_act_bind rfl trivial fun _ _ => ?_
      exact from_discard (P := fun π _ => π = .marked)
        (from_call (.inr fun eq => by cases eq) fun _ => rfl) (fun _ _ here => here)
        fun _ _ here => here
    refine from_bind first ?_ fun _ _ here => here
    rintro _ _ rfl
    exact ih

theorem from_start (b : Board) : b.starting.From .begun b.start fun _ _ => True := by
  refine from_act_bind rfl trivial fun (status : Status) _ => ?_
  refine from_ite (fun _ => ?_) fun idle => ?_
  · exact from_bind (from_notice (speaks b) _ _ _) (fun _ _ _ => from_pure trivial)
      fun _ _ _ => trivial
  have cleared : b.starting.after .begun .status status = .cleared := if_neg idle
  rw [cleared]
  refine from_act_bind rfl rfl fun _ _ => ?_
  refine from_bind (from_log (speaks b) .info) (fun _ _ talked => ?_) fun _ _ _ => trivial
  rw [eq_marked_of_talked talked]
  refine from_bind (from_chains _) ?_ fun _ _ _ => trivial
  rintro _ _ rfl
  refine from_act_bind rfl trivial fun (status : Status) _ => ?_
  cases status with
  | started =>
    refine from_forM_setTimer (P := fun rest (π : Progress) => π = .setting rest) ?_
      (fun _ => trivial) rfl
    rintro n rest _ period? repeats rfl
    exact ⟨⟨n, rest, rfl, rfl⟩, fun _ => rfl⟩
  | constructed | stopped => exact from_pure trivial

theorem from_stop (b : Board) (π : Progress) :
    b.starting.From π (Attempt.void b.stop) fun _ _ => True := by
  refine from_bind (P := fun _ _ => True) ?_ (fun _ _ _ => from_pure trivial) fun _ _ _ => trivial
  exact from_act_bind rfl trivial fun _ _ =>
    from_mono (from_log (speaks b) .info) fun _ _ _ => trivial

/-- All bodies follow the etiquette. -/
theorem governs (b : Board) : b.starting.Governs b := by
  intro π j called
  by_cases begins : π = .outside ∧ j = .start
  · obtain ⟨rfl, rfl⟩ := begins
    exact from_bind (from_start b) (fun _ _ _ => from_pure trivial) fun _ _ _ => trivial
  show b.starting.From (π.entered j) _ _
  rw [Progress.entered_eq_aside begins]
  by_cases stops : j = .stop
  · subst stops
    exact from_stop b .aside
  have unstarting : j ≠ .start := by
    rintro rfl
    exact begins ⟨called.resolve_right fun other => other rfl, rfl⟩
  exact from_body (speaks b) rfl (fun _ => (reads b).looks) (fun _ => works b)
    (fun _ => triggers b) (fun _ _ => trivial) (fun _ _ _ => .inl rfl)
    (fun node pin _ => from_pull (speaks b) (reads b) node pin rfl trivial fun _ _ =>
      trivial) (fun _ _ _ => trivial)
    (fun type target _ => from_handle (speaks b) type target rfl trivial fun _ _ _ =>
      ⟨works b, triggers b⟩) unstarting stops

end Starting

/-! ## What a strand has done -/

namespace Run

section

variable (run : Run b env)

/-- At that time a strand with that number makes the app a started one. -/
def Marks (i id : Nat) : Prop :=
  ∃ s, (run.state i).running? = some s ∧ s.id = id ∧ s.act? = some .markStarted

/-- At that time a strand with that number sets a timer for a node. -/
def Arms (l id : Nat) (node : String) : Prop :=
  ∃ s period? repeats, (run.state l).running? = some s ∧ s.id = id ∧
    s.act? = some (.arm node period? repeats)

end

/-- What a strand has done before a time, as its progress tells. -/
def Past (run : Run b env) (k id : Nat) : Progress → Prop
  | .outside | .begun | .cleared =>
    (∀ i < k, ¬ run.Marks i id) ∧ ∀ l < k, ∀ node, ¬ run.Arms l id node
  | .marked => (∃ i < k, run.Marks i id) ∧ ∀ l < k, ∀ node, ¬ run.Arms l id node
  | .setting rest => (∃ i < k, run.Marks i id) ∧ rest <:+ b.circuit.nodesOf "onTimer" ∧
      ∀ n ∈ rest, ∀ l < k, ¬ run.Arms l id n.id
  | .aside => True

variable {run : Run b env} {k id : Nat} {π : Progress}
  (distinct : ((b.circuit.nodesOf "onTimer").map Node.id).Nodup)

theorem Marks.act_eq (marks : run.Marks k id) (running : (run.state k).running? = some s) :
    s.id = id ∧ s.act? = some .markStarted := by
  obtain ⟨s', running', number, acts⟩ := marks
  cases running.symm.trans running'
  exact ⟨number, acts⟩

variable {node : String}

theorem Arms.act_eq (arms : run.Arms k id node) (running : (run.state k).running? = some s) :
    s.id = id ∧ ∃ period? repeats, s.act? = some (.arm node period? repeats) := by
  obtain ⟨s', period?, repeats, running', number, acts⟩ := arms
  cases running.symm.trans running'
  exact ⟨number, period?, repeats, acts⟩

/-- The strand with that number neither makes the app a started one nor sets a timer at that time.
-/
def Rests (run : Run b env) (k id : Nat) : Prop :=
  ¬ run.Marks k id ∧ ∀ node, ¬ run.Arms k id node

theorem rests_of_ne (other : ∀ s, (run.state k).running? = some s → s.id ≠ id) :
    run.Rests k id := by
  constructor
  · rintro ⟨s, running, number, -⟩
    exact other s running number
  · rintro node ⟨s, _, _, running, number, -⟩
    exact other s running number

theorem rests_of_act (running : (run.state k).running? = some s)
    (plain : ∀ a, s.act? = some a → a.isOfStart = false) : run.Rests k id := by
  constructor
  · intro marks
    cases plain _ (marks.act_eq running).2
  · intro node arms
    obtain ⟨-, period?, repeats, acts⟩ := arms.act_eq running
    cases plain _ acts

/-- Whoever does nothing of that sort keeps its past. -/
theorem Past.later (past : run.Past k id π) (rests : run.Rests k id) : run.Past (k + 1) id π := by
  obtain ⟨unmarked, unarmed⟩ := rests
  have armed_before {node : String} (before : ∀ l < k, ¬ run.Arms l id node) :
      ∀ l < k + 1, ¬ run.Arms l id node :=
    Nat.forall_lt_succ_right.mpr ⟨before, unarmed node⟩
  cases π with
  | outside | begun | cleared =>
    exact ⟨Nat.forall_lt_succ_right.mpr ⟨past.1, unmarked⟩,
      fun l lt node => armed_before (fun l lt => past.2 l lt node) l lt⟩
  | marked =>
    obtain ⟨⟨i, lt, marks⟩, before⟩ := past
    exact ⟨⟨i, Nat.lt_succ_of_lt lt, marks⟩,
      fun l lt node => armed_before (fun l lt => before l lt node) l lt⟩
  | setting rest =>
    obtain ⟨⟨i, lt, marks⟩, listed, before⟩ := past
    exact ⟨⟨i, Nat.lt_succ_of_lt lt, marks⟩, listed,
      fun n member => armed_before (before n member)⟩
  | aside => trivial

theorem Past.resumed (past : run.Past k id π) : run.Past k id π.resumed := by
  cases π with
  | marked => exact past
  | _ => trivial

section Distinct

include distinct

/-- What was done before stays done, and the act is added to it. -/
theorem Past.after (past : run.Past k s.id π) (running : (run.state k).running? = some s)
    (acts : s.act? = some a) (allowed : π.Permits a) (r : a.Reply) :
    run.Past (k + 1) s.id (π.after (b.circuit.nodesOf "onTimer") a r) := by
  have rests (plain : a.isOfStart = false) : run.Rests k s.id :=
    rests_of_act running fun a' acts' => by cases acts.symm.trans acts'; exact plain
  unfold Progress.after
  split
  -- the first look at the status
  next status =>
    have past' := past.later (rests rfl)
    split
    · trivial
    · exact past'
  -- the app becomes started
  next =>
    have unarmed (node : String) : ¬ run.Arms k s.id node := by
      intro arms
      obtain ⟨-, _, _, acts'⟩ := arms.act_eq running
      cases acts.symm.trans acts'
    exact ⟨⟨k, Nat.lt_succ_self k, s, running, rfl, acts⟩, fun l lt node =>
      Nat.forall_lt_succ_right.mpr ⟨fun l lt => past.2 l lt node, unarmed node⟩ l lt⟩
  -- the second look
  next status =>
    obtain ⟨marks, before⟩ := past.later (rests rfl)
    split
    · exact ⟨marks, List.suffix_refl _, fun n _ l lt => before l lt n.id⟩
    · trivial
  -- what comes between the two
  next => exact past.later (rests (allowed.plain (.inr rfl)))
  -- a timer is set, for a node that is not among the rest
  next n rest node period? repeats _ =>
    obtain ⟨n', rest', eq, rfl⟩ := allowed
    cases eq
    obtain ⟨⟨i, lt, marks⟩, listed, before⟩ := past
    have here : ((n :: rest).map Node.id).Nodup := distinct.sublist (listed.sublist.map Node.id)
    refine ⟨⟨i, Nat.lt_succ_of_lt lt, marks⟩, (List.suffix_cons n rest).trans listed,
      fun n' member => Nat.forall_lt_succ_right.mpr
        ⟨before n' (List.mem_cons_of_mem n member), fun arms => ?_⟩⟩
    obtain ⟨-, _, _, acts'⟩ := arms.act_eq running
    have same : n.id = n'.id := (Act.arm.inj (Option.some.inj (acts.symm.trans acts'))).1
    rw [List.map_cons, List.nodup_cons, same] at here
    exact here.1 (List.mem_map_of_mem member)
  next => trivial

end Distinct

/-- The strand with that number has come so far in the job on top, and so far in those below, and
has done before what this tells.  It is in the middle of starting the app once at most. -/
structure Tells (run : Run b env) (k id : Nat) (π : Progress) (under : List (Progress × Job)) :
    Prop where
  past : run.Past k id π
  below : ∀ p ∈ under, p.1 = .marked → run.Past k id .marked
  single : (π :: under.map Prod.fst).Pairwise Progress.Over

namespace Tells

variable {under : List (Progress × Job)}

theorem later (tells : run.Tells k id π under) (rests : run.Rests k id) :
    run.Tells (k + 1) id π under where
  past := tells.past.later rests
  below p member marked := (tells.below p member marked).later rests
  single := tells.single

/-- A request is answered. -/
theorem resume (tells : run.Tells k id π under) : run.Tells k id π.resumed under where
  past := tells.past.resumed
  below := tells.below
  single := Progress.over_of_head tells.single fun aside => by rw [aside]; rfl

/-- The job on top returns. -/
theorem pop {p : Progress × Job} (tells : run.Tells k id π (p :: under)) :
    run.Tells k id p.1.resumed under where
  past := by
    have marked := tells.below p List.mem_cons_self
    cases here : p.1 with
    | marked => exact marked here
    | _ => trivial
  below q member := tells.below q (List.mem_cons_of_mem p member)
  single := Progress.over_of_head (List.pairwise_cons.mp tells.single).2 fun aside => by
    rw [aside]
    rfl

/-- A job is called. -/
theorem push (tells : run.Tells k id π under) (j : Job) :
    run.Tells k id (π.entered j) ((π, j) :: under) := by
  obtain ⟨past, below, single⟩ := tells
  by_cases begins : π = .outside ∧ j = .start
  · obtain ⟨rfl, rfl⟩ := begins
    refine ⟨past, ?_, List.pairwise_cons.mpr ⟨fun ρ member => .inr ?_, single⟩⟩
    · rintro p (_ | ⟨_, member⟩) marked
      · cases marked
      · exact below p member marked
    · rcases List.mem_cons.mp member with rfl | old
      · rfl
      · exact ((List.pairwise_cons.mp single).1 ρ old).resolve_left fun eq => by cases eq
  · rw [Progress.entered_eq_aside begins]
    refine ⟨trivial, ?_, List.pairwise_cons.mpr ⟨fun ρ _ => .inl rfl, single⟩⟩
    rintro p (_ | ⟨_, member⟩) marked
    · exact marked ▸ past
    · exact below p member marked

section Distinct

include distinct

/-- The strand does an act. -/
theorem act (tells : run.Tells k s.id π under) (running : (run.state k).running? = some s)
    (acts : s.act? = some a) (allowed : π.Permits a) (r : a.Reply) :
    run.Tells (k + 1) s.id (π.after (b.circuit.nodesOf "onTimer") a r) under where
  past := tells.past.after distinct running acts allowed r
  below p member marked := by
    rcases (List.pairwise_cons.mp tells.single).1 p.1 (List.mem_map_of_mem member) with aside | out
    · refine (tells.below p member marked).later (rests_of_act running fun a' acts' => ?_)
      cases acts.symm.trans acts'
      exact allowed.plain (.inl aside)
    · cases out.symm.trans marked
  single := Progress.over_of_head tells.single fun aside => by rw [aside]; rfl

variable {β β' : b.starting.Bearing}

/-- One step adds to what is told what was done by it.  Whoever has just found the app not started
has found it so. -/
theorem leads (tells : run.Tells k s.id β.mode β.under)
    (running : (run.state k).running? = some s) (leads : β.Leads b env (run.state k) s β') :
    run.Tells (k + 1) s.id β'.mode β'.under ∧
      (β'.mode = Progress.cleared → (run.state (k + 1)).status ≠ .started) := by
  have quiet (none : s.act? = none) : run.Tells (k + 1) s.id β.mode β.under :=
    tells.later (rests_of_act running fun a acts => by cases none.symm.trans acts)
  cases leads with
  | @returns x p under code _ eq _ =>
    have here := quiet (by rw [Strand.act?, code])
    rw [eq] at here
    exact ⟨here.pop, fun cleared => absurd cleared (Progress.resumed_ne_cleared p.1)⟩
  | @acts a next code allowed =>
    refine ⟨tells.act distinct running (Strand.act?_of_code code) allowed _, fun cleared => ?_⟩
    obtain ⟨rfl, idle⟩ := Progress.status_of_after cleared
    rw [(run.move k).eq_acted running code]
    exact idle (run.state k).status HEq.rfl
  | @answered r next code _ =>
    exact ⟨(quiet (by rw [Strand.act?, code])).resume,
      fun cleared => absurd cleared (Progress.resumed_ne_cleared β.mode)⟩
  | @calls j next code _ =>
    exact ⟨(quiet (by rw [Strand.act?, code])).push j,
      fun cleared => absurd cleared (Progress.entered_ne_cleared β.mode j)⟩

end Distinct

/-- Whoever comes in has done nothing yet. -/
theorem of_admits {job : Job} {frames : List Frame} (new : (run.state k).Admits job frames t) :
    run.Tells (k + 1) t.id .outside [] where
  past := by
    have rests (i : Nat) (le : i < k + 1) : run.Rests i t.id := by
      refine rests_of_ne fun s running => Nat.ne_of_lt ?_
      rw [new.id]
      exact Nat.lt_of_lt_of_le ((run.numbered i).lt_nextId (.inl running))
        (run.nextId_mono (Nat.le_of_lt_succ le))
    exact ⟨fun i lt => (rests i lt).1, fun l lt => (rests l lt).2⟩
  below p member := by cases member
  single := List.pairwise_singleton _ _

end Tells

section Distinct

variable (run)

include distinct

/-- The strand that runs has done before what it tells, and whoever is to make the app a started one
has just found it not started. -/
theorem exists_tells (running : (run.state k).running? = some s) :
    ∃ β : b.starting.Bearing, s.Follows b.starting β ∧ run.Tells k s.id β.mode β.under ∧
      (β.mode = Progress.cleared → (run.state k).status ≠ .started) := by
  let W : Nat → Strand → Prop := fun k s => (run.state k).Waits s ∧
    ∃ β : b.starting.Bearing, s.Follows b.starting β ∧ run.Tells k s.id β.mode β.under ∧
      β.mode ≠ Progress.cleared
  let R : Nat → Strand → Prop := fun k s =>
    ∃ β : b.starting.Bearing, s.Follows b.starting β ∧ run.Tells k s.id β.mode β.under ∧
      (β.mode = Progress.cleared → (run.state k).status ≠ .started)
  have carries : run.Carries 0 (fun _ => True) W R := {
    rests := by
      rintro k s - ⟨waited, β, follows, tells, other⟩ waits
      have rests : run.Rests k s.id :=
        rests_of_ne fun s' running => (run.numbered k).ne_of_waits running waited
      exact ⟨waits, β, follows, tells.later rests, other⟩
    resumes := by
      rintro k s - idle ⟨-, β, follows, tells, other⟩ -
      have rests : run.Rests k s.id := rests_of_ne fun s' running => by
        cases idle.symm.trans running
      exact ⟨β, follows, tells.later rests, fun cleared => absurd cleared other⟩
    advances := by
      rintro k s t - - running ⟨β, follows, tells, -⟩ step -
      obtain ⟨β', leads, follows'⟩ := follows.of_advances (Starting.governs b) step
        fun _ _ _ => trivial
      obtain ⟨tells', cleared⟩ := tells.leads distinct running leads
      rw [← step.id_eq] at tells'
      exact ⟨β', follows', tells', cleared⟩
    asks := by
      rintro k s t - running ⟨β, follows, tells, -⟩ asks waits
      obtain ⟨leads, follows'⟩ := follows.of_asks b env (run.state k) asks
      obtain ⟨tells', -⟩ := tells.leads distinct running leads
      have number : t.id = s.id := by
        obtain ⟨r, next, reply, -, rfl⟩ := asks
        rfl
      rw [← number] at tells'
      exact ⟨waits, _, follows', tells', Progress.resumed_ne_cleared _⟩
    enters := by
      rintro k job frames t - - - new
      have follows : t.Follows b.starting ⟨.outside, []⟩ :=
        .of_admits new (.inl rfl) fun _ => trivial
      exact ⟨fun waits => ⟨waits, _, follows, .of_admits new, fun eq => by cases eq⟩,
        fun _ => ⟨_, follows, .of_admits new, fun eq => by cases eq⟩⟩
    goes := fun _ _ _ => trivial }
  obtain ⟨-, -, known⟩ := carries.always trivial k
  exact known s running

variable {run}

/-- A strand makes the app a started one only if it was not, and does so only once. -/
theorem Marks.first (marks : run.Marks k id) :
    (run.state k).status ≠ .started ∧ ∀ i < k, ¬ run.Marks i id := by
  obtain ⟨s, running, rfl, acts⟩ := marks
  obtain ⟨β, follows, tells, cleared⟩ := run.exists_tells distinct running
  have here : β.mode = Progress.cleared := follows.allows acts
  have past := tells.past
  rw [here] at past
  exact ⟨cleared here, past.1⟩

/-- A strand sets timers only for nodes that are timers, after it has made the app a started one,
and for each node only once. -/
theorem Arms.first (arms : run.Arms k id node) :
    (∃ n ∈ b.circuit.nodesOf "onTimer", n.id = node) ∧ (∃ i < k, run.Marks i id) ∧
      ∀ l < k, ¬ run.Arms l id node := by
  obtain ⟨s, period?, repeats, running, rfl, acts⟩ := arms
  obtain ⟨β, follows, tells, -⟩ := run.exists_tells distinct running
  obtain ⟨n, rest, here, rfl⟩ := follows.allows acts
  have past := tells.past
  rw [here] at past
  obtain ⟨marks, listed, before⟩ := past
  exact ⟨⟨n, listed.subset List.mem_cons_self, rfl⟩, marks, before n List.mem_cons_self⟩

end Distinct

theorem Marks.started (marks : run.Marks k id) : (run.state (k + 1)).status = .started := by
  obtain ⟨s, running, -, acts⟩ := marks
  obtain ⟨next, code⟩ := Strand.code_of_act? acts
  rw [(run.move k).eq_acted running code]
  rfl

/-- Timers are set in a started app. -/
theorem Arms.started (arms : run.Arms k id node) : (run.state k).status = .started := by
  obtain ⟨s, period?, repeats, running, -, acts⟩ := arms
  obtain ⟨μ, knows, warrants⟩ := run.warranted b.marks_none running acts
  rw [show μ = .started from warrants] at knows
  exact knows

theorem Arms.act?_ne (arms : run.Arms k id node) : (run.state k).act? ≠ some .markStopped := by
  obtain ⟨s, period?, repeats, running, -, acts⟩ := arms
  rw [Machine.act?, running, Option.bind_some, acts]
  exact fun eq => by cases eq

end Run

end Wireboard
