import Wireboard.Proofs.Engine.Course

/-!
# What jobs have been told

A call of a function has its parameters from two pins, a call returns what a pin has given, what is
stored was given by a pin as well, and a request to the net is made of what two pins have given.
The values come from jobs that were called for them, so to say where a value comes from is to look
back at what a job was told since it began.  Every job keeps a *ledger* of this: the jobs that it
has called, with what they returned, and whether it has begun a call of a function that it has yet
to end.

* As trees, the bodies call functions, return from them, store and ask the net only with what their
  ledger has (`Board.bookkeeping`, `Bookkeeping.suits`); a frame is taken away by the job that has
  put it there, and before the job ends.
* Along a run, the ledgers are true: what is written there was called at some time, and was returned
  at some later time while the job that had called was waiting for it (`Run.Records`, `Run.Books`,
  `Run.exists_booked`).
-/

namespace Wireboard

variable {σ : Type} {b : Board} {env : Surroundings σ} {s t : Strand}

/-! ## Ledgers -/

/-- What a job has been told by the jobs that it called, the last one first, and whether it has
begun a call of a function that it has yet to end. -/
structure Ledger where
  record : List (Job × Except Fault Value) := []
  owing : Bool := false

namespace Board

variable (b : Board)

/-- A value for an input pin leads from one record to the next: it is what a pull returned, or null
if there is nothing to pull. -/
def Gives (node pin : String) (v : Value) (before after : List (Job × Except Fault Value)) : Prop :=
  match b.source? node pin with
  | none => v = .null ∧ after = before
  | some p => after = (.pull p.node p.pin, .ok v) :: before

/-- The node calls a function, with the parameters that its pins have given. -/
structure Calling (n : Node) (f : Frame) (record : List (Job × Except Fault Value)) : Prop where
  holds : b.Holds n .functionCall
  named : Circuit.functionName b.config n = .ok f.function
  result : f.result = .null
  given : ∃ x y between, f.params = [("param1", x), ("param2", y)] ∧
    b.Gives n.id "param1" x [] between ∧ b.Gives n.id "param2" y between record

/-- The node stores what its pin has given, under a key. -/
structure Saving (n : Node) (key : String) (v : Value) (record : List (Job × Except Fault Value)) :
    Prop where
  holds : b.Holds n .saveData
  keyed : b.config.storageKey (n.property "key") = .ok key
  given : b.Gives n.id "value" v [] record

/-- The node deletes what is stored under a key. -/
structure Deleting (n : Node) (key : String) : Prop where
  holds : b.Holds n .deleteData
  keyed : b.config.storageKey (n.property "key") = .ok key

/-- The node returns what its pin has given. -/
structure Returning (n : Node) (v : Value) (record : List (Job × Except Fault Value)) : Prop where
  holds : b.Holds n .functionReturn
  given : b.Gives n.id "value" v [] record

/-- The node makes a request of what its pins have given.  There is an entry in the log between, and
whoever reads it may have the app stopped. -/
structure Requesting (n : Node) (url body : Value) (r : Http.Request)
    (record : List (Job × Except Fault Value)) : Prop where
  holds : b.Holds n .httpRequest
  described : b.requestOf n url body = .ok r
  given : ∃ between given stops, b.Gives n.id "url" url [] between ∧
    b.Gives n.id "body" body between given ∧ record = stops ++ given ∧ ∀ e ∈ stops, e.1 = .stop

end Board

namespace Ledger

/-- What may be done with calls of functions and with stored data. -/
def Permits (b : Board) (μ : Ledger) : Act → Prop
  | .push f => μ.owing = false ∧ ∃ n, b.Calling n f μ.record
  | .setResult v => ∃ n, b.Returning n v μ.record
  | .pop => μ.owing = true
  | .save key text => ∃ n v, b.Saving n key v μ.record ∧ v.toJson = .ok text
  | .remove key => ∃ n, b.Deleting n key
  | _ => True

/-- What may be asked of the net. -/
def Asks (b : Board) (μ : Ledger) : Request → Prop
  | .http r => ∃ n url body, b.Requesting n url body r μ.record
  | _ => True

/-- A call is begun or ended. -/
def after (μ : Ledger) : Act → Ledger
  | .push _ => { μ with owing := true }
  | .pop => { μ with owing := false }
  | _ => μ

/-- A job has returned. -/
def told (μ : Ledger) (j : Job) (x : Except Fault Value) : Ledger :=
  { μ with record := (j, x) :: μ.record }

end Ledger

/-- To call functions and to ask the net with what the pins have given, to return and to store what
a pin has given, and to end every call that was begun. -/
abbrev Board.bookkeeping (b : Board) : Etiquette where
  Mode := Ledger
  ordinary μ := μ.owing = false
  ready μ := μ = {}
  ends μ := μ.owing = false
  ground _ := True
  allows := Ledger.Permits b
  expects _ _ := True
  alike _ _ _ := False
  after μ a _ := μ.after a
  asks := Ledger.Asks b
  answered μ := μ
  calls _ _ := True
  entered _ _ := {}
  returned := Ledger.told
  ordinary_of_ready ready := by rw [ready]
  ends_of_ordinary := id
  ordinary_after {μ} a _ plain usual := by
    cases a with
    | push => cases plain
    | pop => rfl
    | _ => exact usual
  ordinary_answered := id
  ordinary_returned _ _ := id
  unheard_of_alike := Act.unheard_of_false

namespace Bookkeeping

open Etiquette

@[simp] theorem owing_resolved (node pin : String) (μ : b.bookkeeping.Mode)
    (x : Except Fault Value) :
    Ledger.owing (b.bookkeeping.resolved b node pin μ x) = Ledger.owing μ := by
  unfold resolved
  cases b.source? node pin <;> rfl

/-- A pull for a pin is entered in the ledger. -/
theorem gives_resolved {node pin : String} {v : Value} (μ : b.bookkeeping.Mode)
    (unwired : b.source? node pin = none → v = .null) :
    b.Gives node pin v (Ledger.record μ)
      (Ledger.record (b.bookkeeping.resolved b node pin μ (.ok v))) := by
  unfold resolved Board.Gives
  cases source : b.source? node pin with
  | none => exact ⟨unwired source, rfl⟩
  | some p => rfl

/-- What is said, or read, has nothing to do with calls of functions and with storing. -/
theorem permits_of_rank {μ : Ledger} {a : Act} (rank : a.rank ≤ 1) : μ.Permits b a := by
  cases a with
  | push | setResult | pop | save | remove => exact absurd rank (by simp [Act.rank])
  | _ => trivial

theorem owing_of_talked {μ ν : b.bookkeeping.Mode} (talked : b.bookkeeping.Talked μ ν)
    (usual : Ledger.owing μ = false) : Ledger.owing ν = false :=
  talked.ordinary usual

/-- Talk is entered in the ledger only where the app is stopped. -/
theorem exists_stops {μ ν : b.bookkeeping.Mode} (talked : b.bookkeeping.Talked μ ν) :
    ∃ stops, Ledger.record ν = stops ++ Ledger.record μ ∧ ∀ e ∈ stops, e.1 = Job.stop := by
  induction talked with
  | refl => exact ⟨[], rfl, List.forall_mem_nil _⟩
  | @act ν a _ _ talk ih =>
    have same : Ledger.record (Ledger.after ν a) = Ledger.record ν := by cases a <;> rfl
    obtain ⟨stops, eq, each⟩ := ih
    exact ⟨stops, same.trans eq, each⟩
  | @stop ν x _ ih =>
    obtain ⟨stops, eq, each⟩ := ih
    refine ⟨(.stop, x) :: stops, ?_, List.forall_mem_cons.mpr ⟨rfl, each⟩⟩
    show (Job.stop, x) :: Ledger.record ν = _
    rw [eq]
    rfl

theorem works : b.bookkeeping.Works b := by
  constructor
  case toils =>
    intro n
    constructor
    case ask =>
      intro μ r plain usual
      cases r with
      | http => cases plain
      | _ => trivial
    case look => rintro μ a (rfl | rfl) - <;> trivial
    case save =>
      rintro _ v key text rfl holds keyed unwired written
      exact ⟨n, v, ⟨holds, keyed, gives_resolved _ unwired⟩, written⟩
    case remove => exact fun _ holds keyed => ⟨_, holds, keyed⟩
    all_goals
      intros
      trivial
  case send =>
    rintro _ ν n x y r rfl holds described unwired unwired' talked
    obtain ⟨stops, eq, each⟩ := exists_stops talked
    exact ⟨n, x, y, holds, described, _, _, stops, gives_resolved _ unwired,
      gives_resolved _ unwired', eq, each⟩
  case push =>
    rintro _ n name x y rfl holds named unwired unwired'
    refine ⟨(owing_resolved _ _ _ _).trans (owing_resolved _ _ _ _), n, holds, named, rfl, ?_⟩
    exact ⟨x, y, _, rfl, gives_resolved _ unwired, gives_resolved _ unwired'⟩
  case setResult =>
    rintro _ n v rfl holds unwired
    exact ⟨n, holds, gives_resolved _ unwired⟩
  case ready_notice | ready_depth =>
    intros
    assumption
  all_goals
    intros
    trivial

theorem suits (b : Board) : b.bookkeeping.Suits b 3 := by
  refine suits_of_begins ?_ ?_ works ?_ (fun _ _ => trivial) (fun _ _ => rfl) (fun _ => .inl rfl)
    (fun _ _ => trivial) fun _ talked => owing_of_talked talked rfl
  · exact ⟨fun rank => permits_of_rank (by omega), trivial⟩
  · exact ⟨fun rank _ _ => permits_of_rank (by omega), fun _ => trivial, fun _ => trivial⟩
  · exact ⟨⟨fun _ => trivial, fun _ _ _ => trivial, fun _ => trivial⟩, fun _ _ => trivial⟩

end Bookkeeping

/-! ## Looking back

The height of a strand is the number of jobs that wait below the one on top.  A job is on top of its
strand, or waits for another job, as long as the strand stays above the job's height. -/

namespace Run

variable (run : Run b env)

/-- After one time and up to another one, the strand with a number is never below a height. -/
def StaysAbove (i height p k : Nat) : Prop :=
  ∀ l t, p < l → l ≤ k → run.Runs i l t → height ≤ t.stack.length

/-- At that time the job at a height calls another one; this is its strand then. -/
structure Awaits (i height p : Nat) (j : Job) (s : Strand) : Prop where
  id : s.id = i
  height : s.stack.length = height
  calls : ∃ next, run.Calls p s j next

/-- The record of the job at a height is true: what it says was called and has returned, one after
the other, and the job is still there. -/
inductive Records (i height : Nat) : List (Job × Except Fault Value) → Nat → Prop where
  | nil {k : Nat} : Records i height [] k
  | cons {j : Job} {x : Except Fault Value} {record : List (Job × Except Fault Value)}
      {s : Strand} {d : Context} {p q k : Nat} : Records i height record p →
      run.Awaits i height p j s → run.Returns s p q d x → q < k → run.StaysAbove i height q k →
      Records i height ((j, x) :: record) k

/-- The records of the jobs that wait are true, and they wait for what they have called. -/
def Accounts (i : Nat) : List (Ledger × Job) → Nat → Prop
  | [], _ => True
  | (μ, j) :: under, k =>
    (∃ p < k, ∃ s, run.Records i under.length μ.record p ∧ run.Awaits i under.length p j s ∧
      run.StaysAbove i (under.length + 1) p k) ∧ Accounts i under k

/-- All ledgers of a strand are true. -/
structure Books (i : Nat) (β : b.bookkeeping.Bearing) (k : Nat) : Prop where
  top : run.Records i β.under.length (Ledger.record β.mode) k
  under : run.Accounts i β.under k

variable {run} {i k height p : Nat}

/-- Whoever waits is not running. -/
theorem not_runs_of_waits (waits : (run.state k).Waits s) : ¬ run.Runs s.id k t :=
  fun runs => (run.numbered k).ne_of_waits runs.1 waits runs.2

theorem StaysAbove.later (h : run.StaysAbove i height p k)
    (above : ∀ t, run.Runs i (k + 1) t → height ≤ t.stack.length) :
    run.StaysAbove i height p (k + 1) := by
  intro l t after le runs
  rcases Nat.lt_or_eq_of_le le with before | rfl
  · exact h l t after (Nat.le_of_lt_succ before) runs
  · exact above t runs

/-- At first there is nothing but the next moment to look at. -/
theorem staysAbove_succ (above : ∀ t, run.Runs i (k + 1) t → height ≤ t.stack.length) :
    run.StaysAbove i height k (k + 1) := by
  intro l t after le runs
  cases Nat.le_antisymm le after
  exact above t runs

/-- What was called returns when the strand, which has never been back, returns at that height. -/
theorem Awaits.returns {j : Job} {x : Except Fault Value} {q : Nat}
    (awaits : run.Awaits i height p j s) (before : p < q)
    (stays : run.StaysAbove i (height + 1) p q) (runs : run.Runs i q t)
    (there : t.stack.length = height + 1) (code : t.code = .ret x) :
    run.Returns s p q t.context x := by
  obtain ⟨rfl, rfl, -⟩ := awaits
  refine ⟨t, ⟨before, fun l u after early runs' => ?_, runs, by omega⟩, there, rfl, code⟩
  exact stays l u after (Nat.le_of_lt early) runs'

theorem Records.later {record : List (Job × Except Fault Value)}
    (h : run.Records i height record k)
    (above : ∀ t, run.Runs i (k + 1) t → height ≤ t.stack.length) :
    run.Records i height record (k + 1) := by
  cases h with
  | nil => exact .nil
  | cons earlier awaits returns after stays =>
    exact .cons earlier awaits returns (Nat.lt_succ_of_lt after) (stays.later above)

/-- A job that has called another one has on record what that returned, once it goes on. -/
theorem Records.told {record : List (Job × Except Fault Value)} {j : Job} {next : Continuation}
    {q : Nat} {d : Context} {x : Except Fault Value}
    (records : run.Records t.id t.stack.length record p) (calls : run.Calls p t j next)
    (returns : run.Returns t p q d x) :
    run.Records t.id t.stack.length ((j, x) :: record) (q + 1) := by
  have awaits : run.Awaits t.id t.stack.length p j t := ⟨rfl, rfl, next, calls⟩
  refine .cons records awaits returns (Nat.lt_succ_self q) (staysAbove_succ fun u runs => ?_)
  rw [← Option.some.inj ((returns.yields calls).2.symm.trans runs.1)]

theorem Accounts.later {under : List (Ledger × Job)} (h : run.Accounts i under k)
    (above : ∀ t, run.Runs i (k + 1) t → under.length ≤ t.stack.length) :
    run.Accounts i under (k + 1) := by
  induction under with
  | nil => trivial
  | cons entry under ih =>
    obtain ⟨⟨p, before, s, records, awaits, stays⟩, below⟩ := h
    refine ⟨⟨p, Nat.lt_succ_of_lt before, s, records, awaits, stays.later above⟩, ih below ?_⟩
    exact fun t runs => Nat.le_of_succ_le (above t runs)

theorem Books.later {β : b.bookkeeping.Bearing} (books : run.Books i β k)
    (above : ∀ t, run.Runs i (k + 1) t → β.under.length ≤ t.stack.length) :
    run.Books i β (k + 1) :=
  ⟨books.top.later above, books.under.later above⟩

/-- Whoever comes in has been told nothing. -/
theorem books_nil : run.Books i (⟨{}, []⟩ : b.bookkeeping.Bearing) k := ⟨.nil, trivial⟩

/-- One step keeps the ledgers true: a return is entered in the ledger of the job that has waited
for it, and nothing else is entered. -/
theorem Books.of_leads {β β' : b.bookkeeping.Bearing} (books : run.Books i β k)
    (runs : run.Runs i k s) (height : s.stack.length = β.under.length)
    (leads : β.Leads b env (run.state k) s β')
    (above : ∀ t, run.Runs i (k + 1) t → β'.under.length ≤ t.stack.length) :
    run.Books i β' (k + 1) := by
  cases leads with
  | @returns x entry under code _ eq _ =>
    obtain ⟨-, accounts⟩ := books
    rw [eq] at accounts height
    obtain ⟨⟨p, before, t, records, awaits, stays⟩, below⟩ := accounts
    have returns := awaits.returns before stays runs height code
    exact ⟨.cons records awaits returns (Nat.lt_succ_self k) (staysAbove_succ above),
      below.later above⟩
  | @acts a next code _ =>
    have same : Ledger.record (Ledger.after β.mode a) = Ledger.record β.mode := by cases a <;> rfl
    refine ⟨?_, books.under.later above⟩
    show run.Records i β.under.length (Ledger.record (Ledger.after β.mode a)) (k + 1)
    rw [same]
    exact books.top.later above
  | answered code _ => exact books.later above
  | @calls j next code _ =>
    have here : run.Awaits i β.under.length k j s := ⟨runs.2, height, next, runs.1, code⟩
    have below : ∀ t, run.Runs i (k + 1) t → β.under.length ≤ t.stack.length :=
      fun t runs => Nat.le_of_succ_le (above t runs)
    exact ⟨.nil, ⟨k, Nat.lt_succ_self k, s, books.top, here, staysAbove_succ above⟩,
      books.under.later below⟩

/-! ## Strands with true ledgers -/

/-- Where a strand stands, and its ledgers are true. -/
structure Booked (run : Run b env) (k : Nat) (s : Strand) (β : b.bookkeeping.Bearing) : Prop where
  follows : s.Follows b.bookkeeping β
  books : run.Books s.id β k

namespace Booked

variable {β : b.bookkeeping.Bearing}

theorem height_eq (booked : run.Booked k s β) : s.stack.length = β.under.length :=
  booked.follows.stack.length_eq.symm

/-- Nothing happens to a strand that does not move. -/
theorem later (booked : run.Booked k s β) (same : ∀ t, run.Runs s.id (k + 1) t → t = s) :
    run.Booked (k + 1) s β := by
  refine ⟨booked.follows, booked.books.later fun t runs => ?_⟩
  exact Nat.le_of_eq (same t runs ▸ booked.height_eq.symm)

theorem advances (booked : run.Booked k s β) (running : (run.state k).running? = some s)
    (step : Machine.Advances b env (run.state k) s t)
    (running' : (run.state (k + 1)).running? = some t) :
    ∃ β', β.Leads b env (run.state k) s β' ∧ run.Booked (k + 1) t β' := by
  obtain ⟨β', leads, follows'⟩ :=
    booked.follows.of_advances (Bookkeeping.suits b).governs step fun _ _ _ => trivial
  have runs' : run.Runs s.id (k + 1) t := ⟨running', step.id_eq⟩
  have books' := booked.books.of_leads ⟨running, rfl⟩ booked.height_eq leads fun t' runs'' => by
    rw [← runs'.eq runs'']
    exact Nat.le_of_eq follows'.stack.length_eq
  rw [← step.id_eq] at books'
  exact ⟨β', leads, follows', books'⟩

theorem asks (booked : run.Booked k s β) (running : (run.state k).running? = some s)
    (asks : Machine.Asks s t) (waits : (run.state (k + 1)).Waits t) :
    run.Booked (k + 1) t ⟨b.bookkeeping.answered β.mode, β.under⟩ := by
  obtain ⟨leads, follows'⟩ := booked.follows.of_asks b env (run.state k) asks
  have same : t.id = s.id := by
    obtain ⟨r, next, reply, -, rfl⟩ := asks
    rfl
  refine ⟨follows', ?_⟩
  rw [same]
  refine booked.books.of_leads ⟨running, rfl⟩ booked.height_eq leads fun t' runs' => ?_
  exact absurd (same ▸ runs') (not_runs_of_waits waits)

theorem of_admits {j : Job} {frames : List Frame} (new : (run.state k).Admits j frames t) :
    run.Booked (k + 1) t ⟨{}, []⟩ :=
  ⟨Strand.Follows.of_admits (E := b.bookkeeping) new trivial fun _ => rfl, books_nil⟩

end Booked

/-- Along a run, the ledgers of the strand that runs are true. -/
theorem exists_booked (running : (run.state k).running? = some t) : ∃ β, run.Booked k t β := by
  let P : Nat → Strand → Prop := fun k s => ∃ β, run.Booked k s β
  have carries : run.Carries 0 (fun _ => True) P P := {
    rests := fun _ ⟨β, booked⟩ waits =>
      ⟨β, booked.later fun _ runs => absurd runs (not_runs_of_waits waits)⟩
    resumes := fun _ _ ⟨β, booked⟩ running =>
      ⟨β, booked.later fun _ runs => Option.some.inj (runs.1.symm.trans running)⟩
    advances := fun _ _ running ⟨_, booked⟩ step running' =>
      (booked.advances running step running').imp fun _ next => next.2
    asks := fun _ running ⟨_, booked⟩ asks waits => ⟨_, booked.asks running asks waits⟩
    enters := fun _ _ _ new => ⟨fun _ => ⟨_, .of_admits new⟩, fun _ => ⟨_, .of_admits new⟩⟩
    goes := fun _ _ _ => trivial }
  obtain ⟨-, -, known⟩ := carries.always trivial k
  exact known t running

end Run

end Wireboard
