import Mathlib.Data.List.Nodup
import Wireboard.Proofs.Circuit
import Wireboard.Proofs.Engine.JobRecords
import Wireboard.Proofs.Engine.Insights

/-!
# Open pulls

A pull is open while its value is being found, and a pull that is open cannot be opened again.  What
is open is known by keys.  The body of a pull opens it by its first act, under the key of its node
and its pin, and nobody else does (`Board.pulling`).  So a key that is open in a chain was opened by
the body of some pull with that key, and this body has not closed it since (`Run.Opened`,
`Run.opened_of_mem`).
-/

namespace Wireboard

variable {σ : Type} {b : Board} {env : Surroundings σ} {s t : Strand}

/-! ## Who opens a pull -/

/-- A key is opened by a job that has done nothing yet, and that pulls the pin with this key. -/
def Board.Opens (b : Board) (begun? : Option Job) : Act → Prop
  | .enter key => ∃ node pin n, begun? = some (.pull node pin) ∧ b.circuit.node? node = some n ∧
      key = Context.pullKey n.id pin
  | _ => True

/-- To open a pull before anything else is done.  The mode is the job, until it has done
something. -/
abbrev Board.pulling (b : Board) : Etiquette :=
  .plain (Option Job) b.Opens (fun _ _ => True) (fun _ _ _ => none) (fun _ => none)
    (fun _ j => some j) fun _ _ _ => none

theorem Board.opens_of_other {begun? : Option Job} {a : Act} (plain : a.opensPull = false) :
    b.Opens begun? a := by
  cases a with
  | enter => cases plain
  | _ => trivial

theorem Board.pulling_suits (b : Board) : b.pulling.Suits b 3 := by
  refine Etiquette.suits_of_begins ?_ ?_ ?_ ?_ (fun _ _ => trivial) (fun _ _ => trivial)
    (fun _ => .inl trivial) (fun _ found => ⟨_, _, _, rfl, found, rfl⟩) fun _ _ => trivial
  · refine ⟨fun {_ a} rank => opens_of_other ?_, trivial⟩
    cases a with
    | enter => cases rank
    | _ => rfl
  · exact ⟨fun _ plain _ => opens_of_other plain, fun _ => trivial, fun _ => trivial⟩
  · constructor
    case toils =>
      intro n
      constructor
      case look => rintro _ a (rfl | rfl) - <;> trivial
      all_goals
        intros
        trivial
    all_goals
      intros
      trivial
  · exact ⟨⟨fun _ => trivial, fun _ _ _ => trivial, fun _ => trivial⟩, fun _ _ => trivial⟩

/-! ## Keys -/

/-- A key tells its node and its pin, if the ids have no colon. -/
theorem Context.eq_of_pullKey_eq {id id' pin pin' : String} (plain : ':' ∉ id.toList)
    (plain' : ':' ∉ id'.toList) (same : pullKey id' pin' = pullKey id pin) :
    id' = id ∧ pin' = pin := by
  have lists : id'.toList ++ ':' :: pin'.toList = id.toList ++ ':' :: pin.toList := by
    simpa [pullKey] using congrArg String.toList same
  rcases List.append_eq_append_iff.mp lists with ⟨between, longer, eq⟩ | ⟨between, longer, eq⟩
  · cases between with
    | nil =>
      rw [List.append_nil] at longer
      exact ⟨String.toList_inj.mp longer.symm, String.toList_inj.mp (List.cons.inj eq).2⟩
    | cons c between =>
      have colon : c = ':' := (List.cons.inj eq).1.symm
      rw [longer, colon] at plain
      exact absurd (List.mem_append_right _ List.mem_cons_self) plain
  · cases between with
    | nil =>
      rw [List.append_nil] at longer
      exact ⟨String.toList_inj.mp longer, String.toList_inj.mp (List.cons.inj eq).2.symm⟩
    | cons c between =>
      have colon : c = ':' := (List.cons.inj eq).1.symm
      rw [longer, colon] at plain'
      exact absurd (List.mem_append_right _ List.mem_cons_self) plain'

/-- No other pin of the board has the key of this one. -/
def Board.KeyedApart (b : Board) (n : Node) (pin : String) : Prop :=
  ∀ id' n' pin', b.circuit.node? id' = some n' →
    Context.pullKey n'.id pin' = Context.pullKey n.id pin → n'.id = n.id ∧ pin' = pin

/-- Where no id has a colon, every pin has a key of its own. -/
theorem Board.keyedApart_of_plain {config : Config} {app : App}
    (built : Board.ofApp config app = .ok b) (plain : ∀ n ∈ app.nodes, ':' ∉ n.id.toList)
    {id : String} {n : Node} (found : b.circuit.node? id = some n) (pin : String) :
    b.KeyedApart n pin := by
  intro id' n' pin' found'
  exact Context.eq_of_pullKey_eq (plain n (mem_nodes_of_node? built found))
    (plain n' (mem_nodes_of_node? built found'))

/-! ## What is open -/

namespace Run

variable (run : Run b env)

/-- The key was opened by the body of a pull that has it, and was not closed since. -/
def Opened (i k : Nat) (key : String) : Prop :=
  ∃ p t node pin n, p < k ∧ run.Runs i p t ∧ t.code = (b.body (.pull node pin)).run ∧
    b.circuit.node? node = some n ∧ key = Context.pullKey n.id pin ∧ key ∉ t.context.opened ∧
    ∀ l u, p < l → l < k → run.Runs i l u → u.act? ≠ some (.leave key)

/-- The strand stands somewhere, at the beginning of a job if it has done nothing in it; and all its
open keys were opened. -/
structure Attends (k : Nat) (s : Strand) (β : b.pulling.Bearing) : Prop where
  follows : s.Follows b.pulling β
  begins : ∀ j, β.mode = some j → s.code = (b.body j).run
  nodup : s.context.opened.Nodup
  opened : ∀ key ∈ s.context.opened, run.Opened s.id k key

variable {run} {i k : Nat} {key : String}

theorem Opened.later (opened : run.Opened i k key)
    (unclosed : ∀ t, run.Runs i k t → t.act? ≠ some (.leave key)) : run.Opened i (k + 1) key := by
  obtain ⟨p, t, node, pin, n, before, runs, code, found, eq, fresh, since⟩ := opened
  refine ⟨p, t, node, pin, n, Nat.lt_succ_of_lt before, runs, code, found, eq, fresh, ?_⟩
  intro l u after le runs'
  rcases Nat.lt_succ_iff_lt_or_eq.mp le with earlier | rfl
  · exact since l u after earlier runs'
  · exact unclosed u runs'

section

variable {β : b.pulling.Bearing} (attends : run.Attends k s β)
  (running : (run.state k).running? = some s)
include attends

theorem Attends.later (idle : ∀ t, run.Runs s.id k t → t.act? = none) : run.Attends (k + 1) s β :=
  ⟨attends.follows, attends.begins, attends.nodup, fun key member =>
    (attends.opened key member).later fun t runs => by rw [idle t runs]; exact fun h => by cases h⟩

include running

/-- An act opens a key that was not open, closes one, or leaves all as they are. -/
theorem Attends.opened_after {a : Act} (acts : s.act? = some a) :
    (Machine.perform b env (run.state k) s.context a).2.1.opened.Nodup ∧
      ∀ key ∈ (Machine.perform b env (run.state k) s.context a).2.1.opened,
        run.Opened s.id (k + 1) key := by
  have runs : run.Runs s.id k s := ⟨running, rfl⟩
  have kept {key : String} (member : key ∈ s.context.opened) (other : a ≠ .leave key) :
      run.Opened s.id (k + 1) key := by
    refine (attends.opened key member).later fun t runs' leaves => ?_
    exact other (runs.only acts runs' leaves).symm
  cases a with
  | enter key =>
    simp only [Machine.perform, Context.enter]
    by_cases already : key ∈ s.context.opened
    · rw [if_pos (List.contains_iff_mem.mpr already)]
      exact ⟨attends.nodup, fun key' member => kept member fun h => by cases h⟩
    · rw [if_neg fun h => already (List.contains_iff_mem.mp h)]
      refine ⟨List.nodup_cons.mpr ⟨already, attends.nodup⟩, fun key' member => ?_⟩
      rcases List.mem_cons.mp member with rfl | old
      · obtain ⟨node, pin, n, begun, found, eq⟩ := attends.follows.allows acts
        refine ⟨k, s, node, pin, n, Nat.lt_succ_self k, runs, attends.begins _ begun, found, eq,
          already, fun l u after before => ?_⟩
        omega
      · exact kept old fun h => by cases h
  | leave key =>
    refine ⟨attends.nodup.erase key, fun key' member => ?_⟩
    obtain ⟨other, old⟩ := attends.nodup.mem_erase_iff.mp member
    exact kept old fun h => other (by cases h; rfl)
  | beginChain => exact ⟨List.nodup_nil, fun key none => by cases none⟩
  | _ =>
    rw [(Machine.perform_context_parts b env _ _ _).2.2 rfl]
    exact ⟨attends.nodup, fun key member => kept member fun h => by cases h⟩

theorem Attends.advances (step : Machine.Advances b env (run.state k) s t) :
    ∃ β', run.Attends (k + 1) t β' := by
  obtain ⟨β', leads, follows⟩ :=
    attends.follows.of_advances b.pulling_suits.governs step fun _ _ _ => trivial
  have begins : ∀ j, β'.mode = some j → t.code = (b.body j).run := by
    intro j begun
    cases leads with
    | returns | acts | answered => cases begun
    | calls code _ =>
      cases begun
      cases step with
      | calls code' =>
        cases code.symm.trans code'
        rfl
      | returns code' | acts code' | answered code' => cases code.symm.trans code'
  have opened : t.context.opened.Nodup ∧
      ∀ key ∈ t.context.opened, run.Opened s.id (k + 1) key := by
    rcases step.context_cases with ⟨still, context⟩ | ⟨a, acts, context⟩
    · rw [context]
      have later := attends.later fun t' runs => by
        rw [← (show run.Runs s.id k s from ⟨running, rfl⟩).eq runs, still]
      exact ⟨later.nodup, later.opened⟩
    · rw [context]
      exact attends.opened_after running acts
  exact ⟨β', follows, begins, opened.1, by rw [step.id_eq]; exact opened.2⟩

theorem Attends.asks (asks : Machine.Asks s t) : ∃ β', run.Attends (k + 1) t β' := by
  have follows := (attends.follows.of_asks b env (run.state k) asks).2
  obtain ⟨r, next, reply, code, rfl⟩ := asks
  have later := attends.later fun t' runs => by
    rw [← (show run.Runs s.id k s from ⟨running, rfl⟩).eq runs, Strand.act?, code]
  exact ⟨_, follows, fun j begun => (by cases begun), later.nodup, later.opened⟩

end

theorem attends_of_admits {j : Job} {frames : List Frame}
    (new : (run.state k).Admits j frames t) : ∃ β, run.Attends (k + 1) t β := by
  refine ⟨_, Strand.Follows.of_admits (E := b.pulling) (μ := none) new trivial fun _ => trivial,
    fun j begun => (by cases begun), ?_, ?_⟩
  · rw [new.opened]
    exact List.nodup_nil
  · rw [new.opened]
    exact fun key none => by cases none

variable (run)

/-- Along a run, whatever is open in the chain of the strand that runs was opened by a pull, which
has not closed it since. -/
theorem opened_of_mem (running : (run.state k).running? = some t)
    (member : key ∈ t.context.opened) : run.Opened t.id k key := by
  let P : Nat → Strand → Prop := fun k s => ∃ β, run.Attends k s β
  have carries : run.Carries 0 (fun _ => True) (fun k s => (run.state k).Waits s ∧ P k s) P := {
    rests := fun _ ⟨waits, β, attends⟩ waits' =>
      ⟨waits', β, attends.later fun _ runs => absurd runs (not_runs_of_waits waits)⟩
    resumes := fun _ idle ⟨_, β, attends⟩ _ =>
      ⟨β, attends.later fun _ runs => by cases idle.symm.trans runs.1⟩
    advances := fun _ _ running ⟨_, attends⟩ step _ => attends.advances running step
    asks := fun _ running ⟨_, attends⟩ asks waits => ⟨waits, attends.asks running asks⟩
    enters := fun _ _ _ new => ⟨fun waits => ⟨waits, attends_of_admits new⟩,
      fun _ => attends_of_admits new⟩
    goes := fun _ _ _ => trivial }
  obtain ⟨-, -, known⟩ := carries.always trivial k
  obtain ⟨β, attends⟩ := known t running
  exact attends.opened key member

/-- What becomes of a strand by an act. -/
theorem running_after_act {a : Act} {next : a.Reply → Code}
    (running : (run.state k).running? = some s) (code : s.code = .act a next) :
    (run.state (k + 1)).running? = some { s with
      context := (Machine.perform b env (run.state k) s.context a).2.1
      code := next (Machine.perform b env (run.state k) s.context a).1 } :=
  (run.move k).running_of_act running code

/-- A pull that looks once and closes itself calls nothing.  So, with a key of its own, it is not
open when anything is called. -/
theorem unopened_of_brief (filed : b.Filed) {id pin : String} {n : Node}
    (found : b.circuit.node? id = some n) (apart : b.KeyedApart n pin) {a : Act}
    {entered : Bool → Code} {after : a.Reply → Code}
    (body : (b.body (.pull id pin)).run = .act (.enter (Context.pullKey n.id pin)) entered)
    (looks : entered true = .act a after)
    (closes : ∀ l < k, ∀ context, ∃ x,
      after (Machine.perform b env (run.state l) context a).1
        = .act (.leave (Context.pullKey n.id pin)) fun _ => .ret x)
    (running : (run.state k).running? = some t) {j : Job}
    {next : Continuation} (code : t.code = .call j next) :
    Context.pullKey n.id pin ∉ t.context.opened := by
  intro member
  obtain ⟨p, u, node, pin', n', before, runs, begun, found', key, fresh, since⟩ :=
    run.opened_of_mem running member
  obtain ⟨sameId, rfl⟩ := apart node n' pin' found' key.symm
  have sameNode : node = id := by
    rw [← filed.id_eq found', ← filed.id_eq found, sameId]
  rw [sameNode, body] at begun
  -- the two moments in which the key is open
  have looking := run.running_after_act runs.1 begun
  have enters : u.context.enter (Context.pullKey n.id pin')
      = some { u.context with opened := Context.pullKey n.id pin' :: u.context.opened } := by
    simp [Context.enter, fresh]
  simp only [Machine.perform, enters, looks] at looking
  have still : t.act? = none := by rw [Strand.act?, code]
  rcases Nat.lt_or_eq_of_le before with later | rfl
  · obtain ⟨x, closing⟩ := closes (p + 1) later
      { u.context with opened := Context.pullKey n.id pin' :: u.context.opened }
    have leaving := run.running_after_act looking rfl
    simp only [closing] at leaving
    rcases Nat.lt_or_eq_of_le later with later' | rfl
    · exact since (p + 2) _ (by omega) later' ⟨leaving, runs.2⟩ rfl
    · cases running.symm.trans leaving
      cases still
  · cases running.symm.trans looking
    cases still

end Run

end Wireboard
