import Wireboard.Proofs.Engine.ChainsEnd
import Wireboard.Proofs.Engine.Containment
import Wireboard.Proofs.Engine.ReadOnly
import Wireboard.Proofs.Engine.Starting

/-!
# Counting loops count

A node that counts runs the wires of its output `loop` once for each whole number from its start up
to its end, and then those of `done`.  What happens along these wires is anybody's guess: they may
set the variables from which the bounds were taken, lead back to the loop itself, fail, wait for an
answer, or go on for ever.  None of it can disturb the counting, because the bounds are pulled
before the first lap, and the number of the lap is told to the next one and not looked up again.

`Course.Counts` follows the laps one by one: a lap that never ends is the last one, and after one
that ends the next begins.  `Course.Laps` says the same by the numbers of the laps, and that the
loop runs no other wires of the node.
-/

namespace Wireboard

variable {σ : Type} {b : Board} {env : Surroundings σ}

/-- What a counting loop gives at its output pin. -/
def Machine.indexOutput (m : Machine σ) (node : String) : Value :=
  ((m.scratchOf node).index?.map Num.toValue).getD (.int 0)

@[simp] theorem Machine.indexOutput_remember (b : Board) (env : Surroundings σ) (m : Machine σ)
    (c : Context) (node : String) (i : Int) :
    (perform b env m c (.remember node (.index (.int i)))).2.2.indexOutput node = .int i := by
  simp [perform, indexOutput, scratchOf, Scratch.keep, Num.toValue]

/-- Nothing but a stop begins a new epoch. -/
theorem Machine.Moves.epoch_eq {m m' : Machine σ} {impulse? : Option Impulse}
    (move : m.Moves b env impulse? m') (other : m.act? ≠ some .markStopped) :
    m'.epoch = m.epoch :=
  move.alters.epoch.resolve_right fun stops => other stops.1

variable {course : Course b env} {s t u : Strand} {j i : Job} {next goesOn ends : Continuation}
  {node pin : String} {p q k l : Nat} {c d : Context} {x : Except Fault Value}

namespace Course

/-! ## Wires that are run -/

/-- The job that the strand has called comes to run the wires of an output of the node. -/
structure Fires (course : Course b env) (s : Strand) (p : Nat) (node pin : String) (k : Nat)
    (t : Strand) : Prop where
  busy : course.Busy s p k t
  calls : ∃ goesOn, course.Calls k t (.fire node pin) goesOn

/-- What the strand has called at one time has come to an end at another. -/
def EndsAt (course : Course b env) (t : Strand) (k q : Nat) : Prop :=
  ∃ d v, course.Returns t k q d (.ok v)

namespace Fires

theorem outer (fires : course.Fires t l node pin k u) (busy : course.Busy s p l t) :
    course.Fires s p node pin k u :=
  ⟨busy.trans fires.busy, fires.calls⟩

/-- Wires do not fail. -/
theorem endsAt (fires : course.Fires s p node pin k t) (returns : course.Returns t k q d x) :
    course.EndsAt t k q := by
  obtain ⟨goesOn, calls⟩ := fires.calls
  obtain ⟨-, v, rfl⟩ := (returns.yields calls).1
  exact ⟨d, v, returns⟩

/-- Wires that are run inside of a job have come to an end when the job returns. -/
theorem endsAt_of_returns (fires : course.Fires s p node pin k t) (calls : course.Calls p s j next)
    (returns : course.Returns s p q d x) : ∃ q', q' < q ∧ course.EndsAt t k q' := by
  obtain ⟨goesOn, calls'⟩ := fires.calls
  have before : k < q := returns.lt_of_calls calls fires.busy calls'
  obtain ⟨q', d', x', earlier, returns'⟩ := calls'.returned_of_outer fires.busy returns before
  exact ⟨q', earlier, fires.endsAt returns'⟩

end Fires

theorem Doing.code_of_fires {code : Code}
    (doing : course.Doing s next p k c code) (fires : course.Fires s p node pin k u) :
    ∃ goesOn, code = .call (.fire node pin) goesOn := by
  obtain ⟨goesOn, calls⟩ := fires.calls
  cases Option.some.inj (doing.running.symm.trans calls.running)
  exact ⟨goesOn, calls.code⟩

/-- A pull runs no wires. -/
theorem Busy.not_calls_fire (busy : course.Busy t l k u) (calls : course.Calls l t j next)
    (pulls : j.pulls = true) : ¬ course.Calls k u (.fire node pin) goesOn := by
  intro fires
  obtain ⟨d, i, trail, honours⟩ := (busy.inside calls).trail
  rw [fires.code] at honours
  rcases Board.Sends.isWithinPull honours.2.1 (trail.isWithinPull pulls) with ⟨⟨⟩⟩ | ⟨⟨⟩, -⟩

/-! ## Laps -/

/-- The laps of a counting loop, by the times at which they begin: so many of `loop` from an index
on, and then one of `done`.  The list ends early with a lap that never does. -/
inductive Counts (course : Course b env) (s : Strand) (p : Nat) (node : String) :
    Int → Nat → List Nat → Prop where
  | done {first : Int} {k : Nat} {t : Strand} : course.Fires s p node "done" k t →
      (∀ q, course.EndsAt t k q → ∃ q' d v, course.Returns s p q' d (.ok v)) →
      Counts course s p node first 0 [k]
  | endless {first : Int} {count k : Nat} {t : Strand} : course.Fires s p node "loop" k t →
      (course.state k).indexOutput node = .int first → (∀ q, ¬ course.EndsAt t k q) →
      Counts course s p node first (count + 1) [k]
  | lap {first : Int} {count k q k' : Nat} {t : Strand} {laps : List Nat} :
      course.Fires s p node "loop" k t → (course.state k).indexOutput node = .int first →
      course.EndsAt t k q → q < k' → Counts course s p node (first + 1) count (k' :: laps) →
      Counts course s p node first (count + 1) (k :: k' :: laps)

/-- The times are all at which the job runs wires of the node by itself, and not inside of such a
run. -/
def Only (course : Course b env) (s : Strand) (p : Nat) (node : String) (laps : List Nat) : Prop :=
  ∀ k t pin, course.Fires s p node pin k t → k ∈ laps ∨
    ∃ k' t' pin', k' ∈ laps ∧ course.Fires s p node pin' k' t' ∧ course.Busy t' k' k t

/-- One lap of a counting loop, by its number: it is one of `loop` and begins with its index, or it
is the one of `done`. -/
structure Lap (course : Course b env) (s : Strand) (p : Nat) (node : String) (first : Int)
    (count : Nat) (laps : List Nat) (i k : Nat) (t : Strand) : Prop where
  fires : course.Fires s p node (if i < count then "loop" else "done") k t
  index : i < count → (course.state k).indexOutput node = .int (first + i)
  /-- The next lap begins when this one has come to an end. -/
  before : ∀ k', laps[i + 1]? = some k' → ∃ q, course.EndsAt t k q ∧ q < k'
  /-- If this one comes to an end, there is a next one, or the loop returns. -/
  goesOn : ∀ q, course.EndsAt t k q → if i < count then ∃ k', laps[i + 1]? = some k'
    else ∃ q' d v, course.Returns s p q' d (.ok v)

/-- The laps of a counting loop: the times at which they begin, each by its number. -/
structure Laps (course : Course b env) (s : Strand) (p : Nat) (node : String) (first : Int)
    (count : Nat) (laps : List Nat) : Prop where
  /-- There is a first lap. -/
  begins : laps ≠ []
  lap : ∀ i k, laps[i]? = some k → ∃ t, course.Lap s p node first count laps i k t
  /-- There are no more than the laps of `loop` and the one of `done`. -/
  length_le : laps.length ≤ count + 1
  /-- When the loop returns, all of them have been run. -/
  complete : ∀ q d x, course.Returns s p q d x → laps.length = count + 1
  only : course.Only s p node laps

namespace Counts

variable {first : Int} {count : Nat} {laps : List Nat}

/-- What a job counts that is called inside of another, the other one counts. -/
theorem outer (counts : course.Counts t l node first count laps) (busy : course.Busy s p l t)
    (ends : ∀ q d v, course.Returns t l q d (.ok v) → ∃ q' d v, course.Returns s p q' d (.ok v)) :
    course.Counts s p node first count laps := by
  induction counts with
  | done fires returns =>
    refine .done (fires.outer busy) fun q ended => ?_
    obtain ⟨q', d, v, returns'⟩ := returns q ended
    exact ends q' d v returns'
  | endless fires index endless => exact .endless (fires.outer busy) index endless
  | lap fires index ended before _ ih => exact .lap (fires.outer busy) index ended before ih

variable (counts : course.Counts s p node first count laps)
include counts

theorem ne_nil : laps ≠ [] := by
  cases counts <;> exact List.cons_ne_nil _ _

theorem length_le : laps.length ≤ count + 1 := by
  induction counts with
  | done | endless => simp
  | lap _ _ _ _ _ ih => exact Nat.succ_le_succ ih

/-- A loop that has returned has run all its laps. -/
theorem complete (calls : course.Calls p s j next) (returns : course.Returns s p q d x) :
    laps.length = count + 1 := by
  induction counts with
  | done => rfl
  | endless fires _ endless =>
    obtain ⟨q', -, ended⟩ := fires.endsAt_of_returns calls returns
    exact absurd ended (endless q')
  | lap _ _ _ _ _ ih => exact congrArg (· + 1) ih

theorem exists_lap {i : Nat} (at_i : laps[i]? = some k) :
    ∃ t, course.Lap s p node first count laps i k t := by
  induction counts generalizing i with
  | @done _ _ t fires returns =>
    cases i with
    | zero =>
      cases at_i
      exact ⟨t, fires, fun early => (by cases early), fun k' next => (by cases next), returns⟩
    | succ i => cases at_i
  | @endless _ _ _ t fires index endless =>
    cases i with
    | zero =>
      cases at_i
      exact ⟨t, fires, fun _ => by rw [index]; simp, fun k' next => (by cases next),
        fun q ended => absurd ended (endless q)⟩
    | succ i => cases at_i
  | @lap _ _ _ q _ t _ fires index ended before _ ih =>
    cases i with
    | zero =>
      cases at_i
      refine ⟨t, fires, fun _ => by rw [index]; simp, ?_, fun _ _ => ⟨_, rfl⟩⟩
      rintro _ ⟨⟩
      exact ⟨q, ended, before⟩
    | succ i =>
      obtain ⟨u, lap⟩ := ih at_i
      refine ⟨u, ?_, fun early => ?_, lap.before, ?_⟩
      · simpa only [Nat.succ_lt_succ_iff] using lap.fires
      · rw [lap.index (Nat.lt_of_succ_lt_succ early), Nat.cast_succ]
        congr 1
        omega
      · simpa only [Nat.succ_lt_succ_iff, List.getElem?_cons_succ] using lap.goesOn

end Counts

/-! ## The rounds of a loop -/

end Course

variable {lo hi : Int}

namespace Board

/-- Where there is something left to count, the number is kept, the wires of `loop` are run, and the
rest is left to a further call. -/
theorem body_iterate_of_lt (b : Board) (node : String) {stop : Num}
    (before : (Num.int lo).lt stop = true) :
    ∃ (begins : Bool → Code) (goesOn ends : Continuation),
      (b.body (.iterate node (.int lo) stop)).run = .act .isStale begins ∧
      begins false = .act (.remember node (.index (.int lo)))
        (fun _ => .call (.fire node "loop") goesOn) ∧
      (∀ v, goesOn (.ok v) = .call (.iterate node (.int (lo + 1)) stop) ends) ∧
      ∀ v, ends (.ok v) = .ret (.ok .null) := by
  simp only [body, iterate, before, if_true]
  exact ⟨_, _, _, rfl, rfl, fun _ => rfl, fun _ => rfl⟩

theorem body_iterate_of_le (b : Board) (node : String) (le : hi ≤ lo) :
    ∃ ends : Continuation,
      (b.body (.iterate node (.int lo) (.int hi))).run = .call (.fire node "done") ends ∧
      ∀ v, ends (.ok v) = .ret (.ok .null) := by
  have past : decide (lo < hi) = false := decide_eq_false (Int.not_lt.mpr le)
  simp only [body, iterate, Num.int_lt_int, past]
  exact ⟨_, rfl, fun _ => rfl⟩

/-- A counting loop asks for its start and its end, and then begins to count. -/
theorem body_execute_forLoop {id : String} (pin? : Option String) {n : Node}
    (found : b.circuit.node? id = some n) (kind : n.kind = "forLoop") :
    ∃ (notice : Notice) (first : Continuation) (second : Value → Continuation)
      (ends : Continuation),
      (b.body (.execute id pin?)).run
        = .act (.notice notice) (fun _ => (b.resolve n.id "start").run.bind first) ∧
      (∀ v, first (.ok v) = (b.resolve n.id "end").run.bind (second v)) ∧
      (∀ v w, second v (.ok w) = .call (.iterate n.id v.toNum w.toNum) ends) ∧
      ∀ v, ends (.ok v) = .ret (.ok .null) := by
  have named : NodeKind.ofName? n.kind = some .forLoop := by
    rw [kind]
    decide
  simp only [body, execute, found, named, perform, run?]
  exact ⟨_, _, _, _, congrArg (Script.act _) (funext fun _ =>
      (Script.bind_bind (Script.bind (b.resolve n.id "start").run _) _ _).trans
        (Script.bind_bind (b.resolve n.id "start").run _ _)),
    fun _ => Script.bind_bind (b.resolve n.id "end").run _ _, fun _ _ => rfl, fun _ => rfl⟩

end Board

namespace Course

theorem Counts.head_lt {first : Int} {count : Nat} {laps : List Nat}
    (counts : course.Counts s p node first count (k :: laps)) : p < k := by
  cases counts with
  | done fires | endless fires | lap fires => exact fires.busy.after

/-- The last thing that a job does is to call another one. -/
structure Passes (course : Course b env) (s : Strand) (p l : Nat) (t : Strand) : Prop where
  busy : course.Busy s p l t
  /-- When the other one returns, so does the job. -/
  returns : ∀ {q d v}, course.Returns t l q d (.ok v) →
    ∃ d, course.Returns s p (q + 1) d (.ok .null)
  ok : ∀ {q d x}, course.Returns s p q d x → x = .ok .null
  /-- From then on the job does nothing by itself. -/
  fires : ∀ {k u node pin}, course.Fires s p node pin k u → l < k → course.Fires t l node pin k u

theorem Doing.passes (doing : course.Doing s next p l c (.call i ends))
    (calls : course.Calls p s j next) (returns : ∀ v, ends (.ok v) = .ret (.ok .null))
    (ok : ∀ {q d x}, course.Returns (s.inner next c (.call i ends)) l q d x → ∃ v, x = .ok v) :
    course.Passes s p l (s.inner next c (.call i ends)) := by
  have busy := doing.busy
  have calls' : course.Calls l _ i ends := ⟨doing.running, rfl⟩
  have back {q : Nat} {d : Context} {v : Value}
      (inner : course.Returns (s.inner next c (.call i ends)) l q d (.ok v)) :
      course.Doing s next p (q + 1) d (.ret (.ok .null)) := by
    have later := doing.of_returns inner
    rwa [returns] at later
  refine ⟨busy, fun inner => ⟨_, (back inner).returns⟩, ?_, ?_⟩
  · intro q d x outer
    obtain ⟨q', d', x', -, inner⟩ :=
      calls'.returned_of_outer busy outer (outer.lt_of_calls calls busy calls')
    obtain ⟨v, rfl⟩ := ok inner
    exact ((back inner).returns.eq calls outer).2
  · intro k u node pin fires later
    refine ⟨(calls'.busy_or_returned later fires.busy.runs).resolve_right ?_, fires.calls⟩
    rintro ⟨q, d, x, before, inner⟩
    obtain ⟨v, rfl⟩ := ok inner
    have le := (back inner).returns.le_of_busy calls fires.busy
    obtain rfl : k = q + 1 := by omega
    obtain ⟨goesOn, code⟩ := (back inner).code_of_fires fires
    cases code

/-- The chain stays current as long as the strand is busy with the job. -/
def Current (course : Course b env) (s : Strand) (p : Nat) : Prop :=
  ∀ k t, course.Busy s p k t → (course.state k).epoch = s.context.epoch

/-- The chain that runs is of the first epoch, and no other one begins until some time. -/
abbrev InFirstEpoch (course : Course b env) (p q : Nat) : Prop :=
  (course.state p).running?.map (·.context.epoch) = some 0 ∧ ∀ l ≤ q, (course.state l).epoch = 0

/-- A chain is current while a job is at work if no new epoch begins until it is back. -/
theorem Spans.current {height q : Nat} (spans : course.Spans height p j q)
    (calls : course.Calls p s j next) (still : course.InFirstEpoch p q) : course.Current s p := by
  obtain ⟨begun, still⟩ := still
  rw [calls.running] at begun
  intro l t busy
  rw [still l (spans.le calls busy.within)]
  exact (Option.some.inj begun).symm

theorem Current.inner (current : course.Current s p) (busy : course.Busy s p l t)
    (epoch : t.context.epoch = s.context.epoch) : course.Current t l :=
  fun k u deeper => (current k u (busy.trans deeper)).trans epoch.symm

theorem epoch_succ (running : (course.state k).running? = some t)
    (other : t.act? ≠ some .markStopped) :
    (course.state (k + 1)).epoch = (course.state k).epoch :=
  (course.move k).epoch_eq (by simpa [Machine.act?, running] using other)

/-- A chain that is current finds that it is. -/
theorem Doing.fresh {begins : Bool → Code}
    (doing : course.Doing s next p k s.context (.act .isStale begins))
    (current : (course.state k).epoch = s.context.epoch) :
    course.Doing s next p (k + 1) s.context (begins false) := by
  have reply : (s.context.epoch != (course.state k).epoch) = false := by
    rw [current]
    exact bne_self_eq_false _
  rw [← reply]
  exact doing.acts.1

/-- A counting loop that begins with a current chain comes to its first lap. -/
theorem Current.doing_loop (current : course.Current s p) (lt : lo < hi)
    (calls : course.Calls p s (.iterate node (.int lo) (.int hi)) next) :
    ∃ goesOn ends : Continuation,
      course.Doing s next p (p + 3) s.context (.call (.fire node "loop") goesOn) ∧
      (course.state (p + 3)).indexOutput node = .int lo ∧
      (∀ k u pin, course.Fires s p node pin k u → p + 3 ≤ k) ∧
      (∀ v, goesOn (.ok v) = .call (.iterate node (.int (lo + 1)) (.int hi)) ends) ∧
      ∀ v, ends (.ok v) = .ret (.ok .null) := by
  have before : (Num.int lo).lt (.int hi) = true := by simpa using lt
  obtain ⟨begins, goesOn, ends, body, fresh, again, returns⟩ := b.body_iterate_of_lt node before
  have doing₁ := calls.doing
  rw [body] at doing₁
  have doing₂ := doing₁.fresh (current _ _ doing₁.busy)
  rw [fresh] at doing₂
  obtain ⟨doing₃, running?, eq⟩ := doing₂.acts
  refine ⟨goesOn, ends, doing₃, ?_, ?_, again, returns⟩
  · rw [eq]
    exact Machine.indexOutput_remember b env (course.state (p + 2)) s.context node lo
  · intro k u pin fires
    have after := fires.busy.after
    refine Nat.le_of_not_lt fun early => ?_
    obtain rfl | rfl : k = p + 1 ∨ k = p + 2 := by omega
    · obtain ⟨_, code⟩ := doing₁.code_of_fires fires
      cases code
    · obtain ⟨_, code⟩ := doing₂.code_of_fires fires
      cases code

/-- What is run by itself or inside of such a run in a job is so in the one that has called it. -/
theorem Only.outer {laps : List Nat} (only : course.Only t l node laps) (busy : course.Busy s p l t)
    (fires : course.Fires t l node pin k u) : k ∈ laps ∨
      ∃ k' t' pin', k' ∈ laps ∧ course.Fires s p node pin' k' t' ∧ course.Busy t' k' k u := by
  rcases only k u pin fires with member | ⟨k', t', pin', member, fires', inside⟩
  · exact .inl member
  · exact .inr ⟨k', t', pin', member, fires'.outer busy, inside⟩

/-- All else is done inside of the first lap or is one of the others. -/
theorem only_cons {laps : List Nat} (fires : course.Fires s p node pin k t)
    (first : ∀ k' u pin', course.Fires s p node pin' k' u → k ≤ k')
    (rest : ∀ k' u pin', course.Fires s p node pin' k' u → k < k' → course.Busy t k k' u ∨
      k' ∈ laps ∨ ∃ l t' pin', l ∈ laps ∧ course.Fires s p node pin' l t' ∧
        course.Busy t' l k' u) :
    course.Only s p node (k :: laps) := by
  intro k' u pin' fires'
  rcases Nat.lt_or_eq_of_le (first k' u pin' fires') with later | rfl
  · rcases rest k' u pin' fires' later with inside | member | ⟨l, t', pin'', member, others⟩
    · exact .inr ⟨k, t, pin, List.mem_cons_self, fires, inside⟩
    · exact .inl (List.mem_cons_of_mem k member)
    · exact .inr ⟨l, t', pin'', List.mem_cons_of_mem k member, others⟩
  · exact .inl List.mem_cons_self

/-- The laps of what is left of a loop, which never fails. -/
def LapsLeft (course : Course b env) (s : Strand) (p : Nat) (node : String) (first : Int)
    (count : Nat) (laps : List Nat) : Prop :=
  course.Counts s p node first count laps ∧ course.Only s p node laps ∧
    ∀ q d x, course.Returns s p q d x → x = .ok .null

/-- When there is nothing left to count, the wires of `done` are run. -/
theorem lapsLeft_zero (le : hi ≤ lo)
    (calls : course.Calls p s (.iterate node (.int lo) (.int hi)) next) :
    course.LapsLeft s p node lo 0 [p + 1] := by
  obtain ⟨ends, body, returns⟩ := b.body_iterate_of_le node le
  have doing := calls.doing
  rw [body] at doing
  have calls' : course.Calls (p + 1) _ (.fire node "done") ends := ⟨doing.running, rfl⟩
  have fires : course.Fires s p node "done" (p + 1) _ := ⟨doing.busy, ends, calls'⟩
  have passes := doing.passes calls returns fun inner => (inner.yields calls').1.2
  refine ⟨.done fires ?_, only_cons fires ?_ ?_, fun q d x => passes.ok⟩
  · rintro q ⟨d, v, inner⟩
    obtain ⟨d, outer⟩ := passes.returns inner
    exact ⟨q + 1, d, _, outer⟩
  · exact fun k u pin fires' => fires'.busy.after
  · exact fun k u pin fires' later => .inl (passes.fires fires' later).busy

/-- A lap that never ends is the last one. -/
theorem lapsLeft_endless {first : Int} {count : Nat} (calls : course.Calls p s j next)
    (fires : course.Fires s p node "loop" k t)
    (index : (course.state k).indexOutput node = .int first)
    (earliest : ∀ k' u pin', course.Fires s p node pin' k' u → k ≤ k')
    (endless : ∀ q, ¬ course.EndsAt t k q) : course.LapsLeft s p node first (count + 1) [k] := by
  obtain ⟨goesOn, calls'⟩ := fires.calls
  refine ⟨.endless fires index endless,
    only_cons fires earliest fun k' u pin' fires' later => .inl ?_, fun q d x outer => ?_⟩
  · have runs : course.Runs t.id k' u := by
      rw [fires.busy.runs.2]
      exact fires'.busy.runs
    refine (calls'.busy_or_returned later runs).resolve_right ?_
    rintro ⟨q, d, x, -, inner⟩
    exact endless q (fires.endsAt inner)
  · obtain ⟨q', -, ended⟩ := fires.endsAt_of_returns calls outer
    exact absurd ended (endless q')

/-- After a lap that ends come those that are left. -/
theorem lapsLeft_cons {first : Int} {count : Nat} {laps : List Nat} {goesOn : Continuation}
    {v : Value} {i : Job} (calls : course.Calls p s j next)
    (doing : course.Doing s next p k c (.call (.fire node "loop") goesOn))
    (index : (course.state k).indexOutput node = .int first)
    (earliest : ∀ k' u pin', course.Fires s p node pin' k' u → k ≤ k')
    (inner : course.Returns (s.inner next c (.call (.fire node "loop") goesOn)) k q d (.ok v))
    (again : goesOn (.ok v) = .call i ends) (other : ∀ pin, i ≠ .fire node pin)
    (returns : ∀ v, ends (.ok v) = .ret (.ok .null))
    (left : course.LapsLeft (s.inner next d (.call i ends)) (q + 1) node (first + 1) count laps) :
    course.LapsLeft s p node first (count + 1) (k :: laps) := by
  obtain ⟨counts, only, ok⟩ := left
  have calls' : course.Calls k _ (.fire node "loop") goesOn := ⟨doing.running, rfl⟩
  have fires : course.Fires s p node "loop" k _ := ⟨doing.busy, goesOn, calls'⟩
  have doing' := doing.of_returns inner
  rw [again] at doing'
  have passes := doing'.passes calls returns fun inner' => ⟨_, ok _ _ _ inner'⟩
  refine ⟨?_, only_cons fires earliest fun k' u pin' fires' later => ?_, fun q d x => passes.ok⟩
  · cases laps with
    | nil => exact absurd rfl counts.ne_nil
    | cons k' laps =>
      refine .lap fires index ⟨d, v, inner⟩ (Nat.lt_of_succ_lt counts.head_lt)
        (counts.outer doing'.busy fun q' d' v' inner' => ?_)
      obtain ⟨d', outer⟩ := passes.returns inner'
      exact ⟨q' + 1, d', _, outer⟩
  · rcases calls'.busy_or_returned later fires'.busy.runs with inside | ⟨q', d', x', before, inner'⟩
    · exact .inl inside
    · obtain ⟨rfl, -⟩ := inner.eq calls' inner'
      refine .inr (only.outer doing'.busy (passes.fires fires' (Nat.lt_of_le_of_ne before ?_)))
      rintro rfl
      obtain ⟨_, code⟩ := doing'.code_of_fires fires'
      exact other pin' (Script.call.inj code).1

/-- The rounds of a counting loop.  The induction is on the number of laps that are left. -/
theorem exists_lapsLeft {count : Nat}
    (calls : course.Calls p s (.iterate node (.int lo) (.int hi)) next)
    (current : course.Current s p) (left : (hi - lo).toNat = count) :
    ∃ laps, course.LapsLeft s p node lo count laps := by
  induction count generalizing lo s p next with
  | zero => exact ⟨[p + 1], lapsLeft_zero (by omega) calls⟩
  | succ count ih =>
    obtain ⟨goesOn, ends, doing, index, earliest, again, returns⟩ :=
      current.doing_loop (by omega) calls
    have calls' : course.Calls (p + 3) _ (.fire node "loop") goesOn := ⟨doing.running, rfl⟩
    by_cases endless : ∀ q, ¬ course.EndsAt
        (s.inner next s.context (.call (.fire node "loop") goesOn)) (p + 3) q
    · exact ⟨[p + 3], lapsLeft_endless calls ⟨doing.busy, goesOn, calls'⟩ index earliest endless⟩
    · obtain ⟨q, d, v, inner⟩ := not_forall_not.mp endless
      have doing' := doing.of_returns inner
      rw [again] at doing'
      have epoch : d.epoch = s.context.epoch := (inner.yields calls').1.1.epoch
      have calls'' : course.Calls (q + 1) _ (.iterate node (.int (lo + 1)) (.int hi)) ends :=
        ⟨doing'.running, rfl⟩
      obtain ⟨laps, rest⟩ := ih calls'' (current.inner doing'.busy epoch) (by omega)
      exact ⟨(p + 3) :: laps, lapsLeft_cons calls doing index earliest inner (again v)
        (fun _ eq => by cases eq) returns rest⟩

/-! ## The whole loop -/

/-- A strand that asks what enters a pin finds it, and runs no wires meanwhile. -/
theorem Finds.doing {v : Value} {goesOn : Continuation} (finds : course.Finds node pin k v l)
    (doing : course.Doing s next p k c ((b.resolve node pin).run.bind goesOn)) :
    course.Doing s next p l c (goesOn (.ok v)) ∧
      ∀ k' u node' pin', course.Fires s p node' pin' k' u → k ≤ k' → l ≤ k' := by
  rw [Board.resolve_eq] at doing
  cases finds with
  | unwired source =>
    rw [source] at doing
    exact ⟨doing, fun _ _ _ _ _ le => le⟩
  | @wired ref t _ q d _ source calls returns =>
    rw [source] at doing
    cases Option.some.inj (doing.running.symm.trans calls.running)
    have calls' : course.Calls k _ (.pull ref.node ref.pin) _ := ⟨doing.running, rfl⟩
    obtain ⟨rfl, -⟩ := (returns.yields calls').1
    refine ⟨doing.of_returns returns, fun k' u node' pin' fires le => ?_⟩
    refine Nat.le_of_not_lt fun early => ?_
    rcases Nat.lt_or_eq_of_le le with later | rfl
    · obtain ⟨goesOn', fires'⟩ := fires.calls
      rcases calls'.busy_or_returned later fires.busy.runs with
        inside | ⟨q', d', x', before, returns'⟩
      · exact inside.not_calls_fire calls' rfl fires'
      · obtain ⟨rfl, -⟩ := returns.eq calls' returns'
        omega
    · obtain ⟨_, code⟩ := doing.code_of_fires fires
      cases code

/-- A counting loop whose start and end are whole numbers runs the wires of `loop` once for each
number from the start up to the end, in order, each time beginning with that number at its output
and not before the last time has come to an end; and then it runs the wires of `done`, once.  It
runs no others.  This holds whatever happens along the wires, as long as the chain is current; if
they go on for ever somewhere, it holds up to there. -/
theorem counting_loop_counts {id : String} {pin? : Option String} {n : Node} {v w : Value}
    {lo hi : Int} (calls : course.Calls p s (.execute id pin?) next)
    (found : b.circuit.node? id = some n) (kind : n.kind = "forLoop")
    (starts : course.Finds n.id "start" (p + 2) v k) (stops : course.Finds n.id "end" k w l)
    (whole : v.toNum = .int lo) (whole' : w.toNum = .int hi) (current : course.Current s p) :
    ∃ laps, course.Laps s p n.id lo (hi - lo).toNat laps := by
  obtain ⟨notice, first, second, ends, body, begins, counts, returns⟩ :=
    Board.body_execute_forLoop pin? found kind
  have doing₁ := calls.doing
  rw [body] at doing₁
  obtain ⟨doing₂, quiet₂⟩ := starts.doing doing₁.acts.1
  rw [begins] at doing₂
  obtain ⟨doing, quiet⟩ := stops.doing doing₂
  rw [counts, whole, whole'] at doing
  have calls' : course.Calls l _ (.iterate n.id (.int lo) (.int hi)) ends := ⟨doing.running, rfl⟩
  obtain ⟨laps, counts', only, ok⟩ := exists_lapsLeft calls' (current.inner doing.busy rfl) rfl
  have passes := doing.passes calls returns fun inner => ⟨_, ok _ _ _ inner⟩
  have counted : course.Counts s p n.id lo (hi - lo).toNat laps := by
    refine counts'.outer doing.busy fun q d v inner => ?_
    obtain ⟨d, outer⟩ := passes.returns inner
    exact ⟨q + 1, d, _, outer⟩
  refine ⟨laps, counted.ne_nil, fun i k => counted.exists_lap, counted.length_le,
    fun q d x => counted.complete calls, fun k' u pin fires => ?_⟩
  -- up to the call of the rounds no wires are run
  have second : p + 2 ≤ k' := by
    refine Nat.lt_of_le_of_ne (Nat.succ_le_of_lt fires.busy.after) ?_
    rintro rfl
    obtain ⟨_, code⟩ := doing₁.code_of_fires fires
    cases code
  have later : l < k' := by
    refine Nat.lt_of_le_of_ne (quiet k' u _ _ fires (quiet₂ k' u _ _ fires second)) ?_
    rintro rfl
    obtain ⟨_, code⟩ := doing.code_of_fires fires
    cases code
  rcases only k' u pin (passes.fires fires later) with
    member | ⟨k₁, t₁, pin₁, member, fires₁, inside⟩
  · exact .inl member
  · exact .inr ⟨k₁, t₁, pin₁, member, fires₁.outer doing.busy, inside⟩

end Course

/-! ## Two laps -/

/-- A drawing in which a loop counts from two up to four, and every lap keeps its number. -/
def paceApp : App where
  id := "pace"
  name := .str "pace"
  nodes := [{ id := "start", kind := "onAppStart" },
    { id := "two", kind := "numberLiteral", properties := [("value", .int 2)] },
    { id := "four", kind := "numberLiteral", properties := [("value", .int 4)] },
    { id := "pace", kind := "forLoop" },
    { id := "keep", kind := "setVariable" }]
  wires := [.link "start" "exec" "pace" "exec", .link "two" "value" "pace" "start",
    .link "four" "value" "pace" "end", .link "pace" "loop" "keep" "exec",
    .link "pace" "index" "keep" "value"]

def paceBoard : Board := paceApp.board

def paceRun : Run paceBoard .silent := .ofStart _ _ ()

/-- There are two laps of `loop` and one of `done`, and the loop returns. -/
theorem Course.counting_loop_counts_paceRun : ∃ s next laps,
    paceRun.Calls 10 s (.execute "pace" (some "exec")) next ∧
      paceRun.Laps s 10 "pace" 2 2 laps ∧ laps.length = 3 := by
  have fulfils : paceRun.Fulfils 2 10 (.execute "pace" (some "exec")) 62 (.ok .null) := by
    decide +kernel
  have two : paceRun.Fulfils 3 12 (.pull "two" "value") 15 (.ok (.int 2)) := by decide +kernel
  have four : paceRun.Fulfils 3 16 (.pull "four" "value") 19 (.ok (.int 4)) := by decide +kernel
  have spans : paceRun.Spans 2 10 (.execute "pace" (some "exec")) 63 := by decide +kernel
  have still : paceRun.InFirstEpoch 10 63 := by decide +kernel
  obtain ⟨s, next, calls⟩ := fulfils.1.exists_calls
  obtain ⟨t, goesOn, pulls⟩ := two.1.exists_calls
  obtain ⟨u, goesOn', pulls'⟩ := four.1.exists_calls
  obtain ⟨d, returns⟩ := two.exists_returns pulls
  obtain ⟨d', returns'⟩ := four.exists_returns pulls'
  obtain ⟨e, outer⟩ := fulfils.exists_returns calls
  obtain ⟨laps, all⟩ := counting_loop_counts calls rfl rfl (.wired rfl pulls returns)
    (.wired rfl pulls' returns') rfl rfl (spans.current calls still)
  exact ⟨s, next, laps, calls, all, all.complete 62 e _ outer⟩

/-! ## No end of laps

A loop is left when the count reaches its end, and no limit is set to it besides. -/

namespace Course

/-- Where no wires lead from `loop`, the next lap begins five moves later. -/
theorem Calls.next_lap {stop : Num} (calls : course.Calls p s (.iterate node (.int lo) stop) next)
    (before : (Num.int lo).lt stop = true) (bare : b.circuit.wiresFrom node "loop" = [])
    (current : (course.state p).epoch = s.context.epoch) :
    ∃ t goesOn, course.Busy s p (p + 5) t ∧
      course.Calls (p + 5) t (.iterate node (.int (lo + 1)) stop) goesOn ∧
      (course.state (p + 5)).epoch = t.context.epoch := by
  obtain ⟨begins, goesOn, ends, body, fresh, again, -⟩ := b.body_iterate_of_lt node before
  have doing₁ := calls.doing
  rw [body] at doing₁
  have epoch₁ := (epoch_succ calls.running (by simp [Strand.act?, calls.code])).trans current
  have doing₂ := doing₁.fresh epoch₁
  rw [fresh] at doing₂
  have doing₃ := doing₂.acts.1
  have calls' : course.Calls (p + 3) _ (.fire node "loop") goesOn := ⟨doing₃.running, rfl⟩
  have inner := calls'.doing
  rw [Board.body, bare] at inner
  change course.Doing _ goesOn (p + 3) (p + 4) _ (.ret (.ok .null)) at inner
  have doing₅ := doing₃.of_returns inner.returns
  rw [again] at doing₅
  refine ⟨_, ends, doing₅.busy, ⟨doing₅.running, rfl⟩, ?_⟩
  calc (course.state (p + 5)).epoch
      = (course.state (p + 4)).epoch := epoch_succ inner.running (by simp [Strand.act?])
    _ = (course.state (p + 3)).epoch := epoch_succ doing₃.running (by simp [Strand.act?])
    _ = (course.state (p + 2)).epoch := epoch_succ doing₂.running (by simp [Strand.act?])
    _ = (course.state (p + 1)).epoch := epoch_succ doing₁.running (by simp [Strand.act?])
    _ = s.context.epoch := epoch₁

/-- So there is a lap at any time if the end lies beyond all whole numbers.  The induction is on the
moves that it is away. -/
theorem Calls.busy_for_ever {stop : Num}
    (calls : course.Calls p s (.iterate node (.int lo) stop) next)
    (beyond : ∀ i : Int, (Num.int i).lt stop = true) (bare : b.circuit.wiresFrom node "loop" = [])
    (current : (course.state p).epoch = s.context.epoch) (n : Nat) :
    ∃ l t, p + n < l ∧ course.Busy s p l t := by
  induction n generalizing lo s p next with
  | zero =>
    obtain ⟨t, -, busy, -⟩ := calls.next_lap (beyond lo) bare current
    exact ⟨p + 5, t, by omega, busy⟩
  | succ n ih =>
    obtain ⟨t, goesOn, busy, calls', current'⟩ := calls.next_lap (beyond lo) bare current
    obtain ⟨l, u, later, inner⟩ := ih calls' current'
    exact ⟨l, u, by omega, busy.trans inner⟩

end Course

/-- A drawing in which a loop counts up to infinity. -/
def tollApp : App where
  id := "toll"
  name := .str "toll"
  nodes := [{ id := "start", kind := "onAppStart" }, { id := "toll", kind := "forLoop" },
    { id := "never", kind := "stringLiteral", properties := [("value", .str "inf")] }]
  wires := [.link "start" "exec" "toll" "exec", .link "never" "value" "toll" "end"]

def tollBoard : Board := tollApp.board

def tollRun : Run tollBoard .silent := .ofStart _ _ ()

end Wireboard
