import Wireboard.Proofs.Engine.JobAccounts

/-!
# Conditional loops end at their cap

A node that loops while a condition holds asks for the condition before each lap, and makes no more
laps than its cap allows.  When the condition does not hold any more it runs the wires of `done`.
When the cap is reached it warns first, and does not ask again.

The condition and what lies along the wires may do anything, also execute this node again or other
loops that warn.  So the statement counts what the execution does by itself (`Course.Account`),
where the rounds of the loop are parts of the execution.  `Course.LapsDone` lists the laps that come
to an end, and `Course.LoopEnds` says what follows them.
-/

namespace Wireboard

variable {σ : Type} {b : Board} {env : Surroundings σ}

/-- The job is a round of the conditional loop. -/
def Job.IsRound (node : String) (j : Job) : Prop := ∃ count limit, j = .rounds node count limit

/-- Wires are run, or a warning is made. -/
def Deed.RunsOrWarns : Deed → Prop
  | .call (.fire _ _) | .act (.journal .warning _) => True
  | _ => False

/-- The warning of a loop that has reached its cap. -/
def capWarning (limit : String) : Deed :=
  .act (.journal .warning (.str s!"While loop reached max iterations ({limit})"))

/-! ## One round -/

namespace Board

variable (b) (node : String) {count m : Nat} {limit : Value}

/-- How a round goes on with the condition.  If it holds, the wires of `loop` are run, and the rest
is left to a further round. -/
structure Weighs (node : String) (count : Nat) (limit : Value) (finds : Continuation) : Prop where
  refuses : ∀ v, v.isTruthy = false → ∃ ends, finds (.ok v) = .call (.fire node "done") ends ∧
    ∀ w, ends (.ok w) = .ret (.ok .null)
  holds : ∀ v, v.isTruthy = true → ∃ goesOn ends, finds (.ok v) = .call (.fire node "loop") goesOn ∧
    (∀ w, goesOn (.ok w) = .call (.rounds node (count + 1) limit) ends) ∧ ∀ x, ∃ y, ends x = .ret y

/-- Below its cap a loop asks for the condition. -/
theorem body_rounds_of_lt (cap : limit.asNum? = some (.int m)) (below : count < m) :
    ∃ (begins : Bool → Code) (finds : Continuation),
      (b.body (.rounds node count limit)).run = .act .isStale begins ∧
      begins false = (b.resolve node "condition").run.bind finds ∧
      Weighs node count limit finds := by
  have bound : limit.boundBy "<" = .ok (.int m) := by rw [Value.boundBy, cap]
  have lt : (Num.int count).lt (.int m) = true := by
    rw [Num.int_lt_int]
    exact decide_eq_true (Int.ofNat_lt.mpr below)
  have eq : b.rounds node count limit = (do
      if ← Attempt.isStale then return
      if (← b.resolve node "condition").isTruthy then
        Attempt.fire node "loop"
        discard (Attempt.call (.rounds node (count + 1) limit))
      else Attempt.fire node "done") := by
    unfold rounds
    rw [bound]
    show (if (Num.int count).lt (.int m) then _ else _) = _
    rw [lt]
    rfl
  refine ⟨_, _, congrArg (fun x => (Attempt.void x).run) eq,
    Script.bind_bind (b.resolve node "condition").run _ _, fun v falsy => ?_, fun v holds => ?_⟩
  · simp only [ExceptT.bindCont, falsy]
    exact ⟨_, rfl, fun _ => rfl⟩
  · simp only [ExceptT.bindCont, holds]
    exact ⟨_, _, rfl, fun _ => rfl, fun x => by cases x <;> exact ⟨_, rfl⟩⟩

/-- At its cap a loop warns and is done. -/
theorem rounds_of_eq (cap : limit.asNum? = some (.int m)) :
    b.rounds node m limit = (do
      let text ← Attempt.ofExcept limit.toPlain
      b.log .warning s!"While loop reached max iterations ({text})"
      Attempt.fire node "done") := by
  have bound : limit.boundBy "<" = .ok (.int m) := by rw [Value.boundBy, cap]
  have lt : (Num.int m).lt (.int m) = false := by
    rw [Num.int_lt_int]
    exact decide_eq_false (Int.lt_irrefl _)
  have le : (Num.int m).le (.int m) = true := by
    rw [Num.int_le_int]
    exact decide_eq_true (Int.le_refl _)
  unfold rounds
  rw [bound]
  show (if (Num.int m).lt (.int m) then _ else if (Num.int m).le (.int m) then _ else _) = _
  rw [lt, le]
  rfl

end Board

namespace Course

/-! ## Laps -/

/-- Between two times these laps are made: the wires of `loop` are run at each of the times in the
list.  Each lap comes to an end before the next one.  Before each the loop asks for the condition,
not before the last lap has come to an end, and finds that it holds. -/
inductive LapsDone (course : Course b env) (node : String) : Nat → List Nat → Nat → Prop where
  | none {k k' : Nat} : k ≤ k' → LapsDone course node k [] k'
  | lap {k a l q k' : Nat} {v : Value} {t : Strand} {goesOn : Continuation} {laps : List Nat} :
      k ≤ a → course.Finds node "condition" a v l → v.isTruthy = true →
      course.Calls l t (.fire node "loop") goesOn → course.EndsAt t l q →
      LapsDone course node (q + 1) laps k' → LapsDone course node k (l :: laps) k'

/-- What a loop does that has a cap and has made so many laps by a time. -/
inductive LoopEnds (course : Course b env) (node : String) (limit : Value) (m count k : Nat) :
    List (Nat × Deed) → Prop where
  /-- The condition does not hold, and the wires of `done` are run. -/
  | refused {a l : Nat} {v : Value} : count < m → k ≤ a → course.Finds node "condition" a v l →
      v.isTruthy = false → LoopEnds course node limit m count k [(l, .call (.fire node "done"))]
  /-- The cap is reached, the loop warns, and the wires of `done` are run. -/
  | capped {w l : Nat} {text : String} : count = m → k ≤ w → w < l → limit.toPlain = .ok text →
      LoopEnds course node limit m count k [(w, capWarning text), (l, .call (.fire node "done"))]
  /-- The condition is asked for, and is never found. -/
  | asking {a : Nat} {ref : PinRef} {t : Strand} {goesOn : Continuation} : count < m → k ≤ a →
      b.source? node "condition" = some ref → course.Calls a t (.pull ref.node ref.pin) goesOn →
      (∀ q d x, ¬ course.Returns t a q d x) → LoopEnds course node limit m count k []
  /-- The condition holds, and the wires of `loop` are run and never come to an end. -/
  | endless {a l : Nat} {v : Value} {t : Strand} {goesOn : Continuation} : count < m → k ≤ a →
      course.Finds node "condition" a v l → v.isTruthy = true →
      course.Calls l t (.fire node "loop") goesOn → (∀ q, ¬ course.EndsAt t l q) →
      LoopEnds course node limit m count k [(l, .call (.fire node "loop"))]

variable {course : Course b env} {s t : Strand} {j : Job} {next goesOn : Continuation}
  {node pin : String} {p k k' l q m count : Nat} {c : Context} {limit : Value} {laps : List Nat}
  {tail ds : List (Nat × Deed)}

theorem LapsDone.of_le (done : course.LapsDone node k laps l) (le : k' ≤ k) :
    course.LapsDone node k' laps l := by
  cases done with
  | none le' => exact .none (Nat.le_trans le le')
  | lap le' finds holds calls ended rest =>
    exact .lap (Nat.le_trans le le') finds holds calls ended rest

theorem LoopEnds.le_cap (ends : course.LoopEnds node limit m count k tail) : count ≤ m := by
  cases ends with
  | refused below | asking below | endless below => exact Nat.le_of_lt below
  | capped reached => exact Nat.le_of_eq reached

/-! ## What a round leads to -/

/-- What a loop does by itself, its rounds included: it runs wires and makes warnings. -/
def LoopSince (course : Course b env) (node : String) (s : Strand) (p k : Nat)
    (ds : List (Nat × Deed)) : Prop :=
  course.Since (Job.IsRound node) Deed.RunsOrWarns s p k ds

theorem not_isRound_fire (node pin : String) : ¬ (Job.fire node pin).IsRound node := by
  rintro ⟨count, limit, ⟨⟩⟩

theorem not_isRound_stop (node : String) : ¬ Job.stop.IsRound node := by
  rintro ⟨count, limit, ⟨⟩⟩

theorem not_isRound_of_pulls (i : Job) (pulls : i.pulls = true) : ¬ i.IsRound node := by
  rintro ⟨count, limit, rfl⟩
  cases pulls

theorem not_runsOrWarns_of_pulls (i : Job) (pulls : i.pulls = true) :
    ¬ (Deed.call i).RunsOrWarns := by
  cases i with
  | pull | resolve => exact id
  | _ => cases pulls

theorem not_runsOrWarns_of_echo (d : Deed) (echo : d.isEcho = true) : ¬ d.RunsOrWarns := by
  unfold Deed.isEcho at echo
  split at echo
  · exact id
  · exact id
  · exact id
  · exact id
  · cases echo

/-- Whoever asks what enters a pin finds it, or goes on asking for ever. -/
theorem Doing.finds_or_asks {goesOn : Continuation}
    (doing : course.Doing s next p k c ((b.resolve node pin).run.bind goesOn)) :
    (∃ v l, k ≤ l ∧ course.Finds node pin k v l ∧ course.Doing s next p l c (goesOn (.ok v)) ∧
      course.Quiet (Job.IsRound node) Deed.RunsOrWarns s p k l) ∨
    ∃ ref t next', b.source? node pin = some ref ∧
      course.Calls k t (.pull ref.node ref.pin) next' ∧ (∀ q d x, ¬ course.Returns t k q d x) ∧
      course.LoopSince node s p k [] := by
  rw [Board.resolve_eq] at doing
  cases source : b.source? node pin with
  | none =>
    rw [source] at doing
    exact .inl ⟨.null, k, Nat.le_refl k, .unwired source, doing, .refl k⟩
  | some ref =>
    rw [source] at doing
    replace doing : course.Doing s next p k c (.call (.pull ref.node ref.pin) goesOn) := doing
    have calls : course.Calls k _ (.pull ref.node ref.pin) goesOn := ⟨doing.running, rfl⟩
    have other : ¬ (Job.pull ref.node ref.pin).IsRound node := not_isRound_of_pulls _ rfl
    have quiet : course.Quiet (Job.IsRound node) Deed.RunsOrWarns s p k (k + 1) := by
      refine doing.quiet ?_
      rintro _ ⟨⟩
      exact not_runsOrWarns_of_pulls _ rfl
    by_cases ended : ∃ q d x,
        course.Returns (s.inner next c (.call (.pull ref.node ref.pin) goesOn)) k q d x
    · obtain ⟨q, d, x, returns⟩ := ended
      obtain ⟨rfl, v, rfl, -⟩ := (returns.yields calls).1
      obtain ⟨_, busy, -⟩ := id returns
      exact .inl ⟨v, q + 1, Nat.le_succ_of_le (Nat.le_of_lt busy.after),
        .wired source calls returns, doing.of_returns returns,
        quiet.trans (doing.quiet_of_returns other returns)⟩
    · have endless (q : Nat) (d : Context) (x : Except Fault Value) :
          ¬ course.Returns (s.inner next c (.call (.pull ref.node ref.pin) goesOn)) k q d x :=
        fun returns => ended ⟨q, d, x, returns⟩
      refine .inr ⟨ref, _, _, rfl, calls, endless, Since.of_quiet ?_ quiet (Nat.le_succ k)⟩
      exact doing.since_call other fun returns => absurd returns (endless _ _ _)

/-- A round below the cap that begins with a current chain comes to ask for the condition. -/
theorem Current.doing_asks (current : course.Current s p) (cap : limit.asNum? = some (.int m))
    (below : count < m) (calls : course.Calls p s (.rounds node count limit) next) :
    ∃ finds : Continuation,
      course.Doing s next p (p + 2) s.context ((b.resolve node "condition").run.bind finds) ∧
      course.Quiet (Job.IsRound node) Deed.RunsOrWarns s p (p + 1) (p + 2) ∧
      Board.Weighs node count limit finds := by
  obtain ⟨begins, finds, body, fresh, weighs⟩ := b.body_rounds_of_lt node cap below
  have doing := calls.doing
  rw [body] at doing
  refine ⟨finds, fresh ▸ doing.fresh (current _ _ doing.busy), doing.quiet ?_, weighs⟩
  rintro _ ⟨⟩
  exact id

/-- The wires of `done` are the last thing that a loop comes to. -/
theorem Doing.loopSince_done {ends : Continuation}
    (doing : course.Doing s next p k c (.call (.fire node "done") ends))
    (calls : course.Calls p s j next) (returns : ∀ v, ends (.ok v) = .ret (.ok .null)) :
    course.LoopSince node s p k [(k, .call (.fire node "done"))] := by
  refine Since.cons ?_ doing rfl
  refine doing.since_call (not_isRound_fire node "done") fun inner => ?_
  obtain ⟨-, v, rfl⟩ := (inner.yields ⟨doing.running, rfl⟩).1
  have back := doing.of_returns inner
  rw [returns] at back
  exact back.since_ret calls

/-- At its cap a loop warns and is done. -/
theorem exists_loopEnds_of_cap (cap : limit.asNum? = some (.int m)) (written : limit.hasText = true)
    (current : course.Current s p) (calls : course.Calls p s (.rounds node m limit) next) :
    ∃ tail, course.LoopEnds node limit m m p tail ∧ course.LoopSince node s p (p + 1) tail := by
  have text : limit.toPlain = .ok limit.plain := by simp [Value.toPlain, written]
  have doing := calls.doing_void (congrArg Attempt.void (b.rounds_of_eq node cap))
  rw [text] at doing
  have leads : course.LeadsTo (Job.IsRound node) Deed.RunsOrWarns s next p (p + 2) s.context
      (Attempt.tell b.appId .warning
        (.str s!"While loop reached max iterations ({limit.plain})") >>= fun _ =>
          Attempt.fire node "done") node
      fun ds pin l _ => ds = [] ∧ pin = "done" ∧ p + 1 < l := by
    refine leadsTo_bind (performs_of_goes (goes_tell current.ordersEnd (not_isRound_stop node)
      not_runsOrWarns_of_echo _ _ _ node)) ?_ ?_
    · rintro ds l d _ le ⟨rfl, -⟩
      exact leadsTo_fire ⟨rfl, rfl, le⟩
    · rintro ds l d e ⟨-, -, ⟨⟩⟩
  obtain ⟨ds, pin, l, d, ⟨rfl, rfl, after⟩, since⟩ := leads.since calls (Doing.acts doing).1
    (fun _ => ⟨_, rfl⟩) (not_isRound_fire node)
  exact ⟨_, .capped rfl (Nat.le_succ p) after text, Since.cons since doing rfl⟩

/-- A lap that never ends is the last thing that a loop comes to. -/
theorem Doing.loopSince_endless
    (doing : course.Doing s next p k c (.call (.fire node "loop") goesOn))
    (endless : ∀ q, ¬ course.EndsAt (s.inner next c (.call (.fire node "loop") goesOn)) k q) :
    course.LoopSince node s p k [(k, .call (.fire node "loop"))] := by
  refine Since.cons ?_ doing rfl
  refine doing.since_call (not_isRound_fire node "loop") fun {q d x} inner => ?_
  obtain ⟨-, v, rfl⟩ := (inner.yields ⟨doing.running, rfl⟩).1
  exact absurd ⟨d, v, inner⟩ (endless q)

/-- After a lap that ends comes what a further round does. -/
theorem Doing.loopSince_lap {ends : Continuation} {d : Context} {v : Value}
    (doing : course.Doing s next p k c (.call (.fire node "loop") goesOn))
    (calls : course.Calls p s j next)
    (inner : course.Returns (s.inner next c (.call (.fire node "loop") goesOn)) k q d (.ok v))
    (again : goesOn (.ok v) = .call (.rounds node count limit) ends)
    (returns : ∀ x, ∃ y, ends x = .ret y)
    (rest : course.LoopSince node (s.inner next d (.call (.rounds node count limit) ends))
      (q + 1) (q + 2) ds) :
    course.LoopSince node s p k ((k, .call (.fire node "loop")) :: ds) := by
  have doing' := doing.of_returns inner
  rw [again] at doing'
  have own : (Job.rounds node count limit).IsRound node := ⟨count, limit, rfl⟩
  have later : course.LoopSince node s p (q + 1 + 1) ds := by
    refine doing'.since_part own (fun {q' e x} inner' => ?_) rest
    obtain ⟨y, ends⟩ := returns x
    have back := doing'.of_returns inner'
    rw [ends] at back
    exact back.since_ret calls
  have round : course.Quiet (Job.IsRound node) Deed.RunsOrWarns s p (q + 1) (q + 1 + 1) := by
    refine doing'.quiet ?_
    rintro _ ⟨⟩
    exact id
  have lap : course.Quiet (Job.IsRound node) Deed.RunsOrWarns s p (k + 1) (q + 1) :=
    doing.quiet_of_returns (not_isRound_fire node "loop") inner
  obtain ⟨_, busy, -⟩ := id inner
  have after : k + 1 ≤ q + 1 + 1 := by
    have := busy.after
    omega
  exact Since.cons (later.of_quiet (lap.trans round) after) doing rfl

/-! ## The whole loop -/

/-- The rounds of a conditional loop.  The induction is on the number of laps that the cap still
allows. -/
theorem exists_lapsDone (cap : limit.asNum? = some (.int m)) (written : limit.hasText = true)
    {left : Nat} (calls : course.Calls p s (.rounds node count limit) next)
    (current : course.Current s p) (allowed : count + left = m) :
    ∃ laps k tail, course.LapsDone node p laps k ∧
      course.LoopEnds node limit m (count + laps.length) k tail ∧
      course.LoopSince node s p (p + 1)
        (laps.map (fun l => (l, .call (.fire node "loop"))) ++ tail) := by
  induction left generalizing s p next count with
  | zero =>
    obtain rfl : count = m := allowed
    obtain ⟨tail, ends, since⟩ := exists_loopEnds_of_cap cap written current calls
    exact ⟨[], p, tail, .none (Nat.le_refl p), ends, since⟩
  | succ left ih =>
    have below : count < m := by omega
    obtain ⟨finds, doing, quiet, weighs⟩ := current.doing_asks cap below calls
    rcases doing.finds_or_asks with
      ⟨v, l, le, found, doing', quiet'⟩ | ⟨ref, t, next', source, pulls, endless, since⟩
    · have asked : p ≤ p + 2 := Nat.le_add_right p 2
      have later {ds : List (Nat × Deed)} (since : course.LoopSince node s p l ds) :
          course.LoopSince node s p (p + 1) ds :=
        since.of_quiet (quiet.trans quiet') (Nat.le_of_succ_le le)
      cases truth : v.isTruthy with
      | false =>
        obtain ⟨ends, fires, returns⟩ := weighs.refuses v truth
        rw [fires] at doing'
        exact ⟨[], p, _, .none (Nat.le_refl p), .refused below asked found truth,
          later (doing'.loopSince_done calls returns)⟩
      | true =>
        obtain ⟨goesOn, ends, fires, again, returns⟩ := weighs.holds v truth
        rw [fires] at doing'
        have calls' : course.Calls l _ (.fire node "loop") goesOn := ⟨doing'.running, rfl⟩
        by_cases endless : ∀ q, ¬ course.EndsAt
            (s.inner next s.context (.call (.fire node "loop") goesOn)) l q
        · exact ⟨[], p, _, .none (Nat.le_refl p),
            .endless below asked found truth calls' endless,
            later (doing'.loopSince_endless endless)⟩
        · obtain ⟨q, d, w, inner⟩ := not_forall_not.mp endless
          have doing'' := doing'.of_returns inner
          rw [again] at doing''
          have epoch : d.epoch = s.context.epoch := (inner.yields calls').1.1.epoch
          obtain ⟨laps, k, tail, done, ending, rest⟩ := ih ⟨doing''.running, rfl⟩
            (current.inner doing''.busy epoch) (by omega)
          refine ⟨l :: laps, k, tail, .lap asked found truth calls' ⟨d, w, inner⟩ done, ?_,
            later (doing'.loopSince_lap calls inner (again w) returns rest)⟩
          rw [List.length_cons, show count + (laps.length + 1) = count + 1 + laps.length by omega]
          exact ending
    · exact ⟨[], p, [], .none (Nat.le_refl p),
        .asking below (Nat.le_add_right p 2) source pulls endless,
        Since.of_quiet since quiet (Nat.le_succ _)⟩

/-- A conditional loop with a cap makes no more laps than the cap allows.  Before each lap, and not
before the last one has come to an end, it asks for the condition and finds that it holds.  When it
has reached the cap it makes one warning, and when it finds before that the condition does not hold
it makes none; in both cases it then runs the wires of `done`, once.  The execution runs no other
wires by itself and makes no other warnings.  This holds whatever happens when the condition is
pulled and along the wires, as long as the chain is current; if one of them goes on for ever, it
holds up to there.  The cap has to be a number that can be written, since the warning names it. -/
theorem conditional_loop_ends {id : String} {pin? : Option String} {n : Node}
    (calls : course.Calls p s (.execute id pin?) next) (found : b.circuit.node? id = some n)
    (kind : n.kind = "whileLoop") (cap : (b.roundLimit n).asNum? = some (.int m))
    (written : (b.roundLimit n).hasText = true) (current : course.Current s p) :
    ∃ laps k tail, laps.length ≤ m ∧ course.LapsDone n.id p laps k ∧
      course.LoopEnds n.id (b.roundLimit n) m laps.length k tail ∧
      course.Account (Job.IsRound n.id) Deed.RunsOrWarns s p
        (laps.map (fun l => (l, .call (.fire n.id "loop"))) ++ tail) := by
  have named : NodeKind.ofName? n.kind = some .whileLoop := by
    rw [kind]
    decide
  obtain ⟨quiet, f, doing, ok, error⟩ := calls.doing_perform (Job.IsRound n.id)
    Deed.RunsOrWarns found named fun _ notice => notice
  have begins : (b.perform n .whileLoop).run.bind f
      = .call (.rounds n.id 0 (b.roundLimit n)) fun x => f (x.map fun _ => ()) :=
    congrArg (Script.call _) (funext fun x => by cases x <;> rfl)
  rw [begins] at doing
  obtain ⟨laps, k, tail, done, ends, inner⟩ :=
    exists_lapsDone cap written ⟨doing.running, rfl⟩ (current.inner doing.busy rfl)
      (Nat.zero_add m)
  rw [Nat.zero_add] at ends
  refine ⟨laps, k, tail, ends.le_cap, done.of_le (Nat.le_add_right p 2), ends, Since.account ?_⟩
  have own : (Job.rounds n.id 0 (b.roundLimit n)).IsRound n.id := ⟨0, _, rfl⟩
  refine Since.of_quiet (doing.since_part own (fun {q e x} returns => ?_) inner)
    (quiet.trans (doing.quiet ?_)) (Nat.le_add_right _ 2)
  · have back := doing.of_returns returns
    cases x with
    | ok v =>
      rw [Except.map, ok] at back
      exact back.since_ret calls
    | error fault =>
      -- were the rounds to fail, the node would make an entry, which is no warning
      rw [Except.map, error] at back
      obtain ⟨l, d, r, le, ended, quiet', -⟩ := goes_log current.ordersEnd
        (not_isRound_stop n.id) not_runsOrWarns_of_echo b.appId .error _ n.id (fun entry => entry)
        _ back
      exact (ended.since_ret calls).of_quiet quiet' le
  · rintro _ ⟨⟩
    exact fun round => round

end Course

/-! ## A loop inside of a loop -/

/-- A drawing in which a loop with the cap two runs a loop with the cap one, and the condition of
both holds for ever. -/
def nestApp : App where
  id := "nest"
  name := .str "nest"
  nodes := [{ id := "start", kind := "onAppStart" },
    { id := "yes", kind := "numberLiteral", properties := [("value", .int 1)] },
    { id := "outer", kind := "whileLoop", properties := [("maxIterations", .int 2)] },
    { id := "inner", kind := "whileLoop", properties := [("maxIterations", .int 1)] }]
  wires := [.link "start" "exec" "outer" "exec", .link "yes" "value" "outer" "condition",
    .link "yes" "value" "inner" "condition", .link "outer" "loop" "inner" "exec"]

def nestBoard : Board := nestApp.board

def nestRun : Run nestBoard .silent := .ofStart _ _ ()

/-- The log has three warnings in the end, and one of them at most is of the outer loop. -/
theorem Course.conditional_loop_ends_nestRun : ∃ s next laps k tail,
    nestRun.Calls 10 s (.execute "outer" (some "exec")) next ∧
      (nestRun.state 75).logs.countP (·.level == .warning) = 3 ∧
      laps.length ≤ 2 ∧ nestRun.LapsDone "outer" 10 laps k ∧
      nestRun.LoopEnds "outer" (.int 2) 2 laps.length k tail ∧
      nestRun.Account (Job.IsRound "outer") Deed.RunsOrWarns s 10
        (laps.map (fun l => (l, .call (.fire "outer" "loop"))) ++ tail) := by
  have spans : nestRun.Spans 2 10 (.execute "outer" (some "exec")) 75 := by decide +kernel
  have still : nestRun.InFirstEpoch 10 75 := by decide +kernel
  obtain ⟨s, next, calls⟩ := spans.1.exists_calls
  obtain ⟨laps, k, tail, all⟩ :=
    conditional_loop_ends calls rfl rfl rfl (by decide +kernel) (spans.current calls still)
  exact ⟨s, next, laps, k, tail, calls, by decide +kernel, all⟩

end Wireboard
