import Wireboard.Proofs.Engine.Course
import Wireboard.Proofs.Engine.Dangling

/-!
# Failures are contained

Anything may fail: a node, a pull, a request, a listener, and the listener to whom a failure is
reported.  Whatever it is, it is caught where a node is executed or a value is pulled, at the
latest.  So what executes nodes never fails itself, and a wire that comes after a failure is
followed all the same.

That no failure comes out is a matter of the terms (`Board.Yields.ok_of_executes`).  Of a job that
does not come out at all nothing is lost either: if everything is answered, the strand is back or at
work, at any time (`Course.returns_or_busy`).

Which wires are followed is read off from what the strand calls (`Course.called`).  Between two
wires it is inside of the node at the end of the first one, as long as that takes; and when it is
back it goes on with the second, because the node has not failed (`Course.called_of_follows`).
-/

namespace Wireboard

variable {σ : Type} {config : Config} {app : App} {b : Board} {env : Surroundings σ}

/-- The job executes nodes: those at the end of wires, one of them, or a chain of them. -/
def Job.executes : Job → Bool
  | .fire _ _ | .execute _ _ | .chain _ | .handle _ _ => true
  | _ => false

/-- What executes nodes does not fail. -/
theorem Board.Yields.ok_of_executes {c d : Context} {j : Job} {x : Except Fault Value}
    (yields : b.Yields c j d x) (executes : j.executes = true) : ∃ v, x = .ok v := by
  cases j with
  | fire | execute | chain | handle => exact yields.2
  | _ => cases executes

variable {course : Course b env} {s t : Strand} {j : Job} {next : Continuation} {p q k l : Nat}

namespace Course

/-! ## Back or at work -/

/-- A strand that does something else does not return. -/
theorem Busy.not_returns (busy : course.Busy s p l t) (working : t.result? = none) (d : Context)
    (x : Except Fault Value) : ¬ course.Returns s p l d x := by
  rintro ⟨u, busy', -, -, code⟩
  cases busy.runs.eq busy'.runs
  rw [Strand.result?, code] at working
  cases working

/-- A strand that is busy with a job is busy with it later, unless the job returns now. -/
theorem Busy.later (busy : course.Busy s p l t) (served : course.Served s p) :
    (∃ d x, course.Returns s p l d x) ∨ ∃ k u, l < k ∧ course.Busy s p k u := by
  have within : course.Within s p (l + 1) := busy.within_succ
  have soon {u : Strand} (running : (course.state (l + 1)).running? = some u) (id : u.id = t.id)
      (above : s.stack.length < u.stack.length) : ∃ k u, l < k ∧ course.Busy s p k u :=
    ⟨l + 1, u, Nat.lt_succ_self l, Nat.lt_succ_of_lt busy.after, within,
      ⟨running, id.trans busy.runs.2⟩, above⟩
  cases code : t.code with
  | ret x =>
    by_cases top : t.stack.length = s.stack.length + 1
    · exact .inl ⟨t.context, x, t, busy, top, rfl, code⟩
    · right
      cases stacked : t.stack with
      | nil =>
        have above := busy.above
        rw [stacked] at above
        cases above
      | cons goesOn rest =>
        refine soon (running_after_return busy.runs.1 code stacked) rfl ?_
        have above := busy.above
        rw [stacked, List.length_cons] at above top
        show s.stack.length < rest.length
        omega
  | act a goesOn =>
    exact .inr (soon ((course.move l).running_of_act busy.runs.1 code) rfl busy.above)
  | wait r goesOn =>
    have again := served.answers busy code
    rw [← busy.runs.2] at again
    obtain ⟨k, reply, after, still, running⟩ := exists_answer ⟨busy.runs.1, rfl⟩ code again
    refine .inr ⟨k, _, after, Nat.lt_trans busy.after after, ?_, ⟨running, busy.runs.2⟩, busy.above⟩
    exact busy.within_of fun i u early before runs => absurd runs (still i u early before)
  | call i goesOn =>
    have calls : course.Calls l t i goesOn := ⟨busy.runs.1, code⟩
    exact .inr (soon calls.running_after rfl (Nat.lt_succ_of_lt busy.above))

/-- If everything is answered, a job that is called returns, or the strand is at work for ever. -/
theorem returns_or_busy (calls : course.Calls p s j next) (served : course.Served s p) :
    (∃ q d x, course.Returns s p q d x) ∨ ∀ k, ∃ l t, k ≤ l ∧ course.Busy s p l t := by
  by_cases returns : ∃ q d x, course.Returns s p q d x
  · exact .inl returns
  · refine .inr fun k => ?_
    induction k with
    | zero =>
      refine ⟨p + 1, _, Nat.zero_le _, Nat.lt_succ_self p, ?_, ⟨calls.running_after, rfl⟩,
        Nat.lt_succ_self _⟩
      intro l t after before
      omega
    | succ k ih =>
      obtain ⟨l, t, ge, busy⟩ := ih
      rcases busy.later served with ⟨d, x, back⟩ | ⟨l', u, after, busy'⟩
      · exact absurd ⟨l, d, x, back⟩ returns
      · exact ⟨l', u, Nat.lt_of_le_of_lt ge after, busy'⟩

/-! ## What a job calls -/

variable (course)

/-- What is called at a time by the job that the strand has called, not by one further inside. -/
def calledAt (s : Strand) (l : Nat) : Option Job :=
  (course.state l).running?.bind fun t =>
    if t.id = s.id ∧ t.stack.length = s.stack.length + 1 then t.job? else none

/-- What is called between two times by the job that the strand has called, in order. -/
def called (s : Strand) (p q : Nat) : List Job :=
  (List.range' (p + 1) (q - (p + 1))).filterMap (course.calledAt s)

variable {course}

@[simp] theorem called_begin : course.called s p (p + 1) = [] := by
  simp [called]

theorem called_succ (after : p < q) :
    course.called s p (q + 1) = course.called s p q ++ (course.calledAt s q).toList := by
  have length : q + 1 - (p + 1) = (q - (p + 1)) + 1 := by omega
  have last : p + 1 + (q - (p + 1)) = q := by omega
  rw [called, length, List.range'_1_concat, last, List.filterMap_append, called]
  cases here : course.calledAt s q <;> simp [here]

/-- Nothing is called by the job while the strand is further inside, or does something else. -/
theorem called_eq_of_none (after : p < k) (le : k ≤ q)
    (none : ∀ i, k ≤ i → i < q → course.calledAt s i = .none) :
    course.called s p q = course.called s p k := by
  induction q, le using Nat.le_induction with
  | base => rfl
  | succ q le ih =>
    rw [called_succ (Nat.lt_of_lt_of_le after le), none q le (Nat.lt_succ_self q),
      ih fun i ge lt => none i ge (Nat.lt_succ_of_lt lt)]
    exact List.append_nil _

theorem calledAt_of_running (running : (course.state l).running? = some t) (id : t.id = s.id)
    (height : t.stack.length = s.stack.length + 1) : course.calledAt s l = t.job? := by
  rw [calledAt, running, Option.bind_some, if_pos ⟨id, height⟩]

theorem calledAt_of_deep (deep : ∀ t, course.Runs s.id l t → s.stack.length + 1 < t.stack.length) :
    course.calledAt s l = none := by
  unfold calledAt
  cases running : (course.state l).running? with
  | none => rfl
  | some t =>
    rw [Option.bind_some, if_neg]
    rintro ⟨id, height⟩
    have lower := deep t ⟨running, id⟩
    omega

end Course

/-- What is done at the end of a wire. -/
def Wire.job (w : Wire) : Job := .execute w.target.node (some w.target.pin)

/-- What is done for the wires of an output, in the order of the drawing. -/
def App.fanOut (app : App) (node pin : String) : List Job :=
  (app.wires.filter (decide <| ·.source = ⟨node, pin⟩)).map Wire.job

namespace Course

variable {c : Context}

open Board (followCode wireCode)

/-- The strand is about to follow these wires, after it has made certain calls. -/
structure Follows (course : Course b env) (s : Strand) (next : Continuation) (p k : Nat)
    (c : Context) (ws : List Wire) (done : List Job) : Prop where
  after : p < k
  within : course.Within s p k
  running : (course.state k).running? =
    some { s with context := c, code := followCode ws, stack := next :: s.stack }
  epoch : c.epoch = s.context.epoch
  called : course.called s p k = done

variable {done : List Job} {ws : List Wire}

theorem Follows.busy (follows : course.Follows s next p k c ws done) :
    course.Busy s p k { s with context := c, code := followCode ws, stack := next :: s.stack } :=
  ⟨follows.after, follows.within, ⟨follows.running, rfl⟩, Nat.lt_succ_self _⟩

/-- Where the chain is current, the strand comes to execute the node at the end of the next wire. -/
theorem Follows.wire {w : Wire} (follows : course.Follows s next p k c (w :: ws) done)
    (current : (course.state k).epoch = s.context.epoch) :
    (course.state (k + 1)).running? =
        some { s with context := c, code := wireCode w ws, stack := next :: s.stack } ∧
      course.called s p (k + 1) = done ∧ course.called s p (k + 2) = done ++ [w.job] := by
  have running := follows.running
  rw [Board.followCode_cons] at running
  have fresh : (c.epoch != (course.state k).epoch) = false := by
    rw [follows.epoch, current]
    exact bne_self_eq_false _
  have running' : (course.state (k + 1)).running? =
      some { s with context := c, code := wireCode w ws, stack := next :: s.stack } := by
    have moved := (course.move k).running_of_act running rfl
    rw [moved]
    simp only [Machine.perform, fresh, cond_false]
  have looked : course.calledAt s k = none := calledAt_of_running running rfl rfl
  have executed : course.calledAt s (k + 1) = some w.job := calledAt_of_running running' rfl rfl
  have before : course.called s p (k + 1) = done := by
    rw [called_succ follows.after, looked, follows.called]
    exact List.append_nil _
  refine ⟨running', before, ?_⟩
  rw [called_succ (Nat.lt_succ_of_lt follows.after), executed, before]
  rfl

/-- When no wires are left, the job calls nothing more. -/
theorem Follows.called_eq (follows : course.Follows s next p k c [] done) (le : k ≤ q)
    (within : course.Within s p q) : course.called s p q = done := by
  have back := running_after_return follows.running rfl rfl
  have soon : q ≤ k + 1 := by
    refine Nat.le_of_not_lt fun later => ?_
    have above := within (k + 1) _ (Nat.lt_succ_of_lt follows.after) later ⟨back, rfl⟩
    exact Nat.lt_irrefl _ above
  rw [← follows.called]
  refine called_eq_of_none follows.after le fun i ge lt => ?_
  have here : i = k := by omega
  rw [here]
  exact calledAt_of_running follows.running rfl rfl

/-- At any later time the strand has not come back from the next wire, or it has gone on to follow
the others. -/
theorem Follows.step {w : Wire} (follows : course.Follows s next p k c (w :: ws) done) (le : k ≤ q)
    (current : ∀ l, p < l → l < q → (course.state l).epoch = s.context.epoch) :
    (course.called s p q <+: done ++ [w.job] ∧ ∀ d x, ¬ course.Returns s p q d x) ∨
      ∃ i d, i ≤ q ∧ course.Follows s next p i d ws (done ++ [w.job]) := by
  rcases Nat.eq_or_lt_of_le le with rfl | looked
  · refine .inl ⟨?_, follows.busy.not_returns (by rw [Board.followCode_cons]; rfl)⟩
    rw [follows.called]
    exact List.prefix_append _ _
  obtain ⟨running, before, after⟩ := follows.wire (current k follows.after looked)
  let t : Strand := { s with context := c, code := wireCode w ws, stack := next :: s.stack }
  have busy : course.Busy s p (k + 1) t :=
    ⟨Nat.lt_succ_of_lt follows.after, follows.busy.within_succ, ⟨running, rfl⟩,
      Nat.lt_succ_self _⟩
  rcases Nat.eq_or_lt_of_le looked with rfl | executed
  · refine .inl ⟨?_, busy.not_returns rfl⟩
    rw [before]
    exact List.prefix_append _ _
  -- while the strand is inside of the node, the job calls nothing else
  have inside {i : Nat} (later : k + 1 < i)
      (deep : ∀ l u, k + 1 < l → l < i → course.Runs s.id l u →
        s.stack.length + 1 < u.stack.length) : course.called s p i = done ++ [w.job] := by
    rw [← after]
    refine called_eq_of_none (Nat.lt_succ_of_lt busy.after) later fun l ge lt => ?_
    exact calledAt_of_deep fun u runs => deep l u ge lt runs
  by_cases back : ∃ i u, k + 1 < i ∧ i ≤ q ∧ course.Runs s.id i u ∧
      u.stack.length ≤ s.stack.length + 1
  · obtain ⟨i, u, later, le', runs, low⟩ := back
    have calls : course.Calls (k + 1) t w.job (Board.followNext ws) := ⟨running, rfl⟩
    obtain ⟨i', d, x, later', le'', deeper, yields, running'⟩ := exists_back calls later runs low
    obtain ⟨same, v, rfl⟩ := yields
    exact .inr ⟨i', d, Nat.le_trans le'' le',
      { after := Nat.lt_trans busy.after later'
        within := busy.within_of deeper
        running := running'
        epoch := same.epoch.trans follows.epoch
        called := inside later' deeper }⟩
  · have high {i : Nat} {u : Strand} (later : k + 1 < i) (le' : i ≤ q)
        (runs : course.Runs s.id i u) : s.stack.length + 1 < u.stack.length :=
      Nat.lt_of_not_le fun low => back ⟨i, u, later, le', runs, low⟩
    have same : course.called s p q = done ++ [w.job] :=
      inside executed fun l u after' before' => high after' (Nat.le_of_lt before')
    refine .inl ⟨⟨[], by rw [same, List.append_nil]⟩, ?_⟩
    rintro d x ⟨u, busy', height, -⟩
    have above := high executed (Nat.le_refl q) busy'.runs
    omega

/-- As long as the chain is current, the wires are followed one after the other, and when the job
returns they have all been followed.  The induction is on the wires that are left. -/
theorem called_of_follows (follows : course.Follows s next p k c ws done) (le : k ≤ q)
    (within : course.Within s p q)
    (current : ∀ l, p < l → l < q → (course.state l).epoch = s.context.epoch) :
    course.called s p q <+: done ++ ws.map Wire.job ∧
      ∀ d x, course.Returns s p q d x → course.called s p q = done ++ ws.map Wire.job := by
  induction ws generalizing k c done with
  | nil =>
    have same : course.called s p q = done := follows.called_eq le within
    rw [same, List.map_nil, List.append_nil]
    exact ⟨List.prefix_refl done, fun _ _ _ => rfl⟩
  | cons w ws ih =>
    rw [List.map_cons, List.append_cons]
    rcases follows.step le current with ⟨early, unreturned⟩ | ⟨i, d, le', follows'⟩
    · exact ⟨early.trans (List.prefix_append _ _), fun d x returns =>
        absurd returns (unreturned d x)⟩
    · exact ih follows' le'

end Course

/-- Surroundings in which everything fails, the listener for the log included. -/
def Surroundings.failing : Surroundings Unit where
  react _ _ := (some { result := .error (.raised "no") }, ())
  permission _ := .error (.raised "no")
  random _ := (.int 0, ())
  ask _ _ := (.now (.error (.raised "no")), [], ())
  resume _ _ _ := (.error (.raised "no"), [], ())
  load _ _ := .error (.raised "no")
  save _ _ _ := (.error (.raised "no"), ())
  remove _ _ := (.error (.raised "no"), ())

/-- A drawing in which one trigger leads to three nodes that need the world outside. -/
def ruinApp : App where
  id := "ruin"
  name := .str "ruin"
  nodes := [{ id := "start", kind := "onAppStart" }, { id := "show", kind := "setText" },
    { id := "tell", kind := "sendNotification" }, { id := "keep", kind := "saveData" }]
  wires := [.link "start" "exec" "show" "exec", .link "start" "exec" "tell" "exec",
    .link "start" "exec" "keep" "exec"]

def ruinBoard : Board := ruinApp.board

theorem ruinBoard_built : Board.ofApp {} ruinApp = .ok ruinBoard := rfl

def ruinRun : Run ruinBoard .failing := .ofStart _ _ ()

end Wireboard
