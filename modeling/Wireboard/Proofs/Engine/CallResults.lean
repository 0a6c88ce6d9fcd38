import Wireboard.Proofs.Circuit
import Wireboard.Proofs.Engine.Insights

/-!
# The results of calls

A call of a function has parameters and a return slot of its own, in a frame of its chain.  But the
node that makes the call keeps the result in one place, which all its calls share, in whatever frame
and whatever chain.  So what a caller pulls is not the result of its own call.  It is the result of
the call that the node completed last, which may have been made deeper down by a recursion that the
caller has entered since, or by another chain.

`Run.pull_yields_last_return` says this exactly.  Its two halves are independent:

* the result of a node changes only where the node completes a call, and then it is what the call
  has just returned (`Run.completes_of_remember`, `Machine.Moves.result_cases`);
* to pull the result reads it out, without a moment in which anybody else could move
  (`Run.running_after_pull`).
-/

namespace Wireboard

variable {σ : Type} {b : Board} {env : Surroundings σ} {m m' : Machine σ} {s t : Strand}

/-! ## Nodes that call functions -/

/-- The name of the kind of nodes that call functions. -/
theorem NodeKind.ofName?_functionCall : NodeKind.ofName? "functionCall" = some .functionCall := by
  decide

variable {n : Node}

/-- Whatever is filed under the id of a node that calls functions is that node. -/
theorem Board.marks_of_functionCall {config : Config} {app : App}
    (built : Board.ofApp config app = .ok b) {c : String} (found : b.circuit.node? c = some n)
    (kind : n.kind = "functionCall") : b.Marks (· = c) where
  executed {node n' kind'} found' named isCall := by
    rw [← (filed_of_ofApp built).id_eq found', isCall, found] at found'
    cases found'
    rw [kind, NodeKind.ofName?_functionCall] at named
    exact (Option.some.inj named).symm
  pressed {n' kind'} member pressed isCall := by
    have here := (filed_of_ofApp built).found member
    rw [isCall, found] at here
    cases here
    exact absurd (kind.symm.trans pressed) (by decide)

/-! ## What a node keeps -/

namespace Machine

/-- The result of a node after a move: what was kept there by it, or what was there before. -/
theorem Moves.result_cases {impulse? : Option Impulse} (move : m.Moves b env impulse? m')
    (c : String) :
    (∃ v, m.act? = some (.remember c (.result v)) ∧ (m'.scratchOf c).result = v) ∨
      ((∀ v, m.act? ≠ some (.remember c (.result v))) ∧
        (m'.scratchOf c).result = (m.scratchOf c).result) := by
  rcases move.alters.scratch with ⟨node, memo, acts, kept⟩ | ⟨other, same⟩
  · have here : m'.scratchOf c
        = if node = c then (m.scratchOf node).keep memo else m.scratchOf c := by
      simp only [scratchOf, kept, Table.get?_put]
      split <;> rfl
    rw [here, acts]
    by_cases same : node = c
    · rw [if_pos same, same]
      cases memo with
      | result v => exact .inl ⟨v, rfl, rfl⟩
      | _ => exact .inr ⟨(fun _ h => by cases h), rfl⟩
    · rw [if_neg same]
      exact .inr ⟨fun v h => same (by cases h; rfl), rfl⟩
  · exact .inr ⟨fun v => other c (.result v), by rw [scratchOf, scratchOf, same]⟩

end Machine

namespace Run

variable (run : Run b env) {c : String} {i j k : Nat} {v : Value}

/-- At that time the node completes a call: a strand keeps as the result of the node what a call
that it has just ended returned. -/
structure Completes (c : String) (v : Value) (k : Nat) : Prop where
  keeps : (run.state k).act? = some (.remember c (.result v))
  returned : ∃ s p, (run.state k).running? = some s ∧ k = p + 2 ∧ run.Popped p v s

/-- A node that calls functions keeps nothing as its result but what a call has returned. -/
theorem completes_of_remember (marks : b.Marks (· = c))
    (keeps : (run.state k).act? = some (.remember c (.result v))) : run.Completes c v k := by
  obtain ⟨s, running, acts⟩ := Option.bind_eq_some_iff.mp keeps
  obtain ⟨μ, knows, warrants⟩ := run.warranted marks running acts
  have insight : μ = .currentReturn v := warrants rfl
  rw [insight] at knows
  obtain ⟨-, p, time, popped⟩ := knows
  exact ⟨keeps, s, p, running, time, popped⟩

/-- Since a node completed a call there was a last one that it completed, and its result is what
that one returned. -/
theorem exists_last_completion (marks : b.Marks (· = c)) (completes : run.Completes c v i)
    (after : i < j) :
    ∃ k w, i ≤ k ∧ k < j ∧ run.Completes c w k ∧
      (∀ l, k < l → l < j → ∀ u, ¬ run.Completes c u l) ∧
      ((run.state j).scratchOf c).result = w := by
  induction j with
  | zero => exact absurd after (Nat.not_lt_zero i)
  | succ j ih =>
    have upTo : i ≤ j := Nat.le_of_lt_succ after
    rcases (run.move j).result_cases c with ⟨w, keeps, result⟩ | ⟨other, same⟩
    · refine ⟨j, w, upTo, Nat.lt_succ_self j, run.completes_of_remember marks keeps, ?_, result⟩
      intro l later before
      omega
    · have earlier : i < j := by
        rcases Nat.lt_or_eq_of_le upTo with lt | rfl
        · exact lt
        · exact absurd completes.keeps (other v)
      obtain ⟨k, w, le, lt, last, none, result⟩ := ih earlier
      refine ⟨k, w, le, Nat.lt_succ_of_lt lt, last, ?_, same.trans result⟩
      intro l later before u completes'
      rcases Nat.lt_succ_iff_lt_or_eq.mp before with within | rfl
      · exact none l later within u completes'
      · exact other u completes'.keeps

end Run

/-! ## Pulling the result -/

/-- To pull the result of a node that calls functions is to open the pull, to look at what the node
keeps and to close the pull. -/
theorem Board.body_pull_result {c : String} (found : b.circuit.node? c = some n)
    (kind : n.kind = "functionCall") (id : n.id = c) :
    ∃ next : Bool → Code,
      (b.body (.pull c "result")).run = .act (.enter (Context.pullKey c "result")) next ∧
      next true = .act (.scratch c) fun kept : Scratch =>
        .act (.leave (Context.pullKey c "result")) fun _ => .ret (.ok kept.result) := by
  have named : NodeKind.ofName? n.kind = some .functionCall := by
    rw [kind, NodeKind.ofName?_functionCall]
  subst id
  simp only [Board.body, Board.pull, found, named]
  exact ⟨_, rfl, rfl⟩

namespace Run

variable (run : Run b env) {c : String} {i j k : Nat} {v : Value}

variable {next : Continuation}

/-- A pull whose key is not open, and that closes itself after one look, takes five moves of the
strand that makes it; nobody else moves meanwhile. -/
theorem running_after_sight (a : Act) (reply : a.Reply) {node pin key : String}
    {entered : Bool → Code} {after : a.Reply → Code}
    (body : (b.body (.pull node pin)).run = .act (.enter key) entered)
    (looks : entered true = .act a after)
    (closes : after reply = .act (.leave key) fun _ => .ret (.ok v)) (sees : ∀ (running? : Option
      Strand) (context : Context), context.frames = s.context.frames → Machine.perform b env {
      run.state j with running? } context a = (reply, context, { run.state j with running? }))
    (running : (run.state j).running? = some s) (code : s.code = .call (.pull node pin) next)
    (unopened : key ∉ s.context.opened) :
    (run.state (j + 5)).running? = some { s with code := next (.ok v) } := by
  let inside : Context := { s.context with opened := key :: s.context.opened }
  have enters : s.context.enter key = some inside := by simp [Context.enter, unopened, inside]
  have leaves : inside.leave key = s.context := Context.leave_enter enters
  -- The machine with the strand in the middle of the pull; nothing else changes meanwhile.
  let amid (context : Context) (code : Code) : Machine σ :=
    { run.state j with running? := some { s with context, code, stack := next :: s.stack } }
  have step {k : Nat} {context : Context} {code : Code}
      (here : run.state k = amid context code) :
      run.state (k + 1)
        = (amid context code).stepStrand b env
            { s with context, code, stack := next :: s.stack } := by
    rw [← here]
    exact (run.move k).eq_stepStrand (by rw [here])
  have called : run.state (j + 1) = amid s.context (b.body (.pull node pin)).run := by
    rw [(run.move j).eq_stepStrand running, Machine.stepStrand, code]
  have opened : run.state (j + 2) = amid inside (.act a after) := by
    rw [step called, Machine.stepStrand, ← looks]
    simp only [body, Machine.perform]
    rw [enters]
  have looked : run.state (j + 3) = amid inside (.act (.leave key) fun _ => .ret (.ok v)) := by
    have seen : Machine.perform b env (amid inside (.act a after)) inside a = (reply, inside, _) :=
      sees _ inside rfl
    rw [step opened, Machine.stepStrand]
    simp only [seen, closes]
    rfl
  have closed : run.state (j + 4) = amid s.context (.ret (.ok v)) := by
    rw [step looked, ← leaves]
    rfl
  rw [step closed]
  rfl

/-- A pull whose key is not open, and that takes one look, takes five moves of the strand that makes
it; nobody else moves meanwhile. -/
theorem running_after_look (a : Act) (reply : a.Reply) {give : a.Reply → Value}
    {node pin key : String} {entered : Bool → Code}
    (body : (b.body (.pull node pin)).run = .act (.enter key) entered)
    (looks : entered true = .act a fun r => .act (.leave key) fun _ => .ret (.ok (give r))) (sees :
      ∀ {m : Machine σ} {context : Context}, m.scratch = (run.state j).scratch → context.frames =
      s.context.frames → Machine.perform b env m context a = (reply, context, m))
    (running : (run.state j).running? = some s) (code : s.code = .call (.pull node pin) next)
    (unopened : key ∉ s.context.opened) :
    (run.state (j + 5)).running? = some { s with code := next (.ok (give reply)) } :=
  run.running_after_sight a reply body looks rfl (fun _ _ frames => sees rfl frames) running code
    unopened

/-- To pull the result of a node that calls functions gives what the node keeps as its result. -/
theorem running_after_pull (found : b.circuit.node? c = some n) (kind : n.kind = "functionCall")
    (id : n.id = c) (running : (run.state j).running? = some s)
    (code : s.code = .call (.pull c "result") next)
    (unopened : Context.pullKey c "result" ∉ s.context.opened) :
    (run.state (j + 5)).running?
      = some { s with code := next (.ok ((run.state j).scratchOf c).result) } := by
  obtain ⟨entered, body, looks⟩ := Board.body_pull_result found kind id
  refine run.running_after_look (.scratch c) ((run.state j).scratchOf c) body looks ?_ running code
    unopened
  intro m context scratch _
  simp only [Machine.perform, Machine.scratchOf, scratch]

/-- What a pull of the result of a node gives, once the node has completed a call: what the last
call that it has completed returned, whoever made it. -/
theorem pull_yields_last_return {config : Config} {app : App}
    (built : Board.ofApp config app = .ok b) {n : Node} (found : b.circuit.node? c = some n)
    (kind : n.kind = "functionCall") (completes : run.Completes c v i) (after : i < j)
    {next : Continuation}
    (running : (run.state j).running? = some s) (code : s.code = .call (.pull c "result") next)
    (unopened : Context.pullKey c "result" ∉ s.context.opened) :
    ∃ k w, i ≤ k ∧ k < j ∧ run.Completes c w k ∧
      (∀ l, k < l → l < j → ∀ u, ¬ run.Completes c u l) ∧
      (run.state (j + 5)).running? = some { s with code := next (.ok w) } ∧
      (k = i → w = v) := by
  have marks : b.Marks (· = c) := Board.marks_of_functionCall built found kind
  have id : n.id = c := by
    have filed : (c, n) ∈ b.circuit.nodes := Table.mem_of_get? found
    rw [Board.nodes_of_ofApp built] at filed
    exact Circuit.id_of_mem_nodeTable filed
  obtain ⟨k, w, le, lt, last, none, result⟩ := run.exists_last_completion marks completes after
  have yields := run.running_after_pull found kind id running code unopened
  rw [result] at yields
  refine ⟨k, w, le, lt, last, none, yields, fun same => ?_⟩
  rw [same] at last
  have kept := last.keeps.symm.trans completes.keeps
  cases kept
  rfl

end Run

/-! ## A caller that is given another's result -/

/-- A drawing in which a caller asks for a word, and enters a function that asks again before it
reports what it was told the first time.  The depth of calls is limited, so this ends. -/
def askingApp : App where
  id := "asking"
  name := .str "asking"
  nodes := [{ id := "start", kind := "onAppStart" },
    { id := "ask", kind := "functionCall", properties := [("funcName", .str "echo")] },
    { id := "again", kind := "functionCall", properties := [("funcName", .str "retry")] },
    { id := "report", kind := "log" },
    { id := "echo", kind := "functionDefine", properties := [("funcName", .str "echo")] },
    { id := "answer", kind := "functionReturn" },
    { id := "heard", kind := "getVariable" },
    { id := "retry", kind := "functionDefine", properties := [("funcName", .str "retry")] },
    { id := "word", kind := "stringLiteral", properties := [("value", .str "deep")] },
    { id := "learn", kind := "setVariable" }]
  wires := [.link "start" "exec" "ask" "exec", .link "ask" "exec" "again" "exec",
    .link "again" "exec" "report" "exec", .link "echo" "exec" "answer" "exec",
    .link "retry" "exec" "learn" "exec", .link "learn" "exec" "ask" "exec",
    .link "heard" "value" "ask" "param1", .link "echo" "param1" "answer" "value",
    .link "word" "value" "learn" "value", .link "ask" "result" "report" "message"]

/-- At most two calls may be under way. -/
def shallow : Config := { maxCallDepth := .int 2 }

def askingBoard : Board := askingApp.board shallow

theorem askingBoard_built : Board.ofApp shallow askingApp = .ok askingBoard := rfl

def askingRun : Run askingBoard .silent := .ofStart _ _ ()

/-- The first call returns nothing and the one deeper down a word; the caller is given the word, in
no call of its own and without having asked again. -/
theorem Run.pull_yields_last_return_askingRun :
    askingRun.Completes "ask" .null 36 ∧ askingRun.Completes "ask" (.str "deep") 85 ∧
      ∃ s next, (askingRun.state 154).running? = some s ∧ s.context.frames = [] ∧
        s.code = .call (.pull "ask" "result") next ∧
        ∃ k w, 85 ≤ k ∧ k < 154 ∧ askingRun.Completes "ask" w k ∧
          (askingRun.state 159).running? = some { s with code := next (.ok w) } := by
  have found : ∃ n, askingBoard.circuit.node? "ask" = some n ∧ n.kind = "functionCall" :=
    ⟨_, rfl, rfl⟩
  obtain ⟨n, found, kind⟩ := found
  have marks := Board.marks_of_functionCall askingBoard_built found kind
  have first : askingRun.Completes "ask" .null 36 :=
    askingRun.completes_of_remember marks (by decide +kernel)
  have deeper : askingRun.Completes "ask" (.str "deep") 85 :=
    askingRun.completes_of_remember marks (by decide +kernel)
  have pulls : (askingRun.state 154).running?.map (fun s => (s.job?, s.context))
      = some (some (.pull "ask" "result"), { epoch := 0 }) := by decide +kernel
  obtain ⟨s, running, same⟩ := Option.map_eq_some_iff.mp pulls
  have context : s.context = { epoch := 0 } := congrArg Prod.snd same
  obtain ⟨next, code⟩ := Strand.code_of_job? (congrArg Prod.fst same)
  have unopened : Context.pullKey "ask" "result" ∉ s.context.opened := by
    rw [context]
    exact List.not_mem_nil
  obtain ⟨k, w, -, before, last, none, yields, -⟩ := pull_yields_last_return askingRun
    askingBoard_built found kind first (by decide) running code unopened
  have since : 85 ≤ k := Nat.le_of_not_lt fun early => none 85 early (by decide) _ deeper
  exact ⟨first, deeper, s, next, running, by rw [context], code, k, w, since, before, last, yields⟩

end Wireboard
