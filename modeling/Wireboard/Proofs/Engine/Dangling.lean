import Wireboard.Proofs.Engine.StrandEtiquette
import Wireboard.Proofs.Engine.Likeness
import Wireboard.Proofs.Engine.Insights
import Wireboard.Proofs.Engine.Trimming

/-!
# Dangling wires

A wire that leads nowhere is passed over, and one that comes from nowhere is never reached.  So a
drawing and its trimmed form can be played side by side, and nobody sees a difference
(`App.dangling_ignored`), unless an input was taken by a dangling wire.

The two do not go in step.  Where wires are run one after the other, the strand that comes to a
dangling wire looks at the epoch, executes a node that is not there and returns; this takes three
steps that touch nothing (`Machine.Skims`), while the other strand stays where it is.  So the states
of one are compared with the states of the other after the same course of impulses and turns
(`Machine.Reaches`), not after the same number of steps: ahead, when the drawing takes a step
(`Machine.Like.ahead`), and behind, when the trimmed form does (`Machine.Like.behind`).
-/

namespace Wireboard

variable {σ : Type} {b b' : Board} {env : Surroundings σ} {m m' m₁ : Machine σ} {s s' : Strand}

/-! ## Scripts that run wires -/

variable {code : Code} {w : Wire}

namespace Board

/-- What a strand does that runs wires. -/
def followCode (ws : List Wire) : Code := (Attempt.void (follow ws)).run

/-- What it does after a wire. -/
def followNext (ws : List Wire) : Continuation
  | .ok _ => followCode ws
  | .error f => .ret (.error f)

/-- What it does for one wire, once the chain was found current. -/
def wireCode (w : Wire) (ws : List Wire) : Code :=
  .call (.execute w.target.node (some w.target.pin)) (followNext ws)

@[simp] theorem followCode_cons (w : Wire) (ws : List Wire) :
    followCode (w :: ws) = .act .isStale fun (stale : Bool) =>
      bif stale then .ret (.ok .null) else wireCode w ws := by
  refine congrArg (Script.act .isStale) (funext fun (stale : Bool) => ?_)
  cases stale with
  | true => rfl
  | false =>
    refine congrArg (Script.call _) (funext fun x => ?_)
    cases x <;> rfl

theorem body_fire (b : Board) (node pin : String) :
    (b.body (.fire node pin)).run = followCode (b.circuit.wiresFrom node pin) := rfl

/-- A node that is not there does nothing. -/
theorem body_execute_of_missing {node : String} (missing : b.hasNode node = false)
    (pin? : Option String) : (b.body (.execute node pin?)).run = .ret (.ok .null) := by
  have none : b.circuit.node? node = none := by simpa [hasNode] using missing
  show (Attempt.void (b.execute node pin?)).run = _
  unfold execute
  rw [none]
  rfl

/-- The wires that lead to a node. -/
def leading (b : Board) (ws : List Wire) : List Wire := ws.filter fun w => b.hasNode w.target.node

/-- The second script is what the first one becomes in the trimmed drawing. -/
inductive Shortens (b : Board) :
    Code → Code → Prop where
  | same {code : Code} :
      code.Follows b.grounding (fun _ _ => True) () → Shortens b code code
  | wires (ws : List Wire) : Shortens b (followCode ws) (followCode (b.leading ws))
  | wire {w : Wire} (ws : List Wire) : b.hasNode w.target.node = true →
      Shortens b (wireCode w ws) (wireCode w (b.leading ws))

/-- Machines that play a drawing and its trimmed form. -/
def shortening (b : Board) : Likeness where
  code := b.Shortens
  history := Eq
  admits := b.Grounds
  code_job grounds := .same ⟨grounds, fun _ => trivial⟩
  admits_handle _ _ := trivial
  history_cons _ same := by rw [same]

theorem shortens_next (b : Board) (ws : List Wire) (x : Except Fault Value) :
    b.Shortens (followNext ws x) (followNext (b.leading ws) x) := by
  cases x with
  | ok v => exact .wires ws
  | error f => exact .same trivial

theorem leading_of_missing (missing : b.hasNode w.target.node = false) (ws : List Wire) :
    b.leading (w :: ws) = b.leading ws := by
  rw [leading, List.filter_cons, if_neg (by rw [missing]; exact Bool.false_ne_true)]
  rfl

/-- A wire that leads to a node is run in both drawings. -/
theorem parallel_of_leads (leads : b.hasNode w.target.node = true) (ws : List Wire) :
    Machine.Parallel b.shortening b b' (followCode (w :: ws))
      (followCode (b.leading (w :: ws))) := by
  rw [leading, List.filter_cons, if_pos leads, followCode_cons, followCode_cons]
  refine .act (fun _ _ _ eq => by cases eq) fun (stale : Bool) => ?_
  cases stale with
  | true => exact .same trivial
  | false => exact .wire ws leads

/-- A script does the same in the trimmed drawing, unless it comes to a wire that leads nowhere. -/
theorem Shortens.parallel (trims : b.Trims b') (filed : b.Filed)
    {code' : Code} (shortens : b.Shortens code code') :
    Machine.Parallel b.shortening b b' code code' ∨
      ∃ w ws, code = followCode (w :: ws) ∧ code' = followCode (b.leading ws) ∧
        b.hasNode w.target.node = false := by
  have governs := (grounding_suits filed).governs
  have bodies {j : Job} (grounds : b.Grounds j) :
      b.Shortens (b.body j).run (b'.body j).run := by
    by_cases fires : ∃ node pin, j = .fire node pin
    · obtain ⟨node, pin, rfl⟩ := fires
      rw [body_fire, body_fire, trims.wiresFrom grounds]
      exact .wires _
    · rw [body_trimmed trims filed grounds fun node pin eq => fires ⟨node, pin, eq⟩]
      exact .same (governs () j grounds)
  cases shortens with
  | same follows =>
    left
    cases code with
    | ret r => exact .ret
    | act a next =>
      refine .act ?_ fun r => .same (follows.2.2 r trivial)
      rintro node period? repeats rfl
      exact follows.1
    | wait r next => exact .wait fun x => .same (follows.2 x)
    | call j next => exact .call (bodies follows.1) fun x => .same (follows.2 x)
  | wires ws =>
    cases ws with
    | nil => exact .inl .ret
    | cons w ws =>
      cases leads : b.hasNode w.target.node with
      | false => exact .inr ⟨w, ws, rfl, by rw [leading_of_missing leads], leads⟩
      | true => exact .inl (parallel_of_leads leads ws)
  | wire ws leads => exact .inl (.call (bodies trivial) (shortens_next b ws))

end Board

/-! ## What a machine comes to -/

namespace Machine

open Board (followCode followNext wireCode)

/-- The machine comes to a state, if the world does certain things and turns are taken, as the
course says in order, each while nobody is running. -/
inductive Reaches (b : Board) (env : Surroundings σ) (m₀ : Machine σ) :
    List (Option Impulse) → Machine σ → Prop where
  | refl : Reaches b env m₀ [] m₀
  | runs {course : List (Option Impulse)} {m : Machine σ} {s : Strand} :
      Reaches b env m₀ course m → m.running? = some s →
      Reaches b env m₀ course (m.stepStrand b env s)
  | moves {course : List (Option Impulse)} {m m' : Machine σ} {impulse? : Option Impulse} :
      Reaches b env m₀ course m → m.running? = none → m.Moves b env impulse? m' →
      Reaches b env m₀ (course ++ [impulse?]) m'

/-- The strand that is running comes to a point without touching the machine. -/
inductive Skims (b : Board) (env : Surroundings σ) : Machine σ → Machine σ → Prop where
  | refl (m : Machine σ) : Skims b env m m
  | step {m m₁ : Machine σ} {s t : Strand} :
      m.running? = some s → m.stepStrand b env s = { m with running? := some t } →
      Skims b env { m with running? := some t } m₁ → Skims b env m m₁

theorem Skims.eq (skims : Skims b env m m₁) : m₁ = { m with running? := m₁.running? } := by
  induction skims with
  | refl => rfl
  | step _ _ _ ih => exact ih

theorem Skims.reaches {m₀ : Machine σ} {course : List (Option Impulse)}
    (skims : Skims b env m m₁) (reaches : Reaches b env m₀ course m) :
    Reaches b env m₀ course m₁ := by
  induction skims with
  | refl => exact reaches
  | step running stepped _ ih =>
    refine ih ?_
    rw [← stepped]
    exact reaches.runs running

variable {ws : List Wire}

/-- Before a wire, a strand looks at the epoch. -/
theorem stepStrand_followCode (code : s.code = followCode (w :: ws)) :
    m.stepStrand b env s = { m with running? := some { s with
      code := bif s.context.epoch != m.epoch then .ret (.ok .null) else wireCode w ws } } := by
  rw [Board.followCode_cons] at code
  simp only [stepStrand, code]
  rfl

/-- A wire that leads nowhere is passed over in two steps. -/
theorem skims_wireCode (missing : b.hasNode w.target.node = false) (s : Strand) :
    Skims b env { m with running? := some { s with code := wireCode w ws } }
      { m with running? := some { s with code := followCode ws } } := by
  refine .step rfl (t := { s with
    code := (b.body (.execute w.target.node (some w.target.pin))).run
    stack := followNext ws :: s.stack }) rfl ?_
  rw [Board.body_execute_of_missing missing]
  exact .step rfl rfl (.refl _)

/-! ## Side by side -/

section Strands

variable (around : m.Around b.shortening m') (like : s.Like b.shortening s')

include around like

/-- The chain is stale for both or for neither. -/
theorem Around.stale_eq : (s'.context.epoch != m'.epoch) = (s.context.epoch != m.epoch) := by
  cases around with
  | intro =>
    cases like with
    | intro => rfl

theorem lockstep (trims : b.Trims b') (parallel : Parallel b.shortening b b' s.code s'.code) :
    (m.stepStrand b env s).Like b.shortening (m'.stepStrand b' env s') := by
  have named : b'.appId = b.appId := by
    cases trims with
    | intro eq _ _ =>
      subst eq
      rfl
  exact around.stepStrand named .intro like parallel fun _ _ => rfl

/-- The strand on the left may go on with something else. -/
theorem Around.recode (running' : m'.running? = some s') (shortens : b.Shortens code s'.code) :
    { m with running? := some { s with code } }.Like b.shortening m' := by
  refine ⟨around.run _ m'.running?, ?_⟩
  rw [running']
  exact .some (like.recode shortens)

/-- A strand that finds its chain stale leaves the wires alone.  On the right there may be none
left; otherwise it finds the same there. -/
theorem Around.like_of_stale (stale : (s.context.epoch != m.epoch) = true)
    (code' : s'.code = followCode ws) :
    s'.code = .ret (.ok .null) ∨
      { m with running? := some { s with code := .ret (.ok .null) } }.Like b.shortening
        (m'.stepStrand b' env s') := by
  cases ws with
  | nil => exact .inl code'
  | cons w ws =>
    rw [stepStrand_followCode code', around.stale_eq like, stale]
    exact .inr ⟨around.run _ _, .some (like.recode (.same trivial))⟩

end Strands

section Simulation

variable (trims : b.Trims b') (filed : b.Filed)

include trims filed

/-- A step in the drawing is a step in its trimmed form, or the strand is about to pass over a wire
there that leads nowhere. -/
theorem Like.ahead (env : Surroundings σ) (like : m.Like b.shortening m')
    (running : m.running? = some s) :
    ∃ m₁ m₁', Skims b env (m.stepStrand b env s) m₁ ∧
      (m₁' = m' ∨ ∃ s', m'.running? = some s' ∧ m₁' = m'.stepStrand b' env s') ∧
      m₁.Like b.shortening m₁' := by
  obtain ⟨around, strands⟩ := like
  rw [running] at strands
  generalize running' : m'.running? = second at strands
  cases strands with
  | @some _ s' like =>
    rcases like.codes.parallel trims filed with parallel | ⟨w, ws, code, code', missing⟩
    · exact ⟨_, _, .refl _, .inr ⟨s', rfl, rfl⟩, lockstep around like trims parallel⟩
    · rw [stepStrand_followCode code]
      cases stale : s.context.epoch != m.epoch with
      | false =>
        refine ⟨_, m', skims_wireCode missing s, .inl rfl, ?_⟩
        exact around.recode like running' (by rw [code']; exact .wires ws)
      | true =>
        rcases around.like_of_stale like stale code' with ended | ends
        · refine ⟨_, m', .refl _, .inl rfl, ?_⟩
          exact around.recode like running' (by rw [ended]; exact .same trivial)
        · exact ⟨_, _, .refl _, .inr ⟨s', rfl, rfl⟩, ends⟩

omit filed in
/-- While the trimmed drawing takes a step, the other one passes over wires that lead nowhere and
takes that step too. -/
theorem exists_behind_wires {m₀ : Machine σ} {course : List (Option Impulse)} (ws : List Wire) :
    ∀ {m : Machine σ} {s : Strand}, m.Around b.shortening m' → s.Like b.shortening s' →
      m.running? = some s → s.code = followCode ws → s'.code = followCode (b.leading ws) →
      Reaches b env m₀ course m →
      ∃ m₁, Reaches b env m₀ course m₁ ∧ m₁.Like b.shortening (m'.stepStrand b' env s') := by
  induction ws with
  | nil =>
    intro m s around like running code code' reaches
    refine ⟨_, reaches.runs running, lockstep around like trims ?_⟩
    rw [code, code']
    exact .ret
  | cons w ws ih =>
    intro m s around like running code code' reaches
    cases leads : b.hasNode w.target.node with
    | true =>
      refine ⟨_, reaches.runs running, lockstep around like trims ?_⟩
      rw [code, code']
      exact Board.parallel_of_leads leads ws
    | false =>
      rw [Board.leading_of_missing leads] at code'
      have stepped := reaches.runs running
      rw [stepStrand_followCode code] at stepped
      cases stale : s.context.epoch != m.epoch with
      | false =>
        rw [stale] at stepped
        have passed := (skims_wireCode leads s).reaches stepped
        have rewired : { s with code := followCode ws }.Like b.shortening s' :=
          like.recode (by rw [code']; exact .wires ws)
        exact ih (around.run _ m'.running?) rewired rfl rfl code' passed
      | true =>
        rw [stale] at stepped
        rcases around.like_of_stale like stale code' with ended | ends
        · have ending : { s with code := .ret (.ok .null) }.Like b.shortening s' :=
            like.recode (by rw [ended]; exact .same trivial)
          refine ⟨_, stepped.runs rfl, lockstep (around.run _ m'.running?) ending trims ?_⟩
          rw [ended]
          exact .ret
        · exact ⟨_, stepped, ends⟩

/-- A step in the trimmed drawing is one in the drawing, perhaps with some before it. -/
theorem Like.behind {m₀ : Machine σ} {course : List (Option Impulse)}
    (like : m.Like b.shortening m') (running' : m'.running? = some s')
    (reaches : Reaches b env m₀ course m) :
    ∃ m₁, Reaches b env m₀ course m₁ ∧ m₁.Like b.shortening (m'.stepStrand b' env s') := by
  obtain ⟨around, strands⟩ := like
  rw [running'] at strands
  generalize running : m.running? = first at strands
  cases strands with
  | @some s _ like =>
    rcases like.codes.parallel trims filed with parallel | ⟨w, ws, code, code', missing⟩
    · exact ⟨_, reaches.runs running, lockstep around like trims parallel⟩
    · rw [← Board.leading_of_missing missing] at code'
      exact exists_behind_wires trims (w :: ws) around like running code code' reaches

/-! ## Whole courses -/

omit filed trims in
/-- What is done while nobody is running is done alike. -/
theorem Like.moves (b' : Board) (env : Surroundings σ) (like : m.Like b.shortening m')
    (idle : m.running? = none) {impulse? : Option Impulse}
    (admitted : ∀ i j, some i = impulse? → i.job? = some j → b.Grounds j) :
    m'.running? = none ∧
      (∀ m₁, m.Moves b env impulse? m₁ →
        ∃ m₁', m'.Moves b' env impulse? m₁' ∧ m₁.Like b.shortening m₁') ∧
      ∀ m₁', m'.Moves b' env impulse? m₁' →
        ∃ m₁, m.Moves b env impulse? m₁ ∧ m₁.Like b.shortening m₁' := by
  obtain ⟨around, strands⟩ := like
  rw [idle] at strands
  generalize idle' : m'.running? = second at strands
  cases strands with
  | none =>
    refine ⟨rfl, ?_⟩
    cases impulse? with
    | some i =>
      have received := around.receive idle idle' i fun j => admitted i j rfl
      constructor
      · rintro m₁ ⟨-, rfl⟩
        exact ⟨_, ⟨idle', rfl⟩, received⟩
      · rintro m₁' ⟨-, rfl⟩
        exact ⟨_, ⟨idle, rfl⟩, received⟩
    | none =>
      have stepped : Option.Rel (Machine.Like b.shortening) (m.step b env) (m'.step b' env) :=
        around.step_idle .intro idle idle'
      constructor
      · intro m₁ (step : m.step b env = some m₁)
        rw [step] at stepped
        generalize step' : m'.step b' env = after at stepped
        cases stepped with
        | some like => exact ⟨_, step', like⟩
      · intro m₁' (step' : m'.step b' env = some m₁')
        rw [step'] at stepped
        generalize step : m.step b env = after at stepped
        cases stepped with
        | some like => exact ⟨_, step, like⟩

variable {m₀ : Machine σ} (outset : m₀.Like b.shortening m₀) {course : List (Option Impulse)}
  (admitted : ∀ i j, some i ∈ course → i.job? = some j → b.Grounds j)

include outset admitted

/-- Whatever the drawing comes to, its trimmed form does. -/
theorem Reaches.trimmed (reaches : Reaches b env m₀ course m) :
    ∃ m₁ m', Skims b env m m₁ ∧ Reaches b' env m₀ course m' ∧ m₁.Like b.shortening m' := by
  induction reaches with
  | refl => exact ⟨m₀, m₀, .refl _, .refl, outset⟩
  | @runs course m s _ running ih =>
    obtain ⟨m₁, m', skims, reaches', like⟩ := ih admitted
    cases skims with
    | step running' stepped rest =>
      cases running.symm.trans running'
      rw [stepped]
      exact ⟨m₁, m', rest, reaches', like⟩
    | refl =>
      obtain ⟨m₁, m₁', skims, here | ⟨s', running', next⟩, like⟩ :=
        like.ahead trims filed env running
      · rw [here] at like
        exact ⟨m₁, m', skims, reaches', like⟩
      · rw [next] at like
        exact ⟨m₁, _, skims, reaches'.runs running', like⟩
  | @moves course m m₂ impulse? _ idle move ih =>
    obtain ⟨m₁, m', skims, reaches', like⟩ := ih fun i j member =>
      admitted i j (List.mem_append_left _ member)
    cases skims with
    | step running => cases idle.symm.trans running
    | refl =>
      obtain ⟨idle', ahead, -⟩ := like.moves b' env idle fun i j eq =>
        admitted i j (List.mem_append_right _ (List.mem_singleton.mpr eq))
      obtain ⟨m₂', move', like⟩ := ahead m₂ move
      exact ⟨m₂, m₂', .refl _, reaches'.moves idle' move', like⟩

/-- Whatever the trimmed form comes to, the drawing does. -/
theorem Reaches.untrimmed (reaches' : Reaches b' env m₀ course m') :
    ∃ m, Reaches b env m₀ course m ∧ m.Like b.shortening m' := by
  induction reaches' with
  | refl => exact ⟨m₀, .refl, outset⟩
  | runs _ running' ih =>
    obtain ⟨m, reaches, like⟩ := ih admitted
    exact like.behind trims filed running' reaches
  | @moves course m' m₂' impulse? _ idle' move' ih =>
    obtain ⟨m, reaches, like⟩ := ih fun i j member => admitted i j (List.mem_append_left _ member)
    have idle : m.running? = none := by
      have strands := like.running
      rw [idle'] at strands
      generalize m.running? = first at strands ⊢
      cases strands with
      | none => rfl
    obtain ⟨-, -, behind⟩ := like.moves b' env idle fun i j eq =>
      admitted i j (List.mem_append_right _ (List.mem_singleton.mpr eq))
    obtain ⟨m₂, move, like⟩ := behind m₂' move'
    exact ⟨m₂, reaches.moves idle move, like⟩

end Simulation

/-- The machines differ in their strands at most, and everything that can be seen of them is the
same. -/
def SameView (m m' : Machine σ) : Prop :=
  m' = { m with running? := m'.running?, queue := m'.queue, calls := m'.calls }

theorem SameView.logs (view : m.SameView m') : m'.logs = m.logs := by
  unfold SameView at view
  rw [view]
  rfl

theorem Like.sameView (like : m.Like b.shortening m') : m.SameView m' := by
  obtain ⟨around, -⟩ := like
  cases around with
  | @intro history _ _ _ same => cases (same : m.history = history); rfl

end Machine

namespace Run

variable (run : Run b env)

/-- What the world did and which turns were taken up to a time, in order. -/
def course : Nat → List (Option Impulse)
  | 0 => []
  | k + 1 => if (run.state k).running?.isNone then course k ++ [run.impulse? k] else course k

/-- A run comes to its states by its own course. -/
theorem reaches (k : Nat) : Machine.Reaches b env (run.state 0) (run.course k) (run.state k) := by
  induction k with
  | zero => exact .refl
  | succ k ih =>
    have move := run.move k
    unfold course
    cases running : (run.state k).running? with
    | none => exact ih.moves running move
    | some s =>
      rw [move.eq_stepStrand running]
      exact ih.runs running

end Run

/-- The impulse is about a single pin, whether it belongs to a node or not. -/
def Impulse.isPinwise : Impulse → Bool
  | .enter _ _ _ (.resolve _ _) | .enter _ _ _ (.executePin _ _) => true
  | _ => false

theorem Impulse.grounds {i : Impulse} (whole : i.isPinwise = false) {j : Job}
    (job : i.job? = some j) : b.Grounds j := by
  cases i with
  | enter label? tracked frames e =>
    cases job
    cases e with
    | resolve | executePin => cases whole
    | _ => trivial
  | stop | log =>
    cases job
    trivial
  | _ => cases job

/-- Dangling wires are ignored, if no input is taken by one: whatever a drawing comes to, it comes
to without them, and conversely, with the same variables, results, log, history and surroundings. -/
theorem App.dangling_ignored {config : Config} {app : App} (built : Board.ofApp config app = .ok b)
    (unblocked : app.Unblocked) :
    ∃ b', Board.ofApp config app.trimmed = .ok b' ∧
      ∀ {σ : Type} (env : Surroundings σ) (outside : σ) (course : List (Option Impulse)),
        (∀ i, some i ∈ course → i.isPinwise = false) →
        (∀ m, Machine.Reaches b env { outside } course m →
          ∃ m', Machine.Reaches b' env { outside } course m' ∧ m.SameView m') ∧
        ∀ m', Machine.Reaches b' env { outside } course m' →
          ∃ m, Machine.Reaches b env { outside } course m ∧ m.SameView m' := by
  have filed := Board.filed_of_ofApp built
  obtain ⟨b', built', trims⟩ := Board.trims_of_ofApp built unblocked
  refine ⟨b', built', fun {σ} env outside course whole => ?_⟩
  have outset : Machine.Like b.shortening { outside : Machine σ } { outside } :=
    ⟨.intro rfl .nil .nil fun _ none => (by cases none), .none⟩
  have admitted : ∀ i j, some i ∈ course → i.job? = some j → b.Grounds j :=
    fun i j member => Impulse.grounds (whole i member)
  constructor
  · intro m reaches
    obtain ⟨m₁, m', skims, reaches', like⟩ := reaches.trimmed trims filed outset admitted
    refine ⟨m', reaches', ?_⟩
    have view := like.sameView
    rw [skims.eq] at view
    exact view
  · intro m' reaches'
    obtain ⟨m, reaches, like⟩ := reaches'.untrimmed trims filed outset admitted
    exact ⟨m, reaches, like.sameView⟩

/-! ## A drawing with stray wires -/

/-- A drawing that reports a word, with wires to and from a node that is not there. -/
def strayApp : App where
  id := "stray"
  name := .str "stray"
  nodes := [{ id := "start", kind := "onAppStart" }, { id := "report", kind := "log" },
    { id := "word", kind := "stringLiteral", properties := [("value", .str "hello")] }]
  wires := [.link "start" "exec" "ghost" "exec", .link "ghost" "exec" "report" "exec",
    .link "start" "exec" "report" "exec", .link "word" "value" "report" "message",
    .link "ghost" "value" "report" "message"]

def strayBoard : Board := strayApp.board

theorem strayBoard_built : Board.ofApp {} strayApp = .ok strayBoard := rfl

def strayRun : Run strayBoard .silent := .ofStart _ _ ()

/-- Three of the wires dangle, and the word is reported all the same without them. -/
theorem App.dangling_ignored_strayRun :
    strayApp.Unblocked ∧ strayApp.trimmed.wires.length = 2 ∧
      ∃ b' m', Board.ofApp {} strayApp.trimmed = .ok b' ∧
        Machine.Reaches b' .silent { outside := () } (strayRun.course 28) m' ∧
        m'.logs = [⟨.info, .str "Runtime started"⟩, ⟨.info, .str "hello"⟩] := by
  have unblocked : strayApp.Unblocked := by decide
  have whole : (strayRun.course 28).all (fun i? => i?.all fun i => !i.isPinwise) = true := by
    decide +kernel
  have logged : (strayRun.state 28).logs
      = [⟨.info, .str "Runtime started"⟩, ⟨.info, .str "hello"⟩] := by decide +kernel
  obtain ⟨b', built', same⟩ := dangling_ignored strayBoard_built unblocked
  obtain ⟨ahead, -⟩ := same .silent () (strayRun.course 28) fun i member => by
    have checked := List.all_eq_true.mp whole _ member
    simpa using checked
  obtain ⟨m', reaches', view⟩ := ahead _ (strayRun.reaches 28)
  exact ⟨unblocked, by decide, b', m', built', reaches', view.logs.trans logged⟩

end Wireboard
