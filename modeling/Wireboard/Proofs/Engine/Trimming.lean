import Wireboard.Proofs.Circuit
import Wireboard.Proofs.Engine.JobBodies

/-!
# Drawings without dangling wires

A wire dangles if there is no node at one of its ends.  Without such wires a drawing means nearly
the same (`Board.trims_of_ofApp`).  The nodes and the functions are the same; so is what enters an
input, provided that no dangling wire was drawn into it before one that does not dangle
(`App.Unblocked`), because an input takes the first wire.  The wires that leave a pin are those that
lead to a node.

It follows that all bodies are the same, but for the one that runs the wires of a pin
(`Board.body_trimmed`).  This is so for nodes that are there.  For others it is not, since a wire
may leave a node that is not there, or enter one; so it matters that a strand which begins at a
trigger never comes to speak of a node that is missing, unless it is to execute it
(`Board.grounding`).
-/

namespace Wireboard

/-! ## Trimmed drawings -/

namespace App

variable (app : App)

/-- The wire leads from a node to a node. -/
def anchors (w : Wire) : Bool := app.hasNode w.source.node && app.hasNode w.target.node

/-- The drawing without the wires that dangle. -/
def trimmed : App := { app with wires := app.wires.filter app.anchors }

/-- No input is taken by a wire that dangles: where there is a wire from a node to an input of a
node, the first wire into that input is one. -/
def Unblocked : Prop :=
  ∀ w ∈ app.wires, app.anchors w = true → w.target.pin ≠ "exec" →
    (app.wires.find? (decide <| ·.target = w.target)).all app.anchors = true

instance : Decidable app.Unblocked := inferInstanceAs (Decidable (∀ w ∈ app.wires, _))

/-- Where no input is blocked, trimming takes a wire out of an input only if it dangles. -/
theorem find?_trimmed {app : App} (unblocked : app.Unblocked) {p : PinRef} (data : p.pin ≠ "exec") :
    app.trimmed.wires.find? (decide <| ·.target = p)
      = (app.wires.find? (decide <| ·.target = p)).filter app.anchors := by
  show (app.wires.filter app.anchors).find? _ = _
  rw [List.find?_filter]
  cases first : app.wires.find? (decide <| ·.target = p) with
  | none =>
    refine List.find?_eq_none.mpr fun w member anchored => ?_
    have enters := (of_decide_eq_true anchored).2
    exact List.find?_eq_none.mp first w member enters
  | some w =>
    cases anchored : app.anchors w with
    | true =>
      obtain ⟨enters, before, after, eq, others⟩ := List.find?_eq_some_iff_append.mp first
      rw [Option.filter_some, if_pos anchored, List.find?_eq_some_iff_append]
      refine ⟨by simp [anchored, enters], before, after, eq, fun w' member => ?_⟩
      have other : ¬ w'.target = p := by simpa using others w' member
      simp [other]
    | false =>
      rw [Option.filter_some, if_neg (by rw [anchored]; exact Bool.false_ne_true)]
      refine List.find?_eq_none.mpr fun w' member found => ?_
      obtain ⟨anchored', enters⟩ := of_decide_eq_true found
      have target : w'.target = p := of_decide_eq_true enters
      have free := unblocked w' member anchored' (by rw [target]; exact data)
      rw [target, first, Option.all_some, anchored] at free
      cases free

end App

namespace Board

/-- The second board is the first one without the wires that dangle. -/
inductive Trims (b : Board) : Board → Prop where
  | intro {outgoing : PinIndex (List Wire)} {incoming : PinIndex Wire} {b' : Board} :
      b' = { b with circuit := { b.circuit with outgoing, incoming } } →
      (∀ {node pin}, b.hasNode node = true → pin ≠ "exec" →
        b'.source? node pin = b.source? node pin) →
      (∀ {node pin}, b.hasNode node = true →
        b'.circuit.wiresFrom node pin
          = (b.circuit.wiresFrom node pin).filter fun w => b.hasNode w.target.node) →
      Trims b b'

variable {b b' : Board} {config : Config} {app : App}

/-- A trimmed drawing can be run if the drawing can. -/
theorem trims_of_ofApp (built : Board.ofApp config app = .ok b) (unblocked : app.Unblocked) :
    ∃ b', Board.ofApp config app.trimmed = .ok b' ∧ b.Trims b' := by
  have has := hasNode_of_ofApp built
  have into := wireInto?_of_ofApp built
  have out := wiresFrom_of_ofApp built
  obtain ⟨named, eq⟩ := ofApp_eq_ok_iff.mp built
  let b' : Board := { b with circuit := { b.circuit with
    outgoing := Circuit.outgoingIndex app.trimmed.wires
    incoming := Circuit.incomingIndex app.trimmed.wires } }
  have built' : Board.ofApp config app.trimmed = .ok b' :=
    ofApp_eq_ok_iff.mpr ⟨named, by subst eq; rfl⟩
  have into' := wireInto?_of_ofApp built'
  have out' := wiresFrom_of_ofApp built'
  refine ⟨b', built', .intro rfl ?_ ?_⟩
  · intro node pin grounded data
    unfold source?
    rw [into', into, App.find?_trimmed unblocked data]
    cases first : app.wires.find? (decide <| ·.target = ⟨node, pin⟩) with
    | none => rfl
    | some w =>
      cases anchored : app.anchors w with
      | true =>
        rw [Option.filter_some, if_pos anchored]
        rfl
      | false =>
        -- the wire enters a node, so there is none that it leaves
        have target : w.target = ⟨node, pin⟩ := by simpa using List.find?_some first
        have enters : app.hasNode w.target.node = true := by
          rw [target, ← has]
          exact grounded
        have nowhere : b.circuit.node? w.source.node = none := by
          rw [App.anchors, enters, Bool.and_true, ← has] at anchored
          exact Option.isNone_iff_eq_none.mp (by simpa [hasNode] using anchored)
        rw [Option.filter_some, if_neg (by rw [anchored]; exact Bool.false_ne_true)]
        dsimp only
        rw [nowhere]
  · intro node pin grounded
    rw [out', out]
    show (app.wires.filter app.anchors).filter _ = _
    rw [List.filter_filter, List.filter_filter]
    refine List.filter_congr fun w _ => ?_
    by_cases leaves : w.source = ⟨node, pin⟩
    · have source : app.hasNode node = true := by
        rw [← has]
        exact grounded
      simp only [App.anchors, has, source, leaves, Bool.true_and, Bool.and_comm]
    · simp [leaves]

/-! ## The bodies of trimmed drawings -/

section Bodies

/-- The boards differ in their wires only, and the node reads the same inputs in both. -/
inductive ReadsAlike (b : Board) (node : String) : Board → Prop where
  | intro {outgoing : PinIndex (List Wire)} {incoming : PinIndex Wire} :
      (∀ p, p ≠ "exec" → resolve { b with circuit := { b.circuit with outgoing, incoming } } node p
        = b.resolve node p) →
      ReadsAlike b node { b with circuit := { b.circuit with outgoing, incoming } }

theorem Trims.readsAlike (trims : b.Trims b') {node : String} (grounded : b.hasNode node = true) :
    b.ReadsAlike node b' := by
  cases trims with
  | intro eq sources _ =>
    subst eq
    refine .intro fun p data => ?_
    rw [resolve_eq, resolve_eq, sources grounded data]

variable {n : Node} {kind : NodeKind} (alike : b.ReadsAlike n.id b')

include alike

theorem resolveIndex_trimmed : b'.resolveIndex n = b.resolveIndex n := by
  cases alike with
  | intro same => simp only [resolveIndex, same "index" (by decide)]

theorem evaluate_trimmed (pin : String) : b'.evaluate n pin kind = b.evaluate n pin kind := by
  have index := resolveIndex_trimmed alike
  cases alike with
  | intro same =>
    cases kind with
    | concat | mathOp | compareValues | andOr =>
      simp only [evaluate, same "a" (by decide), same "b" (by decide)]
    | listGet => simp only [evaluate, same "list" (by decide), index]
    | listLength => simp only [evaluate, same "list" (by decide)]
    | numberOf | textOf | negate => simp only [evaluate, same "value" (by decide)]
    | geminiChat =>
      simp only [evaluate, pullChat, same "prompt" (by decide)]
      rfl
    | _ => rfl

theorem run?_trimmed : b'.run? n kind = b.run? n kind := by
  have index := resolveIndex_trimmed alike
  cases alike with
  | intro same =>
    cases kind with
    | setText | setStyle => simp only [run?, same "value" (by decide)]
    | showAlert => simp only [run?, same "message" (by decide)]
    | logMessage =>
      simp only [run?, same "message" (by decide)]
      rfl
    | setVariable => simp only [run?, runSetVariable, same "value" (by decide)]
    | listAdd => simp only [run?, runListAdd, same "list" (by decide), same "item" (by decide)]
    | listRemove => simp only [run?, runListRemove, same "list" (by decide), index]
    | saveData =>
      simp only [run?, runSave, same "value" (by decide)]
      rfl
    | setClipboard =>
      simp only [run?, runSetClipboard, same "value" (by decide)]
      rfl
    | getLocation =>
      refine congrArg some (bind_congr fun outcome => bind_congr fun stale => ?_)
      cases outcome <;> rfl
    | sendNotification =>
      simp only [run?, runNotification, same "body" (by decide)]
      rfl
    | functionCall =>
      simp only [run?, runFunctionCall, same "param1" (by decide), same "param2" (by decide)]
      rfl
    | _ => rfl

theorem perform_trimmed : b'.perform n kind = b.perform n kind := by
  have runs : b'.run? n kind = b.run? n kind := run?_trimmed alike
  unfold perform
  rw [runs]
  cases alike with
  | intro same =>
    cases b.run? n kind with
    | some run => rfl
    | none =>
      cases kind with
      | ifCondition => simp only [same "condition" (by decide)]
      | forLoop => simp only [same "start" (by decide), same "end" (by decide)]
      | httpRequest =>
        simp only [runHttp, same "url" (by decide), same "body" (by decide)]
        rfl
      | functionReturn =>
        simp only [runReturn, same "value" (by decide)]
        rfl
      | _ => rfl

end Bodies

theorem Trims.node? (trims : b.Trims b') (id : String) :
    b'.circuit.node? id = b.circuit.node? id := by
  cases trims with
  | intro eq _ _ =>
    subst eq
    rfl

theorem Trims.wiresFrom (trims : b.Trims b') {node pin : String}
    (grounded : b.hasNode node = true) :
    b'.circuit.wiresFrom node pin
      = (b.circuit.wiresFrom node pin).filter fun w => b.hasNode w.target.node := by
  cases trims with
  | intro _ _ wires => exact wires grounded

theorem Filed.hasNode_id {id : String} {n : Node} (filed : b.Filed)
    (found : b.circuit.node? id = some n) : b.hasNode n.id = true := by
  rw [filed.id_eq found]
  exact hasNode_of_node? found

theorem pull_trimmed (trims : b.Trims b') (filed : b.Filed) (node pin : String) :
    b'.pull node pin = b.pull node pin := by
  unfold pull
  rw [trims.node?]
  cases found : b.circuit.node? node with
  | none => rfl
  | some n =>
    dsimp only
    cases NodeKind.ofName? n.kind with
    | none => rfl
    | some kind =>
      dsimp only
      rw [evaluate_trimmed (trims.readsAlike (filed.hasNode_id found))]
      cases trims with
      | intro eq _ _ =>
        subst eq
        rfl

theorem execute_trimmed (trims : b.Trims b') (filed : b.Filed) (node : String)
    (pin? : Option String) : b'.execute node pin? = b.execute node pin? := by
  unfold execute
  rw [trims.node?]
  cases found : b.circuit.node? node with
  | none => rfl
  | some n =>
    dsimp only
    cases NodeKind.ofName? n.kind with
    | none => rfl
    | some kind =>
      dsimp only
      rw [perform_trimmed (trims.readsAlike (filed.hasNode_id found))]
      cases trims with
      | intro eq _ _ =>
        subst eq
        rfl

theorem rounds_trimmed (trims : b.Trims b') {node : String} (grounded : b.hasNode node = true)
    (count : Nat) (limit : Value) : b'.rounds node count limit = b.rounds node count limit := by
  cases trims.readsAlike grounded with
  | intro same =>
    simp only [rounds, same "condition" (by decide)]
    rfl

/-- The job is one whose body has a sense in a trimmed drawing: the nodes it takes for granted are
there, and it is not about a single input. -/
def Grounds (b : Board) : Job → Prop
  | .fire node _ | .iterate node _ _ | .rounds node _ _ | .chain node => b.hasNode node = true
  | .resolve _ _ => False
  | .execute _ _ | .pull _ _ | .start | .stop | .handle _ _ | .log _ _ => True

/-- Only the wires that leave a pin make a difference. -/
theorem body_trimmed (trims : b.Trims b') (filed : b.Filed) {j : Job} (grounds : b.Grounds j)
    (other : ∀ node pin, j ≠ .fire node pin) : b'.body j = b.body j := by
  cases j with
  | fire node pin => exact absurd rfl (other node pin)
  | resolve node pin => exact grounds.elim
  | execute node pin? => exact congrArg Attempt.void (execute_trimmed trims filed node pin?)
  | pull node pin => exact pull_trimmed trims filed node pin
  | rounds node count limit =>
    exact congrArg Attempt.void (rounds_trimmed trims grounds count limit)
  | iterate | chain | start | stop | handle | log =>
    cases trims with
    | intro eq _ _ =>
      subst eq
      rfl

/-! ## Scripts of trimmed drawings -/

/-- A timer is set for a node that is there. -/
def Arms (b : Board) : Act → Prop
  | .arm node _ _ => b.hasNode node = true
  | _ => True

/-- To speak of nodes that are there. -/
def grounding (b : Board) : Etiquette :=
  { Etiquette.steady b.Arms b.Grounds with ground := fun id => b.hasNode id = true }

theorem Filed.hasNode (filed : b.Filed) {n : Node} {kind : String}
    (listed : n ∈ b.circuit.nodesOf kind) : b.hasNode n.id = true :=
  hasNode_of_node? (filed.found listed)

theorem grounding_suits (filed : b.Filed) : b.grounding.Suits b 3 := by
  have unarmed {a : Act} (low : a.rank < 3) : b.Arms a := by
    cases a with
    | arm => exact absurd low (Nat.lt_irrefl 3)
    | _ => trivial
  have there {n : Node} {kind : NodeKind} (holds : b.Holds n kind) : b.hasNode n.id = true := by
    obtain ⟨⟨_, found⟩, -⟩ := holds
    exact filed.hasNode_id found
  refine Etiquette.suits_of_begins ?_ ?_ ?_ ?_ ?_ (fun _ _ => trivial) (fun _ => .inl trivial)
    (fun _ _ => trivial) fun _ _ => trivial
  · exact ⟨fun rank => unarmed (by omega), trivial⟩
  · exact ⟨fun rank _ _ => unarmed (by omega), fun _ => trivial, fun _ => trivial⟩
  · constructor
    case toils =>
      intro n
      constructor
      case look => rintro _ a (rfl | rfl) - <;> trivial
      all_goals
        intros
        trivial
    case fire | iterate | rounds =>
      intros
      assumption
    case filed => exact there
    all_goals
      intros
      trivial
  · exact ⟨⟨fun _ => trivial, fun _ _ _ => trivial, filed.hasNode⟩, fun _ => filed.hasNode⟩
  · intro _ j node grounds named
    cases j with
    | fire | iterate | rounds | chain =>
      cases named
      exact grounds
    | _ => cases named

end Board

end Wireboard
