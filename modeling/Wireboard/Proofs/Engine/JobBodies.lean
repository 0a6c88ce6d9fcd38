import Wireboard.Proofs.Engine.Ranks
import Wireboard.Proofs.Engine.Etiquette
import Wireboard.Proofs.Engine.Inputs

/-!
# What the bodies of jobs do

The bodies are read once, here, for every etiquette at the same time.  An etiquette that suits a
board (`Etiquette.Suits`) allows what the bodies do, each thing in the place where it is done; then
all bodies follow it (`Etiquette.Suits.body_follows`).  So to know something about all bodies is to
write down an etiquette that says it, and to go through the places that matter to it.

The places are these.  Talk and the reading of data may stand anywhere.  What the user sees, a
variable and the next node along a wire come right after the chain was found current.  A node keeps
what the host gave it after the chain was found current, perhaps with an entry in the log between.
The lists and the stored data come with no such check.  A call of a function has its parameters from
the pins of the node that makes it, and nothing else was done before; its frame is taken away right
after the chain of the function has returned, whether it failed or not.  A request to the net is
what its node makes of what the pins have given, with an entry in the log between.

Parts that only talk, look at data or do the work of a single node are read under no more than what
they need (`Etiquette.Speaks`, `Etiquette.Looks`, `Etiquette.Toils`).  So these readings also serve
an etiquette that has nothing to say about chains.
-/

namespace Wireboard

/-! ## Places -/

/-- The act is part of an entry in the log, or of what a listener orders. -/
def Act.isTalk : Act → Bool
  | .journal _ _ | .notice _ | .dispatch _ _ | .callback (.log _ _) => true
  | _ => false

/-- The act is an entry in the log. -/
def Act.isEntry : Act → Bool
  | .journal _ _ => true
  | _ => false

/-- The entry says that a pull has found itself open. -/
def IsAlarm (level : Level) (message : Value) : Prop :=
  level = .error ∧ ∃ rest, message = .str ("Data cycle detected" ++ rest)

/-- The entry says something else. -/
def Plain (level : Level) (message : Value) : Prop := ¬ IsAlarm level message

variable {message : Value}

theorem Plain.info : Plain .info message := fun alarm => by cases alarm.1

theorem Plain.warning : Plain .warning message := fun alarm => by cases alarm.1

/-- Two letters are enough to tell. -/
theorem Plain.error {text : String} (other : ¬ "Da".toList <+: text.toList) :
    Plain .error (.str text) := by
  rintro ⟨-, rest, eq⟩
  rw [Value.str.inj eq, String.toList_append] at other
  exact other (List.IsPrefix.trans (by decide) (List.prefix_append _ _))

/-- The act opens or closes a pull. -/
def Act.turnsPull : Act → Bool
  | .enter _ | .leave _ => true
  | _ => false

/-- The entry of the store that an act touches. -/
def Act.entry? : Act → Option String
  | .load key | .save key _ | .remove key => some key
  | _ => none

theorem Act.opensFrame_of_rank {a : Act} (rank : a.rank = 1) : a.opensFrame = false := by
  cases a with
  | push => cases rank
  | _ => rfl

/-- The request goes to the net and not to the host. -/
def Request.isHttp : Request → Bool
  | .http _ => true
  | _ => false

/-- The node that a job is about, where it is taken for granted that there is one. -/
def Job.ground? : Job → Option String
  | .fire node _ | .iterate node _ _ | .rounds node _ _ | .chain node => some node
  | .execute _ _ | .pull _ _ | .resolve _ _ | .start | .stop | .handle _ _ | .log _ _ => none

namespace Board

variable (b : Board)

/-- The node belongs to the board and is of a kind. -/
def Holds (n : Node) (kind : NodeKind) : Prop :=
  (∃ id, b.circuit.node? id = some n) ∧ NodeKind.ofName? n.kind = some kind

/-- The node loads what is stored under a key. -/
structure Loading (n : Node) (key : String) : Prop where
  holds : b.Holds n .loadData
  keyed : b.config.storageKey (n.property "key") = .ok key

end Board

namespace Etiquette

variable (E : Etiquette)

/-- The mode in which talk may end. -/
inductive Talked (μ : E.Mode) : E.Mode → Prop where
  | refl : Talked μ μ
  | act {ν : E.Mode} {a : Act} {r : a.Reply} :
      Talked μ ν → a.isTalk = true → Talked μ (E.after ν a r)
  | stop {ν : E.Mode} {x : Except Fault Value} : Talked μ ν → Talked μ (E.returned ν .stop x)

/-- The chain was found current, and since then there was at most talk and something was kept. -/
inductive Checked : E.Mode → Prop where
  | check {μ : E.Mode} : E.ordinary μ → Checked (E.after μ .isStale false)
  | talk {μ ν : E.Mode} : Checked μ → E.Talked μ ν → Checked ν
  | keep {μ : E.Mode} {node : String} {memo : Memo} {r : Act.Reply (.remember node memo)} :
      Checked μ → Checked (E.after μ (.remember node memo) r)

/-- The engine was found started, and since then timers were set at most. -/
inductive Started : E.Mode → Prop where
  | status {μ : E.Mode} : E.ordinary μ → Started (E.after μ .status .started)
  | arm {μ : E.Mode} {node : String} {period? : Option Rat} {repeats : Bool}
      {r : Act.Reply (.arm node period? repeats)} :
      Started μ → Started (E.after μ (.arm node period? repeats) r)

/-- The mode after a value was pulled for an input pin. -/
def resolved (b : Board) (node pin : String) (μ : E.Mode) (x : Except Fault Value) : E.Mode :=
  match b.source? node pin with
  | none => μ
  | some p => E.returned μ (.pull p.node p.pin) x

/-- The mode after a call of a function has begun and its body has ended. -/
def called (μ : E.Mode) (f : Frame) (r : Act.Reply (.push f)) (entry : String)
    (x : Except Fault Value) : E.Mode :=
  E.returned (E.after μ (.push f) r) (.execute entry none) x

/-- Talk may stand anywhere. -/
structure Talks : Prop where
  act : ∀ {μ : E.Mode} {a : Act}, a.rank = 0 → E.allows μ a
  stop : ∀ {μ : E.Mode}, E.calls μ .stop

/-- What talk comes down to while the engine is neither started nor stopped by the script itself:
a stop is called only where a listener has ordered it, and an alarm is raised by pulls alone. -/
structure Speaks : Prop where
  act : ∀ {μ : E.Mode} {a : Act}, a.isTalk = true → a.isEntry = false → E.allows μ a
  entry : ∀ {μ : E.Mode} {level : Level} {message : Value}, Plain level message →
    E.allows μ (.journal level message)
  isStale : ∀ {μ : E.Mode}, E.allows μ .isStale
  stop : ∀ {μ : E.Mode} {c : Callback} {r : Reaction}, E.expects (.callback c) (some r) →
    Order.stop ∈ r.orders → E.calls μ .stop

/-- Data may be read in every ordinary mode. -/
structure Reads : Prop where
  act : ∀ {μ : E.Mode} {a : Act}, a.rank = 1 → a.opensPull = false → E.ordinary μ → E.allows μ a
  chat : ∀ {μ : E.Mode} {prompt : String}, E.ordinary μ → E.asks μ (.chat prompt)
  pull : ∀ {μ : E.Mode} {node pin : String}, E.ordinary μ → E.calls μ (.pull node pin)

/-- What reading comes down to at a node, but for its pins: the opening and closing of pulls is left
to the pulls themselves, and what is stored is read under the key of the node. -/
structure Glances (b : Board) (n : Node) : Prop where
  act : ∀ {μ : E.Mode} {a : Act}, a.rank = 1 → a.turnsPull = false → a.entry? = none →
    E.ordinary μ → E.allows μ a
  load : ∀ {μ : E.Mode} {key : String}, b.Loading n key → E.ordinary μ → E.allows μ (.load key)
  chat : ∀ {μ : E.Mode} {prompt : String}, E.ordinary μ → E.asks μ (.chat prompt)

/-- A node pulls what enters its own pins. -/
structure Looks (b : Board) (node : String) : Prop where
  pull : ∀ {μ : E.Mode} {pin : String} {p : PinRef}, E.ordinary μ → b.source? node pin = some p →
    E.calls μ (.pull p.node p.pin)

/-- A node may do the work that is its alone. -/
structure Toils (b : Board) (n : Node) : Prop where
  ask : ∀ {μ : E.Mode} {r : Request}, r.isHttp = false → E.ordinary μ → E.asks μ r
  look : ∀ {μ : E.Mode} {a : Act}, a = .depth ∨ a = .permission → E.ordinary μ → E.allows μ a
  display : ∀ {μ : E.Mode} {c : Callback}, E.ordinary μ →
    E.allows (E.after μ .isStale false) (.callback c)
  assign : ∀ {μ : E.Mode} {name : String} {v : Value}, E.ordinary μ → b.Holds n .setVariable →
    (n.propertyOr "varName" (.str "myVar")).toPlain = .ok name →
    E.allows (E.after μ .isStale false) (.assign name v)
  keep : ∀ {μ : E.Mode} {kind : NodeKind} {memo : Memo}, E.Checked μ → b.Holds n kind →
    kind ≠ .functionCall → E.allows μ (.remember n.id memo)
  collect : ∀ {μ : E.Mode} {kind : NodeKind} {v : Value}, E.ordinary μ →
    b.Holds n kind → kind = .listAdd ∨ kind = .listRemove → E.allows μ (.remember n.id (.result v))
  /-- What is stored is the text of what the pin of the node has given. -/
  save : ∀ {μ : E.Mode} {v : Value} {key text : String}, E.ready μ →
    b.Holds n .saveData → b.config.storageKey (n.property "key") = .ok key →
    (b.source? n.id "value" = none → v = .null) → v.toJson = .ok text →
    E.allows (E.resolved b n.id "value" μ (.ok v)) (.save key text)
  remove : ∀ {μ : E.Mode} {key : String}, E.ready μ → b.Holds n .deleteData →
    b.config.storageKey (n.property "key") = .ok key → E.allows μ (.remove key)

/-- Nodes may do their work, make requests to the net, call functions and go on. -/
structure Works (b : Board) : Prop where
  toils : ∀ n, E.Toils b n
  count : ∀ {μ : E.Mode} {node : String} {i : Num}, E.Checked μ →
    E.allows μ (.remember node (.index i))
  /-- A request is made of what the pins of the node have given, and after that there is only talk.
  -/
  send : ∀ {μ ν : E.Mode} {n : Node} {x y : Value} {r : Http.Request}, E.ready μ →
    b.Holds n .httpRequest → b.requestOf n x y = .ok r →
    (b.source? n.id "url" = none → x = .null) → (b.source? n.id "body" = none → y = .null) →
    E.Talked (E.resolved b n.id "body" (E.resolved b n.id "url" μ (.ok x)) (.ok y)) ν →
    E.asks ν (.http r)
  /-- A frame has the parameters that the pins of the node have given. -/
  push : ∀ {μ : E.Mode} {n : Node} {name : String} {x y : Value}, E.ready μ →
    b.Holds n .functionCall → Circuit.functionName b.config n = .ok name →
    (b.source? n.id "param1" = none → x = .null) → (b.source? n.id "param2" = none → y = .null) →
    E.allows (E.resolved b n.id "param2" (E.resolved b n.id "param1" μ (.ok x)) (.ok y))
      (.push { function := name, params := [("param1", x), ("param2", y)] })
  /-- A call returns what the pin of the node has given. -/
  setResult : ∀ {μ : E.Mode} {n : Node} {v : Value}, E.ready μ → b.Holds n .functionReturn →
    (b.source? n.id "value" = none → v = .null) →
    E.allows (E.resolved b n.id "value" μ (.ok v)) (.setResult v)
  /-- The body runs in the frame. -/
  function : ∀ {μ : E.Mode} {f : Frame} {r : Act.Reply (.push f)} {entry : String}, E.ordinary μ →
    b.circuit.functions.get? f.function = some entry →
    E.calls (E.after μ (.push f) r) (.execute entry none)
  /-- However the body has ended, the frame is taken away right afterwards. -/
  pop : ∀ {μ : E.Mode} {f : Frame} {r : Act.Reply (.push f)} {entry : String}
    {x : Except Fault Value}, E.ordinary μ → E.allows (E.called μ f r entry x) .pop
  ordinary_pop : ∀ {μ : E.Mode} {f : Frame} {r : Act.Reply (.push f)} {entry : String}
    {x : Except Fault Value} {v : Value}, E.ordinary μ →
    E.ordinary (E.after (E.called μ f r entry x) .pop v)
  /-- The node keeps what the call has just returned. -/
  result : ∀ {μ : E.Mode} {n : Node} {v : Value}, E.ordinary (E.after μ .pop v) →
    b.Holds n .functionCall →
    E.allows (E.after (E.after μ .pop v) .isStale false) (.remember n.id (.result v))
  ready_notice : ∀ {μ : E.Mode} {n : Notice} {r : Act.Reply (.notice n)}, E.ready μ →
    E.ready (E.after μ (.notice n) r)
  ready_depth : ∀ {μ : E.Mode} {r : Act.Reply .depth}, E.ready μ → E.ready (E.after μ .depth r)
  fire : ∀ {μ : E.Mode} {node pin : String}, E.ordinary μ → E.ground node →
    E.calls μ (.fire node pin)
  iterate : ∀ {μ : E.Mode} {node : String} {index stop : Num}, E.ordinary μ → E.ground node →
    E.calls μ (.iterate node index stop)
  rounds : ∀ {μ : E.Mode} {node : String} {count : Nat} {limit : Value}, E.ordinary μ →
    E.ground node → E.calls μ (.rounds node count limit)
  wire : ∀ {μ : E.Mode} {node pin : String}, E.ordinary μ →
    E.calls (E.after μ .isStale false) (.execute node (some pin))
  filed : ∀ {n : Node} {kind : NodeKind}, b.Holds n kind → E.ground n.id

/-- Chains may begin. -/
structure Triggers (b : Board) : Prop where
  chain : ∀ {μ : E.Mode}, E.ordinary μ → E.allows μ .beginChain
  press : ∀ {μ : E.Mode} {n : Node} {kind : String} {v : Value}, E.ordinary μ →
    n ∈ b.circuit.nodesOf kind → n.kind = "onKeyPress" → E.allows μ (.remember n.id (.result v))
  listed : ∀ {n : Node} {kind : String}, n ∈ b.circuit.nodesOf kind → E.ground n.id

/-- Chains may begin, and timers be set. -/
structure Begins (b : Board) : Prop extends E.Triggers b where
  arm : ∀ {μ : E.Mode} {n : Node} {kind : String} {period? : Option Rat} {repeats : Bool},
    E.Started μ → n ∈ b.circuit.nodesOf kind → E.allows μ (.arm n.id period? repeats)

/-- The etiquette allows what the bodies of jobs up to a rank do. -/
structure Suits (b : Board) (limit : Nat) : Prop where
  talks : E.Talks
  reads : 1 ≤ limit → E.Reads
  works : 2 ≤ limit → E.Works b
  begins : 3 ≤ limit → E.Begins b
  rank_le : ∀ {μ : E.Mode} {j : Job}, E.calls μ j → j.rank ≤ limit
  ground_of_calls : ∀ {μ : E.Mode} {j : Job} {node : String}, E.calls μ j → j.ground? = some node →
    E.ground node
  ordinary_entered : ∀ {μ : E.Mode} {j : Job}, E.calls μ j → j ≠ .stop →
    E.ordinary (E.entered μ j)
  /-- Whatever is executed is ready for it, or it is the head of a function. -/
  ready_entered : ∀ {μ : E.Mode} {node : String} {pin? : Option String},
    E.calls μ (.execute node pin?) → E.ready (E.entered μ (.execute node pin?)) ∨
      ∀ n, b.circuit.node? node = some n → n.kind = "functionDefine"
  /-- Whatever is pulled may be opened at once. -/
  enter : ∀ {μ : E.Mode} {node pin : String} {n : Node}, E.calls μ (.pull node pin) →
    b.circuit.node? node = some n →
    E.allows (E.entered μ (.pull node pin)) (.enter (Context.pullKey n.id pin))
  /-- Where an app becomes started, chains may begin. -/
  begins_of_markStarted : ∀ {r : Act.Reply .markStarted}, E.expects .markStarted r → 3 ≤ limit
  /-- So they may where it is not stopped. -/
  begins_of_status : ∀ {s : Status}, E.expects .status s → s ≠ .stopped → 3 ≤ limit
  /-- A stop may end after it has said so. -/
  ends_stop : ∀ {μ ν : E.Mode} {r : Act.Reply .markStopped}, E.calls μ .stop →
    E.Talked (E.after (E.entered μ .stop) .markStopped r) ν → E.ends ν

variable {E}

theorem Talks.speaks (talks : E.Talks) : E.Speaks where
  entry _ := talks.act rfl
  act {μ a} talk _ := talks.act <| by
    cases a with
    | callback c =>
      cases c with
      | log => rfl
      | _ => cases talk
    | journal | notice | dispatch => rfl
    | _ => cases talk
  isStale := talks.act rfl
  stop _ _ := talks.stop

theorem Reads.glances {b : Board} (reads : E.Reads) (n : Node) : E.Glances b n where
  act {μ a} rank plain _ usual :=
    reads.act rank (by cases a <;> first | rfl | cases plain) usual
  load _ := reads.act rfl rfl
  chat := reads.chat

theorem Reads.looks {b : Board} (reads : E.Reads) (node : String) : E.Looks b node where
  pull usual _ := reads.pull usual

/-- An etiquette for bodies of all ranks. -/
theorem suits_of_begins {b : Board} (talks : E.Talks) (reads : E.Reads) (works : E.Works b)
    (begins : E.Begins b)
    (ground_of_calls : ∀ {μ : E.Mode} {j : Job} {node : String}, E.calls μ j →
      j.ground? = some node → E.ground node)
    (ordinary_entered : ∀ {μ : E.Mode} {j : Job}, E.calls μ j → j ≠ .stop →
      E.ordinary (E.entered μ j))
    (ready_entered : ∀ {μ : E.Mode} {node : String} {pin? : Option String},
      E.calls μ (.execute node pin?) → E.ready (E.entered μ (.execute node pin?)) ∨
        ∀ n, b.circuit.node? node = some n → n.kind = "functionDefine")
    (enter : ∀ {μ : E.Mode} {node pin : String} {n : Node}, E.calls μ (.pull node pin) →
      b.circuit.node? node = some n →
      E.allows (E.entered μ (.pull node pin)) (.enter (Context.pullKey n.id pin)))
    (ends_stop : ∀ {μ ν : E.Mode} {r : Act.Reply .markStopped}, E.calls μ .stop →
      E.Talked (E.after (E.entered μ .stop) .markStopped r) ν → E.ends ν) : E.Suits b 3 where
  talks := talks
  reads _ := reads
  works _ := works
  begins _ := begins
  rank_le {_ j} _ := j.rank_le_three
  ground_of_calls := ground_of_calls
  ordinary_entered := ordinary_entered
  ready_entered := ready_entered
  enter := enter
  begins_of_markStarted _ := Nat.le_refl 3
  begins_of_status _ _ := Nat.le_refl 3
  ends_stop := ends_stop

/-! ## Talking -/

variable {α β : Type} {μ : E.Mode}

theorem Talked.trans {ν κ : E.Mode} (h : E.Talked μ ν) (h' : E.Talked ν κ) : E.Talked μ κ := by
  induction h' with
  | refl => exact h
  | act _ talk ih => exact .act ih talk
  | stop _ ih => exact .stop ih

theorem Talked.ordinary {ν : E.Mode} (h : E.Talked μ ν) (usual : E.ordinary μ) : E.ordinary ν := by
  induction h with
  | refl => exact usual
  | @act _ a _ _ talk ih =>
    refine E.ordinary_after _ _ ?_ ih
    cases a with
    | push => cases talk
    | _ => rfl
  | stop _ ih => exact E.ordinary_returned _ _ ih

theorem Checked.ordinary (h : E.Checked μ) : E.ordinary μ := by
  induction h with
  | check usual => exact E.ordinary_after _ _ rfl usual
  | talk _ talked ih => exact talked.ordinary ih
  | keep _ ih => exact E.ordinary_after _ _ rfl ih

theorem Started.ordinary (h : E.Started μ) : E.ordinary μ := by
  induction h with
  | status usual => exact E.ordinary_after _ _ rfl usual
  | arm _ ih => exact E.ordinary_after _ _ rfl ih

variable {Q : E.Mode → Except Fault β → Prop} {level : Level} {app : String}

section Talking

variable (speaks : E.Speaks)

include speaks

theorem from_notice (level : Level) (text : String) (context : Table Value) :
    E.From μ (Attempt.notice level text context) fun ν _ => E.Talked μ ν :=
  from_act rfl (speaks.act rfl rfl) fun _ _ => .act .refl rfl

theorem from_obey {o : Order} (stops : o = .stop → ∀ ν : E.Mode, E.calls ν .stop) :
    E.From μ (Attempt.obey o) fun ν _ => E.Talked μ ν := by
  cases o with
  | stop =>
    refine from_discard (P := fun ν _ => E.Talked μ ν) (from_call (stops rfl μ) fun _ => ?_)
      (fun _ _ talked => talked) fun _ _ talked => talked
    exact .stop .refl
  | dispatch type target => exact from_act rfl (speaks.act rfl rfl) fun _ _ => .act .refl rfl

theorem from_obey_all {orders : List Order}
    (stops : Order.stop ∈ orders → ∀ ν : E.Mode, E.calls ν .stop) :
    E.From μ (orders.forM Attempt.obey) fun ν _ => E.Talked μ ν := by
  induction orders generalizing μ with
  | nil => exact from_pure .refl
  | cons o rest ih =>
    have first : E.From μ (Attempt.obey o) fun ν _ => E.Talked μ ν :=
      from_obey speaks fun eq => stops (eq ▸ List.mem_cons_self)
    refine from_bind first (fun ν _ talked => ?_) fun _ _ talked => talked
    exact from_mono (ih fun member => stops (List.mem_cons_of_mem _ member)) fun _ _ => talked.trans

variable {c : Callback}

/-- Whatever a listener orders is talk. -/
theorem from_react {r : Reaction} (expected : E.expects (.callback c) (some r)) :
    E.From μ (Attempt.react r) fun ν _ => E.Talked μ ν :=
  from_bind (from_obey_all speaks fun ordered _ => speaks.stop expected ordered)
    (fun _ _ talked => talked) fun _ _ talked => talked

/-- Somebody is called who may listen; what follows must not depend on whether somebody does. -/
theorem from_emit_bind {f : Option Value → Attempt β} (allowed : E.allows μ (.callback c))
    (deaf : (∀ text, c ≠ .alert text) → f none = f (some c.idleAnswer))
    (next : ∀ {ν heard? r}, E.Talked (E.after μ (.callback c) heard?) ν → E.From ν (f r) Q)
    (error : ∀ {ν heard? e}, E.Talked (E.after μ (.callback c) heard?) ν → Q ν (.error e)) :
    E.From μ (Attempt.emit c >>= f) Q := by
  refine ⟨allowed, fun heard? heard?' same => ?_, fun heard? expected => ?_⟩
  · have unheard := E.unheard_of_alike same
    cases c with
    | alert text => exact unheard.elim
    | setText | setStyle | log | navigate | input =>
      obtain ⟨rfl, rfl⟩ := unheard
      exact congrArg ExceptT.run (deaf fun _ h => by cases h)
  · cases heard? with
    | none => exact next .refl
    | some r =>
      have reacts : E.From (E.after μ (.callback c) (some r)) (some <$> Attempt.react r)
          fun ν _ => E.Talked (E.after μ (.callback c) (some r)) ν :=
        from_bind (from_react speaks expected) (fun _ _ talked => talked) fun _ _ talked => talked
      exact from_bind reacts (fun ν v talked => next talked) fun ν e talked => error talked

/-- Somebody may listen who is not asked for anything. -/
theorem from_discard_emit (allowed : E.allows μ (.callback c)) :
    E.From μ (discard (Attempt.emit c)) fun ν _ =>
      ∃ heard?, E.Talked (E.after μ (.callback c) heard?) ν := by
  have listens : E.From μ (Attempt.emit c >>= fun _ => (pure ⟨⟩ : Attempt PUnit)) fun ν _ =>
      ∃ heard?, E.Talked (E.after μ (.callback c) heard?) ν :=
    from_emit_bind speaks allowed (fun _ => rfl)
      (fun {ν heard? _} talked => from_pure ⟨heard?, talked⟩) fun talked => ⟨_, talked⟩
  exact listens

/-- An entry in the log is talk, and is made, whatever the listener does. -/
theorem from_log_of_entry (allowed : E.allows μ (.journal level message)) (app : String) :
    E.From μ (Attempt.log app level message) fun ν x => E.Talked μ ν ∧ x = .ok () := by
  refine from_act_bind rfl allowed fun r _ => ?_
  have entered : E.Talked μ (E.after μ (.journal level message) r) := .act .refl rfl
  refine from_tryCatch (P := fun ν _ => E.Talked μ ν) ?_ (fun _ _ talked => ⟨talked, rfl⟩)
    fun ν _ talked => from_act rfl (speaks.act rfl rfl) fun _ _ => ⟨talked.act rfl, rfl⟩
  refine from_mono (from_discard_emit speaks (speaks.act rfl rfl)) ?_
  rintro ν _ ⟨heard?, talked⟩
  exact (entered.act rfl).trans talked

theorem from_log (plain : Plain level message) :
    E.From μ (Attempt.log app level message) fun ν _ => E.Talked μ ν :=
  from_mono (from_log_of_entry speaks (speaks.entry plain) app) fun _ _ logged => logged.1

theorem throughout_notice (level : Level) (text : String) (context : Table Value) :
    E.Throughout (Attempt.notice level text context) :=
  fun _ usual => from_mono (from_notice speaks _ _ _) fun _ _ talked => talked.ordinary usual

theorem throughout_log (plain : Plain level message) :
    E.Throughout (Attempt.log app level message) :=
  fun _ usual => from_mono (from_log speaks plain) fun _ _ talked => talked.ordinary usual

theorem throughout_log_bind {f : Unit → Attempt β} (plain : Plain level message)
    (hf : ∀ a, E.Throughout (f a)) : E.Throughout (Attempt.log app level message >>= f) :=
  throughout_bind (throughout_log speaks plain) hf

theorem throughout_log_pure {x : β} (plain : Plain level message) :
    E.Throughout (Attempt.log app level message >>= fun _ => pure x) :=
  throughout_bind_pure (throughout_log speaks plain)

/-- Where the attempt fails, the log is told. -/
theorem from_logged {x : Attempt Unit} {text : Fault → String}
    (hx : E.From μ x fun ν _ => E.ordinary ν) (plain : ∀ f, Plain .error (.str (text f))) :
    E.From μ (tryCatch x fun f => Attempt.log app .error (.str (text f))) fun ν _ => E.ordinary ν :=
  from_tryCatch hx (fun _ _ usual => usual) fun ν f usual => throughout_log speaks (plain f) ν usual

/-- Only what comes after the check has to know of it. -/
theorem throughout_isStale_bind {f : Bool → Attempt β} (stale : E.Throughout (f true))
    (current : ∀ μ, E.ordinary μ →
      E.From (E.after μ .isStale false) (f false) fun ν _ => E.ordinary ν) :
    E.Throughout (Attempt.isStale >>= f) := by
  intro μ usual
  refine from_act_bind rfl speaks.isStale fun reply _ => ?_
  cases reply with
  | true => exact stale _ (E.ordinary_after _ _ rfl usual)
  | false => exact current μ usual

theorem throughout_checked_bind {f : Bool → Attempt β} (stale : E.Throughout (f true))
    (current : ∀ μ, E.Checked μ → E.From μ (f false) fun ν _ => E.ordinary ν) :
    E.Throughout (Attempt.isStale >>= f) :=
  throughout_isStale_bind speaks stale fun _ usual => current _ (.check usual)

/-- Whatever the answer is, it is looked at only after the check. -/
theorem throughout_captured {x : Attempt α} {f : Except Fault α → Bool → Attempt β}
    (hx : E.Throughout x) (stale : ∀ outcome, E.Throughout (f outcome true))
    (current : ∀ outcome μ, E.Checked μ →
      E.From μ (f outcome false) fun ν _ => E.ordinary ν) :
    E.Throughout (Attempt.capture x >>= fun outcome => Attempt.isStale >>= f outcome) :=
  throughout_bind (throughout_capture hx) fun outcome =>
    throughout_checked_bind speaks (stale outcome) (current outcome)

end Talking

/-! ## Reading -/

section Reading

variable {b : Board} {node : String}

theorem ordinary_resolved (node pin : String) (x : Except Fault Value) (usual : E.ordinary μ) :
    E.ordinary (E.resolved b node pin μ x) := by
  unfold resolved
  split
  · exact usual
  · exact E.ordinary_returned _ _ usual

/-- To ask an input pin is to pull what enters it, if anything does. -/
theorem from_resolve (pin : String)
    (pull : ∀ p, b.source? node pin = some p → E.calls μ (.pull p.node p.pin)) :
    E.From μ (b.resolve node pin) fun ν x =>
      ν = E.resolved b node pin μ x ∧ (b.source? node pin = none → x = .ok .null) := by
  rw [Board.resolve_eq]
  unfold resolved
  cases source : b.source? node pin with
  | none => exact from_pure ⟨rfl, fun _ => rfl⟩
  | some p => exact from_call (pull p source) fun x => ⟨rfl, fun none => by cases none⟩

theorem throughout_resolve_of_pulls {pin : String} (pulls : ∀ p, b.source? node pin = some p →
      ∀ μ, E.ordinary μ → E.calls μ (.pull p.node p.pin)) : E.Throughout (b.resolve node pin) := by
  intro μ usual
  refine from_mono (from_resolve pin fun p source => pulls p source μ usual) ?_
  rintro ν x ⟨rfl, -⟩
  exact ordinary_resolved node pin x usual

section Inputs

variable (looks : E.Looks b node)

include looks

theorem throughout_resolve (pin : String) : E.Throughout (b.resolve node pin) :=
  throughout_resolve_of_pulls fun _ source _ usual => looks.pull usual source

theorem throughout_resolve_bind {pin : String} {f : Value → Attempt β}
    (hf : ∀ v, E.Throughout (f v)) : E.Throughout (b.resolve node pin >>= f) :=
  throughout_bind (throughout_resolve looks _) hf

/-- Two inputs are pulled one after the other; what follows knows where they lead. -/
theorem from_resolve_two {p q : String} {f : Value → Value → Attempt β} (usual : E.ordinary μ) (next
      : ∀ x y, (b.source? node p = none → x = .null) → (b.source? node q = none → y = .null) →
      E.From (E.resolved b node q (E.resolved b node p μ (.ok x)) (.ok y)) (f x y) Q)
    (error : ∀ ν e, E.ordinary ν → Q ν (.error e)) :
    E.From μ (do let x ← b.resolve node p; let y ← b.resolve node q; f x y) Q := by
  refine from_bind (from_resolve p fun _ => looks.pull usual) ?_ ?_
  · rintro _ x ⟨rfl, unwired⟩
    have usual' := ordinary_resolved (b := b) node p (.ok x) usual
    refine from_bind (from_resolve q fun _ => looks.pull usual') ?_ ?_
    · rintro _ y ⟨rfl, unwired'⟩
      exact next x y (fun none => Except.ok.inj (unwired none))
        fun none => Except.ok.inj (unwired' none)
    · rintro _ e ⟨rfl, -⟩
      exact error _ e (ordinary_resolved node q (.error e) usual')
  · rintro _ e ⟨rfl, -⟩
    exact error _ e (ordinary_resolved node p (.error e) usual)

/-- Two inputs are pulled one after the other. -/
theorem throughout_resolve_two {p q : String} {f : Value → Value → Attempt β}
    (hf : ∀ x y, E.Throughout (f x y)) :
    E.Throughout (do let x ← b.resolve node p; let y ← b.resolve node q; f x y) :=
  throughout_resolve_bind looks fun x =>
    throughout_resolve_bind looks fun y => hf x y

end Inputs

theorem throughout_resolveIndex {n : Node} (looks : E.Looks b n.id) :
    E.Throughout (b.resolveIndex n) := by
  refine throughout_resolve_bind looks fun v => ?_
  split
  · exact throughout_pure _
  · exact throughout_pure _

variable {n : Node} (glances : E.Glances b n)

section Glancing

include glances

theorem throughout_look {a : Act} (quiet : a.callsListener = false) (rank : a.rank = 1)
    (plain : a.turnsPull = false) (other : a.entry? = none) : E.Throughout (Attempt.act a) :=
  throughout_act quiet (Act.opensFrame_of_rank rank) fun _ => glances.act rank plain other

theorem throughout_computed (x : Num) : E.Throughout (Board.computed x) := by
  unfold Board.computed
  split
  · exact throughout_pure _
  · exact throughout_bind_pure (throughout_look glances rfl rfl rfl rfl)

theorem throughout_pullRandom : E.Throughout (Board.pullRandom n) := by
  refine throughout_bind (throughout_look glances rfl rfl rfl rfl) fun share => ?_
  refine throughout_ofExcept_bind fun x => ?_
  refine throughout_ite (throughout_computed glances x) ?_
  exact throughout_ofExcept_bind fun _ => throughout_pure _

theorem throughout_pullParameter (pin : String) : E.Throughout (b.pullParameter n pin) := by
  refine throughout_ite ?_ (throughout_pure _)
  refine throughout_ofExcept_bind fun name => ?_
  refine throughout_bind (throughout_look glances rfl rfl rfl rfl) fun frame? => ?_
  cases frame? with
  | none => exact throughout_pure _
  | some frame => exact throughout_pure _

end Glancing

variable (speaks : E.Speaks)

include speaks

section Evaluating

include glances

/-- To load is to look at one entry of the store. -/
theorem throughout_pullStored (holds : b.Holds n .loadData) : E.Throughout (b.pullStored n) := by
  intro μ usual
  refine from_ofExcept_bind (fun key keyed => ?_) fun _ _ => usual
  refine throughout_bind (throughout_tryCatch ?_ fun f => ?_) (fun outcome => ?_) μ usual
  · refine throughout_bind (throughout_act rfl rfl fun _ => glances.load ⟨holds, keyed⟩)
      fun loaded => ?_
    refine throughout_ofExcept_bind fun v => ?_
    exact throughout_ofExcept_bind fun _ => throughout_pure _
  · exact throughout_log_pure speaks (.error (by simp [ToString.toString]))
  · cases outcome <;> exact throughout_pure _

theorem throughout_chat (v : Value) : E.Throughout (b.chat n v) := by
  refine throughout_ofExcept_bind fun prompt => ?_
  refine throughout_ofExcept_bind fun template => ?_
  refine throughout_bind (throughout_tryCatch ?_ fun f => ?_) fun outcome => ?_
  · exact throughout_bind_pure (throughout_wait fun _ => glances.chat)
  · exact throughout_log_pure speaks .warning
  · cases outcome <;> exact throughout_pure _

theorem throughout_input :
    E.Throughout (do
      let target ← Board.propertyText n "targetId" (.str "")
      return (← Attempt.emit (.input target)).getD (.str "")) := by
  refine throughout_ofExcept_bind fun target μ usual => ?_
  refine from_emit_bind speaks (glances.act rfl rfl rfl usual) (fun _ => rfl) (fun talked => ?_)
    fun talked => ?_
  · exact from_pure (talked.ordinary (E.ordinary_after _ _ rfl usual))
  · exact talked.ordinary (E.ordinary_after _ _ rfl usual)

theorem throughout_conclude (pin : String) {kind : NodeKind} (holds : b.Holds n kind)
    (vs : List Value) : E.Throughout (b.conclude n pin kind vs) := by
  have kept (f : Scratch → Value) : E.Throughout (Attempt.scratch n.id >>= fun s => pure (f s)) :=
    throughout_bind_pure (throughout_look glances rfl rfl rfl rfl)
  cases kind with
  | concat | mathOp | listGet | listLength | numberOf | textOf | compareValues | negate | andOr =>
    exact throughout_ofExcept _
  | geminiChat => exact throughout_chat glances speaks _
  | onKeyPress => exact throughout_ite (kept _) (throughout_pure _)
  | getVariable =>
    exact throughout_ofExcept_bind fun name => throughout_look glances rfl rfl rfl rfl
  | getInputValue => exact throughout_input glances speaks
  | randomNumber => exact throughout_pullRandom glances
  | loadData => exact throughout_pullStored glances speaks holds
  | functionDefine => exact throughout_pullParameter glances pin
  | listAdd | listRemove | forLoop | getClipboard | getLocation | getBattery | httpRequest
  | functionCall => exact kept _
  | _ => exact throughout_pure _

omit glances speaks in
/-- The pins are asked one after the other. -/
theorem throughout_gather {node : String} {pins : List String} {goesOn : List Value → Attempt Value}
    (pulls : ∀ pin ∈ pins, ∀ p, b.source? node pin = some p → ∀ μ, E.ordinary μ →
      E.calls μ (.pull p.node p.pin))
    (next : ∀ vs, E.Throughout (goesOn vs)) : E.Throughout (b.gather node pins goesOn) := by
  induction pins generalizing goesOn with
  | nil => exact next []
  | cons pin pins ih =>
    refine throughout_bind (throughout_resolve_of_pulls (pulls pin List.mem_cons_self)) fun v => ?_
    exact ih (fun pin' member => pulls pin' (.tail _ member)) fun vs => next (v :: vs)

/-- A node finds its value by what its kind asks for, and by looking around. -/
theorem throughout_evaluate (pin : String) {kind : NodeKind} (holds : b.Holds n kind)
    (pulls : ∀ input ∈ kind.inputs, ∀ p, b.source? n.id input = some p → ∀ μ, E.ordinary μ →
      E.calls μ (.pull p.node p.pin)) : E.Throughout (b.evaluate n pin kind) := by
  rw [Board.evaluate_eq]
  exact throughout_gather pulls fun vs => throughout_conclude glances speaks pin holds vs

end Evaluating

/-- A pull is opened before anything else is done, and closed in the end.  If it is open already,
that is an alarm. -/
theorem from_pull (reads : E.Reads) (node pin : String) (usual : E.ordinary μ)
    (alarm : ∀ {ν message}, E.allows ν (.journal .error message))
    (enter : ∀ n, b.circuit.node? node = some n →
      E.allows μ (.enter (Context.pullKey n.id pin))) :
    E.From μ (b.pull node pin) fun ν _ => E.ordinary ν := by
  unfold Board.pull
  split
  · exact from_pure usual
  next n found =>
    split
    · exact from_pure usual
    next kind named =>
      refine from_act_bind rfl (enter n found) fun (entered : Bool) _ => ?_
      refine throughout_ite ?_ ?_ _ (E.ordinary_after (.enter _) entered rfl usual)
      · refine throughout_bind ?_ fun v => ?_
        · refine throughout_tryCatch (throughout_evaluate (reads.glances n) speaks pin
            ⟨⟨node, found⟩, named⟩ fun _ _ _ _ _ => reads.pull) fun f => ?_
          exact throughout_log_pure speaks (.error (by simp [ToString.toString]))
        · exact throughout_bind_pure (throughout_act rfl rfl fun _ => reads.act rfl rfl)
      · refine throughout_bind_pure (fun ν usual => ?_)
        exact from_mono (from_log_of_entry speaks alarm _) fun _ _ logged => logged.1.ordinary usual

end Reading

/-! ## Working -/

section Working

variable {b : Board} {n : Node} {kind : NodeKind} (speaks : E.Speaks) (looks : E.Looks b n.id)
  (toils : E.Toils b n) (works : E.Works b)

section Showing

include speaks toils

theorem throughout_display (c : Callback) : E.Throughout (Board.display c) := by
  refine throughout_isStale_bind speaks (throughout_pure _) fun μ usual => ?_
  refine from_mono (from_discard_emit speaks (toils.display usual)) ?_
  rintro ν _ ⟨heard?, talked⟩
  exact talked.ordinary (E.ordinary_after _ _ rfl (E.ordinary_after _ _ rfl usual))

/-- An alert is the one thing for which somebody has to listen. -/
theorem throughout_alert (text : String) : E.Throughout (Board.alert text) := by
  refine throughout_isStale_bind speaks (throughout_pure _) fun μ usual => ?_
  have shown {ν : E.Mode} {heard?}
      (talked : E.Talked (E.after (E.after μ .isStale false) (.callback (.alert text)) heard?) ν) :
      E.ordinary ν :=
    talked.ordinary (E.ordinary_after _ _ rfl (E.ordinary_after _ _ rfl usual))
  refine from_emit_bind speaks (toils.display usual) (fun other => absurd rfl (other text))
    (fun talked => ?_) fun talked => shown talked
  exact from_ite (fun _ => from_throw (shown talked)) fun _ => from_pure (shown talked)

end Showing

section Keeping

include toils

theorem throughout_ask {r : Request} (plain : r.isHttp = false) : E.Throughout (Attempt.wait r) :=
  throughout_wait fun _ => toils.ask plain

/-- A node of a chain that was found current may keep something. -/
theorem from_keep_bind {memo : Memo} {f : Unit → Attempt β} (checked : E.Checked μ)
    (holds : b.Holds n kind) (next : ∀ ν, E.Checked ν → E.From ν (f ()) Q)
    (other : kind ≠ .functionCall := by decide) : E.From μ (Attempt.remember n.id memo >>= f) Q :=
  from_act_bind rfl (toils.keep checked holds other) fun _ _ => next _ (.keep checked)

end Keeping

include speaks

/-- A few last words. -/
theorem from_log_pure {x : β} (plain : Plain level message) (usual : E.ordinary μ) :
    E.From μ (Attempt.log app level message >>= fun _ => pure x) fun ν _ => E.ordinary ν :=
  throughout_log_pure speaks plain μ usual

include looks toils

theorem throughout_runSetVariable (holds : b.Holds n .setVariable) :
    E.Throughout (b.runSetVariable n) := by
  refine throughout_resolve_bind looks fun v => ?_
  refine throughout_isStale_bind speaks (throughout_pure _) fun μ usual => ?_
  -- the name is worked out between the check and the assignment, which takes no act
  have now : E.ordinary (E.after μ .isStale false) := E.ordinary_after _ _ rfl usual
  refine from_ofExcept_bind (fun name named => ?_) fun _ _ => now
  exact from_act_bind rfl (toils.assign usual holds named) fun r _ =>
    from_pure (E.ordinary_after _ r rfl now)

/-- To store is to ask the pin, and to write one entry of the store. -/
theorem from_runSave (ready : E.ready μ) (holds : b.Holds n .saveData) :
    E.From μ (b.runSave n) fun ν _ => E.ordinary ν := by
  have usual := E.ordinary_of_ready ready
  refine from_bind (from_resolve "value" fun _ => looks.pull usual) ?_ ?_
  · rintro _ v ⟨rfl, unwired⟩
    have given := ordinary_resolved (b := b) n.id "value" (.ok v) usual
    refine from_ofExcept_bind (fun key keyed => ?_) fun _ _ => given
    refine from_usual_bind (from_logged speaks ?_ fun _ => .error (by simp [ToString.toString]))
      fun _ => throughout_pure _
    refine from_ofExcept_bind (fun text written => ?_) fun _ _ => given
    have allowed := toils.save ready holds keyed (fun none => Except.ok.inj (unwired none)) written
    refine from_act_bind rfl allowed fun saved _ => ?_
    exact throughout_ofExcept_bind (fun _ => throughout_log speaks .info) _
      (E.ordinary_after _ _ rfl given)
  · rintro _ f ⟨rfl, -⟩
    exact ordinary_resolved n.id "value" (.error f) usual

omit looks in
theorem from_runDelete (ready : E.ready μ) (holds : b.Holds n .deleteData) :
    E.From μ (b.runDelete n) fun ν _ => E.ordinary ν := by
  have usual := E.ordinary_of_ready ready
  refine from_ofExcept_bind (fun key keyed => ?_) fun _ _ => usual
  refine from_usual_bind (from_logged speaks ?_ fun _ => .error (by simp [ToString.toString]))
    fun _ => throughout_pure _
  refine from_act_bind rfl (toils.remove ready holds keyed) fun removed _ => ?_
  exact throughout_ofExcept_bind (fun _ => throughout_log speaks .info) _
    (E.ordinary_after _ _ rfl usual)

omit speaks looks in
/-- The lists are kept without a look at the epoch. -/
theorem throughout_collect (holds : b.Holds n kind) (list : kind = .listAdd ∨ kind = .listRemove)
    (v : Value) : E.Throughout (Attempt.remember n.id (.result v)) :=
  throughout_act rfl rfl fun _ usual => toils.collect usual holds list

omit speaks in
theorem throughout_runListAdd (holds : b.Holds n .listAdd) : E.Throughout (b.runListAdd n) := by
  refine throughout_resolve_two looks fun items item => ?_
  exact throughout_bind_pure (throughout_collect toils holds (.inl rfl) _)

omit speaks in
theorem throughout_runListRemove (holds : b.Holds n .listRemove) :
    E.Throughout (b.runListRemove n) := by
  refine throughout_resolve_bind looks fun items => ?_
  refine throughout_bind (throughout_resolveIndex looks) fun index? => ?_
  exact throughout_bind_pure (throughout_collect toils holds (.inr rfl) _)

omit looks in
theorem throughout_runGetClipboard (holds : b.Holds n .getClipboard) :
    E.Throughout (b.runGetClipboard n) := by
  refine throughout_captured speaks (throughout_ask toils rfl) (fun _ => throughout_pure _)
    fun outcome μ checked => ?_
  cases outcome with
  | ok text =>
    refine from_keep_bind toils checked holds fun ν checked => ?_
    exact from_log_pure speaks .info checked.ordinary
  | error f =>
    refine from_keep_bind toils checked holds fun ν checked => ?_
    exact from_log_pure speaks .warning checked.ordinary

omit looks in
theorem throughout_runGetLocation (holds : b.Holds n .getLocation) :
    E.Throughout (b.runGetLocation n) := by
  refine throughout_captured speaks (throughout_ask toils rfl) (fun _ => throughout_pure _)
    fun outcome μ checked => ?_
  cases outcome with
  | ok position =>
    refine from_keep_bind toils checked holds fun ν checked => ?_
    refine from_keep_bind toils checked holds fun ν checked => ?_
    refine throughout_ofExcept_bind (fun latitude => ?_) ν checked.ordinary
    exact throughout_ofExcept_bind fun longitude =>
      throughout_log_pure speaks .info
  | error f =>
    refine from_keep_bind toils checked holds fun ν checked => ?_
    refine from_keep_bind toils checked holds fun ν checked => ?_
    exact from_log_pure speaks .warning checked.ordinary

omit looks in
theorem throughout_runGetBattery (holds : b.Holds n .getBattery) :
    E.Throughout (b.runGetBattery n) := by
  refine throughout_captured speaks (throughout_ask toils rfl) (fun _ => throughout_pure _)
    fun outcome μ checked => ?_
  cases outcome with
  | ok battery =>
    refine from_ofExcept_bind (fun percent _ => ?_) fun _ _ => checked.ordinary
    refine from_keep_bind toils checked holds fun ν checked => ?_
    refine from_keep_bind toils checked holds fun ν checked => ?_
    -- nothing hangs on the text, and its limit of digits is better left folded
    generalize (Value.int percent).toPlain = text
    refine throughout_ofExcept_bind (fun text => ?_) ν checked.ordinary
    exact throughout_log_pure speaks .info
  | error f =>
    refine from_keep_bind toils checked holds fun ν checked => ?_
    refine from_keep_bind toils checked holds fun ν checked => ?_
    exact from_log_pure speaks .warning checked.ordinary

theorem throughout_runSetClipboard : E.Throughout (b.runSetClipboard n) := by
  refine throughout_resolve_bind looks fun v => ?_
  refine throughout_captured speaks
    (throughout_ofExcept_bind fun text => throughout_ask toils rfl) (fun _ => throughout_pure _)
    fun outcome μ checked => ?_
  cases outcome with
  | ok _ => exact from_log_pure speaks .info checked.ordinary
  | error f => exact from_log_pure speaks .warning checked.ordinary

omit looks in
theorem throughout_notifyUser (title body : String) : E.Throughout (b.notifyUser title body) := by
  refine throughout_bind (throughout_act rfl rfl fun _ => toils.look (.inr rfl)) fun answer => ?_
  refine throughout_ofExcept_bind fun held => ?_
  -- the two ways to a permission meet again before the chain asks whether it is stale
  refine throughout_ite (throughout_bind (throughout_pure _) ?_)
    (throughout_bind (throughout_ask toils rfl) ?_)
  all_goals
    intro permission
    refine throughout_checked_bind speaks (throughout_pure _) fun μ checked => ?_
    refine from_ite (fun stale => absurd stale Bool.false_ne_true) fun _ => ?_
    refine from_ite (fun _ => from_log_pure speaks .warning checked.ordinary) fun _ => ?_
    exact throughout_bind_pure (throughout_ask toils rfl) μ checked.ordinary

theorem throughout_runNotification : E.Throughout (b.runNotification n) := by
  refine throughout_resolve_bind looks fun v => ?_
  refine throughout_ofExcept_bind fun body => ?_
  refine throughout_ofExcept_bind fun title => ?_
  refine throughout_bind (throughout_capture (throughout_notifyUser speaks toils _ _))
    fun outcome => ?_
  cases outcome with
  | ok ending =>
    cases ending with
    | sent => exact throughout_log_pure speaks .info
    | forbidden => exact throughout_pure _
    | stale => exact throughout_pure _
  | error f =>
    refine throughout_checked_bind speaks (throughout_pure _) fun μ checked => ?_
    exact from_log_pure speaks .warning checked.ordinary

/-- What a node does before it goes on, unless it calls a function. -/
theorem from_of_run?_of_ne {run : Attempt Bool} (ready : E.ready μ) (holds : b.Holds n kind)
    (other : kind ≠ .functionCall) (h : b.run? n kind = some run) :
    E.From μ run fun ν _ => E.ordinary ν := by
  have usual := E.ordinary_of_ready ready
  cases kind with
  | setText =>
    cases h
    refine throughout_resolve_bind looks (fun v => ?_) μ usual
    refine throughout_ofExcept_bind fun target => ?_
    refine throughout_ofExcept_bind fun text => ?_
    exact throughout_bind_pure (throughout_display speaks toils _)
  | setStyle =>
    cases h
    refine throughout_resolve_bind looks (fun v => ?_) μ usual
    refine throughout_ofExcept_bind fun target => ?_
    refine throughout_ofExcept_bind fun property => ?_
    refine throughout_ofExcept_bind fun text => ?_
    exact throughout_bind_pure (throughout_display speaks toils _)
  | showAlert =>
    cases h
    refine throughout_resolve_bind looks (fun v => ?_) μ usual
    split
    · exact throughout_bind_pure (throughout_alert speaks toils _)
    · refine throughout_ofExcept_bind fun text => ?_
      exact throughout_bind_pure (throughout_alert speaks toils _)
  | logMessage =>
    cases h
    refine throughout_resolve_bind looks (fun v => ?_) μ usual
    refine throughout_ofExcept_bind fun text => ?_
    exact throughout_log_pure speaks .info
  | setVariable => cases h; exact throughout_runSetVariable speaks looks toils holds μ usual
  | navigatePage =>
    cases h
    refine throughout_ofExcept_bind (fun page => ?_) μ usual
    refine throughout_log_bind speaks .info fun _ => ?_
    exact throughout_bind_pure (throughout_display speaks toils _)
  | listAdd => cases h; exact throughout_runListAdd looks toils holds μ usual
  | listRemove => cases h; exact throughout_runListRemove looks toils holds μ usual
  | saveData => cases h; exact from_runSave speaks looks toils ready holds
  | deleteData => cases h; exact from_runDelete speaks toils ready holds
  | getClipboard => cases h; exact throughout_runGetClipboard speaks toils holds μ usual
  | setClipboard => cases h; exact throughout_runSetClipboard speaks looks toils μ usual
  | getLocation => cases h; exact throughout_runGetLocation speaks toils holds μ usual
  | getBattery => cases h; exact throughout_runGetBattery speaks toils holds μ usual
  | sendNotification => cases h; exact throughout_runNotification speaks looks toils μ usual
  | geminiChat => cases h; exact from_pure usual
  | functionDefine => cases h; exact from_pure usual
  | functionCall => exact absurd rfl other
  | _ => cases h

omit toils

include works

omit speaks looks in
theorem throughout_fire {node : String} (grounded : E.ground node) (pin : String) :
    E.Throughout (Attempt.fire node pin) :=
  throughout_discard (throughout_call fun _ usual => works.fire usual grounded)

/-- A request is made of what the pins of its node have given.  Where it has failed, the log is
written before the node keeps anything. -/
theorem from_runHttp (ready : E.ready μ) (holds : b.Holds n .httpRequest) :
    E.From μ (b.runHttp n) fun ν _ => E.ordinary ν := by
  have usual := E.ordinary_of_ready ready
  refine from_resolve_two looks usual (fun url body unwired unwired' => ?_) fun _ _ usual => usual
  have given := ordinary_resolved (b := b) n.id "body" (.ok body)
    (ordinary_resolved (b := b) n.id "url" (.ok url) usual)
  refine from_ofExcept_bind (fun request described => ?_) fun _ _ => given
  refine from_bind (from_log speaks .info) (fun ν _ talked => ?_) fun _ _ talked =>
    talked.ordinary given
  have asked := works.send ready holds described unwired unwired' talked
  refine from_usual_bind
    (from_capture ⟨asked, fun _ => E.ordinary_answered (talked.ordinary given)⟩) fun outcome => ?_
  refine throughout_checked_bind speaks (throughout_pure _) fun μ checked => ?_
  cases outcome with
  | ok response =>
    refine from_keep_bind (works.toils n) checked holds fun ν checked => ?_
    refine from_keep_bind (works.toils n) checked holds fun ν checked => ?_
    refine throughout_ofExcept_bind (fun status => ?_) ν checked.ordinary
    refine throughout_ofExcept_bind fun statusText => ?_
    exact throughout_log_bind speaks .info fun _ => throughout_fire works (works.filed holds) _
  | error f =>
    refine from_bind (from_log speaks (.error (by simp [ToString.toString])))
      (fun ν _ talked => ?_) fun ν _ talked => talked.ordinary checked.ordinary
    refine from_keep_bind (works.toils n) (checked.talk talked) holds fun ν checked => ?_
    refine from_keep_bind (works.toils n) checked holds fun ν checked => ?_
    exact throughout_fire works (works.filed holds) _ ν checked.ordinary

/-- A call begins with what the pins of its node have given, and nothing else was done before; its
result is kept right after it was returned and the chain found current. -/
theorem from_runFunctionCall (ready : E.ready μ) (holds : b.Holds n .functionCall) :
    E.From μ (b.runFunctionCall n) fun ν _ => E.ordinary ν := by
  have usual := E.ordinary_of_ready ready
  refine from_ofExcept_bind (fun name named => ?_) fun _ _ => usual
  split
  · exact from_log_pure speaks (.error (by simp [ToString.toString])) usual
  next entry found =>
    refine from_act_bind rfl ((works.toils n).look (.inl rfl) usual) fun depth _ => ?_
    have ready : E.ready (E.after μ .depth depth) := works.ready_depth ready
    have usual := E.ordinary_of_ready ready
    refine from_ofExcept_bind (fun most _ => ?_) fun _ _ => usual
    refine from_ite (fun _ => ?_) fun _ => ?_
    · exact throughout_ofExcept_bind (fun limit =>
        throughout_log_pure speaks (.error (by simp [ToString.toString]))) _ usual
    refine from_resolve_two looks usual (fun x y unwired unwired' => ?_) fun _ _ usual => usual
    have given := ordinary_resolved (b := b) n.id "param2" (.ok y)
      (ordinary_resolved (b := b) n.id "param1" (.ok x) usual)
    refine from_act_bind rfl (works.push ready holds named unwired unwired') fun r _ => ?_
    -- the frame is open only while the body runs, so the mode is followed up to the end of it
    refine from_bind (P := fun ν outcome => ∃ x, ν = E.called _ _ r entry x ∧ outcome = .ok x)
      (from_capture (from_call (works.function given found) fun x => ⟨x, rfl, rfl⟩)) ?_
      (by rintro _ _ ⟨_, -, failed⟩; cases failed)
    rintro _ outcome ⟨ended, rfl, -⟩
    refine from_act_bind rfl (works.pop given) fun result _ => ?_
    have popped : E.ordinary (E.after (E.called _ _ r entry ended) .pop result) :=
      works.ordinary_pop given
    cases outcome with
    | error f => exact from_throw popped
    | ok _ =>
      refine from_act_bind rfl speaks.isStale fun stale _ => ?_
      have now := E.ordinary_after .isStale stale rfl popped
      cases stale with
      | true => exact from_pure now
      | false =>
        refine from_act_bind rfl (works.result popped holds) fun r _ => ?_
        exact from_log_pure speaks .info (E.ordinary_after _ r rfl now)

/-- A call returns what the pin of a node has given, and nothing else was done before. -/
theorem from_runReturn (ready : E.ready μ) (holds : b.Holds n .functionReturn) :
    E.From μ (b.runReturn n) fun ν _ => E.ordinary ν := by
  have usual := E.ordinary_of_ready ready
  refine from_bind (from_resolve "value" fun _ => looks.pull usual) ?_ ?_
  · rintro ν v ⟨rfl, unwired⟩
    have usual' := ordinary_resolved (b := b) n.id "value" (.ok v) usual
    refine from_act_bind rfl (works.setResult ready holds fun none => Except.ok.inj (unwired none))
      fun returned _ => ?_
    have done := E.ordinary_after _ returned rfl usual'
    exact from_ite (fun _ => throughout_log speaks .warning _ done) fun _ => from_pure done
  · rintro ν e ⟨rfl, -⟩
    exact ordinary_resolved n.id "value" (.error e) usual

/-- What a node of any kind does before it goes on. -/
theorem from_of_run? {run : Attempt Bool} (ready : E.ready μ) (holds : b.Holds n kind)
    (h : b.run? n kind = some run) : E.From μ run fun ν _ => E.ordinary ν := by
  by_cases call : kind = .functionCall
  · subst call
    cases h
    exact from_runFunctionCall speaks looks works ready holds
  · exact from_of_run?_of_ne speaks looks (works.toils n) ready holds call h

omit looks in
theorem throughout_iterate {node : String} (grounded : E.ground node) (index stop : Num) :
    E.Throughout (Board.iterate node index stop) := by
  have fires := throughout_fire works grounded
  refine throughout_ite ?_ (fires _)
  refine throughout_isStale_bind speaks (throughout_pure _) fun μ usual => ?_
  refine from_act_bind rfl (works.count (.check usual)) fun r _ => ?_
  refine throughout_bind (fires _) (fun _ => ?_) _
    (E.ordinary_after _ r rfl (E.ordinary_after _ _ rfl usual))
  refine throughout_ofExcept_bind fun next => ?_
  exact throughout_discard (throughout_call fun _ usual => works.iterate usual grounded)

omit looks in
theorem throughout_rounds {node : String} (looks : E.Looks b node) (grounded : E.ground node)
    (count : Nat) (limit : Value) :
    E.Throughout (b.rounds node count limit) := by
  have fires := throughout_fire works grounded
  refine throughout_ofExcept_bind fun most => ?_
  refine throughout_ite ?_ (throughout_ite ?_ (fires _))
  · refine throughout_isStale_bind speaks (throughout_pure _) fun μ usual => ?_
    refine throughout_resolve_bind looks (fun condition => ?_) _
      (E.ordinary_after _ _ rfl usual)
    refine throughout_ite ?_ (fires _)
    refine throughout_bind (fires _) fun _ => ?_
    exact throughout_discard (throughout_call fun _ usual => works.rounds usual grounded)
  · refine throughout_ofExcept_bind fun text => ?_
    exact throughout_log_bind speaks .warning fun _ => fires _

theorem from_perform (ready : E.ready μ) (holds : b.Holds n kind) :
    E.From μ (b.perform n kind) fun ν _ => E.ordinary ν := by
  have usual := E.ordinary_of_ready ready
  unfold Board.perform
  split
  next run h =>
    exact from_usual_bind (from_of_run? speaks looks works ready holds h) fun goesOn =>
      throughout_ite (throughout_fire works (works.filed holds) _) (throughout_pure _)
  next h =>
    cases kind with
    | ifCondition =>
      exact throughout_resolve_bind looks
        (fun condition => throughout_fire works (works.filed holds) _) μ usual
    | forLoop =>
      refine throughout_resolve_two looks (fun first stop => ?_) μ usual
      exact throughout_discard (throughout_call fun _ usual =>
        works.iterate usual (works.filed holds))
    | whileLoop =>
      exact throughout_discard (throughout_call fun _ usual =>
        works.rounds usual (works.filed holds)) μ usual
    | httpRequest => exact from_runHttp speaks looks works ready holds
    | functionReturn => exact from_runReturn speaks looks works ready holds
    | _ => exact from_pure usual

omit speaks looks in
/-- The head of a function does nothing of its own. -/
theorem from_perform_functionDefine (usual : E.ordinary μ) (holds : b.Holds n .functionDefine) :
    E.From μ (b.perform n .functionDefine) fun ν _ => E.ordinary ν :=
  throughout_bind (throughout_pure _) (fun _ =>
    throughout_ite (throughout_fire works (works.filed holds) _) (throughout_pure _)) μ usual

omit looks in
/-- A node that is executed goes to work; whatever fails is told the log. -/
theorem from_execute (looks : ∀ node, E.Looks b node) {node : String} (pin? : Option String)
    (usual : E.ordinary μ)
    (prepared : E.ready μ ∨ ∀ n, b.circuit.node? node = some n → n.kind = "functionDefine") :
    E.From μ (b.execute node pin?) fun ν _ => E.ordinary ν := by
  unfold Board.execute
  split
  · exact from_pure usual
  next n found =>
    split
    · exact from_pure usual
    next kind named =>
      refine from_act_bind rfl (speaks.act rfl rfl) fun r _ => ?_
      refine from_logged speaks ?_ fun _ => .error (by simp [ToString.toString])
      rcases prepared with ready | head
      · exact from_perform speaks (looks n.id) works (works.ready_notice ready)
          ⟨⟨node, found⟩, named⟩
      · have define : NodeKind.ofName? n.kind = some .functionDefine := by
          rw [head n found]
          decide
        cases named.symm.trans define
        exact from_perform_functionDefine works (E.ordinary_after _ r rfl usual)
          ⟨⟨node, found⟩, named⟩

omit looks in
/-- Every wire is followed only after the chain was found current. -/
theorem throughout_follow (wires : List Wire) : E.Throughout (Board.follow wires) := by
  induction wires with
  | nil => exact throughout_pure _
  | cons w rest ih =>
    refine throughout_isStale_bind speaks (throughout_pure _) fun μ usual => ?_
    have now : E.ordinary (E.after μ .isStale false) := E.ordinary_after _ _ rfl usual
    refine from_usual_bind ?_ fun _ => ih
    exact from_discard (P := fun ν _ => E.ordinary ν)
      (from_call (works.wire usual) fun x => E.ordinary_returned _ x now)
      (fun _ _ usual => usual) fun _ _ usual => usual

end Working

/-! ## Beginning -/

section Beginning

variable {b : Board} (works : E.Works b) (triggers : E.Triggers b)

section Triggers

include works triggers

theorem throughout_chain {node : String} (grounded : E.ground node) :
    E.Throughout (Board.chain node) :=
  throughout_bind (throughout_act rfl rfl fun _ => triggers.chain) fun _ =>
    throughout_fire works grounded _

theorem throughout_handleAt {n : Node} {kind : String} (target : Value)
    (listed : n ∈ b.circuit.nodesOf kind) : E.Throughout (Board.handleAt target n) := by
  have chains : E.Throughout (Board.chain n.id) :=
    throughout_chain works triggers (triggers.listed listed)
  unfold Board.handleAt
  split
  next isKey =>
    refine throughout_ite (throughout_pure _) ?_
    exact throughout_bind (throughout_act rfl rfl fun _ usual => triggers.press usual listed isKey)
      fun _ => chains
  next => exact throughout_ite chains (throughout_pure _)

end Triggers

/-- Where the engine stays stopped, an event is ignored. -/
theorem from_handle (speaks : E.Speaks) (type target : Value) (usual : E.ordinary μ)
    (look : E.allows μ .status)
    (wakes : ∀ s : Status, E.expects .status s → s ≠ .stopped → E.Works b ∧ E.Triggers b) :
    E.From μ (b.handle type target) fun ν _ => E.ordinary ν := by
  refine from_act_bind rfl look fun (status : Status) expected => ?_
  have usual := E.ordinary_after .status status rfl usual
  refine from_ite (fun _ => ?_) fun awake => ?_
  · exact throughout_bind (throughout_notice speaks _ _ _) (fun _ => throughout_pure _) _ usual
  obtain ⟨works, triggers⟩ := wakes status expected awake
  cases type with
  | str kind =>
    exact throughout_forM (fun n listed => throughout_handleAt works triggers target listed) _ usual
  | _ => exact from_pure usual

/-- Timers are set one after the other, and nothing happens in between: if each may be set in its
turn, all of them may. -/
theorem from_forM_setTimer {P : List Node → E.Mode → Prop} {Q : E.Mode → Prop}
    (arm : ∀ {n rest ν period? repeats}, P (n :: rest) ν → E.allows ν (.arm n.id period? repeats) ∧
      ∀ r, P rest (E.after ν (.arm n.id period? repeats) r))
    (ends : ∀ {rest ν}, P rest ν → Q ν) {nodes : List Node} (here : P nodes μ) :
    E.From μ (nodes.forM b.setTimer) fun ν _ => Q ν := by
  induction nodes generalizing μ with
  | nil => exact from_pure (ends here)
  | cons n rest ih =>
    have first (period? : Except Fault (Option Rat)) (repeats : Bool) :
        E.From μ ((Attempt.ofExcept period? >>= fun p => Attempt.act (.arm n.id p repeats))
            >>= fun _ => rest.forM b.setTimer) fun ν _ => Q ν := by
      cases period? with
      | error f => exact from_throw (ends here)
      | ok p => exact from_act_bind rfl (arm here).1 fun r _ => ih ((arm here).2 r)
    exact first _ _

/-- Where the engine stays stopped, starting goes no further than to say that it is started. -/
theorem from_start (speaks : E.Speaks) (usual : E.ordinary μ)
    (look : ∀ {ν}, E.allows ν .status) (mark : ∀ {ν}, E.allows ν .markStarted)
    (wakes : ∀ r, E.expects .markStarted r → E.Works b ∧ E.Begins b) :
    E.From μ b.start fun ν _ => E.ordinary ν := by
  refine from_act_bind rfl look fun (status : Status) _ => ?_
  have usual := E.ordinary_after .status status rfl usual
  refine from_ite (fun _ => ?_) fun _ => ?_
  · exact throughout_bind (throughout_notice speaks _ _ _) (fun _ => throughout_pure _) _ usual
  refine from_act_bind rfl mark fun r expected => ?_
  obtain ⟨works, begins⟩ := wakes r expected
  have runs : E.Throughout ((b.circuit.nodesOf "onAppStart").forM fun n => Board.chain n.id) :=
    throughout_forM fun n listed =>
      throughout_chain works begins.toTriggers (begins.listed listed)
  refine from_bind (throughout_log speaks .info _ (E.ordinary_after _ r rfl usual))
    (fun ν _ usual => ?_) fun _ _ usual => usual
  refine from_bind (runs ν usual) (fun ν _ usual => ?_) fun _ _ usual => usual
  refine from_act_bind rfl look fun status _ => ?_
  cases status with
  | started =>
    let P : List Node → E.Mode → Prop :=
      fun rest ν => (∀ n ∈ rest, n ∈ b.circuit.nodesOf "onTimer") ∧ E.Started ν
    have arm {n rest ν period? repeats} (here : P (n :: rest) ν) :
        E.allows ν (.arm n.id period? repeats) ∧
          ∀ r, P rest (E.after ν (.arm n.id period? repeats) r) :=
      ⟨begins.arm here.2 (here.1 n List.mem_cons_self),
        fun _ => ⟨fun n' member => here.1 n' (List.mem_cons_of_mem _ member), here.2.arm⟩⟩
    exact from_forM_setTimer (P := P) arm (fun here => here.2.ordinary)
      ⟨fun _ listed => listed, .status usual⟩
  | constructed => exact from_pure (E.ordinary_after .status _ rfl usual)
  | stopped => exact from_pure (E.ordinary_after .status _ rfl usual)

end Beginning

/-! ## All bodies -/

theorem from_void {x : Attempt Unit} (hx : E.From μ x fun ν _ => E.ordinary ν) :
    E.From μ (Attempt.void x) fun ν _ => E.ends ν :=
  from_bind hx (fun _ _ usual => from_pure (E.ends_of_ordinary usual))
    fun _ _ usual => E.ends_of_ordinary usual

/-- What a job does that neither starts nor stops the app, according to its rank. -/
theorem from_body {b : Board} {j : Job} (speaks : E.Speaks) (usual : E.ordinary μ)
    (looks : 1 ≤ j.rank → ∀ node, E.Looks b node) (works : 2 ≤ j.rank → E.Works b)
    (triggers : 3 ≤ j.rank → E.Triggers b)
    (grounded : ∀ node, j.ground? = some node → E.ground node)
    (prepared : ∀ node pin?, j = .execute node pin? →
      E.ready μ ∨ ∀ n, b.circuit.node? node = some n → n.kind = "functionDefine")
    (pulls : ∀ node pin, j = .pull node pin →
      E.From μ (b.pull node pin) fun ν _ => E.ordinary ν)
    (written : ∀ level message, j = .log level message → E.allows μ (.journal level message))
    (handles : ∀ type target, j = .handle type target →
      E.From μ (b.handle type target) fun ν _ => E.ordinary ν)
    (unstarting : j ≠ .start) (unstopping : j ≠ .stop) :
    E.From μ (b.body j) fun ν _ => E.ends ν := by
  cases j with
  | fire node pin =>
    exact from_void (throughout_follow speaks (works (Nat.le_refl 2)) _ _ usual)
  | execute node pin? =>
    exact from_void (from_execute speaks (works (Nat.le_refl 2)) (looks (Nat.le_succ 1)) pin? usual
      (prepared node pin? rfl))
  | pull node pin => exact from_mono (pulls node pin rfl) fun _ _ => E.ends_of_ordinary
  | resolve node pin =>
    exact from_mono (throughout_resolve (looks (Nat.le_refl 1) node) _ _ usual)
      fun _ _ => E.ends_of_ordinary
  | iterate node index stop =>
    exact from_void (throughout_iterate speaks (works (Nat.le_refl 2)) (grounded node rfl) _ _ _
      usual)
  | rounds node count limit =>
    have looks := looks (Nat.le_succ 1) node
    exact from_void (throughout_rounds speaks (works (Nat.le_refl 2)) looks (grounded node rfl) _ _
      _ usual)
  | chain node =>
    exact from_void (throughout_chain (works (Nat.le_succ 2)) (triggers (Nat.le_refl 3))
      (grounded node rfl) _ usual)
  | start => exact absurd rfl unstarting
  | stop => exact absurd rfl unstopping
  | handle type target => exact from_void (handles type target rfl)
  | log level message =>
    exact from_void (from_mono (from_log_of_entry speaks (written level message rfl) _)
      fun _ _ logged => logged.1.ordinary usual)

namespace Suits

variable {b : Board} {limit : Nat} (suits : E.Suits b limit)

include suits

theorem from_stop (called : E.calls μ .stop) :
    E.From (E.entered μ .stop) (Attempt.void b.stop) fun ν _ => E.ends ν := by
  have stops : E.From (E.entered μ .stop) b.stop fun ν _ => E.ends ν := by
    refine from_act_bind rfl (suits.talks.act rfl) fun _ _ => ?_
    exact from_mono (from_log suits.talks.speaks .info) fun _ _ => suits.ends_stop called
  exact from_bind stops (fun _ _ ends => from_pure ends) fun _ _ ends => ends

/-- Every body follows an etiquette that suits the board, wherever it may be called. -/
theorem body_follows {j : Job} (called : E.calls μ j) :
    E.From (E.entered μ j) (b.body j) fun ν _ => E.ends ν := by
  by_cases unstopping : j = .stop
  · subst unstopping
    exact suits.from_stop called
  have usual := suits.ordinary_entered called unstopping
  have speaks := suits.talks.speaks
  by_cases unstarting : j = .start
  · subst unstarting
    refine from_void (from_start speaks usual (suits.talks.act rfl) (suits.talks.act rfl)
      fun r expected => ?_)
    have limit_ge : 3 ≤ limit := suits.begins_of_markStarted expected
    exact ⟨suits.works (Nat.le_of_succ_le limit_ge), suits.begins limit_ge⟩
  have rank := suits.rank_le called
  refine from_body speaks usual (fun le => (suits.reads (Nat.le_trans le rank)).looks)
    (fun le => suits.works (Nat.le_trans le rank))
    (fun le => (suits.begins (Nat.le_trans le rank)).toTriggers)
    (fun _ => suits.ground_of_calls called) ?_ ?_ (fun _ _ _ => suits.talks.act rfl) ?_ unstarting
    unstopping
  · rintro node pin? rfl
    exact suits.ready_entered called
  · rintro node pin rfl
    exact from_pull speaks (suits.reads rank) node pin usual (suits.talks.act rfl)
      fun n => suits.enter called
  · rintro type target rfl
    refine from_handle speaks type target usual (suits.talks.act rfl) fun s expected awake => ?_
    have limit_ge : 3 ≤ limit := suits.begins_of_status expected awake
    exact ⟨suits.works (Nat.le_of_succ_le limit_ge), (suits.begins limit_ge).toTriggers⟩

end Suits

end Etiquette

end Wireboard
