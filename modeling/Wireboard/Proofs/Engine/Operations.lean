import Wireboard.Proofs.Document.Refusal
import Wireboard.Proofs.Engine.JobAccounts
import Wireboard.Proofs.Engine.Tabulation

/-!
# Operations of a node

Some nodes do something outside of the app: they ask the host for the clipboard, the position or the
battery, show a notification, send a request to the net, or write to the store.  Each of them asks
for its inputs, begins its operation and, when this has completed, keeps what came of it, writes
into the log and goes on.  Here is what these nodes have in common:

* the deeds by which they are told apart (`Deed.Matters`): requests, wires that are run, and the
  entry that a node has failed;
* what they are given (`Course.Supplied`, `Course.Completes`): inputs that can be written, and hosts
  that answer, well or badly;
* `Course.Settles`: from the answer on nothing can fail any more, and the node keeps just what it
  should.
-/

namespace Wireboard

variable {σ : Type} {b : Board} {env : Surroundings σ}

/-- Nothing that is called is part of the job. -/
def Job.NoPart (_ : Job) : Prop := False

/-- A request is made, wires are run, or it is written into the log that a node has failed. -/
def Deed.Matters : Deed → Prop
  | .ask _ | .call (.fire _ _) => True
  | .act (.journal .error (.str text)) => "Error in node".toList <+: text.toList
  | _ => False

theorem Deed.not_matters_of_echo (d : Deed) (echo : d.isEcho = true) : ¬ d.Matters := by
  unfold isEcho at echo
  split at echo
  · exact id
  · exact id
  · exact id
  · exact id
  · cases echo

/-- An entry whose text begins with another letter says something else. -/
theorem Deed.not_matters_journal {start rest : String}
    (other : start.toList.head?.any (· != 'E') = true) :
    ¬ (Deed.act (.journal .error (.str (start ++ rest)))).Matters := by
  intro begins
  have begins : "Error in node".toList <+: start.toList ++ rest.toList := by
    rw [← String.toList_append]
    exact begins
  cases first : start.toList with
  | nil =>
    rw [first] at other
    cases other
  | cons c cs =>
    rw [first] at other begins
    have letter : 'E' = c := (List.cons_prefix_cons.mp begins).1
    rw [← letter] at other
    cases other

/-- The act is an operation outside of the engine. -/
def Act.isOperation : Act → Bool
  | .permission | .save _ _ | .remove _ => true
  | _ => false

/-! ## Texts of values -/

theorem succeeds_toText {v : Value} (text : v.hasText = true) : Succeeds v.toText := by
  simp [Value.toText, text, succeeds_ok]

/-- A property is given as it is, or else the other value. -/
theorem Node.propertyOr_cases (n : Node) (key : String) (other : Value) :
    n.propertyOr key other = n.property key ∨ n.propertyOr key other = other := by
  unfold propertyOr
  split
  · exact .inr rfl
  · split
    · exact .inr rfl
    · exact .inl (by simp_all)
  · exact .inl rfl

theorem Node.hasText_propertyOr {n : Node} {key : String} {other : Value}
    (text : (n.property key).hasText = true) (text' : other.hasText = true) :
    (n.propertyOr key other).hasText = true := by
  rcases n.propertyOr_cases key other with same | same
  · rw [same, text]
  · rw [same, text']

/-! ## What hosts say -/

namespace Value

theorem orElse_cases (v other : Value) : v.orElse other = v ∨ v.orElse other = other := by
  unfold orElse
  split
  next => exact .inr rfl
  next => exact .inl rfl

/-- Nothing is replaced if the only vacant value is the replacement itself. -/
theorem orElse_eq {v other : Value} (same : v.isVacant = true → v = other) :
    v.orElse other = v := by
  unfold orElse
  split
  next vacant => exact (same vacant).symm
  next => rfl

/-- It can be the latitude or the longitude of a position: a double, or a whole number that has
one. -/
def IsCoordinate (v : Value) : Prop :=
  (∃ x, v = .float x) ∨ ∃ i, v = .int i ∧ i.natAbs < Binary64.limit

/-- It can be the level of a battery, and the hundredfold is finite too: as a double, or as a whole
number that can be written. -/
def IsLevel (v : Value) : Prop :=
  (∃ x y parts, v = .float x ∧ (Num.float x).mul (.int 100) = .ok (.float y) ∧
    Binary64.decode y = .finite parts) ∨ ∃ i, v = .int i ∧ Number.hasText (i * 100) = true

end Value

namespace Request

/-- The answer to a request has the type that it should have, or is a failure. -/
def Proper : (r : Request) → Except Fault r.Reply → Prop
  | _, .error _ => True
  | .readClipboard, .ok (v : Value) => ∃ text, v = .str text
  | .position _, .ok (p : Position) => p.latitude.IsCoordinate ∧ p.longitude.IsCoordinate
  | .battery, .ok (found : Battery) => found.level.IsLevel ∧ ∃ c, found.charging = .bool c
  | .http _, .ok (response : Http.Response) =>
    (∃ code, response.status = .int code ∧ Number.hasText code = true) ∧
      ∃ text, response.statusText = .str text
  | _, .ok _ => True

/-- What a pin of the node gives after an answer, if the answer decides it: what the host has said,
or else the default. -/
def output? : (r : Request) → Except Fault r.Reply → String → Option Value
  | .readClipboard, .ok (v : Value), _ => some v
  | .readClipboard, .error _, _ => some (.str "")
  | .position _, .ok (p : Position), pin => some (if pin = "lon" then p.longitude else p.latitude)
  | .position _, .error _, _ => some (.int 0)
  | .battery, .ok (found : Battery), pin =>
    if pin = "charging" then some found.charging
    else found.level.percent.toOption.map Value.int
  | .battery, .error _, pin => some (if pin = "charging" then .bool false else .int 0)
  | .http _, .ok (response : Http.Response), pin =>
    some (if pin = "status" then response.status else response.data)
  | .http _, .error _, pin => some (if pin = "status" then .int 0 else .null)
  | _, _, _ => none

end Request

theorem Value.IsCoordinate.exists_fixed {v : Value} (coordinate : v.IsCoordinate) :
    ∃ text, v.fixed = .ok text := by
  rcases coordinate with ⟨x, rfl⟩ | ⟨i, rfl, small⟩
  · exact ⟨_, rfl⟩
  · obtain ⟨x, double⟩ := Value.exists_toFloat_int small
    have toFloat : (Num.int i).toFloat = .ok x := double
    exact ⟨_, by simp only [fixed, writtenBy, asNum?, toFloat]; rfl⟩

/-- A whole number near a finite double can be written. -/
theorem Binary64.hasText_round {x : Float} {parts : Binary64.Parts}
    (finite : Binary64.decode x = .finite parts) : Number.hasText parts.round = true := by
  obtain ⟨-, fits⟩ := eq_double_of_decode finite
  have size : parts.round.natAbs ≤ pow2 1024 := by
    unfold Parts.round
    dsimp only
    have natAbs (n : Nat) : (if parts.negative then -(n : Int) else (n : Int)).natAbs = n := by
      split <;> omega
    rw [natAbs]
    split
    next whole =>
      have high : pow2 parts.exponent.toNat ≤ pow2 971 :=
        pow2_le_pow2 (by have := fits.le_most; omega)
      calc parts.mantissa * pow2 parts.exponent.toNat
          ≤ pow2 53 * pow2 971 := Nat.mul_le_mul (Nat.le_of_lt fits.mantissa_lt) high
        _ ≤ pow2 1024 := by decide +kernel
    next =>
      have low : roundedQuotient parts.mantissa (pow2 (-parts.exponent).toNat)
          ≤ parts.mantissa + 1 := by
        have floor := Nat.div_le_self parts.mantissa (pow2 (-parts.exponent).toNat)
        unfold roundedQuotient
        dsimp only
        split
        · omega
        · split <;> omega
      calc roundedQuotient parts.mantissa (pow2 (-parts.exponent).toNat)
          ≤ parts.mantissa + 1 := low
        _ ≤ pow2 53 := fits.mantissa_lt
        _ ≤ pow2 1024 := by decide +kernel
  refine decide_eq_true (Nat.lt_of_le_of_lt size ?_)
  decide +kernel

theorem Value.IsLevel.exists_percent {v : Value} (level : v.IsLevel) :
    ∃ percent, v.percent = .ok percent ∧ Number.hasText percent = true := by
  rcases level with ⟨x, y, parts, rfl, product, finite⟩ | ⟨i, rfl, text⟩
  · refine ⟨parts.round, ?_, Binary64.hasText_round finite⟩
    show ((Num.float x).mul (.int 100) >>= Num.round) = _
    rw [product]
    simp only [bind, Except.bind, Num.round, finite]
  · exact ⟨i * 100, rfl, text⟩

namespace Course

/-! ## What a node is given -/

/-- Every pull that the job calls by itself returns, with a value of some sort. -/
def SuppliedWith (P : Value → Prop) (course : Course b env) (s : Strand) (p : Nat) : Prop :=
  ∀ {k t node pin goesOn}, course.Itself Job.NoPart s p k t →
    course.Calls k t (.pull node pin) goesOn → ∃ q d v, course.Returns t k q d (.ok v) ∧ P v

/-- Every pull that the job calls by itself returns, with a value that can be written. -/
def Supplied (course : Course b env) (s : Strand) (p : Nat) : Prop :=
  course.SuppliedWith (·.hasText = true) s p

/-- Every operation that the job begins by itself completes, a request with the answer that is given
for its time, and the chain is current then. -/
structure Completes (course : Course b env) (answer : Nat → (r : Request) → Except Fault r.Reply)
    (s : Strand) (p : Nat) : Prop where
  answered : ∀ {k r}, course.Does Job.NoPart s p (.ask r) k →
    ∃ l, course.Answered k r l (answer k r) ∧ (course.state l).epoch = s.context.epoch
  proper : ∀ {k r}, course.Does Job.NoPart s p (.ask r) k → r.Proper (answer k r)
  acted : ∀ {k a}, a.isOperation = true → course.Does Job.NoPart s p (.act a) k →
    (course.state (k + 1)).epoch = s.context.epoch

/-- What chains read at a pin, whatever other pins give. -/
def Reads (course : Course b env) (k : Nat) (id pin : String) (v : Value) : Prop :=
  ∀ c elsewhere given, b.valueAt ((course.state k).view env c) elsewhere given ⟨id, pin⟩ = v

variable {course : Course b env} {answer : Nat → (r : Request) → Except Fault r.Reply}
  {s : Strand} {next : Continuation} {p k l : Nat} {c : Context} {node id pin : String} {n : Node}
  {memos memos' : List Memo}

/-- What a node without inputs gives that has kept these things. -/
theorem Keeps.reads {kind : NodeKind} {v : Value}
    (keeps : course.Keeps Job.NoPart s p n.id memos k l) (found : b.circuit.node? id = some n)
    (named : NodeKind.ofName? n.kind = some kind) (here : kind.looksElsewhere = false)
    (inputs : kind.inputs = [])
    (told : ∀ (w : View) (before : Scratch), w.scratch n.id = memos.foldl Scratch.keep before →
      b.report w n pin kind = .ok v) : course.Reads l id pin v := by
  intro c elsewhere given
  have reported := told ((course.state l).view env c) _ keeps.scratch
  simp only [Board.valueAt, found, named, here, Board.workOut, inputs, List.isEmpty_nil, reported]
  rfl

theorem SuppliedWith.goes_resolve {P : Value → Prop} (supplied : course.SuppliedWith P s p)
    (null : P .null) (node pin : String) :
    course.Goes Job.NoPart Deed.Matters s next p k c (b.resolve node pin) fun l d r =>
      d = c ∧ ∃ v, r = .ok v ∧ P v ∧ course.Finds node pin k v l := by
  rw [Board.resolve_eq]
  cases source : b.source? node pin with
  | none => exact goes_pure ⟨rfl, .null, rfl, null, .unwired source⟩
  | some ref =>
    refine goes_call not_false not_false fun t goesOn itself same calls => ?_
    obtain ⟨q, d, v, returns, text⟩ := supplied itself calls
    exact ⟨q, d, _, returns, (returns.yields calls).1.1.trans same, v, rfl, text,
      .wired source calls returns⟩

theorem Supplied.goes_resolve (supplied : course.Supplied s p) (node pin : String) :
    course.Goes Job.NoPart Deed.Matters s next p k c (b.resolve node pin) fun l d r =>
      d = c ∧ ∃ v, r = .ok v ∧ v.hasText = true ∧ course.Finds node pin k v l :=
  SuppliedWith.goes_resolve supplied rfl node pin

/-- A chain that is current finds that it is. -/
theorem goes_isStale (node : String) (current : (course.state k).epoch = c.epoch) :
    course.Goes Job.NoPart Deed.Matters s next p k c Attempt.isStale fun l d r =>
      (d = c ∧ course.Keeps Job.NoPart s p node [] k l) ∧ r = .ok false := by
  refine goes_act not_false fun _ running? eq => ⟨⟨rfl, ?_⟩, ?_⟩
  · exact ⟨Nat.le_succ k, by rw [eq]; rfl, .inl (by rw [eq]; rfl)⟩
  · show Except.ok (c.epoch != (course.state k).epoch) = _
    rw [current, bne_self_eq_false]

/-! ## When an operation has completed -/

/-- Whenever the attempt is begun, it succeeds like this, does nothing that matters, and lets the
node keep these things. -/
def Settles {α : Type} (course : Course b env) (s : Strand) (next : Continuation) (p : Nat)
    (c : Context) (node : String) (x : Attempt α) (memos : List Memo) (Q : α → Prop) : Prop :=
  ∀ k, course.Goes Job.NoPart Deed.Matters s next p k c x fun l d r =>
    (d = c ∧ course.Keeps Job.NoPart s p node memos k l) ∧ ∃ a, r = .ok a ∧ Q a

section Settles

variable {α β : Type} {P : α → Prop} {Q : β → Prop}

theorem settles_ofExcept {r : Except Fault α} {a : α} (eq : r = .ok a) (held : P a) :
    course.Settles s next p c node (Attempt.ofExcept r) [] P :=
  fun k => goes_ofExcept ⟨⟨rfl, .refl k⟩, a, eq, held⟩

theorem settles_pure {a : α} (held : P a) : course.Settles s next p c node (pure a) [] P :=
  settles_ofExcept rfl held

theorem settles_bind {x : Attempt α} {g : α → Attempt β}
    (first : course.Settles s next p c node x memos P)
    (second : ∀ a, P a → course.Settles s next p c node (g a) memos' Q) :
    course.Settles s next p c node (x >>= g) (memos ++ memos') Q := by
  intro k
  refine goes_bind (first k) ?_ ?_
  · rintro l d a - ⟨⟨rfl, kept⟩, _, ⟨⟩, held⟩
    refine goes_mono (second a held l) ?_
    rintro l' d' r - ⟨⟨rfl, kept'⟩, ended⟩
    exact ⟨⟨rfl, kept.trans kept'⟩, ended⟩
  · rintro l d e ⟨-, a, ⟨⟩, -⟩

theorem settles_remember (memo : Memo) :
    course.Settles s next p c node (Attempt.remember node memo) [memo] fun _ => True := by
  refine fun k => goes_act not_false fun _ running? eq =>
    ⟨⟨rfl, Nat.le_succ k, ?_, .inl ?_⟩, _, rfl, trivial⟩
  · rw [eq]
    simp [Machine.perform, Machine.scratchOf]
  · rw [eq]
    rfl

theorem settles_log (orders : course.OrdersEnd Job.NoPart s p) (level : Level) (text : String)
    (entry : ¬ (Deed.act (.journal level (.str text))).Matters) :
    course.Settles s next p c node (b.log level text) [] fun _ => True := by
  intro k
  refine goes_mono (goes_log orders not_false Deed.not_matters_of_echo b.appId level
    (.str text) node entry) ?_
  rintro l d r - ⟨held, rfl⟩
  exact ⟨held, (), rfl, trivial⟩

/-- What has settled comes before the wires. -/
theorem leadsTo_settles_bind (node : String) {x : Attempt α} {g : α → Attempt β} {node' : String}
    {Q : List (Nat × Deed) → String → Nat → Context → Prop}
    (first : course.Settles s next p c node x memos P)
    (second : ∀ l a, P a → course.Keeps Job.NoPart s p node memos k l →
      course.LeadsTo Job.NoPart Deed.Matters s next p l c (g a) node' Q) :
    course.LeadsTo Job.NoPart Deed.Matters s next p k c (x >>= g) node' Q := by
  refine leadsTo_bind (performs_of_goes (first k)) ?_ ?_
  · rintro _ l _ a - ⟨rfl, ⟨rfl, kept⟩, _, ⟨⟩, held⟩
    exact second l a held kept
  · rintro _ _ _ _ ⟨-, -, _, ⟨⟩, -⟩

end Settles

/-- The last operation has completed with a current chain, and since then the node has kept these
things. -/
def Settled (course : Course b env) (s : Strand) (p : Nat) (node : String) (memos : List Memo)
    (l : Nat) : Prop :=
  ∃ k, (course.state k).epoch = s.context.epoch ∧ course.Keeps Job.NoPart s p node memos k l

/-- A chain is current when all is settled, unless a listener has ordered a stop. -/
theorem Settled.current (settled : course.Settled s p node memos l) :
    (course.state l).epoch = s.context.epoch ∨
      ∃ i, i < l ∧ course.Does Job.NoPart s p (.call .stop) i := by
  obtain ⟨k, current, keeps⟩ := settled
  rcases keeps.epoch with same | ⟨i, -, before, stops⟩
  · exact .inl (same.trans current)
  · exact .inr ⟨i, before, stops⟩

/-- A request is answered with a current chain. -/
theorem Completes.performs_wait (completes : course.Completes answer s p) (r : Request) :
    course.Performs Job.NoPart Deed.Matters s next p k c (Attempt.wait r) fun ds l d x =>
      (ds = [(k, .ask r)] ∧ d = c ∧ r.Proper (answer k r) ∧
        (course.state l).epoch = s.context.epoch) ∧ x = answer k r := by
  refine Course.performs_wait fun asks => ?_
  obtain ⟨l, answered, current⟩ := completes.answered asks
  exact ⟨l, _, answered, ⟨rfl, rfl, completes.proper asks, current⟩, rfl⟩

theorem Completes.performs_capture (completes : course.Completes answer s p) (r : Request) :
    course.Performs Job.NoPart Deed.Matters s next p k c (Attempt.capture (Attempt.wait r))
      fun ds l d x => (ds = [(k, .ask r)] ∧ d = c ∧ r.Proper (answer k r) ∧
        (course.state l).epoch = s.context.epoch) ∧ x = .ok (answer k r) := by
  refine Course.performs_capture (completes.performs_wait r) ?_
  rintro _ l _ _ ⟨held, rfl⟩
  exact ⟨held, rfl⟩

end Course

/-! ## Hosts that answer at once -/

/-- Surroundings in which every request is answered at once, and nobody listens unless it is said
what a listener does. -/
def Surroundings.prompt (reply : (r : Request) → Except Fault r.Reply)
    (react : Callback → Option Reaction := fun _ => none) : Surroundings Unit where
  react _ c := (react c, ())
  permission _ := .ok Permission.granted
  random _ := (.int 0, ())
  ask _ r := (.now (reply r), [], ())
  resume _ r _ := (reply r, [], ())
  load _ _ := .ok .null
  save _ _ _ := (.ok (), ())
  remove _ _ := (.ok (), ())

/-- The script asks for a position, which is the only request with a time limit. -/
def Script.isLimited {α : Type} : Script α → Bool
  | .wait (.position _) _ => true
  | _ => false

namespace Course

variable {reply : (r : Request) → Except Fault r.Reply} {react : Callback → Option Reaction}
  {course : Course b (.prompt reply react)} {s t : Strand} {p k : Nat}

theorem answered_prompt {r : Request} {goesOn : Except Fault r.Reply → Code}
    (running : (course.state k).running? = some t) (code : t.code = .wait r goesOn)
    (unlimited : t.code.isLimited = false) : course.Answered k r (k + 1) (reply r) := by
  refine ⟨t, goesOn, running, code, Nat.lt_succ_self k, fun i u early before => by omega, ?_⟩
  rw [(course.move k).eq_stepStrand running, Machine.stepStrand, code]
  rw [code] at unlimited
  cases r with
  | position limit => cases unlimited
  | _ => rfl

theorem Current.epoch_after {d : Deed} (current : course.Current s p)
    (does : course.Does Job.NoPart s p d k) (other : d ≠ .act .markStopped) :
    (course.state (k + 1)).epoch = s.context.epoch := by
  obtain ⟨t, itself, deed⟩ := does
  rw [← current k t itself.busy]
  refine (course.move k).epoch_eq fun acts => other ?_
  rw [Machine.act?, itself.busy.runs.1] at acts
  obtain ⟨goesOn, code⟩ := Strand.code_of_act? acts
  rw [code] at deed
  exact (Option.some.inj deed).symm

/-- Where requests are answered at once and the chain stays current, operations complete. -/
theorem Current.completes (current : course.Current s p)
    (proper : ∀ r : Request, r.Proper (reply r))
    (unlimited : ∀ {k t}, course.Busy s p k t → t.code.isLimited = false) :
    course.Completes (fun _ => reply) s p where
  answered {k r} asks := by
    refine ⟨k + 1, ?_, current.epoch_after asks fun eq => by cases eq⟩
    obtain ⟨t, itself, deed⟩ := id asks
    obtain ⟨goesOn, code⟩ := Script.wait_of_deed? deed
    exact answered_prompt itself.busy.runs.1 code (unlimited itself.busy)
  proper _ := proper _
  acted operation does := by
    refine current.epoch_after does ?_
    rintro ⟨⟩
    cases operation

end Course

end Wireboard
