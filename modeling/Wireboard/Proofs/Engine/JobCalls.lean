import Wireboard.Proofs.Engine.Terms

/-!
# What jobs call

Every job calls other jobs, from some context, and waits for their return.  `Board.Sends` lists
these calls, as far as they matter for the question whether a job ever ends:

* a pull calls pulls for the pins of its own node, while its key is open;
* a node that is executed pulls what enters its pins, runs the wires of one of its outputs, begins a
  loop, or calls a function in a new frame, unless too many calls are under way;
* a loop runs the wires of its outputs and calls itself with the next number;
* whoever begins a chain runs the wires of its trigger in a context without calls and open pulls;
* and a listener may order a stop at any time.

`Board.body_honours` says that there are no other calls, and that every job returns as it should
(`Board.Yields`).  In particular pulls, stops, and all that executes nodes return without a failure,
whatever has failed inside.
-/

namespace Wireboard

variable {σ : Type} {b : Board} {env : Surroundings σ} {c d : Context}

/-- The output pins by which a chain goes on. -/
def execPins : List String := ["exec", "true", "false", "loop", "done", "execError"]

namespace Board

/-- How many rounds a conditional loop may make. -/
def roundLimit (b : Board) (n : Node) : Value :=
  let limit := (n.property "maxIterations").toNum
  if limit.isZero then b.config.maxIterations else limit.toValue

end Board

/-- The job pulls data. -/
def Job.pulls : Job → Bool
  | .pull _ _ | .resolve _ _ => true
  | _ => false

/-- The job begins chains. -/
def Job.beginsChains : Job → Bool
  | .chain _ | .start | .handle _ _ => true
  | _ => false

/-- Nodes of this kind store, load or delete data. -/
def NodeKind.usesStore : NodeKind → Bool
  | .saveData | .loadData | .deleteData => true
  | _ => false

namespace Board

/-- A job that was begun in one context is in another one now and calls a job. -/
inductive Sends (b : Board) (env : Surroundings σ) : Job → Context → Context → Job → Prop where
  | order {j : Job} {c d : Context} : env.Orders .stop → Sends b env j c d .stop
  | pull {node pin input : String} {n : Node} {p : PinRef} {c d : Context} :
      b.circuit.node? node = some n → c.enter (Context.pullKey n.id pin) = some d →
      b.source? n.id input = some p → Sends b env (.pull node pin) c d (.pull p.node p.pin)
  | resolve {node pin : String} {p : PinRef} {c : Context} : b.source? node pin = some p →
      Sends b env (.resolve node pin) c c (.pull p.node p.pin)
  | wire {node pin : String} {w : Wire} {c d : Context} : w ∈ b.circuit.wiresFrom node pin →
      c.Matches d → Sends b env (.fire node pin) c d (.execute w.target.node (some w.target.pin))
  | input {node input : String} {pin? : Option String} {n : Node} {p : PinRef} {c : Context} :
      b.circuit.node? node = some n → b.source? n.id input = some p →
      Sends b env (.execute node pin?) c c (.pull p.node p.pin)
  | output {node pin : String} {pin? : Option String} {n : Node} {c : Context} :
      b.circuit.node? node = some n → pin ∈ execPins →
      Sends b env (.execute node pin?) c c (.fire n.id pin)
  | count {node : String} {pin? : Option String} {n : Node} {first stop : Value} {c : Context} :
      b.circuit.node? node = some n → NodeKind.ofName? n.kind = some .forLoop →
      b.Enters n.id "start" first → b.Enters n.id "end" stop →
      Sends b env (.execute node pin?) c c (.iterate n.id first.toNum stop.toNum)
  | test {node : String} {pin? : Option String} {n : Node} {c : Context} :
      b.circuit.node? node = some n → NodeKind.ofName? n.kind = some .whileLoop →
      Sends b env (.execute node pin?) c c (.rounds n.id 0 (b.roundLimit n))
  | function {node entry : String} {pin? : Option String} {f : Frame} {most : Num} {c : Context} :
      b.circuit.functions.get? f.function = some entry →
      b.config.maxCallDepth.boundBy ">=" = .ok most → most.le (.int c.depth) = false →
      Sends b env (.execute node pin?) c (c.push f) (.execute entry none)
  | loop {node pin : String} {index stop : Num} {c : Context} : pin ∈ execPins →
      Sends b env (.iterate node index stop) c c (.fire node pin)
  | next {node : String} {index following stop : Num} {c d : Context} : index.lt stop = true →
      index.add (.int 1) = .ok following → c.Matches d →
      Sends b env (.iterate node index stop) c d (.iterate node following stop)
  | condition {node input : String} {count : Nat} {limit : Value} {p : PinRef} {c : Context} :
      b.source? node input = some p →
      Sends b env (.rounds node count limit) c c (.pull p.node p.pin)
  | round {node pin : String} {count : Nat} {limit : Value} {c : Context} : pin ∈ execPins →
      Sends b env (.rounds node count limit) c c (.fire node pin)
  | again {node : String} {count : Nat} {limit : Value} {most : Num} {c d : Context} :
      limit.boundBy "<" = .ok most → (Num.int count).lt most = true → c.Matches d →
      Sends b env (.rounds node count limit) c d (.rounds node (count + 1) limit)
  | chain {j : Job} {node : String} {epoch : Nat} {c : Context} : j.beginsChains = true →
      Sends b env j c { epoch } (.fire node "exec")

/-- What the chain looks like while a job is under way.  A pull is open or not, and a node that is
executed may have called a function if there was room for one more call. -/
def Stands (b : Board) (c : Context) : Job → Context → Prop
  | .pull node pin, d => d = c ∨ ∃ n, b.circuit.node? node = some n ∧
      c.enter (Context.pullKey n.id pin) = some d
  | .resolve _ _, d | .stop, d | .log _ _, d => d = c
  | .fire _ _, d | .iterate _ _ _, d | .rounds _ _ _, d => c.Matches d
  | .execute _ _, d => c.Matches d ∨ ∃ f most, b.config.maxCallDepth.boundBy ">=" = .ok most ∧
      most.le (.int c.depth) = false ∧ (c.push f).Matches d
  | .chain _, d | .start, d | .handle _ _, d => d.frames.length ≤ c.frames.length

/-- The node sets the variable of that name. -/
def Names (b : Board) (node name : String) : Prop :=
  ∃ n, b.circuit.node? node = some n ∧ NodeKind.ofName? n.kind = some .setVariable ∧
    (n.propertyOr "varName" (.str "myVar")).toPlain = .ok name

/-- The node stores, loads or deletes data, and this is the key of its entry. -/
structure Addresses (b : Board) (n : Node) (key : String) : Prop where
  stores : ∃ kind, b.Holds n kind ∧ kind.usesStore = true
  keyed : b.config.storageKey (n.property "key") = .ok key

/-- Pulls look and do nothing else, but for opening and closing themselves.  Nodes keep something
for themselves when they are executed, or when they count; a variable is set by nodes for that.
What is stored is touched by nodes for that, each under its own key. -/
def Does (b : Board) : Job → Act → Prop
  | .pull node _, .load key | .execute node _, .save key _ | .execute node _, .remove key =>
    ∃ n, b.circuit.node? node = some n ∧ b.Addresses n key
  | _, .load _ | _, .save _ _ | _, .remove _ => False
  | .pull _ _, a | .resolve _ _, a => a.isLook = true ∨ a.turnsPull = true
  | .execute node _, .remember id _ => ∃ n, b.circuit.node? node = some n ∧ n.id = id
  | .iterate node _ _, .remember id _ => id = node
  | .handle _ _, .remember _ _ => True
  | .execute node _, .assign name _ => b.Names node name
  | _, .remember _ _ | _, .assign _ _ => False
  | _, _ => True

/-- The terms of a job that was begun in a context. -/
def terms (b : Board) (env : Surroundings σ) (j : Job) (c : Context) : Terms b env where
  stands := b.Stands c j
  does := b.Does j
  sends := b.Sends env j c

variable {j : Job}

theorem does_of_isLook {a : Act} (look : a.isLook = true) (other : a.entry? = none) :
    (b.terms env j c).does a := by
  show b.Does j a
  unfold Does
  split
  all_goals first | trivial | exact .inl look

/-- Whatever else a job does, it may talk where it stands. -/
theorem grants_talk (stands : (b.terms env j c).stands d) :
    (b.terms env j c).Grants none d where
  stands := stands
  sees := does_of_isLook
  stop := .order
  pull none := by cases none

/-! ## Pulls -/

open Terms

theorem offers_null (node : String) : b.Offers node .null := fun _ _ _ => .inr rfl

variable {pin : String} {T : Terms b env}

/-- The node of a pull gives something, whatever fails.  What, is known of literals alone. -/
theorem evaluate_honours {node : String} {n : Node} {kind : NodeKind}
    (grants : T.Grants (some n.id) c) (load : ∀ {key}, b.Loading n key → T.does (.load key))
    (found : b.circuit.node? node = some n) (named : NodeKind.ofName? n.kind = some kind)
    {text : Fault → String} :
    T.From c (tryCatch (b.evaluate n pin kind) fun f => do b.log .error (text f); pure .null)
      fun d x => d = c ∧ ∃ v, x = .ok v ∧ b.Offers node v := by
  have offers (v : Value) (literal : kind = .numberLiteral →
      v = (n.property "value").toNum.toValue ∨ v = .null) : b.Offers node v := by
    intro n' found' named'
    cases found.symm.trans found'
    exact literal (Option.some.inj (named.symm.trans named'))
  refine from_tryCatch (P := fun d x => d = c ∧ ∀ v, x = .ok v → b.Offers node v) ?_ ?_ ?_
  · by_cases literal : kind = .numberLiteral
    · subst literal
      refine from_pure grants.stands ⟨rfl, ?_⟩
      rintro v ⟨⟩
      exact offers _ fun _ => .inl rfl
    · refine from_mono (from_of_throughout grants (Etiquette.throughout_evaluate
        (Discretion.glances grants.sees load) (Discretion.speaks grants.sees) pin
        ⟨⟨node, found⟩, named⟩ fun _ _ _ source _ usual => Discretion.looks.pull usual source)) ?_
      rintro d x rfl
      exact ⟨rfl, fun v _ => offers v fun eq => absurd eq literal⟩
  · rintro d v ⟨rfl, offered⟩
    exact ⟨grants.stands, rfl, v, rfl, offered v rfl⟩
  · rintro d f ⟨rfl, -⟩
    refine from_mono (from_log_pure grants) ?_
    rintro d x ⟨rfl, rfl⟩
    exact ⟨rfl, _, rfl, offers_null node⟩

theorem pull_honours (node pin : String) :
    (b.terms env (.pull node pin) c).From c (b.pull node pin) (b.Yields c (.pull node pin)) := by
  have outside : (b.terms env (.pull node pin) c).Grants none c := grants_talk (by exact .inl rfl)
  have gives (v : Value) : b.Offers node v → b.Yields c (.pull node pin) c (.ok v) :=
    fun offers => ⟨rfl, v, rfl, offers⟩
  unfold pull
  split
  · exact from_pure outside.stands (gives _ (offers_null node))
  next n found =>
    split
    · exact from_pure outside.stands (gives _ (offers_null node))
    next kind named =>
      refine from_enter_bind outside.stands (.inr rfl) (fun inner enters => ?_) fun _ => ?_
      · have inside : (b.terms env (.pull node pin) c).Grants (some n.id) inner :=
          { stands := .inr ⟨n, found, enters⟩
            sees := does_of_isLook
            stop := .order
            pull := fun here source => by cases here; exact .pull found enters source }
        have load {key : String} (loading : b.Loading n key) :
            (b.terms env (.pull node pin) c).does (.load key) :=
          ⟨n, found, ⟨_, loading.holds, rfl⟩, loading.keyed⟩
        refine from_bind (evaluate_honours inside load found named) ?_ ?_
        · rintro d v ⟨rfl, _, ⟨⟩, offered⟩
          refine from_act_bind inside.stands (.inr rfl) fun m => ?_
          have left : (Machine.perform b env m d (.leave (Context.pullKey n.id pin))).2.1 = c :=
            Context.leave_enter enters
          rw [left]
          exact from_pure outside.stands (gives v offered)
        · rintro d e ⟨-, v, failed, -⟩
          cases failed
      · refine from_mono (from_log_pure outside) ?_
        rintro d x ⟨rfl, rfl⟩
        exact gives _ (offers_null node)

theorem resolve_honours (node pin : String) :
    (b.terms env (.resolve node pin) c).From c (b.resolve node pin)
      (b.Yields c (.resolve node pin)) := by
  rw [Board.resolve_eq]
  cases source : b.source? node pin with
  | none => exact from_pure rfl ⟨rfl, _, rfl⟩
  | some p =>
    refine from_call rfl (.resolve source) ?_
    rintro d x ⟨rfl, v, rfl, -⟩
    exact ⟨rfl, rfl, v, rfl⟩

/-! ## Nodes that are executed -/

theorem from_fire (stands : ∀ d, c.Matches d → T.stands d) {node : String}
    (sent : T.sends c (.fire node pin)) :
    T.From c (Attempt.fire node pin) fun d x => c.Matches d ∧ x = .ok () := by
  refine from_discard (P := fun d x => c.Matches d ∧ ∃ v, x = .ok v)
    (from_call (stands c (.refl c)) sent fun d x yields => ⟨stands d yields.1, yields⟩) ?_ ?_
  · rintro d _ ⟨same, -⟩
    exact ⟨stands d same, same, rfl⟩
  · rintro d _ ⟨-, v, failed⟩
    cases failed

/-- A loop is called last, and ends the job. -/
theorem from_again (same : c.Matches d) (sent : T.sends d j)
    (stands : ∀ e, c.Matches e → T.stands e) (yields : ∀ e x, b.Yields d j e x → d.Matches e) :
    T.From d (discard (Attempt.call j)) fun e _ => c.Matches e :=
  from_discard (from_call (stands d same) sent fun e x ended =>
    ⟨stands e (same.trans (yields e x ended)), same.trans (yields e x ended)⟩)
    (fun e _ ended => ⟨stands e ended, ended⟩) fun e _ ended => ⟨stands e ended, ended⟩

section Executing

variable {node : String} {pin? : Option String} {n : Node} {kind : NodeKind}
  (found : b.circuit.node? node = some n)
include found

theorem grants_execute : (b.terms env (.execute node pin?) c).Grants (some n.id) c where
  stands := .inl (.refl c)
  sees := does_of_isLook
  stop := .order
  pull here source := by cases here; exact .input found source

/-- What a node does that calls no function is its own affair. -/
theorem toils_execute {node? : Option String} :
    (b.discretion env node? (b.Does (.execute node pin?))).Toils b n := by
  constructor
  case ask =>
    intros
    trivial
  case look => rintro _ a (rfl | rfl) - <;> exact ⟨rfl, trivial⟩
  case assign => exact fun _ holds named => ⟨rfl, n, found, holds.2, named⟩
  case keep | collect =>
    intros
    exact ⟨rfl, n, found, rfl⟩
  case save => exact fun _ holds keyed _ _ => ⟨rfl, n, found, ⟨_, holds, rfl⟩, keyed⟩
  case remove => exact fun _ holds keyed => ⟨rfl, n, found, ⟨_, holds, rfl⟩, keyed⟩
  all_goals
    intros
    exact ⟨rfl, trivial⟩

theorem from_output (output : pin ∈ execPins) :
    (b.terms env (.execute node pin?) c).From c (Attempt.fire n.id pin) fun d _ => c.Matches d :=
  from_mono (from_fire (fun _ => Or.inl) (.output found output)) fun _ _ ended => ended.1

/-- The frame of a call is there only while the body of the function runs. -/
theorem from_runFunctionCall :
    (b.terms env (.execute node pin?) c).From c (b.runFunctionCall n) fun d _ => d = c := by
  have grants : (b.terms env (.execute node pin?) c).Grants (some n.id) c := grants_execute found
  have here : b.Stands c (.execute node pin?) c := grants.stands
  have lastWords {level : Level} {message : Value} {v : Bool} :
      (b.terms env (.execute node pin?) c).From c
        (Attempt.log b.appId level message >>= fun _ => pure v) fun d _ => d = c :=
    from_mono (from_log_pure grants) fun _ _ ended => ended.1
  refine from_ofExcept_bind here (fun name _ => ?_) fun _ _ => rfl
  split
  · exact lastWords
  next entry filed =>
    refine from_act_bind here trivial fun m => ?_
    refine from_ofExcept_bind here (fun most bound => ?_) fun _ _ => rfl
    refine from_ite (fun _ => ?_) fun shallow => ?_
    · exact from_ofExcept_bind here (fun limit _ => lastWords) fun _ _ => rfl
    refine from_resolve_bind grants fun x _ => ?_
    refine from_resolve_bind grants fun y _ => ?_
    refine from_act_bind here trivial fun m => ?_
    let frame : Frame := { function := name, params := [("param1", x), ("param2", y)] }
    have called (d : Context) (same : (c.push frame).Matches d) :
        b.Stands c (.execute node pin?) d :=
      .inr ⟨frame, most, bound, Bool.eq_false_iff.mpr shallow, same⟩
    refine from_bind (P := fun d x => (c.push frame).Matches d ∧ ∃ outcome, x = .ok outcome)
      ?_ ?_ ?_
    · have sent : b.Sends env (.execute node pin?) c (c.push frame) (.execute entry none) :=
        .function filed bound (Bool.eq_false_iff.mpr shallow)
      exact from_capture (from_call (called _ (.refl _)) sent fun d x yields =>
        ⟨called d yields.1, yields⟩) fun d x yields => ⟨called d yields.1, yields.1, x, rfl⟩
    · rintro d outcome ⟨same, -⟩
      refine from_act_bind (called d same) trivial fun m => ?_
      have popped : (Machine.perform b env m d .pop).2.1 = c := Context.pop_of_matches_push same
      rw [popped]
      refine from_bind (P := fun d _ => d = c) ?_ ?_ fun _ _ same => ⟨same ▸ here, same⟩
      · cases outcome with
        | error f => exact ⟨here, rfl⟩
        | ok v => exact ⟨here, rfl⟩
      · rintro d _ rfl
        refine from_isStale_bind here trivial rfl ?_
        exact from_steady_bind rfl here ⟨n, found, rfl⟩ fun _ => lastWords
    · rintro d _ ⟨-, _, failed⟩
      cases failed

/-- Where the request has failed, the chain goes on at another pin. -/
theorem from_runHttp :
    (b.terms env (.execute node pin?) c).From c (b.runHttp n) fun d _ => c.Matches d := by
  have grants : (b.terms env (.execute node pin?) c).Grants (some n.id) c := grants_execute found
  have here : b.Stands c (.execute node pin?) c := grants.stands
  refine from_resolve_bind grants fun url _ => ?_
  refine from_resolve_bind grants fun body _ => ?_
  refine from_ofExcept_bind here (fun request _ => ?_) fun _ _ => .refl c
  refine from_log_bind grants ?_
  refine from_discreet_bind grants (Etiquette.throughout_capture
    (Etiquette.throughout_wait fun _ _ => trivial)) (fun outcome => ?_) fun _ => .refl c
  refine from_isStale_bind here trivial (.refl c) ?_
  cases outcome with
  | ok response =>
    refine from_steady_bind rfl here ⟨n, found, rfl⟩ fun _ => ?_
    refine from_steady_bind rfl here ⟨n, found, rfl⟩ fun _ => ?_
    refine from_ofExcept_bind here (fun status _ => ?_) fun _ _ => .refl c
    refine from_ofExcept_bind here (fun statusText _ => ?_) fun _ _ => .refl c
    exact from_log_bind grants (from_output found (by decide))
  | error f =>
    refine from_log_bind grants ?_
    refine from_steady_bind rfl here ⟨n, found, rfl⟩ fun _ => ?_
    refine from_steady_bind rfl here ⟨n, found, rfl⟩ fun _ => ?_
    exact from_output found (by decide)

theorem from_runReturn :
    (b.terms env (.execute node pin?) c).From c (b.runReturn n) fun d _ => c.Matches d := by
  refine from_resolve_bind (grants_execute found) fun v _ => ?_
  refine from_setResult_bind (.inl (.refl c)) trivial fun d returned same => ?_
  refine from_ite (fun _ => ?_) fun _ => from_pure (.inl same) same
  refine from_mono (from_log (grants_talk (by exact .inl same)) _ _ _) ?_
  rintro _ _ ⟨rfl, -⟩
  exact same

/-- What a node of any kind does before it goes on leaves the chain as it was. -/
theorem from_run? (named : NodeKind.ofName? n.kind = some kind) {run : Attempt Bool}
    (h : b.run? n kind = some run) :
    (b.terms env (.execute node pin?) c).From c run fun d _ => d = c := by
  by_cases call : kind = .functionCall
  · subst call
    cases h
    exact from_runFunctionCall found
  · refine from_of_throughout (grants_execute found) fun μ _ => ?_
    exact Etiquette.from_of_run?_of_ne (Discretion.speaks does_of_isLook) Discretion.looks
      (toils_execute found) trivial ⟨⟨node, found⟩, named⟩ call h

theorem from_perform (named : NodeKind.ofName? n.kind = some kind) :
    (b.terms env (.execute node pin?) c).From c (b.perform n kind) fun d _ => c.Matches d := by
  have grants : (b.terms env (.execute node pin?) c).Grants (some n.id) c := grants_execute found
  have here : b.Stands c (.execute node pin?) c := grants.stands
  unfold perform
  split
  next run h =>
    refine from_bind (from_run? found named h) ?_ ?_
    · rintro d goesOn rfl
      exact from_ite (fun _ => from_output found (by decide)) fun _ => from_pure here (.refl d)
    · rintro d _ rfl
      exact ⟨here, .refl d⟩
  next h =>
    cases kind with
    | ifCondition =>
      refine from_resolve_bind grants fun condition _ => from_output found ?_
      split <;> decide
    | forLoop =>
      refine from_resolve_bind grants fun first enters => ?_
      refine from_resolve_bind grants fun stop enters' => ?_
      exact from_again (.refl c) (.count found named enters enters') (fun _ => .inl) fun _ _ => id
    | whileLoop =>
      exact from_again (.refl c) (.test found named) (fun _ => .inl) fun _ _ => id
    | httpRequest => exact from_runHttp found
    | functionReturn => exact from_runReturn found
    | _ => exact from_pure here (.refl c)

end Executing

/-- Whatever fails inside a node is written into the log. -/
theorem execute_honours (node : String) (pin? : Option String) :
    (b.terms env (.execute node pin?) c).From c (b.execute node pin?) fun d x =>
      c.Matches d ∧ x = .ok () := by
  unfold execute
  split
  · exact from_pure (.inl (.refl c)) ⟨.refl c, rfl⟩
  next n found =>
    split
    · exact from_pure (.inl (.refl c)) ⟨.refl c, rfl⟩
    next kind named =>
      refine from_steady_bind rfl (.inl (.refl c)) trivial fun _ => ?_
      refine from_tryCatch (from_perform found named) (fun d _ same => ⟨.inl same, same, rfl⟩)
        fun d f same => ?_
      refine from_mono (from_log (grants_talk (by exact .inl same)) _ _ _) ?_
      rintro _ _ ⟨rfl, logged⟩
      exact ⟨same, logged⟩

/-! ## Loops and wires -/

theorem iterate_honours (node : String) (index stop : Num) :
    (b.terms env (.iterate node index stop) c).From c (iterate node index stop) fun d _ =>
      c.Matches d := by
  refine from_ite (fun less => ?_) fun _ =>
    from_mono (from_fire (fun _ => id) (.loop (by decide))) fun _ _ ended => ended.1
  refine from_isStale_bind (.refl c) trivial (.refl c) ?_
  refine from_steady_bind rfl (.refl c) rfl fun _ => ?_
  refine from_bind (from_fire (fun _ => id) (.loop (by decide))) (fun d _ ended => ?_)
    fun d _ ended => ⟨ended.1, ended.1⟩
  refine from_ofExcept_bind ended.1 (fun following add => ?_) fun _ _ => ended.1
  exact from_again ended.1 (.next less add ended.1) (fun _ same => same) fun _ _ same => same

theorem rounds_honours (node : String) (count : Nat) (limit : Value) :
    (b.terms env (.rounds node count limit) c).From c (b.rounds node count limit) fun d _ =>
      c.Matches d := by
  have done : (b.terms env (.rounds node count limit) c).From c (Attempt.fire node "done")
      fun d _ => c.Matches d :=
    from_mono (from_fire (fun _ => id) (.round (by decide))) fun _ _ ended => ended.1
  have grants : (b.terms env (.rounds node count limit) c).Grants (some node) c :=
    { stands := .refl c
      sees := does_of_isLook
      stop := .order
      pull := fun here source => by cases here; exact .condition source }
  refine from_ofExcept_bind (.refl c) (fun most bound => ?_) fun _ _ => .refl c
  refine from_ite (fun less => ?_) fun _ => from_ite (fun _ => ?_) fun _ => done
  · refine from_isStale_bind (.refl c) trivial (.refl c) ?_
    refine from_resolve_bind grants fun condition _ => from_ite (fun _ => ?_) fun _ => done
    refine from_bind (from_fire (fun _ => id) (.round (by decide))) (fun d _ ended => ?_)
      fun d _ ended => ⟨ended.1, ended.1⟩
    exact from_again ended.1 (.again bound less ended.1) (fun _ same => same) fun _ _ same => same
  · refine from_ofExcept_bind (.refl c) (fun text _ => ?_) fun _ _ => .refl c
    exact from_log_bind grants done

/-- All wires are followed, one after the other, whatever happens along them. -/
theorem follow_honours {node : String} (ws : List Wire)
    (listed : ∀ w ∈ ws, w ∈ b.circuit.wiresFrom node pin) (same : c.Matches d) :
    (b.terms env (.fire node pin) c).From d (follow ws) fun e x => c.Matches e ∧ x = .ok () := by
  induction ws generalizing d with
  | nil => exact from_pure same ⟨same, rfl⟩
  | cons w rest ih =>
    refine from_isStale_bind same trivial ⟨same, rfl⟩ ?_
    have sent : b.Sends env (.fire node pin) c d (.execute w.target.node (some w.target.pin)) :=
      .wire (listed w List.mem_cons_self) same
    refine from_bind (P := fun e x => c.Matches e ∧ x = .ok ()) ?_ ?_ ?_
    · refine from_discard (from_call same sent fun e x yields =>
        ⟨same.trans yields.1, yields⟩) ?_ ?_
      · rintro e _ ⟨same', -⟩
        exact ⟨same.trans same', same.trans same', rfl⟩
      · rintro e _ ⟨-, _, failed⟩
        cases failed
    · rintro e _ ⟨same, -⟩
      exact ih (fun w member => listed w (List.mem_cons_of_mem _ member)) same
    · rintro e _ ⟨-, failed⟩
      cases failed

/-! ## Chains -/

theorem from_chain (begins : j.beginsChains = true) (node : String)
    (stands : (b.terms env j c).stands d) :
    (b.terms env j c).From d (chain node) fun e x => (b.terms env j c).stands e ∧ x = .ok () := by
  -- a chain begins without frames, whatever there was before
  have fresh (epoch : Nat) (e : Context) (same : Context.Matches { epoch } e) :
      (b.terms env j c).stands e := by
    have none : e.frames.length = 0 := same.depth
    cases j with
    | chain | start | handle => exact Nat.le_trans (Nat.le_of_eq none) (Nat.zero_le _)
    | _ => cases begins
  have allowed : (b.terms env j c).does .beginChain := by
    cases j with
    | chain | start | handle => trivial
    | _ => cases begins
  refine from_act_bind stands allowed fun m => ?_
  exact from_mono (from_fire (fresh _) (.chain begins)) fun e _ ended =>
    ⟨fresh _ e ended.1, ended.2⟩

theorem handle_honours (type target : Value) :
    (b.terms env (.handle type target) c).From c (b.handle type target) fun d x =>
      d.frames.length ≤ c.frames.length ∧ x = .ok () := by
  have here : c.frames.length ≤ c.frames.length := Nat.le_refl _
  refine from_steady_bind rfl here trivial fun (status : Status) => ?_
  refine from_ite (fun _ => ?_) fun _ => ?_
  · exact from_steady_bind rfl here trivial fun _ => from_pure here ⟨here, rfl⟩
  split
  · refine from_forM (fun _ _ ended => ended.1) (fun d n ended => ?_) ⟨here, rfl⟩
    unfold handleAt
    refine from_ite (fun _ => ?_) fun _ => from_ite (fun _ => from_chain rfl n.id ended.1)
      fun _ => from_pure ended.1 ended
    refine from_ite (fun _ => from_pure ended.1 ended) fun _ => ?_
    exact from_steady_bind rfl ended.1 trivial fun _ => from_chain rfl n.id ended.1
  · exact from_pure here ⟨here, rfl⟩

theorem start_honours : (b.terms env .start c).From c b.start fun d _ =>
    d.frames.length ≤ c.frames.length := by
  have here : c.frames.length ≤ c.frames.length := Nat.le_refl _
  refine from_steady_bind rfl here trivial fun (status : Status) => ?_
  refine from_ite (fun _ => ?_) fun _ => ?_
  · exact from_steady_bind rfl here trivial fun _ => from_pure here here
  refine from_steady_bind rfl here trivial fun _ => ?_
  refine from_log_bind (grants_talk (by exact here)) ?_
  refine from_bind (P := fun d _ => d.frames.length ≤ c.frames.length) ?_ (fun d _ stands => ?_)
    fun _ _ stands => ⟨stands, stands⟩
  · refine from_forM (fun _ _ stands => stands) (fun d n stands => ?_) here
    exact from_mono (from_chain rfl n.id stands) fun _ _ ended => ended.1
  refine from_steady_bind rfl stands trivial fun (status : Status) => ?_
  refine from_ite (fun _ => from_pure stands stands) fun _ => ?_
  refine from_forM (fun _ _ stands => stands) (fun d n stands => ?_) stands
  refine from_ofExcept_bind stands (fun period? _ => ?_) fun _ _ => stands
  exact ⟨stands, trivial, fun _ => ⟨stands, stands⟩⟩

theorem stop_honours : (b.terms env .stop c).From c b.stop fun d x => d = c ∧ x = .ok () :=
  from_steady_bind rfl rfl trivial fun _ => from_log (grants_talk (by exact rfl)) _ _ _

/-! ## All bodies -/

theorem from_void {x : Attempt Unit} {P : Context → Except Fault Unit → Prop}
    {Q : Context → Except Fault Value → Prop} (stands : ∀ d x, P d x → T.stands d)
    (hx : T.From c x P) (ok : ∀ d, P d (.ok ()) → Q d (.ok .null))
    (error : ∀ d e, P d (.error e) → Q d (.error e)) : T.From c (Attempt.void x) Q :=
  from_bind hx (fun d _ ended => from_pure (stands d _ ended) (ok d ended))
    fun d e ended => ⟨stands d _ ended, error d e ended⟩

/-- An attempt that gives nothing back and does not fail. -/
theorem from_void_of_ok {x : Attempt Unit} {P : Context → Prop} (stands : ∀ d, P d → T.stands d)
    (hx : T.From c x fun d x => P d ∧ x = .ok ()) :
    T.From c (Attempt.void x) fun d x => P d ∧ ∃ v, x = .ok v := by
  refine from_void (fun d _ ended => stands d ended.1) hx (fun d ended => ⟨ended.1, .null, rfl⟩) ?_
  rintro d e ⟨-, failed⟩
  cases failed

/-- Every job keeps to its terms, and returns as it should. -/
theorem body_honours (b : Board) (env : Surroundings σ) (j : Job) (c : Context) :
    (b.body j).run.Honours (b.terms env j c) (b.Yields c j) c := by
  cases j with
  | fire node pin =>
    exact from_void_of_ok (fun _ same => same) (follow_honours _ (fun _ member => member) (.refl c))
  | execute node pin? => exact from_void_of_ok (fun _ => .inl) (execute_honours node pin?)
  | pull node pin => exact pull_honours node pin
  | resolve node pin => exact resolve_honours node pin
  | iterate node index stop =>
    exact from_void (fun _ _ same => same) (iterate_honours node index stop) (fun _ same => same)
      fun _ _ same => same
  | rounds node count limit =>
    exact from_void (fun _ _ same => same) (rounds_honours node count limit) (fun _ same => same)
      fun _ _ same => same
  | chain node =>
    exact from_void_of_ok (fun _ stands => stands) (from_chain rfl node (Nat.le_refl _))
  | start =>
    exact from_void (fun _ _ stands => stands) start_honours (fun _ stands => stands)
      fun _ _ stands => stands
  | stop => exact from_void_of_ok (fun _ same => same) stop_honours
  | handle type target =>
    exact from_void_of_ok (fun _ stands => stands) (handle_honours type target)
  | log level message =>
    exact from_void_of_ok (fun _ same => same) (from_log (grants_talk (by exact rfl)) _ _ _)

end Board

end Wireboard
