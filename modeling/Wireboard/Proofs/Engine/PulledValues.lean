import Wireboard.Proofs.Engine.CountingLoops
import Wireboard.Proofs.Engine.FalseAlarms
import Wireboard.Proofs.Engine.Tabulation

/-!
# Pulled values

A pull finds the value that the table has (`Run.pull_gives_tabulated`), although it works out the
same pins again and again, each time with other pulls open.

The body of a pull is got through attempt by attempt, and all the while the chain sees the same
(`Course.Gives`).  It does so even if a listener stops the app while an entry is made in the log:
the stop comes back, and has changed nothing that a pull looks at (`Course.stop_passes`).  What is
open does not matter as long as it has none of the keys that the pull will come across.  Then what
the pull gives is worked out from what the inner pulls give, just as in the table; and since none of
them stands before what it needs there, the order of the table is also the order of the induction
(`Course.pullGives_of_ready`).
-/

namespace Wireboard

variable {σ : Type} {config : Config} {app : App} {b : Board} {env : Surroundings σ}

/-- Whoever listens to the log leaves alone what is stored. -/
def Surroundings.LogsOnly (env : Surroundings σ) : Prop :=
  ∀ outside level message,
    env.load (env.react outside (.log level message)).2 = env.load outside

namespace Course

variable {course : Course b env} {s t : Strand} {j : Job} {next goesOn : Continuation}
  {p q k l : Nat} {c d : Context} {w : View} {x : Except Fault Value}

/-- Whoever stops the app from inside of the job comes to an end. -/
def ListenersEnd (course : Course b env) (s : Strand) (p : Nat) : Prop :=
  ∀ l t goesOn, course.Busy s p l t → t.code = .call .stop goesOn →
    ∃ k u, l < k ∧ course.Runs s.id k u ∧ u.stack.length ≤ t.stack.length

theorem ListenersEnd.inner (ends : course.ListenersEnd s p) (busy : course.Busy s p l t) :
    course.ListenersEnd t l := by
  intro k u goesOn deeper code
  rw [busy.runs.2]
  exact ends k u goesOn (busy.trans deeper) code

/-- Stops that are called inside of the job come back, and the chain sees what it saw before. -/
def StopsPass (course : Course b env) (s : Strand) (p : Nat) : Prop :=
  ∀ l t goesOn, course.Busy s p l t → course.Calls l t .stop goesOn →
    ∃ q x, course.Returns t l q t.context x ∧
      (course.state (q + 1)).view env t.context = (course.state l).view env t.context

/-- Wherever the chain sees this, the attempt is got through, with such a result, and leaves the
chain and what it sees as they were. -/
def Gives {α : Type} (course : Course b env) (s : Strand) (next : Continuation) (p : Nat) (w : View)
    (c : Context) (x : Attempt α) (Y : Except Fault α → Prop) : Prop :=
  ∀ k, (course.state k).view env c = w → course.Gets s next p k c x fun l d r =>
    Y r ∧ d = c ∧ (course.state l).view env c = w

/-! ## Getting through without a change -/

section Gives

variable {α β : Type} {Y : Except Fault α → Prop} {Z : Except Fault β → Prop}

theorem gives_ofExcept {r : Except Fault α} (h : Y r) :
    course.Gives s next p w c (Attempt.ofExcept r) Y :=
  fun _ sees => gets_ofExcept ⟨h, rfl, sees⟩

theorem gives_pure {a : α} (h : Y (.ok a)) : course.Gives s next p w c (pure a) Y :=
  gives_ofExcept h

theorem gives_bind {x : Attempt α} {f : α → Attempt β} (hx : course.Gives s next p w c x Y)
    (ok : ∀ a, Y (.ok a) → course.Gives s next p w c (f a) Z)
    (error : ∀ e, Y (.error e) → Z (.error e)) : course.Gives s next p w c (x >>= f) Z := by
  refine fun k sees => gets_bind (hx k sees) ?_ ?_
  · rintro l _ a - ⟨held, rfl, sees⟩
    exact ok a held l sees
  · rintro l _ e ⟨held, rfl, sees⟩
    exact ⟨error e held, rfl, sees⟩

/-- A result that is there already is handed on. -/
theorem gives_ofExcept_bind {r : Except Fault α} {f : α → Attempt β}
    {g : α → Except Fault β} (rest : ∀ a, course.Gives s next p w c (f a) fun x => x = g a) :
    course.Gives s next p w c (Attempt.ofExcept r >>= f) fun x => x = r >>= g := by
  refine gives_bind (Y := fun x => x = r) (gives_ofExcept rfl) ?_ ?_
  · rintro a rfl
    exact rest a
  · rintro e rfl
    rfl

theorem gives_tryCatch {x : Attempt β} {h : Fault → Attempt β} {Y : Except Fault β → Prop}
    (hx : course.Gives s next p w c x Y) (ok : ∀ a, Y (.ok a) → Z (.ok a))
    (error : ∀ e, Y (.error e) → course.Gives s next p w c (h e) Z) :
    course.Gives s next p w c (tryCatch x h) Z := by
  refine fun k sees => gets_tryCatch (hx k sees) ?_ ?_
  · rintro l _ a ⟨held, rfl, sees⟩
    exact ⟨ok a held, rfl, sees⟩
  · rintro l _ e ⟨held, rfl, sees⟩
    exact error e held l sees

/-- An attempt that may fail gives its value, or the one that stands in for it. -/
theorem gives_caught {x : Attempt α} {h : Fault → Attempt α} {r : Except Fault α} {a : α}
    (hx : course.Gives s next p w c x fun y => y = r)
    (instead : ∀ e, course.Gives s next p w c (h e) fun y => y = .ok a) :
    course.Gives s next p w c (tryCatch x h) fun y => y = .ok (r.toOption.getD a) := by
  refine gives_tryCatch hx ?_ ?_
  · rintro v rfl
    rfl
  · rintro e rfl
    exact instead e

theorem gives_act {a : Act} {Y : Except Fault a.Reply → Prop}
    (looks : ∀ m : Machine σ, m.view env c = w → Y (.ok (Machine.perform b env m c a).1) ∧
      (Machine.perform b env m c a).2.1 = c ∧ (Machine.perform b env m c a).2.2.view env c = w) :
    course.Gives s next p w c (Attempt.act a) Y := by
  refine fun k sees => gets_act fun running? eq => ?_
  obtain ⟨held, same, sees'⟩ := looks _ sees
  refine ⟨held, same, ?_⟩
  rw [eq]
  exact sees'

/-- What follows an act knows of the reply. -/
theorem gives_act_bind {a : Act} {f : a.Reply → Attempt β} {P : a.Reply → Prop}
    (looks : ∀ m : Machine σ, m.view env c = w → P (Machine.perform b env m c a).1 ∧
      (Machine.perform b env m c a).2.1 = c ∧ (Machine.perform b env m c a).2.2.view env c = w)
    (rest : ∀ r, P r → course.Gives s next p w c (f r) Z) :
    course.Gives s next p w c (Attempt.act a >>= f) Z := by
  refine gives_bind (Y := fun x => ∃ r, x = .ok r ∧ P r)
    (gives_act fun m sees => ⟨⟨_, rfl, (looks m sees).1⟩, (looks m sees).2⟩) ?_ ?_
  · rintro r ⟨_, ⟨⟩, held⟩
    exact rest r held
  · rintro _ ⟨_, failed, -⟩
    cases failed

/-- A job that is called, and returns with the chain seeing the same, has been got through. -/
theorem gives_call {Y : Except Fault Value → Prop}
    (ends : ∀ k t goesOn, (course.state k).view env c = w → course.Busy s p k t → t.context = c →
      course.Calls k t j goesOn → ∃ q x, course.Returns t k q c x ∧
        (course.state (q + 1)).view env c = w ∧ Y x) :
    course.Gives s next p w c (Attempt.call j) Y := by
  intro k sees f doing
  obtain ⟨q, x, returns, sees', held⟩ :=
    ends k _ _ sees doing.busy rfl ⟨doing.running, rfl⟩
  obtain ⟨_, busy, -⟩ := id returns
  exact ⟨q + 1, c, x, Nat.le_succ_of_le (Nat.le_of_lt busy.after), doing.of_returns returns, held,
    rfl, sees'⟩

end Gives

/-- A job whose body is got through returns. -/
theorem Calls.returns_of_gives {Y : Except Fault Value → Prop} (calls : course.Calls p s j next)
    (gives : course.Gives s next p w s.context (b.body j) Y)
    (sees : (course.state p).view env s.context = w) :
    ∃ q x, course.Returns s p q s.context x ∧ (course.state (q + 1)).view env s.context = w ∧
      Y x := by
  have sees' : (course.state (p + 1)).view env s.context = w := by
    rw [(course.move p).eq_stepStrand calls.running, Machine.stepStrand, calls.code]
    exact sees
  obtain ⟨l, d, x, -, doing, held, rfl, seen⟩ := gives (p + 1) sees' .ret (by
    rw [Script.bind_ret]
    exact calls.doing)
  refine ⟨l, x, doing.returns, ?_, held⟩
  rw [(course.move l).eq_stepStrand doing.running]
  exact seen

/-! ## Entries in the log -/

/-- No move that is part of stopping the app changes what a chain sees. -/
theorem view_succ (only : env.LogsOnly) (running : (course.state k).running? = some t)
    (c : Context) (own : ∀ d, t.code.deed? = some d → d.isOfStop = true) :
    (course.state (k + 1)).view env c = (course.state k).view env c := by
  rw [(course.move k).eq_stepStrand running, Machine.stepStrand]
  generalize course.state k = m
  split
  next =>
    split
    · obtain ⟨finished, eq⟩ := Machine.exists_finish_eq m t _
      rw [eq]
      rfl
    · rfl
  next a _ code =>
    have own := own _ (congrArg Script.deed? code)
    cases a with
    | callback cb =>
      cases cb with
      | log level message =>
        have kept := only m.outside level message
        simp only [Machine.perform]
        split
        all_goals
          next reacted =>
            rw [reacted] at kept
            exact congrArg (fun load => { m.view env c with load }) kept
      | _ => cases own
    | markStopped | journal | notice | dispatch => rfl
    | _ => cases own
  next code => cases own _ (congrArg Script.deed? code)
  next => rfl

variable (only : env.LogsOnly) (stops : course.StopsPass s p)

section Talk

include only stops

/-- Whatever the listener does, an entry in the log changes nothing that the chain sees. -/
theorem gives_log (app : String) (level : Level) (message : Value) :
    course.Gives s next p w c (Attempt.log app level message) fun r => r = .ok () := by
  refine gives_act_bind (P := fun _ => True) (fun _ sees => ⟨trivial, rfl, sees⟩)
    fun _ _ k sees => ?_
  refine gets_mono (gets_tell (R := fun k l => (course.state l).view env c
      = (course.state k).view env c) (fun _ => rfl) (fun h h' => h'.trans h)
    (fun doing echo => view_succ only doing.running c ?_) (fun k => ?_) app level message)
    fun _ _ _ _ held => ⟨held.2, held.1.2, held.1.1.trans sees⟩
  · rintro _ ⟨⟩
    exact Deed.isOfStop_of_isEcho echo
  · refine gets_mono (gives_call (Y := fun _ => True) ?_ k rfl) fun _ _ _ _ held => held.2.symm
    rintro k t goesOn sees busy rfl calls
    obtain ⟨q, x, returns, sees'⟩ := stops k t goesOn busy calls
    exact ⟨q, x, returns, sees'.trans sees, trivial⟩

/-- A failure that is told in the log ends in a value. -/
theorem gives_log_return {α : Type} (a : α) (app : String) (level : Level) (message : Value) :
    course.Gives s next p w c (do
      Attempt.log app level message
      pure a) fun r => r = .ok a :=
  gives_bind (gives_log only stops app level message) (fun _ _ => gives_pure rfl)
    fun _ failed => by cases failed

end Talk

/-- A stop that comes back has changed nothing that the chain sees, however many others it has set
off. -/
theorem stop_passes (only : env.LogsOnly) (calls : course.Calls k t .stop goesOn)
    (returns : course.Returns t k q d x) :
    (course.state (q + 1)).view env t.context = (course.state k).view env t.context :=
  returns.of_stop (R := fun k l => (course.state l).view env t.context
      = (course.state k).view env t.context) (fun _ => rfl) (fun h h' => h'.trans h)
    (fun running _ own => view_succ only running t.context own) calls rfl

theorem ListenersEnd.stopsPass (ends : course.ListenersEnd s p) (only : env.LogsOnly) :
    course.StopsPass s p := by
  intro l t goesOn busy calls
  obtain ⟨k, u, later, runs, low⟩ := ends l t goesOn busy calls.code
  rw [← busy.runs.2] at runs
  rcases calls.busy_or_returned later runs with inner | ⟨q, d, x, -, returns⟩
  · exact absurd low (Nat.not_le_of_lt inner.above)
  · obtain ⟨rfl, -⟩ := (returns.yields calls).1
    exact ⟨q, x, returns, stop_passes only calls returns⟩

/-- Where the job has returned, all stops inside of it have come back. -/
theorem Returns.listenersEnd (returns : course.Returns s p q d x)
    (calls : course.Calls p s j next) : course.ListenersEnd s p := by
  intro l t goesOn busy code
  have calls' : course.Calls l t .stop goesOn := ⟨busy.runs.1, code⟩
  obtain ⟨q', d', x', -, returns'⟩ :=
    calls'.returned_of_outer busy returns (returns.lt_of_calls calls busy calls')
  obtain ⟨_, inner, -⟩ := id returns'
  rw [← busy.runs.2]
  exact ⟨q' + 1, _, Nat.lt_succ_of_lt inner.after, ⟨(returns'.yields calls').2, rfl⟩, Nat.le_refl _⟩

/-! ## Finding a value -/

section Finding

variable {n : Node} {T : PinRef → Value}

theorem gives_gather {node : String} {pins : List String} {goesOn : List Value → Attempt Value}
    {Y : Except Fault Value → Prop}
    (pulls : ∀ pin ∈ pins, ∀ r, b.source? node pin = some r →
      course.Gives s next p w c (Attempt.call (.pull r.node r.pin)) fun x => x = .ok (T r))
    (rest : course.Gives s next p w c (goesOn (pins.map (b.entering T node))) Y) :
    course.Gives s next p w c (b.gather node pins goesOn) Y := by
  induction pins generalizing goesOn with
  | nil => exact rest
  | cons pin pins ih =>
    refine gives_bind (Y := fun x => x = .ok (b.entering T node pin)) ?_ ?_
      fun _ failed => by cases failed
    · rw [Board.resolve_eq, Board.entering]
      cases source : b.source? node pin with
      | none => exact gives_pure rfl
      | some r => exact pulls pin List.mem_cons_self r source
    · rintro _ ⟨⟩
      exact ih (fun pin' member => pulls pin' (List.mem_cons_of_mem _ member)) rest

theorem gives_scratch_bind {f : Scratch → Value} :
    course.Gives s next p w c (Attempt.scratch n.id >>= fun kept => pure (f kept)) fun x =>
      x = .ok (f (w.scratch n.id)) :=
  gives_act_bind (P := fun kept => kept = w.scratch n.id)
    (fun m sees => ⟨congrFun (congrArg View.scratch sees) n.id, rfl, sees⟩) fun _ eq =>
      gives_pure (by rw [eq])

theorem gives_pullParameter (pin : String) :
    course.Gives s next p w c (b.pullParameter n pin) fun x =>
      x = b.report w n pin .functionDefine := by
  unfold Board.pullParameter
  simp only [Board.report]
  by_cases param : (decide (pin = "param1") || decide (pin = "param2")) = true
  · rw [if_pos param, if_pos param]
    refine gives_ofExcept_bind fun name => ?_
    refine gives_act_bind (P := fun frame? => frame? = w.frame? name)
      (fun m sees => ⟨congrFun (congrArg View.frame? sees) name, rfl, sees⟩) ?_
    rintro _ rfl
    cases w.frame? name <;> exact gives_pure rfl
  · rw [if_neg param, if_neg param]
    exact gives_pure rfl

/-- What is got through behind a key that was not taken is got through in front of it. -/
theorem gives_behind {key : String} {d : Context} {x : Attempt Value} {v : Value}
    (enters : c.enter key = some d) (inside : course.Gives s next p w d x fun r => r = .ok v)
    (refused : Attempt Value) :
    course.Gives s next p w c (do
      if ← Attempt.enter key then
        let v ← x
        Attempt.act (.leave key)
        return v
      else refused) fun r => r = .ok v := by
  have frames : d.frame? = c.frame? := by
    unfold Context.enter at enters
    split at enters <;> cases enters
    rfl
  have alike (m : Machine σ) : m.view env d = m.view env c :=
    congrArg (fun frame? => { m.view env c with frame? }) frames
  intro k sees
  refine gets_bind (P := fun l e r => r = .ok true ∧ e = d ∧ (course.state l).view env d = w)
    (gets_act fun running? eq => ?_) ?_ ?_
  · have entered : Machine.perform b env (course.state k) c (.enter key)
        = (true, d, course.state k) := by
      simp only [Machine.perform, enters]
      rfl
    rw [eq, entered]
    exact ⟨rfl, rfl, (alike _).trans sees⟩
  · rintro l _ _ - ⟨⟨⟩, rfl, sees⟩
    refine gets_bind (inside l sees) ?_ ?_
    · rintro l _ _ - ⟨⟨⟩, rfl, sees⟩
      refine gets_bind (P := fun l e r => r = .ok () ∧ e = c ∧ (course.state l).view env c = w)
        (gets_act fun running? eq => ?_) ?_ ?_
      · rw [eq]
        exact ⟨rfl, Context.leave_enter enters, (alike _).symm.trans sees⟩
      · rintro l _ _ - ⟨-, rfl, sees⟩
        exact gets_pure ⟨rfl, rfl, sees⟩
      · rintro _ _ _ ⟨⟨⟩, -⟩
    · rintro _ _ _ ⟨⟨⟩, -⟩
  · rintro _ _ _ ⟨⟨⟩, -⟩

include only stops

theorem gives_pullStored (pin : String) :
    course.Gives s next p w c (b.pullStored n) fun x => x = b.report w n pin .loadData := by
  refine gives_ofExcept_bind fun key => ?_
  -- A value that was read goes on to the end, and null leaves from where the failure was caught.
  refine gives_bind (gives_caught (r := (w.load key >>= Board.readStored) >>= fun v => .ok (.ok v))
    (a := .error .null) ?_ fun f => gives_log_return only stops _ _ _ _) ?_ ?_
  · refine gives_act_bind (P := fun loaded => loaded = w.load key)
      (fun m sees => ⟨congrFun (congrArg View.load sees) key, rfl, sees⟩) ?_
    rintro _ rfl
    rw [bind_assoc]
    exact gives_ofExcept_bind fun _ => gives_ofExcept_bind fun _ => gives_pure rfl
  · rintro _ ⟨⟩
    generalize w.load key >>= Board.readStored = found
    cases found <;> exact gives_pure rfl
  · intro f failed
    cases failed

theorem gives_conclude (pin : String) {kind : NodeKind} (here : kind.looksElsewhere = false)
    (vs : List Value) :
    course.Gives s next p w c (b.conclude n pin kind vs) fun x =>
      x = b.workOut w n pin kind vs := by
  cases kind with
  | randomNumber | geminiChat | getInputValue => cases here
  | concat | mathOp | listGet | listLength | numberOf | textOf | compareValues | negate | andOr =>
    exact gives_ofExcept rfl
  | onKeyPress =>
    simp only [Board.conclude, Board.evaluate, Board.workOut, Board.report, NodeKind.inputs,
      List.isEmpty]
    by_cases key : pin = "key"
    · rw [if_pos key]
      simp only [if_pos key]
      exact gives_scratch_bind
    · rw [if_neg key]
      simp only [if_neg key]
      exact gives_pure rfl
  | getVariable =>
    refine gives_ofExcept_bind fun name => ?_
    exact gives_act fun m sees =>
      ⟨congrArg Except.ok (congrFun (congrArg View.binding sees) name), rfl, sees⟩
  | loadData => exact gives_pullStored only stops pin
  | functionDefine => exact gives_pullParameter pin
  | listAdd | listRemove | forLoop | getClipboard | getLocation | getBattery | httpRequest
  | functionCall => exact gives_scratch_bind
  | _ => exact gives_pure rfl

/-- A node gives what it makes of the values that it needs, or null if it fails. -/
theorem gives_evaluate {r : PinRef} {elsewhere : PinRef → Value} {kind : NodeKind}
    (found : b.circuit.node? r.node = some n) (named : NodeKind.ofName? n.kind = some kind)
    (here : kind.looksElsewhere = false)
    (pulls : ∀ q, b.Needs r q →
      course.Gives s next p w c (Attempt.call (.pull q.node q.pin)) fun x => x = .ok (T q)) :
    course.Gives s next p w c (tryCatch (b.evaluate n r.pin kind) fun f => do
      b.log .error s!"Evaluation error in {n.kind} ({n.id}): {f.message}"
      pure .null) fun x => x = .ok (b.valueAt w elsewhere T r) := by
  have value : b.valueAt w elsewhere T r
      = ((b.workOut w n r.pin kind (kind.inputs.map (b.entering T n.id))).toOption).getD .null := by
    simp only [Board.valueAt, found, named, here]
    rfl
  rw [value, Board.evaluate_eq]
  have needed (input : String) (asked : input ∈ kind.inputs) (q : PinRef)
      (source : b.source? n.id input = some q) : b.Needs r q :=
    ⟨n, kind, input, found, named, asked, source⟩
  exact gives_caught (gives_gather (T := T) (fun input asked q source =>
    pulls q (needed input asked q source)) (gives_conclude only stops r.pin here _)) fun f =>
      gives_log_return only stops _ _ _ _

/-- A pull that is not open yet opens, gives what the node makes of the values that it needs, and is
closed again. -/
theorem gives_pull {r : PinRef} {elsewhere : PinRef → Value} (filed : b.Filed)
    (here : ∀ n kind, b.circuit.node? r.node = some n → NodeKind.ofName? n.kind = some kind →
      kind.looksElsewhere = false)
    (closed : r.key ∉ c.opened)
    (pulls : ∀ q, b.Needs r q → course.Gives s next p w { c with opened := r.key :: c.opened }
      (Attempt.call (.pull q.node q.pin)) fun x => x = .ok (T q)) :
    course.Gives s next p w c (b.body (.pull r.node r.pin)) fun x =>
      x = .ok (b.valueAt w elsewhere T r) := by
  cases found : b.circuit.node? r.node with
  | none =>
    simp only [Board.body, Board.pull, Board.valueAt, found]
    exact gives_pure rfl
  | some n =>
    cases named : NodeKind.ofName? n.kind with
    | none =>
      simp only [Board.body, Board.pull, Board.valueAt, found, named]
      exact gives_pure rfl
    | some kind =>
      have enters : c.enter (Context.pullKey n.id r.pin)
          = some { c with opened := r.key :: c.opened } := by
        rw [filed.id_eq found]
        exact if_neg (by rwa [List.contains_iff_mem])
      simp only [Board.body, Board.pull, found, named]
      exact gives_behind enters
        (gives_evaluate only stops found named (here n kind found named) pulls) _

end Finding

/-! ## Finding all values -/

/-- Whenever the pin is pulled where the chain sees this, and nothing is open that the pull will
come across, the value is found. -/
def PullGives (course : Course b env) (w : View) (r : PinRef) (v : Value) : Prop :=
  ∀ p s next, course.Calls p s (.pull r.node r.pin) next →
    (course.state p).view env s.context = w → course.ListenersEnd s p →
    (∀ q, Relation.ReflTransGen b.Needs r q → q.key ∉ s.context.opened) →
    ∃ l, course.Returns s p l s.context (.ok v) ∧ (course.state (l + 1)).view env s.context = w

section Drawing

variable (filed : b.Filed) (acyclic : b.Acyclic) (apart : b.KeysApart)
  {T elsewhere : PinRef → Value}

include only filed acyclic apart

/-- If the values that a pin needs are found, so is its own. -/
theorem pullGives_of_needs {r : PinRef} (settled : b.Settled r)
    (inner : ∀ q, b.Needs r q → course.PullGives w q (T q)) :
    course.PullGives w r (b.valueAt w elsewhere T r) := by
  intro p s next calls sees ends closed
  have gives : course.Gives s next p w s.context (b.body (.pull r.node r.pin)) fun x =>
      x = .ok (b.valueAt w elsewhere T r) := by
    refine gives_pull only (ends.stopsPass only) filed (fun n kind => settled r n kind .refl)
      (closed r .refl) fun q needs => gives_call ?_
    intro k t goesOn sees busy context calls
    rw [← context] at sees ⊢
    obtain ⟨l, returns, sees'⟩ := inner q needs k t goesOn calls sees (ends.inner busy) (by
      intro q' trail
      rw [context, List.mem_cons, not_or]
      have away : Relation.TransGen b.Needs r q' := .head' needs trail
      refine ⟨fun same => ?_, closed q' away.to_reflTransGen⟩
      exact acyclic r (by rwa [← apart r q' away same.symm] at away))
    exact ⟨l, _, returns, sees', rfl⟩
  obtain ⟨l, x, returns, sees', rfl⟩ := calls.returns_of_gives gives sees
  exact ⟨l, returns, sees'⟩

/-- Values that hold together are found, in the order in which the pins can be worked out. -/
theorem pullGives_of_ready {done order : List PinRef} (ready : b.Ready done order)
    (before : ∀ r ∈ done, b.Settled r → course.PullGives w r (T r))
    (together : ∀ r ∈ order, T r = b.valueAt w elsewhere T r) :
    ∀ r ∈ order, b.Settled r → course.PullGives w r (T r) := by
  induction order generalizing done with
  | nil => exact fun _ none => by cases none
  | cons r rest ih =>
    obtain ⟨-, needs, ready⟩ := ready
    have here (settled : b.Settled r) : course.PullGives w r (T r) := by
      rw [together r List.mem_cons_self]
      exact pullGives_of_needs only filed acyclic apart settled fun q needed =>
        before q (needs q needed) (settled.of_needs needed)
    have later := ih ready (List.forall_mem_cons.mpr ⟨here, before⟩)
      fun q member => together q (List.mem_cons_of_mem _ member)
    exact List.forall_mem_cons.mpr ⟨here, later⟩

end Drawing

end Course

/-- In a drawing without a cycle, where no id has a colon, a pull finds the value that is found when
every pin is worked out once and what it needs before it: whichever pulls are open, whatever has
happened before, and in whichever order the table is made.  There is such an order for any pins. -/
theorem Run.pull_gives_tabulated (built : Board.ofApp config app = .ok b)
    (plain : ∀ n ∈ app.nodes, ':' ∉ n.id.toList) (acyclic : b.Acyclic) (only : env.LogsOnly)
    (run : Run b env) {p : Nat} {s : Strand} {q : PinRef} {next : Continuation}
    (calls : run.Calls p s (.pull q.node q.pin) next) (settled : b.Settled q)
    (elsewhere : PinRef → Value) :
    (∀ pins : Finset PinRef, ∃ order, b.Ready [] order ∧ ∀ r ∈ pins, r ∈ order) ∧
    ∀ order, b.Ready [] order → q ∈ order →
      let v := Board.entry (b.tabulate ((run.state p).view env s.context) elsewhere [] order) q
      (run.ListenersEnd s p → ∃ l, run.Returns s p l s.context (.ok v)) ∧
      ∀ l d x, run.Returns s p l d x → x = .ok v := by
  have filed := Board.filed_of_ofApp built
  have apart := Board.keysApart_of_plain built plain
  refine ⟨Board.exists_ready built acyclic, ?_⟩
  intro order ready member v
  have gives : run.PullGives ((run.state p).view env s.context) q v :=
    Course.pullGives_of_ready only filed acyclic apart ready (fun _ none => by cases none)
      (fun r => Board.entry_eq_valueAt ready) q member settled
  have closed (r : PinRef) (trail : Relation.ReflTransGen b.Needs q r) :
      r.key ∉ s.context.opened := by
    intro opened
    obtain ⟨o, key, needs⟩ := run.needs_of_opened filed acyclic apart calls opened
    have around : Relation.TransGen b.Needs o r := needs.trans_left trail
    exact acyclic o (by rwa [← apart o r around key.symm] at around)
  have found (ends : run.ListenersEnd s p) :=
    gives p s next calls rfl ends closed
  refine ⟨fun ends => ?_, fun l d x returns => ?_⟩
  · obtain ⟨l, returns, -⟩ := found ends
    exact ⟨l, returns⟩
  · obtain ⟨l', returns', -⟩ := found (returns.listenersEnd calls)
    exact (returns.eq calls returns').2.symm

/-- The two words that are put together in the diamond are found, whether the one word is looked up
once or twice. -/
theorem Run.pull_gives_tabulated_diamondRun : ∃ s next,
    diamondRun.Calls 12 s (.pull "both" "result") next ∧
    (∃ l, diamondRun.Returns s 12 l s.context (.ok (.str "lala"))) ∧
    ∀ l d x, diamondRun.Returns s 12 l d x → x = .ok (.str "lala") := by
  have fulfils : diamondRun.Fulfils 3 12 (.pull "both" "result") 31 (.ok (.str "lala")) := by
    decide +kernel
  obtain ⟨s, next, calls⟩ := fulfils.1.exists_calls
  obtain ⟨d, returns⟩ := fulfils.exists_returns calls
  have needed {p : PinRef} {done : List PinRef} (into : ∀ w ∈ diamondApp.wires,
      w.target.node = p.node → w.source ∈ done) (q : PinRef) (needs : diamondBoard.Needs p q) :
      q ∈ done := by
    obtain ⟨w, member, rfl, target⟩ := Board.exists_wire_of_needs diamondBoard_built needs
    exact into w member target
  have ready : diamondBoard.Ready []
      [⟨"word", "value"⟩, ⟨"left", "result"⟩, ⟨"right", "result"⟩, ⟨"both", "result"⟩] :=
    ⟨by decide, needed (by decide), by decide, needed (by decide), by decide, needed (by decide),
      by decide, needed (by decide), trivial⟩
  have here : ∀ n ∈ diamondApp.nodes,
      (NodeKind.ofName? n.kind).all (fun kind => !kind.looksElsewhere) = true := by decide
  have settled : diamondBoard.Settled ⟨"both", "result"⟩ := fun q n kind _ found named => by
    simpa [named] using here n (Board.mem_nodes_of_node? diamondBoard_built found)
  have given := (pull_gives_tabulated diamondBoard_built (by decide) diamondBoard_acyclic
    (fun _ _ _ => rfl) diamondRun (q := ⟨"both", "result"⟩) calls settled fun _ => .null).2 _ ready
    (by decide)
  exact ⟨s, next, calls, given.1 (returns.listenersEnd calls), given.2⟩

end Wireboard
