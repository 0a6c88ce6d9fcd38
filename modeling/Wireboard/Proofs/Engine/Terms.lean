import Wireboard.Engine.Perform
import Wireboard.Proofs.Engine.JobBodies

/-!
# The terms of a job

An etiquette says what scripts may do, for all machines at once.  It knows neither what a chain
looks like when a script goes on, nor with what a job returns that was called.  Both are needed to
see that a job ends, and how: a pull is open only while its node is evaluated, a function has its
frame only while its body runs, and a loop goes on only as far as its numbers go.

So here the chain itself is followed.  `Script.Honours` reads a script from a given context, along
the replies that a machine can really give, and takes for granted that the jobs it calls return as
their own terms say.  The terms (`Terms`) say what the chain may look like at any moment, which acts
are done, and which jobs are called from where.

Most of what nodes do leaves the chain alone and calls nothing but pulls for the pins of the node
and stops that a listener has ordered.  That is an etiquette (`Board.discretion`), and the bodies
have been read for all etiquettes already; so only the few scripts that are *not* discreet have to
be read again (`Terms.from_of_throughout`).
-/

namespace Wireboard

variable {σ : Type} {α β : Type}

/-! ## Acts that leave the chain alone -/

/-- A listener may give the order. -/
def Surroundings.Orders (env : Surroundings σ) (o : Order) : Prop :=
  ∃ outside c r, (env.react outside c).1 = some r ∧ o ∈ r.orders

/-- The act leaves the chain as it is. -/
def Act.isSteady : Act → Bool
  | .beginChain | .push _ | .pop | .setResult _ | .enter _ | .leave _ => false
  | _ => true

/-- The act looks at something and leaves it as it is, or is talk. -/
def Act.isLook : Act → Bool
  | .isStale | .frame _ | .lookup _ | .scratch _ | .random | .mark | .load _
  | .callback (.input _) => true
  | a => a.isTalk

theorem Act.isSteady_of_isLook {a : Act} (look : a.isLook = true) : a.isSteady = true := by
  cases a with
  | beginChain | push | pop | setResult | enter | leave => cases look
  | _ => rfl

theorem Act.isLook_of_isTalk {a : Act} (talk : a.isTalk = true) :
    a.isLook = true ∧ a.entry? = none := by
  cases a with
  | callback c =>
    cases c with
    | log => exact ⟨rfl, rfl⟩
    | _ => cases talk
  | journal | notice | dispatch => exact ⟨rfl, rfl⟩
  | _ => cases talk

theorem Act.isLook_of_rank {a : Act} (rank : a.rank = 1) (plain : a.turnsPull = false) :
    a.isLook = true := by
  cases a with
  | callback c =>
    cases c with
    | input => rfl
    | _ => cases rank
  | enter | leave => cases plain
  | frame | lookup | scratch | random | mark | load => rfl
  | _ => cases rank

theorem Machine.perform_context {b : Board} {env : Surroundings σ} {a : Act}
    (steady : a.isSteady = true) (m : Machine σ) (c : Context) :
    (perform b env m c a).2.1 = c := by
  cases a with
  | beginChain | push | pop | setResult | enter | leave => cases steady
  | callback cb =>
    simp only [perform]
    split <;> rfl
  | _ => rfl

/-- What a frame was made for: a function and its parameters. -/
def Frame.call (f : Frame) : String × Table Value := (f.function, f.params)

namespace Context

/-- The contexts differ in what the innermost call will return, at most. -/
structure Matches (c d : Context) : Prop where
  epoch : d.epoch = c.epoch
  opened : d.opened = c.opened
  calls : d.frames.map Frame.call = c.frames.map Frame.call
  callers : d.frames.tail = c.frames.tail

variable {d : Context}

theorem Matches.depth {c : Context} (h : c.Matches d) : d.frames.length = c.frames.length := by
  simpa using congrArg List.length h.calls

theorem Matches.refl (c : Context) : c.Matches c := ⟨rfl, rfl, rfl, rfl⟩

theorem Matches.trans {c e : Context} (h : c.Matches d) (h' : d.Matches e) : c.Matches e where
  epoch := h'.epoch.trans h.epoch
  opened := h'.opened.trans h.opened
  calls := h'.calls.trans h.calls
  callers := h'.callers.trans h.callers

theorem matches_of_setResult {c : Context} {v : Value} (set : c.setResult v = some d) :
    c.Matches d := by
  unfold setResult at set
  split at set
  next => cases set
  next f rest frames =>
    cases set
    exact ⟨rfl, rfl, by simp [frames, Frame.call], by simp [frames]⟩

/-- Where a call has returned, the chain is as it was before. -/
theorem pop_of_matches_push {c : Context} {f : Frame} (h : (c.push f).Matches d) : d.pop.2 = c := by
  obtain ⟨epoch, frames, opened⟩ := d
  obtain ⟨rfl, rfl, calls, callers⟩ := h
  cases frames with
  | nil => simp [push] at calls
  | cons g rest =>
    have rest_eq : rest = c.frames := callers
    simp [pop, push, rest_eq]

end Context

/-! ## Discretion -/

/-- To leave the chain as it is, to do nothing but certain acts, and to call nothing but pulls for
the pins of a node, if there is one, and stops that a listener has ordered. -/
def Board.discretion (b : Board) (env : Surroundings σ) (node? : Option String)
    (may : Act → Prop) : Etiquette :=
  { Etiquette.steady (fun a => a.isSteady = true ∧ may a) (fun j => (j = .stop ∧ env.Orders .stop) ∨
      ∃ node pin p, node? = some node ∧ b.source? node pin = some p ∧ j = .pull p.node p.pin) with
    expects := fun a r => ∃ (m : Machine σ) (c : Context), r = (Machine.perform b env m c a).1 }

namespace Discretion

variable {b : Board} {env : Surroundings σ} {node? : Option String} {may : Act → Prop}
  (sees : ∀ {a : Act}, a.isLook = true → a.entry? = none → may a)
include sees

theorem speaks : (b.discretion env node? may).Speaks where
  act talk _ := by
    obtain ⟨look, other⟩ := Act.isLook_of_isTalk talk
    exact ⟨Act.isSteady_of_isLook look, sees look other⟩
  entry _ := ⟨rfl, sees rfl rfl⟩
  isStale := ⟨rfl, sees rfl rfl⟩
  stop {_ c r} expected ordered := by
    obtain ⟨m, context, eq⟩ := expected
    refine .inl ⟨rfl, m.outside, c, r, ?_, ordered⟩
    cases reacted : env.react m.outside c with
    | mk heard? outside =>
      cases heard? with
      | none =>
        rw [Machine.perform, reacted] at eq
        cases eq
      | some r' =>
        rw [Machine.perform, reacted] at eq
        exact eq.symm

theorem glances {n : Node} (load : ∀ {key}, b.Loading n key → may (.load key)) :
    (b.discretion env node? may).Glances b n where
  act rank plain other _ := by
    have look := Act.isLook_of_rank rank plain
    exact ⟨Act.isSteady_of_isLook look, sees look other⟩
  load loading _ := ⟨rfl, load loading⟩
  chat _ := trivial

omit sees in
theorem looks {node : String} : (b.discretion env (some node) may).Looks b node where
  pull {_ pin p} _ source := .inr ⟨node, pin, p, rfl, source, rfl⟩

end Discretion

/-! ## Terms -/

namespace Board

variable (b : Board)

/-- A value that a node gives.  Only of literals is it said which. -/
def Offers (node : String) (v : Value) : Prop :=
  ∀ n, b.circuit.node? node = some n → NodeKind.ofName? n.kind = some .numberLiteral →
    v = (n.property "value").toNum.toValue ∨ v = .null

/-- A value that enters an input pin. -/
def Enters (node pin : String) (v : Value) : Prop :=
  match b.source? node pin with
  | none => v = .null
  | some p => b.Offers p.node v

/-- How a job returns that was called in a context: with which context and with which value. -/
def Yields (c : Context) : Job → Context → Except Fault Value → Prop
  | .pull node _, d, x => d = c ∧ ∃ v, x = .ok v ∧ b.Offers node v
  | .resolve _ _, d, x | .stop, d, x | .log _ _, d, x => d = c ∧ ∃ v, x = .ok v
  | .fire _ _, d, x | .execute _ _, d, x => c.Matches d ∧ ∃ v, x = .ok v
  | .iterate _ _ _, d, _ | .rounds _ _ _, d, _ => c.Matches d
  | .chain _, d, x | .handle _ _, d, x => d.frames.length ≤ c.frames.length ∧ ∃ v, x = .ok v
  | .start, d, _ => d.frames.length ≤ c.frames.length

end Board

/-- What a job may do that is under way. -/
structure Terms (b : Board) (env : Surroundings σ) where
  /-- The chain may look like this. -/
  stands : Context → Prop
  /-- The act may be done. -/
  does : Act → Prop
  /-- The job may be called from here. -/
  sends : Context → Job → Prop

/-- The script keeps to the terms when it begins in a context, as long as machines reply as they do
and jobs return as they should; and it ends as the condition says. -/
def Script.Honours {b : Board} {env : Surroundings σ} (T : Terms b env) (Q : Context → α → Prop) :
    Context → Script α → Prop
  | c, .ret a => T.stands c ∧ Q c a
  | c, .act a next => T.stands c ∧ T.does a ∧ ∀ m : Machine σ,
      (next (Machine.perform b env m c a).1).Honours T Q (Machine.perform b env m c a).2.1
  | c, .wait _ next => T.stands c ∧ ∀ x, (next x).Honours T Q c
  | c, .call j next => T.stands c ∧ T.sends c j ∧
      ∀ d x, b.Yields c j d x → (next x).Honours T Q d

variable {s : Script α} {b : Board} {env : Surroundings σ} {T : Terms b env} {c : Context}

namespace Script

/-- The chain is as the terms have it from the first moment on. -/
theorem Honours.stands {Q : Context → α → Prop} (h : s.Honours T Q c) : T.stands c := by
  cases s <;> exact h.1

/-- What comes second begins where the first part ends. -/
theorem honours_bind {f : α → Script β} {P : Context → α → Prop} {Q : Context → β → Prop}
    (h : s.Honours T P c) (next : ∀ d a, T.stands d → P d a → (f a).Honours T Q d) :
    (s.bind f).Honours T Q c := by
  induction s generalizing c with
  | ret a => exact next c a h.1 h.2
  | act a next ih => exact ⟨h.1, h.2.1, fun m => ih _ (h.2.2 m)⟩
  | wait r next ih => exact ⟨h.1, fun x => ih x (h.2 x)⟩
  | call j next ih => exact ⟨h.1, h.2.1, fun d x yields => ih x (h.2.2 d x yields)⟩

end Script

namespace Terms

/-- The attempt keeps to the terms when it begins in the context, and ends as the condition says. -/
def From (T : Terms b env) (c : Context) (x : Attempt α)
    (Q : Context → Except Fault α → Prop) : Prop :=
  x.run.Honours T Q c

variable {x : Attempt α} {f : α → Attempt β}

section From

variable {Q : Context → Except Fault β → Prop}

theorem from_mono {P : Context → Except Fault β → Prop} {x : Attempt β} (hx : T.From c x P)
    (weaker : ∀ d r, P d r → Q d r) : T.From c x Q := by
  rw [From, ← Script.bind_ret x.run]
  exact Script.honours_bind hx fun d r stands held => ⟨stands, weaker d r held⟩

theorem from_pure {v : β} (stands : T.stands c) (h : Q c (.ok v)) : T.From c (pure v) Q :=
  ⟨stands, h⟩

variable {P : Context → Except Fault α → Prop}

/-- One attempt after the other; a failure of the first is a failure of both. -/
theorem from_bind (hx : T.From c x P) (ok : ∀ d a, P d (.ok a) → T.From d (f a) Q)
    (error : ∀ d e, P d (.error e) → T.stands d ∧ Q d (.error e)) : T.From c (x >>= f) Q := by
  refine Script.honours_bind (s := x.run) hx fun d r _ h => ?_
  cases r with
  | ok a => exact ok d a h
  | error e => exact error d e h

theorem from_act_bind {a : Act} {f : a.Reply → Attempt β} (stands : T.stands c) (done : T.does a)
    (next : ∀ m : Machine σ,
      T.From (Machine.perform b env m c a).2.1 (f (Machine.perform b env m c a).1) Q) :
    T.From c (Attempt.act a >>= f) Q :=
  ⟨stands, done, next⟩

/-- An act that leaves the chain alone. -/
theorem from_steady_bind {a : Act} {f : a.Reply → Attempt β} (steady : a.isSteady = true)
    (stands : T.stands c) (done : T.does a) (next : ∀ r, T.From c (f r) Q) :
    T.From c (Attempt.act a >>= f) Q := by
  refine from_act_bind stands done fun m => ?_
  rw [Machine.perform_context steady]
  exact next _

/-- A chain that is stale goes no further. -/
theorem from_isStale_bind {x : Attempt β} {v : β} (stands : T.stands c) (done : T.does .isStale)
    (held : Q c (.ok v)) (next : T.From c x Q) :
    T.From c (Attempt.isStale >>= fun stale => if stale then pure v else x) Q := by
  refine from_steady_bind rfl stands done fun (stale : Bool) => ?_
  cases stale with
  | true => exact from_pure stands held
  | false => exact next

/-- A pull is opened, unless it is open. -/
theorem from_enter_bind {key : String} {f : Bool → Attempt β} (stands : T.stands c)
    (done : T.does (.enter key)) (fresh : ∀ d, c.enter key = some d → T.From d (f true) Q)
    (again : c.enter key = none → T.From c (f false) Q) :
    T.From c (Attempt.enter key >>= f) Q := by
  refine from_act_bind stands done fun m => ?_
  simp only [Machine.perform]
  split
  next d enters => exact fresh d enters
  next enters => exact again enters

/-- A call is to return a value, if one is under way. -/
theorem from_setResult_bind {v : Value} {f : Bool → Attempt β} (stands : T.stands c)
    (done : T.does (.setResult v))
    (next : ∀ d returned, c.Matches d → T.From d (f returned) Q) :
    T.From c (Attempt.act (.setResult v) >>= f) Q := by
  refine from_act_bind stands done fun m => ?_
  simp only [Machine.perform]
  split
  next d set => exact next d true (Context.matches_of_setResult set)
  next => exact next c false (.refl c)

theorem from_call {j : Job} {P : Context → Except Fault Value → Prop} (stands : T.stands c)
    (sent : T.sends c j) (ends : ∀ d x, b.Yields c j d x → T.stands d ∧ P d x) :
    T.From c (Attempt.call j) P :=
  ⟨stands, sent, ends⟩

/-- A result that is there already takes no act. -/
theorem from_ofExcept_bind {r : Except Fault α} (stands : T.stands c)
    (ok : ∀ a, r = .ok a → T.From c (f a) Q) (error : ∀ e, r = .error e → Q c (.error e)) :
    T.From c (Attempt.ofExcept r >>= f) Q := by
  cases r with
  | ok a => exact ok a rfl
  | error e => exact ⟨stands, error e rfl⟩

/-- An attempt that is watched goes on where it ended, well or badly. -/
theorem from_tryCatch {x : Attempt β} {h : Fault → Attempt β} {P : Context → Except Fault β → Prop}
    (hx : T.From c x P) (ok : ∀ d v, P d (.ok v) → T.stands d ∧ Q d (.ok v))
    (error : ∀ d f, P d (.error f) → T.From d (h f) Q) : T.From c (tryCatch x h) Q := by
  refine Script.honours_bind (s := x.run) hx fun d r _ ended => ?_
  cases r with
  | ok v => exact ok d v ended
  | error f => exact error d f ended

theorem from_capture {Q : Context → Except Fault (Except Fault α) → Prop} (hx : T.From c x P)
    (ended : ∀ d r, P d r → T.stands d ∧ Q d (.ok r)) : T.From c (Attempt.capture x) Q :=
  Script.honours_bind (s := x.run) hx fun d r _ => ended d r

/-- To throw a result away changes nothing about how it was found. -/
theorem from_discard {Q : Context → Except Fault PUnit → Prop} (hx : T.From c x P)
    (ok : ∀ d a, P d (.ok a) → T.stands d ∧ Q d (.ok ⟨⟩))
    (error : ∀ d e, P d (.error e) → T.stands d ∧ Q d (.error e)) : T.From c (discard x) Q :=
  from_bind (f := fun _ => pure PUnit.unit) hx ok error

theorem from_ite {p : Prop} [Decidable p] {x y : Attempt β} (hx : p → T.From c x Q)
    (hy : ¬ p → T.From c y Q) : T.From c (if p then x else y) Q := by
  split
  next h => exact hx h
  next h => exact hy h

/-- Each of some things is attempted, up to a failure. -/
theorem from_forM {xs : List α} {f : α → Attempt PUnit} {Q : Context → Except Fault PUnit → Prop}
    (stands : ∀ d r, Q d r → T.stands d) (each : ∀ d x, Q d (.ok ⟨⟩) → T.From d (f x) Q)
    (here : Q c (.ok ⟨⟩)) : T.From c (xs.forM f) Q := by
  induction xs generalizing c with
  | nil => exact from_pure (stands c _ here) here
  | cons x rest ih => exact from_bind (each c x here) (fun _ _ => ih) fun d _ failed =>
      ⟨stands d _ failed, failed⟩

end From

/-! ## Discreet parts -/

/-- The terms leave room for whoever is discreet. -/
structure Grants (T : Terms b env) (node? : Option String) (c : Context) : Prop where
  stands : T.stands c
  sees : ∀ {a : Act}, a.isLook = true → a.entry? = none → T.does a
  stop : env.Orders .stop → T.sends c .stop
  pull : ∀ {node pin : String} {p : PinRef}, node? = some node → b.source? node pin = some p →
    T.sends c (.pull p.node p.pin)

variable {node? : Option String} {node : String}

section

variable (grants : T.Grants node? c)
include grants

theorem honours_of_follows {Q : Unit → α → Prop}
    (h : s.Follows (b.discretion env node? T.does) Q ()) :
    s.Honours T (fun d a => d = c ∧ Q () a) c := by
  induction s with
  | ret a => exact ⟨grants.stands, rfl, h⟩
  | act a next ih =>
    refine ⟨grants.stands, h.1.2, fun m => ?_⟩
    rw [Machine.perform_context h.1.1]
    exact ih _ (h.2.2 _ ⟨m, c, rfl⟩)
  | wait r next ih => exact ⟨grants.stands, fun x => ih x (h.2 x)⟩
  | call j next ih =>
    obtain ⟨⟨rfl, ordered⟩ | ⟨node, pin, p, here, source, rfl⟩, goesOn⟩ := h
    · refine ⟨grants.stands, grants.stop ordered, ?_⟩
      rintro d x ⟨rfl, -⟩
      exact ih x (goesOn x)
    · refine ⟨grants.stands, grants.pull here source, ?_⟩
      rintro d x ⟨rfl, -⟩
      exact ih x (goesOn x)

/-- Whoever is discreet leaves the chain as it was. -/
theorem from_of_throughout (h : (b.discretion env node? T.does).Throughout x) :
    T.From c x fun d _ => d = c :=
  from_mono (honours_of_follows grants (h () trivial)) fun _ _ ended => ended.1

theorem from_discreet_bind {Q : Context → Except Fault β → Prop}
    (h : (b.discretion env node? T.does).Throughout x) (next : ∀ a, T.From c (f a) Q)
    (error : ∀ e, Q c (.error e)) : T.From c (x >>= f) Q := by
  refine from_bind (from_of_throughout grants h) ?_ ?_
  · rintro d a rfl
    exact next a
  · rintro d e rfl
    exact ⟨grants.stands, error e⟩

/-- An entry in the log is written, whatever the listener does. -/
theorem from_log (app : String) (level : Level) (message : Value) :
    T.From c (Attempt.log app level message) fun d x => d = c ∧ x = .ok () :=
  from_mono (honours_of_follows grants (Etiquette.from_log_of_entry
    (Discretion.speaks grants.sees) ⟨rfl, grants.sees rfl rfl⟩ app)) fun _ _ ended =>
      ⟨ended.1, ended.2.2⟩

theorem from_log_bind {app : String} {level : Level} {message : Value} {f : Unit → Attempt β}
    {Q : Context → Except Fault β → Prop} (next : T.From c (f ()) Q) :
    T.From c (Attempt.log app level message >>= f) Q := by
  refine from_bind (from_log grants app level message) ?_ ?_
  · rintro d _ ⟨rfl, -⟩
    exact next
  · rintro d _ ⟨-, failed⟩
    cases failed

/-- A few last words. -/
theorem from_log_pure {app : String} {level : Level} {message : Value} {v : β} :
    T.From c (Attempt.log app level message >>= fun _ => pure v) fun d x => d = c ∧ x = .ok v :=
  from_log_bind grants (from_pure grants.stands ⟨rfl, rfl⟩)

end

/-- What enters a pin is what its source offers. -/
theorem from_resolve (grants : T.Grants (some node) c) (pin : String) :
    T.From c (b.resolve node pin) fun d x => d = c ∧ ∃ v, x = .ok v ∧ b.Enters node pin v := by
  rw [Board.resolve_eq]
  unfold Board.Enters
  cases source : b.source? node pin with
  | none => exact from_pure grants.stands ⟨rfl, .null, rfl, rfl⟩
  | some p =>
    refine from_call grants.stands (grants.pull rfl source) ?_
    rintro d x ⟨rfl, offered⟩
    exact ⟨grants.stands, rfl, offered⟩

theorem from_resolve_bind (grants : T.Grants (some node) c) {pin : String}
    {f : Value → Attempt β} {Q : Context → Except Fault β → Prop}
    (next : ∀ v, b.Enters node pin v → T.From c (f v) Q) :
    T.From c (b.resolve node pin >>= f) Q := by
  refine from_bind (from_resolve grants pin) ?_ ?_
  · rintro d v ⟨rfl, _, ⟨⟩, enters⟩
    exact next v enters
  · rintro d e ⟨-, _, failed, -⟩
    cases failed

end Terms

end Wireboard
