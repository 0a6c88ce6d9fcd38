import Wireboard.Proofs.Circuit
import Wireboard.Proofs.Engine.Course
import Wireboard.Proofs.Engine.Stopping
import Wireboard.Proofs.Number.Whole

/-!
# Starting sets the timers

To start an app is to run the chains of its start triggers and then to set a timer for each node
that is one.  If the chains come to an end and nobody stops the app meanwhile, starting comes to an
end too, and has set the timers.  There is one thing that can go wrong: an interval that is a whole
number beyond all doubles is no length of time.  Then starting fails at this node, and the timers
before it stay set (`Course.start_sets_timers`).

The body of the job is followed attempt by attempt.  `Course.Doing` says where a strand is inside of
the job, and `Course.Gets` that an attempt is got through from there, and how.
-/

namespace Wireboard

variable {σ : Type} {b : Board} {env : Surroundings σ}

/-! ## Scripts -/

namespace Script

variable {α β γ : Type}

theorem bind_bind (x : Script α) (f : α → Script β) (g : β → Script γ) :
    (x.bind f).bind g = x.bind fun a => (f a).bind g := by
  induction x with
  | ret a => rfl
  | act a next ih => exact congrArg (Script.act a) (funext ih)
  | wait r next ih => exact congrArg (Script.wait r) (funext ih)
  | call j next ih => exact congrArg (Script.call j) (funext ih)

end Script

/-! ## Deeds -/

/-- Something that a strand does. -/
inductive Deed where
  | act (a : Act)
  | ask (r : Request)
  | call (j : Job)
deriving DecidableEq

/-- What a script does next, unless it returns. -/
def Script.deed? {α : Type} : Script α → Option Deed
  | .ret _ => none
  | .act a _ => some (.act a)
  | .wait r _ => some (.ask r)
  | .call j _ => some (.call j)

theorem Script.wait_of_deed? {α : Type} {code : Script α} {r : Request}
    (asks : code.deed? = some (.ask r)) : ∃ next, code = .wait r next := by
  cases code with
  | wait _ next =>
    cases asks
    exact ⟨next, rfl⟩
  | _ => cases asks

/-- The deed is part of an entry in the log after it was made, or of what a listener orders. -/
def Deed.isEcho : Deed → Bool
  | .act (.callback (.log _ _)) | .act (.notice _) | .act (.dispatch _ _) | .call .stop => true
  | _ => false

/-- The deed is part of stopping the app. -/
def Deed.isOfStop : Deed → Bool
  | .act .markStopped | .act (.journal _ _) => true
  | d => d.isEcho

theorem Deed.isOfStop_of_isEcho {d : Deed} (echo : d.isEcho = true) : d.isOfStop = true := by
  unfold isOfStop
  split <;> trivial

/-- What is left to do about an entry in the log when it has been made. -/
def Attempt.tell (app : String) (level : Level) (message : Value) : Attempt Unit :=
  tryCatch (discard (emit (.log level message))) fun _ =>
    notice .error "on_log callback failed" [("app_id", .str app)]

theorem Attempt.log_eq (app : String) (level : Level) (message : Value) :
    log app level message = act (.journal level message) >>= fun _ => tell app level message :=
  rfl

theorem Attempt.run_void (x : Attempt Unit) :
    (void x).run = x.run.bind fun r => .ret (r.map fun _ => .null) := by
  refine congrArg (Script.bind x.run) (funext fun r => ?_)
  cases r <;> rfl

/-! ## Intervals -/

/-- The interval of the node is a length of time. -/
def Node.keepsTime (n : Node) : Bool :=
  match (n.property "interval").toNum with
  | .int i => decide (i.natAbs < Binary64.limit)
  | .float _ => true

theorem Value.exists_toFloat_int {i : Int} (small : i.natAbs < Binary64.limit) :
    ∃ x, (Value.int i).toFloat = .ok x := by
  cases double : Binary64.ofInt? i with
  | none => exact absurd ((Binary64.ofInt?_eq_none_iff i).mp double) (Nat.not_le.mpr small)
  | some x => exact ⟨x, by simp [toFloat, asNum?, Num.toFloat, double]⟩

theorem Value.toFloat_int_of_limit_le {i : Int} (large : Binary64.limit ≤ i.natAbs) :
    (Value.int i).toFloat = .error .beyondDoubles := by
  simp [toFloat, asNum?, Num.toFloat, (Binary64.ofInt?_eq_none_iff i).mpr large]

/-- A double is a length of time, whatever it is. -/
theorem exists_periodOf {v : Value} {x : Float} (double : v.toFloat = .ok x) :
    ∃ period?, periodOf v = .ok period? := by
  unfold periodOf
  rw [double]
  simp only [bind, Except.bind]
  split <;> exact ⟨_, rfl⟩

namespace Board

variable (b)

/-- What the interval of a node is taken for. -/
def intervalOf (n : Node) : Value :=
  let interval := (n.property "interval").toNum
  if interval.isZero then b.config.timerInterval else interval.toValue

/-- The timer is a new one of the node. -/
structure Sets (n : Node) (t : Timer) : Prop where
  node : t.node = n.id
  period : periodOf (b.intervalOf n) = .ok t.period?
  repeats : t.repeats = (n.property "repeat" != .bool false)
  due : t.due? = none

variable {b}

theorem exists_period (default : b.config.timerInterval = .int 1000) {n : Node}
    (keeps : n.keepsTime = true) : ∃ period?, periodOf (b.intervalOf n) = .ok period? := by
  obtain ⟨x, double⟩ : ∃ x, (b.intervalOf n).toFloat = .ok x := by
    unfold intervalOf
    dsimp only
    split
    · rw [default]
      refine Value.exists_toFloat_int (Nat.lt_of_lt_of_le ?_ Binary64.pow2_1023_le_limit)
      decide +kernel
    · unfold Node.keepsTime at keeps
      split at keeps
      next i whole =>
        rw [whole]
        exact Value.exists_toFloat_int (of_decide_eq_true keeps)
      next x double =>
        rw [double]
        exact ⟨x, rfl⟩
  exact exists_periodOf double

/-- An interval beyond all doubles is no length of time. -/
theorem periodOf_eq_error {n : Node} (fails : n.keepsTime = false) :
    periodOf (b.intervalOf n) = .error .beyondDoubles := by
  unfold Node.keepsTime at fails
  split at fails
  next i whole =>
    have large : Binary64.limit ≤ i.natAbs := Nat.not_lt.mp (of_decide_eq_false fails)
    have nonzero : i ≠ 0 := by
      rintro rfl
      exact absurd large (Nat.not_le.mpr
        (Nat.lt_of_lt_of_le (Binary64.pow2_pos 1023) Binary64.pow2_1023_le_limit))
    have other : (Num.int i).isZero = false := by
      simp [Num.isZero, Num.same, Num.quantity?, nonzero]
    have interval : b.intervalOf n = .int i := by simp [intervalOf, whole, other, Num.toValue]
    rw [interval, periodOf, Value.toFloat_int_of_limit_le large]
    rfl
  next => cases fails

end Board

/-! ## Inside of a job -/

/-- The strand inside of what it has called, with this much of it left. -/
abbrev Strand.inner (s : Strand) (next : Continuation) (c : Context)
    (code : Code) : Strand :=
  { s with context := c, code, stack := next :: s.stack }

namespace Course

/-- At that time the strand is inside of what it has called, and this much of it is left. -/
structure Doing (course : Course b env) (s : Strand) (next : Continuation) (p k : Nat) (c : Context)
    (code : Code) : Prop where
  after : p < k
  within : course.Within s p k
  running : (course.state k).running? = some { s with context := c, code, stack := next :: s.stack }

/-- From that time on an attempt is got through, whatever comes after it, and ends like this. -/
def Gets {α : Type} (course : Course b env) (s : Strand) (next : Continuation) (p k : Nat)
    (c : Context) (x : Attempt α) (Q : Nat → Context → Except Fault α → Prop) : Prop :=
  ∀ f : Except Fault α → Code,
    course.Doing s next p k c (x.run.bind f) →
      ∃ l d r, k ≤ l ∧ course.Doing s next p l d (f r) ∧ Q l d r

variable {course : Course b env} {s : Strand} {next : Continuation} {p k : Nat} {c : Context}

variable {d : Context} {j : Job}

namespace Doing

variable {code : Code}

theorem busy (doing : course.Doing s next p k c code) :
    course.Busy s p k (s.inner next c code) :=
  ⟨doing.after, doing.within, ⟨doing.running, rfl⟩, Nat.lt_succ_self _⟩

/-- One move later the strand is still inside. -/
theorem later (doing : course.Doing s next p k c code) {code' : Code}
    (running : (course.state (k + 1)).running? = some (s.inner next d code')) :
    course.Doing s next p (k + 1) d code' :=
  ⟨Nat.lt_succ_of_lt doing.after, doing.busy.within_succ, running⟩

/-- An act takes one move. -/
theorem acts {a : Act} {goesOn : a.Reply → Code}
    (doing : course.Doing s next p k c (.act a goesOn)) :
    course.Doing s next p (k + 1) (Machine.perform b env (course.state k) c a).2.1
        (goesOn (Machine.perform b env (course.state k) c a).1) ∧
      ∃ running?, course.state (k + 1)
        = { (Machine.perform b env (course.state k) c a).2.2 with running? } := by
  have eq := (course.move k).eq_acted doing.running rfl
  exact ⟨doing.later (by rw [eq]; rfl), _, eq⟩

/-- A job that was called and has returned leads back into the job. -/
theorem of_returns {goesOn : Continuation} {q : Nat} {x : Except Fault Value}
    (doing : course.Doing s next p k c (.call j goesOn))
    (returns : course.Returns (s.inner next c (.call j goesOn)) k q d x) :
    course.Doing s next p (q + 1) d (goesOn x) := by
  have calls : course.Calls k _ j goesOn := ⟨doing.running, rfl⟩
  obtain ⟨t, busy, -, -, -⟩ := id returns
  have within := (doing.busy.trans busy).within_succ
  exact ⟨Nat.lt_succ_of_lt (Nat.lt_trans doing.after busy.after), within, (returns.yields calls).2⟩

/-- When nothing is left, the job returns. -/
theorem returns {x : Except Fault Value} (doing : course.Doing s next p k c (.ret x)) :
    course.Returns s p k c x :=
  ⟨_, doing.busy, rfl, rfl, rfl⟩

end Doing

theorem Calls.status_after (calls : course.Calls p s j next) :
    (course.state (p + 1)).status = (course.state p).status := by
  rw [(course.move p).eq_stepStrand calls.running, Machine.stepStrand, calls.code]

/-- Right after the call, everything is left to do. -/
theorem Calls.doing (calls : course.Calls p s j next) :
    course.Doing s next p (p + 1) s.context (b.body j).run :=
  ⟨Nat.lt_succ_self p, fun l t after before _ => by omega, calls.running_after⟩

/-- Right after the call of a job that gives nothing back, all of its body is left. -/
theorem Calls.doing_void {x : Attempt Unit} (calls : course.Calls p s j next)
    (body : b.body j = Attempt.void x) :
    course.Doing s next p (p + 1) s.context
      (x.run.bind fun r => .ret (r.map fun _ => .null)) := by
  rw [← Attempt.run_void, ← body]
  exact calls.doing

/-! ## Getting through attempts -/

section Gets

variable {α β : Type} {Q : Nat → Context → Except Fault β → Prop}

theorem gets_mono {P : Nat → Context → Except Fault β → Prop} {x : Attempt β}
    (hx : course.Gets s next p k c x P) (weaker : ∀ l d r, k ≤ l → P l d r → Q l d r) :
    course.Gets s next p k c x Q := by
  intro f doing
  obtain ⟨l, d, r, le, doing, held⟩ := hx f doing
  exact ⟨l, d, r, le, doing, weaker l d r le held⟩

/-- A result that is there already takes no time. -/
theorem gets_ofExcept {r : Except Fault β} (h : Q k c r) :
    course.Gets s next p k c (Attempt.ofExcept r) Q :=
  fun _ doing => ⟨k, c, r, Nat.le_refl k, doing, h⟩

theorem gets_pure {a : β} (h : Q k c (.ok a)) : course.Gets s next p k c (pure a) Q :=
  gets_ofExcept h

theorem gets_throw {e : Fault} (h : Q k c (.error e)) : course.Gets s next p k c (throw e) Q :=
  gets_ofExcept h

theorem gets_ite {A : Prop} [Decidable A] {x y : Attempt β}
    (hx : A → course.Gets s next p k c x Q) (hy : ¬ A → course.Gets s next p k c y Q) :
    course.Gets s next p k c (if A then x else y) Q := by
  split
  next h => exact hx h
  next h => exact hy h

variable {x : Attempt α} {P : Nat → Context → Except Fault α → Prop}

/-- What comes second begins where the first part ends. -/
theorem gets_run_bind {g : Except Fault α → Script (Except Fault β)}
    (hx : course.Gets s next p k c x P)
    (rest : ∀ l d r, k ≤ l → P l d r → course.Gets s next p l d (ExceptT.mk (g r)) Q) :
    course.Gets s next p k c (ExceptT.mk (x.run.bind g)) Q := by
  intro f doing
  obtain ⟨l, d, r, le, doing, held⟩ :=
    hx (fun r => (g r).bind f) (Script.bind_bind x.run g f ▸ doing)
  obtain ⟨l', d', r', le', doing', held'⟩ := rest l d r le held f doing
  exact ⟨l', d', r', Nat.le_trans le le', doing', held'⟩

/-- One attempt after the other; a failure of the first is a failure of both. -/
theorem gets_bind {g : α → Attempt β} (hx : course.Gets s next p k c x P)
    (ok : ∀ l d a, k ≤ l → P l d (.ok a) → course.Gets s next p l d (g a) Q)
    (error : ∀ l d e, P l d (.error e) → Q l d (.error e)) :
    course.Gets s next p k c (x >>= g) Q := by
  refine gets_run_bind hx fun l d r le held => ?_
  cases r with
  | ok a => exact ok l d a le held
  | error e => exact gets_ofExcept (error l d e held)

/-- A failure that is caught is none. -/
theorem gets_tryCatch {x : Attempt β} {h : Fault → Attempt β}
    {P : Nat → Context → Except Fault β → Prop} (hx : course.Gets s next p k c x P)
    (ok : ∀ l d a, P l d (.ok a) → Q l d (.ok a))
    (error : ∀ l d e, P l d (.error e) → course.Gets s next p l d (h e) Q) :
    course.Gets s next p k c (tryCatch x h) Q := by
  refine gets_run_bind hx fun l d r _ held => ?_
  cases r with
  | ok a => exact gets_pure (ok l d a held)
  | error e => exact error l d e held

/-- An act takes one move, and leaves the machine as it does. -/
theorem gets_act {a : Act} {Q : Nat → Context → Except Fault a.Reply → Prop}
    (ends : ∀ running?, course.state (k + 1)
        = { (Machine.perform b env (course.state k) c a).2.2 with running? } →
      Q (k + 1) (Machine.perform b env (course.state k) c a).2.1
        (.ok (Machine.perform b env (course.state k) c a).1)) :
    course.Gets s next p k c (Attempt.act a) Q := by
  intro f doing
  obtain ⟨doing', running?, eq⟩ := Doing.acts doing
  exact ⟨k + 1, _, _, Nat.le_succ k, doing', ends running? eq⟩

/-- A job that is called, and returns, has been got through. -/
theorem gets_call {Q : Nat → Context → Except Fault Value → Prop} (ends : ∀ t goesOn, course.Busy s
      p k t → t.stack.length = s.stack.length + 1 → course.Calls k t j goesOn → ∃ q d x,
      course.Returns t k q d x ∧ Q (q + 1) d x) : course.Gets s next p k c (Attempt.call j) Q := by
  intro f doing
  obtain ⟨q, d, x, returns, held⟩ := ends _ _ doing.busy rfl ⟨doing.running, rfl⟩
  obtain ⟨_, busy, -⟩ := id returns
  exact ⟨q + 1, d, x, Nat.le_succ_of_le (Nat.le_of_lt busy.after), doing.of_returns returns, held⟩

theorem gets_discard {Q : Nat → Context → Except Fault PUnit → Prop}
    (hx : course.Gets s next p k c x P) (ok : ∀ l d a, P l d (.ok a) → Q l d (.ok ⟨⟩))
    (error : ∀ l d e, P l d (.error e) → Q l d (.error e)) :
    course.Gets s next p k c (discard x) Q :=
  gets_bind (g := fun _ => pure PUnit.unit) hx (fun l d a _ held => gets_pure (ok l d a held)) error

end Gets

/-! ## Talk -/

/-- An entry is told to the listener.  Whatever holds of each move that is part of this, and of
every stop that the listener orders, holds of the whole. -/
theorem gets_tell {R : Nat → Nat → Prop} (refl : ∀ k, R k k)
    (trans : ∀ {i j k}, R i j → R j k → R i k)
    (acts : ∀ {k a goesOn}, course.Doing s next p k c (.act a goesOn) →
      (Deed.act a).isEcho = true → R k (k + 1))
    (stops : ∀ k, course.Gets s next p k c (Attempt.call .stop) fun l d _ => R k l ∧ d = c)
    (app : String) (level : Level) (message : Value) :
    course.Gets s next p k c (Attempt.tell app level message)
      fun l d r => (R k l ∧ d = c) ∧ r = .ok () := by
  have act {k : Nat} {a : Act} (echo : (Deed.act a).isEcho = true)
      (steady : a.isSteady = true) : course.Gets s next p k c (Attempt.act a) fun l d r =>
        (R k l ∧ d = c) ∧ ∃ u, r = .ok u := by
    intro f doing
    exact ⟨k + 1, _, _, Nat.le_succ k, (Doing.acts doing).1,
      ⟨acts doing echo, Machine.perform_context steady _ c⟩, _, rfl⟩
  have obeys (orders : List Order) (k : Nat) :
      course.Gets s next p k c (orders.forM Attempt.obey) fun l d _ => R k l ∧ d = c := by
    induction orders generalizing k with
    | nil => exact gets_pure ⟨refl k, rfl⟩
    | cons o rest ih =>
      refine gets_bind (P := fun l d _ => R k l ∧ d = c) ?_ ?_ fun _ _ _ held => held
      · cases o with
        | stop => exact gets_discard (stops k) (fun _ _ _ held => held) fun _ _ _ held => held
        | dispatch => exact gets_mono (act rfl rfl) fun _ _ _ _ held => held.1
      · rintro l _ _ - ⟨held, rfl⟩
        exact gets_mono (ih l) fun _ _ _ _ held' => ⟨trans held held'.1, held'.2⟩
  have emits : course.Gets s next p k c (Attempt.emit (.log level message)) fun l d _ =>
      R k l ∧ d = c := by
    refine gets_bind (P := fun l d _ => R k l ∧ d = c)
      (gets_mono (act rfl rfl) fun _ _ _ _ held => held.1) ?_ fun _ _ _ held => held
    rintro l _ heard? - ⟨held, rfl⟩
    cases heard? with
    | none => exact gets_pure ⟨held, rfl⟩
    | some r =>
      refine gets_bind (P := fun l d _ => R k l ∧ d = _) ?_ (fun _ _ _ _ held' => gets_pure held')
        fun _ _ _ held' => held'
      refine gets_bind (P := fun l d _ => R k l ∧ d = _) ?_
        (fun _ _ _ _ held' => gets_ofExcept held') fun _ _ _ held' => held'
      exact gets_mono (obeys r.orders l) fun _ _ _ _ held' => ⟨trans held held'.1, held'.2⟩
  refine gets_tryCatch (P := fun l d _ => R k l ∧ d = c)
    (gets_discard emits (fun _ _ _ held => held) fun _ _ _ held => held)
    (fun _ _ _ held => ⟨held, rfl⟩) ?_
  rintro l _ _ ⟨held, rfl⟩
  refine gets_mono (act rfl rfl) ?_
  rintro _ _ _ - ⟨⟨held', same⟩, u, rfl⟩
  exact ⟨⟨trans held held', same⟩, rfl⟩

/-- Whatever holds of each move that is part of stopping the app holds of a stop that has come
back.  The induction is on the time at which it does, since its own entry in the log may lead to
other stops inside of it. -/
theorem Returns.of_stop {R : Nat → Nat → Prop} (refl : ∀ k, R k k)
    (trans : ∀ {i j k}, R i j → R j k → R i k) (moves : ∀ {k t}, (course.state k).running? = some t
      → t.context = c → (∀ d, t.code.deed? = some d → d.isOfStop = true) → R k (k + 1)) {q : Nat}
    {x : Except Fault Value} (returns : course.Returns s p q d x)
    (calls : course.Calls p s .stop next) (here : s.context = c) : R p (q + 1) := by
  induction q using Nat.strong_induction_on generalizing p s next d x with
  | h q ih =>
    have stops (k : Nat) : course.Gets s next p k s.context (Attempt.call .stop) fun l d _ =>
        R k l ∧ d = s.context := by
      intro f doing
      have calls' : course.Calls k _ .stop _ := ⟨doing.running, rfl⟩
      have before := returns.lt_of_calls calls doing.busy calls'
      obtain ⟨q', d', x', earlier, returns'⟩ := calls'.returned_of_outer doing.busy returns before
      obtain ⟨_, busy, -⟩ := id returns'
      exact ⟨q' + 1, d', x', Nat.le_succ_of_le (Nat.le_of_lt busy.after),
        doing.of_returns returns', ih q' earlier returns' calls' here, (returns'.yields calls').1.1⟩
    have acts {k : Nat} {a : Act} {f : a.Reply → Code}
        (doing : course.Doing s next p k s.context (.act a f))
        (own : (Deed.act a).isOfStop = true) : R k (k + 1) :=
      moves doing.running here fun _ deed => by cases deed; exact own
    have marks := calls.doing_void rfl
    have enters := (Doing.acts marks).1
    obtain ⟨l, d', _, -, ended, ⟨held, same⟩, rfl⟩ := gets_tell refl trans
      (fun doing echo => acts doing (Deed.isOfStop_of_isEcho echo)) stops b.appId .info
      (.str "Runtime stopped") _ (Doing.acts enters).1
    obtain ⟨rfl, -⟩ := ended.returns.eq calls returns
    have called : R p (p + 1) := moves calls.running here fun _ deed => by
      rw [calls.code] at deed
      cases deed
      rfl
    have back : R q (q + 1) := moves ended.running (same.trans here) fun _ deed => by cases deed
    exact trans called (trans (acts marks rfl) (trans (acts enters rfl) (trans held back)))

/-- As long as the job is under way, nobody stops the app. -/
def Unstopped (course : Course b env) (s : Strand) (p : Nat) : Prop :=
  ∀ l, p < l → course.Within s p l → (course.state l).act? ≠ some .markStopped

section Talk

variable (unstopped : course.Unstopped s p)

include unstopped

/-- Nobody calls a stop. -/
theorem gets_call_stop {Q : Nat → Context → Except Fault Value → Prop} :
    course.Gets s next p k c (Attempt.call .stop) Q := by
  intro f doing
  have calls : course.Calls k _ .stop _ := ⟨doing.running, rfl⟩
  refine absurd ?_ (unstopped (k + 1) (Nat.lt_succ_of_lt doing.after) doing.busy.within_succ)
  rw [Machine.act?, calls.running_after]
  rfl

/-- Whatever a listener does, an entry is made in the log. -/
theorem gets_log (app : String) (level : Level) (message : Value) :
    course.Gets s next p k c (Attempt.log app level message) fun _ _ r => r = .ok () := by
  refine gets_bind (P := fun _ _ r => ∃ u, r = .ok u) (gets_act fun _ _ => ⟨_, rfl⟩)
    (fun l d _ _ _ => ?_) (by rintro _ _ _ ⟨_, ⟨⟩⟩)
  exact gets_mono (gets_tell (R := fun _ _ => True) (fun _ => trivial) (fun _ _ => trivial)
    (fun _ _ => trivial) (fun _ => gets_call_stop unstopped) app level message)
    fun _ _ _ _ held => held.2

end Talk

/-! ## Chains -/

/-- Every chain that the job begins comes to an end. -/
def ChainsReturn (course : Course b env) (s : Strand) (p : Nat) : Prop :=
  ∀ k t node goesOn, course.Busy s p k t → t.stack.length = s.stack.length + 1 →
    course.Calls k t (.fire node "exec") goesOn → ∃ q d x, course.Returns t k q d x

theorem gets_chain (returns : course.ChainsReturn s p) (node : String) :
    course.Gets s next p k c (Board.chain node) fun _ _ r => r = .ok () := by
  refine gets_bind (P := fun _ _ r => ∃ u, r = .ok u) (gets_act fun _ _ => ⟨_, rfl⟩)
    (fun l d _ _ _ => ?_) (by rintro _ _ _ ⟨_, ⟨⟩⟩)
  refine gets_discard (P := fun _ _ x => ∃ v, x = .ok v)
    (gets_call fun t goesOn busy top calls => ?_) (fun _ _ _ _ => rfl) (by rintro _ _ _ ⟨_, ⟨⟩⟩)
  obtain ⟨q, d, x, ended⟩ := returns _ t node goesOn busy top calls
  exact ⟨q, d, x, ended, (ended.yields calls).1.2⟩

theorem gets_chains (returns : course.ChainsReturn s p) (nodes : List Node) :
    course.Gets s next p k c (nodes.forM fun n => Board.chain n.id) fun _ _ r => r = .ok () := by
  induction nodes generalizing k c with
  | nil => exact gets_pure rfl
  | cons n rest ih =>
    exact gets_bind (gets_chain returns n.id) (fun _ _ _ _ _ => ih) (by rintro _ _ _ ⟨⟩)

theorem Unstopped.started (unstopped : course.Unstopped s p) {l : Nat}
    (started : (course.state k).status = .started) (after : p < k) (le : k ≤ l)
    (within : course.Within s p l) : (course.state l).status = .started := by
  induction le with
  | refl => exact started
  | @step l le ih =>
    have within' := within.mono (Nat.le_succ l)
    exact (course.move l).started (ih within')
      (unstopped l (Nat.lt_of_lt_of_le after le) within')

/-- Whatever is got through in a started app leaves it started. -/
theorem Unstopped.gets_started {α : Type} {x : Attempt α}
    {Q : Nat → Context → Except Fault α → Prop} (unstopped : course.Unstopped s p)
    (started : (course.state k).status = .started) (hx : course.Gets s next p k c x Q) :
    course.Gets s next p k c x fun l d r => Q l d r ∧ (course.state l).status = .started := by
  intro f doing
  obtain ⟨l, d, r, le, doing', held⟩ := hx f doing
  exact ⟨l, d, r, le, doing', held, unstopped.started started doing.after le doing'.within⟩

/-! ## Timers -/

/-- Timers are set one after the other, until there is none left or an interval is too long. -/
theorem gets_setTimers (default : b.config.timerInterval = .int 1000) (nodes : List Node) :
    course.Gets s next p k c (nodes.forM b.setTimer) fun l _ r =>
      r = (if nodes.all Node.keepsTime then .ok () else .error .beyondDoubles) ∧
      ∃ armed, (course.state l).timers = (course.state k).timers ++ armed ∧
        List.Forall₂ b.Sets (nodes.takeWhile Node.keepsTime) armed := by
  induction nodes generalizing k c with
  | nil => exact gets_pure ⟨rfl, [], (List.append_nil _).symm, .nil⟩
  | cons n rest ih =>
    cases keeps : n.keepsTime with
    | false =>
      have fails : b.setTimer n = throw .beyondDoubles := by
        show Attempt.ofExcept (periodOf (b.intervalOf n)) >>= _ = _
        rw [Board.periodOf_eq_error keeps]
        rfl
      show course.Gets s next p k c (b.setTimer n >>= fun _ => rest.forM b.setTimer) _
      rw [fails]
      exact gets_throw ⟨by simp [keeps], [], (List.append_nil _).symm, by simp [keeps]⟩
    | true =>
      obtain ⟨period?, period⟩ := Board.exists_period default keeps
      have arms : b.setTimer n
          = Attempt.act (.arm n.id period? (n.property "repeat" != .bool false)) := by
        show Attempt.ofExcept (periodOf (b.intervalOf n)) >>= _ = _
        rw [period]
        rfl
      let timer : Timer :=
        { id := (course.state k).nextId, node := n.id, period?,
          repeats := n.property "repeat" != .bool false }
      have sets : b.Sets n timer := ⟨rfl, period, rfl, rfl⟩
      show course.Gets s next p k c (b.setTimer n >>= fun _ => rest.forM b.setTimer) _
      rw [arms]
      refine gets_bind (P := fun l _ r => (∃ u, r = .ok u) ∧
        (course.state l).timers = (course.state k).timers ++ [timer]) ?_ ?_ ?_
      · exact gets_act fun running? eq => ⟨⟨_, rfl⟩, by rw [eq]; rfl⟩
      · rintro l d _ - ⟨-, timers⟩
        refine gets_mono ih ?_
        rintro q d r - ⟨rfl, armed, timers', each⟩
        refine ⟨by simp [keeps], timer :: armed, ?_, ?_⟩
        · rw [timers', timers, List.append_assoc, List.singleton_append]
        · rw [List.takeWhile_cons_of_pos keeps]
          exact .cons sets each
      · rintro _ _ _ ⟨⟨_, ⟨⟩⟩, -⟩

/-! ## Starting -/

/-- The app is started, and since then it has got a new timer for each node that is one, up to the
first with an interval beyond all doubles. -/
def TimersSet (course : Course b env) (p q : Nat) : Prop :=
  (course.state q).status = .started ∧ ∃ k armed, p < k ∧ k ≤ q ∧
    (course.state q).timers = (course.state k).timers ++ armed ∧
    List.Forall₂ b.Sets ((b.circuit.nodesOf "onTimer").takeWhile Node.keepsTime) armed

/-- What comes of starting: an app that is started already is left alone. -/
def Starts (course : Course b env) (status : Status) (p q : Nat) {α : Type} (done : α)
    (r : Except Fault α) : Prop :=
  (status ≠ .started → course.TimersSet p q) ∧
    r = if status = .started ∨ (b.circuit.nodesOf "onTimer").all Node.keepsTime then .ok done
      else .error .beyondDoubles

theorem gets_start (default : b.config.timerInterval = .int 1000) (le : p ≤ k)
    (unstopped : course.Unstopped s p) (returns : course.ChainsReturn s p) :
    course.Gets s next p k c b.start fun q _ => course.Starts (course.state k).status p q () := by
  refine gets_bind (P := fun _ _ r => r = .ok (course.state k).status) (gets_act fun _ _ => rfl) ?_
    (by rintro _ _ _ ⟨⟩)
  rintro l d _ le₀ ⟨⟩
  refine gets_ite (fun already => ?_) fun idle => ?_
  · refine gets_bind (P := fun _ _ r => ∃ u, r = .ok u) (gets_act fun _ _ => ⟨_, rfl⟩)
      (fun _ _ _ _ _ => gets_pure ⟨fun idle => absurd already idle, ?_⟩) (by rintro _ _ _ ⟨_, ⟨⟩⟩)
    rw [if_pos (.inl already)]
  · refine gets_bind (P := fun l _ r => (∃ u, r = .ok u) ∧ (course.state l).status = .started)
      (gets_act fun running? eq => ⟨⟨_, rfl⟩, by rw [eq]; rfl⟩) ?_ (by rintro _ _ _ ⟨⟨_, ⟨⟩⟩, -⟩)
    rintro l₁ d _ le₁ ⟨-, started⟩
    refine gets_bind (unstopped.gets_started started (gets_log unstopped _ _ _)) ?_
      (by rintro _ _ _ ⟨⟨⟩, -⟩)
    rintro l₂ d _ le₂ ⟨-, started⟩
    refine gets_bind (unstopped.gets_started started (gets_chains returns _)) ?_
      (by rintro _ _ _ ⟨⟨⟩, -⟩)
    rintro l₃ d _ le₃ ⟨-, started⟩
    refine gets_bind (P := fun l _ r => (l = l₃ + 1 ∧ r = .ok (course.state l₃).status) ∧
        (course.state l).status = .started)
      (unstopped.gets_started started (gets_act fun _ _ => ⟨rfl, rfl⟩)) ?_
      (by rintro _ _ _ ⟨⟨-, ⟨⟩⟩, -⟩)
    rintro _ d _ - ⟨⟨rfl, ⟨⟩⟩, started'⟩
    rw [started]
    refine gets_mono (unstopped.gets_started started' (gets_setTimers default _)) ?_
    rintro q d r le₅ ⟨⟨result, armed, timers, each⟩, started''⟩
    refine ⟨fun _ => ⟨started'', _, armed, by omega, le₅, timers, each⟩, ?_⟩
    simpa [idle] using result

/-- Starting an app comes to an end if its chains do and nobody stops it.  The app is started then,
and has a new timer for each node that is one, up to the first that has an interval beyond all
doubles; and it is this that makes starting fail, and nothing else. -/
theorem start_sets_timers {app : App} (built : Board.ofApp {} app = .ok b)
    (calls : course.Calls p s .start next) (unstopped : course.Unstopped s p)
    (returns : course.ChainsReturn s p) :
    ∃ q d r, course.Returns s p q d r ∧ course.Starts (course.state p).status p q .null r := by
  have default : b.config.timerInterval = .int 1000 := by
    rw [Board.config_of_ofApp built]
  have voids : course.Gets s next p (p + 1) s.context (b.body .start) fun q _ =>
      course.Starts (course.state p).status p q Value.null := by
    rw [← calls.status_after]
    refine gets_bind (gets_start default (Nat.le_succ p) unstopped returns) ?_ ?_
    · rintro l d _ - ⟨set, result⟩
      refine gets_pure ⟨set, ?_⟩
      split at result
      next fits => rw [if_pos fits]
      next => cases result
    · rintro l d e ⟨set, result⟩
      refine ⟨set, ?_⟩
      split at result
      next => cases result
      next large =>
        cases result
        rw [if_neg large]
  obtain ⟨q, d, r, -, doing, starts⟩ := voids .ret (by rw [Script.bind_ret]; exact calls.doing)
  exact ⟨q, d, r, doing.returns, starts⟩

end Course

/-! ## Three clocks -/

/-- A drawing with three timers.  The second one has the least interval beyond all doubles. -/
def clocksApp : App where
  id := "clocks"
  name := .str "clocks"
  nodes := [{ id := "start", kind := "onAppStart" },
    { id := "greet", kind := "setText" },
    { id := "quick", kind := "onTimer", properties := [("interval", .int 100)] },
    { id := "frozen", kind := "onTimer", properties := [("interval", .int Binary64.limit)] },
    { id := "usual", kind := "onTimer" }]
  wires := [.link "start" "exec" "greet" "exec"]

def clocksBoard : Board := clocksApp.board

theorem clocksBoard_built : Board.ofApp {} clocksApp = .ok clocksBoard := rfl

def clocksRun : Run clocksBoard .silent := .ofStart _ _ ()

/-- Starting fails at the second timer, in a started app with the first timer. -/
theorem Course.start_sets_timers_clocksRun : ∃ s next q d,
    clocksRun.Calls 2 s .start next ∧
      clocksRun.Returns s 2 q d (.error .beyondDoubles) ∧
      clocksRun.TimersSet 2 q ∧
      ((clocksBoard.circuit.nodesOf "onTimer").takeWhile Node.keepsTime).map Node.id
        = ["quick"] := by
  have spans : clocksRun.Spans 0 2 .start 21 := by decide +kernel
  have unstopped : ∀ l ≤ 21, (clocksRun.state l).act? ≠ some .markStopped := by
    decide +kernel
  have once : ∀ l ≤ 21, (clocksRun.state l).running?.all (fun t =>
      t.stack.length != 1 || t.job? == none || l == 8) = true := by decide +kernel
  have fulfils : clocksRun.Fulfils 1 8 (.fire "start" "exec") 17 (.ok .null) := by decide +kernel
  obtain ⟨s, next, calls⟩ := spans.1.exists_calls
  obtain ⟨q, d, r, returns, set, result⟩ := start_sets_timers clocksBoard_built calls
    (fun l _ within => unstopped l (spans.le calls within))
    (fun k t node goesOn busy top calls' => by
      have here := once k (spans.le calls busy.within)
      have height : t.stack.length = 1 := by rw [top, (spans.1.stands calls).2]
      have job : t.job? = some (.fire node "exec") := by rw [Strand.job?, calls'.code]
      obtain rfl : k = 8 := by simpa [calls'.running, height, job] using here
      obtain ⟨_, _, fires⟩ := fulfils.1.exists_calls
      cases calls'.running.symm.trans fires.running
      obtain ⟨d, returns⟩ := fulfils.exists_returns fires
      exact ⟨17, d, _, returns⟩)
  refine ⟨s, next, q, d, calls, ?_, set (by decide +kernel), by decide +kernel⟩
  have fails : r = .error .beyondDoubles := by
    rw [result]
    decide +kernel
  rwa [fails] at returns

end Wireboard
