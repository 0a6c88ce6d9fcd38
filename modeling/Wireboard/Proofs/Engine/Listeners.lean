import Wireboard.Proofs.Engine.StrandEtiquette
import Wireboard.Proofs.Engine.Likeness
import Wireboard.Proofs.Engine.Insights

/-!
# Apps to which nobody listens

Listeners are told what the app shows and writes into its log, and they are asked what the user has
typed.  An app does the same whether a listener is there that does nothing, or nobody is: it sets
the same variables, its nodes keep the same results, and it writes the same log and stores the same
data.  There is one exception, the alert.  An alert that nobody hears is a failure of its node, and
the chain does not go on from there; so two apps part at the first alert that one of them has no
listener for (`Run.same_but_delivery`).

The scripts say so before anybody plays them: after every callback but an alert, a script is the
same for "nobody listens" as for the answer of a listener that does nothing.  This is an etiquette
like any other (`indifference`).
-/

namespace Wireboard

variable {σ : Type} {b : Board} {env env' : Surroundings σ} {m m' : Machine σ} {s : Strand}

/-! ## Scripts make no difference -/

/-- To go on in the same way whether nobody listens or somebody who does nothing. -/
def indifference : Etiquette :=
  { Etiquette.steady (fun _ => True) (fun _ => True) with
    alike := Act.Unheard
    unheard_of_alike := id }

namespace Indifference

/-- Nothing is forbidden, so there is nothing to see to but the callbacks, which all bodies treat
alike. -/
theorem suits (b : Board) : indifference.Suits b 3 := by
  refine Etiquette.suits_of_begins ?_ ?_ ?_ ?_ (fun _ _ => trivial) (fun _ _ => trivial)
    (fun _ => .inl trivial) (fun _ _ => trivial) fun _ _ => trivial
  case refine_3 =>
    constructor
    case toils => exact fun _ => by constructor <;> intros <;> trivial
    all_goals
      intros
      trivial
  case refine_4 =>
    exact ⟨⟨fun _ => trivial, fun _ _ _ => trivial, fun _ => trivial⟩, fun _ _ => trivial⟩
  all_goals constructor <;> intros <;> trivial

/-- After a callback that is no alert, every strand goes on in the same way whether nobody listens
or somebody who does nothing. -/
theorem next_none (run : Run b env) {k : Nat} (running : (run.state k).running? = some s)
    {c : Callback} {next : Option Reaction → Code}
    (code : s.code = .act (.callback c) next) (other : ∀ text, c ≠ .alert text) :
    next none = next (some c.idle) := by
  obtain ⟨β, follows, -⟩ := Run.exists_follows (suits b).governs () (fun _ _ => trivial)
    (fun _ => trivial) (fun _ _ => trivial) running
  rw [code] at follows
  refine follows.2.1 none (some c.idle) ?_
  cases c with
  | alert text => exact absurd rfl (other text)
  | setText | setStyle | log | navigate | input => exact ⟨rfl, rfl⟩

end Indifference

/-! ## Two apps side by side -/

/-- Something other than that a listener was called. -/
def Happening.isOwn : Happening → Bool
  | .callback _ => false
  | .notice _ | .asked _ | .sent _ => true

/-- Machines that differ in what listeners were told, and in nothing else. -/
def Likeness.butDelivery : Likeness where
  code := Eq
  history h h' := h'.filter (·.isOwn) = h.filter (·.isOwn)
  admits _ := True
  code_job _ := rfl
  admits_handle _ _ := trivial
  history_cons x same := by
    rw [List.filter_cons, List.filter_cons, same]

/-- Nobody listens, or somebody who does nothing. -/
def Surroundings.Inert (env : Surroundings σ) : Prop :=
  ∀ s c, env.react s c = (none, s) ∨ env.react s c = (some c.idle, s)

namespace Machine

open Likeness (butDelivery)

theorem like_self (s : Strand) : s.Like butDelivery s :=
  .intro rfl (List.forall₂_same.mpr fun _ _ _ => rfl)

theorem eq_of_like {s' : Strand} (like : s.Like butDelivery s') : s' = s := by
  cases like with
  | @intro code stack same below =>
    have sameStack {stack stack' : List Continuation}
        (below : List.Forall₂ (fun next next' => ∀ x, butDelivery.code (next x) (next' x)) stack
          stack') : stack' = stack := by
      induction below with
      | nil => rfl
      | cons goes _ ih => rw [ih, funext goes]
    rw [sameStack below, ← (same : s.code = code)]

theorem Around.butDelivery_callback (around : m.Around butDelivery m') (c : Callback) :
    m.Around butDelivery (m'.witness (.callback c)) ∧
      (m.witness (.callback c)).Around butDelivery m' := by
  cases around with
  | intro history queue calls timers =>
    exact ⟨.intro history queue calls timers, .intro history queue calls timers⟩

/-- A script does the same as itself. -/
theorem parallel_self (code : Code) :
    Parallel butDelivery b b code code := by
  cases code with
  | ret r => exact .ret
  | act a next => exact .act (fun _ _ _ _ => trivial) fun _ => rfl
  | wait r next => exact .wait fun _ => rfl
  | call j next => exact .call rfl fun _ => rfl

/-- The strand that is running keeps two machines alike, unless it shows an alert that only one of
them hears. -/
theorem like_stepStrand (around : m.Around butDelivery m') (agrees : env.Agrees env')
    (inert : env.Inert) (inert' : env'.Inert)
    (indifferent : ∀ {c next}, s.code = .act (.callback c) next → (∀ text, c ≠ .alert text) →
      next none = next (some c.idle))
    (alerts : ∀ text, s.act? = some (.callback (.alert text)) →
      env'.react m.outside (.alert text) = env.react m.outside (.alert text)) :
    (m.stepStrand b env s).Like butDelivery (m'.stepStrand b env' s) := by
  by_cases heard : ∀ c, s.act? = some (.callback c) →
      env'.react m.outside c = env.react m.outside c
  · exact around.stepStrand rfl agrees (like_self s) (parallel_self s.code) heard
  · simp only [not_forall] at heard
    obtain ⟨c, acts, differ⟩ := heard
    obtain ⟨next, code⟩ := Strand.code_of_act? acts
    have same : next none = next (some c.idle) := indifferent code fun text eq => by
      cases eq
      exact differ (alerts text acts)
    obtain ⟨told, told'⟩ := around.butDelivery_callback c
    rcases inert m.outside c with none | idle <;> rcases inert' m.outside c with none' | idle'
    · exact absurd (none'.trans none.symm) differ
    · rw [← around.outside_eq] at idle'
      simp only [stepStrand, code]
      rw [perform_callback_none none, perform_callback_some idle', same]
      exact ⟨told.run _ _, .some (like_self _)⟩
    · rw [← around.outside_eq] at none'
      simp only [stepStrand, code]
      rw [perform_callback_some idle, perform_callback_none none', ← same]
      exact ⟨told'.run _ _, .some (like_self _)⟩
    · exact absurd (idle'.trans idle.symm) differ

theorem eq_of_like_call {c c' : Call} (like : c.Like butDelivery c') : c' = c := by
  cases like with
  | intro strands goes => rw [eq_of_like strands, ← funext goes]

theorem eq_of_like_turn {t t' : Turn} (like : t.Like butDelivery t') : t' = t := by
  cases like with
  | run like => rw [eq_of_like like]
  | lookUp like => rw [eq_of_like_call like]
  | answer strands goes => rw [eq_of_like strands, ← funext goes]
  | windUp | tick | retire | checkIdle => rfl

/-- Machines that differ in nothing but delivery are equal but for their histories. -/
theorem Like.eq_butDelivery (like : m.Like butDelivery m') :
    m' = { m with history := m'.history } ∧
      m'.history.filter (·.isOwn) = m.history.filter (·.isOwn) := by
  have lists {α : Type} {R : α → α → Prop} (eq : ∀ {x x'}, R x x' → x' = x) {xs xs' : List α}
      (all : List.Forall₂ R xs xs') : xs' = xs := by
    induction all with
    | nil => rfl
    | cons alike _ ih => rw [eq alike, ih]
  obtain ⟨around, running⟩ := like
  cases around with
  | @intro history running? queue calls same turns waiting =>
    cases lists eq_of_like_turn turns
    cases lists eq_of_like_call waiting
    refine ⟨?_, same⟩
    generalize m.running? = first at running ⊢
    cases running with
    | none => rfl
    | some alike => rw [eq_of_like alike]

end Machine

namespace Run

variable (run : Run b env) (run' : Run b env') {k : Nat}

theorem like_butDelivery (agrees : env.Agrees env') (inert : env.Inert) (inert' : env'.Inert)
    (outset : (run'.state 0).outside = (run.state 0).outside)
    (impulses : ∀ l < k, run'.impulse? l = run.impulse? l)
    (alerts : ∀ l < k, ∀ text, (run.state l).act? = some (.callback (.alert text)) →
      env'.react (run.state l).outside (.alert text)
        = env.react (run.state l).outside (.alert text)) :
    (run.state k).Like .butDelivery (run'.state k) := by
  induction k with
  | zero =>
    obtain ⟨outside, eq⟩ := run.fresh
    obtain ⟨outside', eq'⟩ := run'.fresh
    rw [eq, eq'] at outset ⊢
    cases (outset : outside' = outside)
    exact ⟨.intro rfl .nil .nil fun _ _ => trivial, .none⟩
  | succ k ih =>
    obtain ⟨around, running⟩ := ih (fun l lt => impulses l (Nat.lt_succ_of_lt lt))
      fun l lt => alerts l (Nat.lt_succ_of_lt lt)
    have move := run.move k
    have move' := run'.move k
    rw [impulses k (Nat.lt_succ_self k)] at move'
    generalize ran : (run.state k).running? = first at running
    generalize ran' : (run'.state k).running? = second at running
    cases running with
    | some alike =>
      cases Machine.eq_of_like alike
      rw [move.eq_stepStrand ran, move'.eq_stepStrand ran']
      refine Machine.like_stepStrand around agrees inert inert'
        (fun code => Indifference.next_none run ran code) fun text acts => ?_
      exact alerts k (Nat.lt_succ_self k) text (by rw [Machine.act?, ran]; exact acts)
    | none =>
      cases impulse : run.impulse? k with
      | some i =>
        rw [impulse] at move move'
        rw [move.2, move'.2]
        exact around.receive ran ran' i fun _ _ => trivial
      | none =>
        rw [impulse] at move move'
        have stepped : Option.Rel (Machine.Like .butDelivery) ((run.state k).step b env)
            ((run'.state k).step b env') := around.step_idle agrees ran ran'
        rw [(move : Machine.step b env _ = _), (move' : Machine.step b env' _ = _)] at stepped
        cases stepped with
        | some like => exact like

end Run

/-- An app to which nobody listens, or nobody to some of what it says, goes through the same states
as one whose listeners do nothing.  Nothing differs but what the listeners were told, as long as
there is no alert that one of the two hears and the other does not. -/
theorem Run.same_but_delivery (agrees : env.Agrees env') (inert : env.Inert)
    (inert' : env'.Inert) (run : Run b env) (run' : Run b env') {k : Nat}
    (outset : (run'.state 0).outside = (run.state 0).outside)
    (impulses : ∀ l < k, run'.impulse? l = run.impulse? l)
    (alerts : ∀ l < k, ∀ text, (run.state l).act? = some (.callback (.alert text)) →
      env'.react (run.state l).outside (.alert text)
        = env.react (run.state l).outside (.alert text)) :
    run'.state k = { run.state k with history := (run'.state k).history } ∧
      (run'.state k).history.filter (·.isOwn) = (run.state k).history.filter (·.isOwn) :=
  (run.like_butDelivery run' agrees inert inert' outset impulses alerts).eq_butDelivery

/-! ## An alert that nobody hears -/

/-- Surroundings in which listeners do nothing, and no request is ever answered. -/
def Surroundings.polite : Surroundings Unit :=
  { Surroundings.silent with react := fun _ c => (some c.idle, ()) }

theorem Surroundings.silent_inert : Surroundings.silent.Inert := fun _ _ => .inl rfl

theorem Surroundings.polite_inert : Surroundings.polite.Inert := fun _ _ => .inr rfl

/-- A drawing that greets the guest, shows an alert and remembers that they have met. -/
def greetingApp : App where
  id := "greeting"
  name := .str "greeting"
  nodes := [{ id := "start", kind := "onAppStart" },
    { id := "greet", kind := "setText", properties := [("targetId", .str "banner")] },
    { id := "guest", kind := "getInputValue" },
    { id := "warn", kind := "showAlert" },
    { id := "meet", kind := "setVariable" }]
  wires := [.link "start" "exec" "greet" "exec", .link "guest" "value" "greet" "value",
    .link "greet" "exec" "warn" "exec", .link "warn" "exec" "meet" "exec"]

def greetingBoard : Board := greetingApp.board

def greetingRun (env : Surroundings Unit) : Run greetingBoard env := .ofStart _ _ ()

/-- Up to the alert, it makes no difference that nobody listens to what is shown and typed.  From
the alert on it does: the app that nobody listens to does not come to set the variable. -/
theorem Run.same_but_delivery_greetingRun :
    ((greetingRun .silent).state 24).act? = some (.callback (.alert "Alert")) ∧
      (greetingRun .polite).state 24 = { (greetingRun .silent).state 24 with
        history := ((greetingRun .polite).state 24).history } ∧
      ((greetingRun .polite).state 24).history ≠ ((greetingRun .silent).state 24).history ∧
      ((greetingRun .silent).state 31).bindings = [] ∧
      ((greetingRun .polite).state 31).bindings ≠ [] := by
  have told : (List.range 24).filterMap
      (fun l => ((greetingRun .silent).state l).act?.filter Act.callsListener)
        = [.callback (.log .info (.str "Runtime started")), .callback (.input ""),
          .callback (.setText "banner" "")] := by decide +kernel
  have alone : ∀ env, env = .silent ∨ env = .polite → ∀ l < 24, 0 < l →
      ((greetingRun env).impulse? l).isNone = true := by
    rintro env (rfl | rfl) <;> decide +kernel
  have impulses : ∀ l < 24,
      (greetingRun .polite).impulse? l = (greetingRun .silent).impulse? l := by
    intro l lt
    rcases Nat.eq_zero_or_pos l with rfl | later
    · rfl
    · rw [Option.isNone_iff_eq_none.mp (alone _ (.inl rfl) l lt later),
        Option.isNone_iff_eq_none.mp (alone _ (.inr rfl) l lt later)]
  have quiet : ∀ l < 24, ∀ text,
      ((greetingRun .silent).state l).act? ≠ some (.callback (.alert text)) := by
    intro l lt text acts
    have member : Act.callback (.alert text) ∈ (List.range 24).filterMap
        (fun l => ((greetingRun .silent).state l).act?.filter Act.callsListener) :=
      List.mem_filterMap.mpr ⟨l, List.mem_range.mpr lt, by rw [acts]; rfl⟩
    rw [told] at member
    simp at member
  obtain ⟨same, -⟩ := same_but_delivery .intro Surroundings.silent_inert Surroundings.polite_inert
    (greetingRun .silent) (greetingRun .polite) (k := 24) rfl impulses
    fun l lt text acts => absurd acts (quiet l lt text)
  exact ⟨by decide +kernel, same, by decide +kernel, by decide +kernel, by decide +kernel⟩

end Wireboard
