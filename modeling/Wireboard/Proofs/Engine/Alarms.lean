import Wireboard.Proofs.Engine.Needs

/-!
# Who raises an alarm

The log tells of a cycle where a pull found itself open already.  Here the bodies of all jobs are
read for such entries: nobody else makes one (`Etiquette.Calm`), apart from whoever brings in the
very words.  A pull that is let in makes none either, and calls no jobs but stops and the pulls of
pins that its own pin needs (`Etiquette.Calm.throughout_evaluate`).

Both are read under etiquettes without modes (`Etiquette.steady`), which only say what may be done
and what may be called.  An etiquette with modes is followed as well where neither of the two leads
to another mode (`Script.follows_of_steady`).
-/

namespace Wireboard

variable {α β : Type}

/-! ## Etiquettes without modes -/

/-- What is always in order is in order in a mode in which it may be done and which it does not
change. -/
theorem Script.follows_of_steady {A : Act → Prop} {C : Job → Prop} {E : Etiquette} {μ : E.Mode}
    {Q : Unit → α → Prop} (acts : ∀ a, A a → E.allows μ a ∧ ∀ r, E.after μ a r = μ)
    (unlike : ∀ a r r', ¬ E.alike a r r') (asks : ∀ r, E.asks μ r) (answered : E.answered μ = μ)
    (calls : ∀ j, C j → E.calls μ j ∧ ∀ x, E.returned μ j x = μ) {s : Script α}
    (steady : s.Follows (.steady A C) Q ()) : s.Follows E (fun ν a => ν = μ ∧ Q () a) μ := by
  induction s with
  | ret a => exact ⟨rfl, steady⟩
  | act a next ih =>
    refine ⟨(acts a steady.1).1, fun r r' same => absurd same (unlike a r r'), fun r _ => ?_⟩
    rw [(acts a steady.1).2 r]
    exact ih r (steady.2.2 r trivial)
  | wait r next ih =>
    refine ⟨asks r, fun x => ?_⟩
    rw [answered]
    exact ih x (steady.2 x)
  | call j next ih =>
    refine ⟨(calls j steady.1).1, fun x => ?_⟩
    rw [(calls j steady.1).2 x]
    exact ih x (steady.2 x)

namespace Etiquette

/-- Anything may be done that neither handles pulls nor raises an alarm, and stops may be called. -/
structure Calm (A : Act → Prop) (C : Job → Prop) : Prop where
  act : ∀ {a : Act}, a.handlesPulls = false → a.isEntry = false → A a
  entry : ∀ {level : Level} {message : Value}, Plain level message → A (.journal level message)
  stop : C .stop

namespace Calm

variable {A : Act → Prop} {C : Job → Prop} (calm : Calm A C)

/-! ## Readings -/

section

include calm

theorem speaks : (steady A C).Speaks where
  act {_ a} talk silent := by
    refine calm.act ?_ silent
    cases a with
    | beginChain | enter | leave => cases talk
    | _ => rfl
  entry := calm.entry
  isStale := calm.act rfl rfl
  stop _ _ := calm.stop

theorem glances (b : Board) (n : Node) : (steady A C).Glances b n where
  act {_ a} rank plain _ _ := by
    cases a with
    | beginChain | journal => cases rank
    | enter | leave => cases plain
    | _ => exact calm.act rfl rfl
  load _ _ := calm.act rfl rfl
  chat _ := trivial

/-- A value is found without an alarm, and without a pull other than those that it needs. -/
theorem throughout_evaluate {b : Board} {n : Node} (pin : String) {kind : NodeKind}
    (holds : b.Holds n kind)
    (pulls : ∀ input ∈ kind.inputs, ∀ q, b.source? n.id input = some q → C (.pull q.node q.pin)) :
    (steady A C).Throughout (b.evaluate n pin kind) :=
  Etiquette.throughout_evaluate (calm.glances b n) calm.speaks pin holds
    fun input asked q source _ _ => pulls input asked q source

/-- A stop calls nothing but stops. -/
theorem throughout_stop {b : Board} : (steady A C).Throughout (b.body .stop) := by
  refine throughout_bind ?_ fun _ => throughout_pure _
  exact throughout_bind (throughout_act rfl rfl fun _ _ => calm.act rfl rfl) fun _ =>
    throughout_log calm.speaks .info

end

section Free

variable {b : Board} (free : ∀ j, C j) (allowed : A .beginChain)

include calm free

theorem works : (steady A C).Works b := by
  constructor
  case toils =>
    intro n
    constructor
    case look => rintro _ _ (rfl | rfl) - <;> exact calm.act rfl rfl
    all_goals
      intros
      first | trivial | exact calm.act rfl rfl
  all_goals
    intros
    first | trivial | exact free _ | exact calm.act rfl rfl

include allowed

omit free in
theorem begins : (steady A C).Begins b where
  chain _ := allowed
  press _ _ _ := calm.act rfl rfl
  listed _ := trivial
  arm _ _ := calm.act rfl rfl

/-- A job that neither pulls nor has words of its own to write raises no alarm. -/
theorem throughout_body {j : Job} (unpulling : ∀ node pin, j ≠ .pull node pin)
    (unstopping : j ≠ .stop)
    (written : ∀ level message, j = .log level message → A (.journal level message)) :
    (steady A C).Throughout (b.body j) := by
  intro μ _
  have speaks := calm.speaks
  have works : (steady A C).Works b := calm.works free
  have begins : (steady A C).Begins b := calm.begins allowed
  by_cases unstarting : j = .start
  · subst unstarting
    exact from_void (from_start speaks trivial (calm.act rfl rfl) (calm.act rfl rfl) fun _ _ =>
      ⟨works, begins⟩)
  · refine from_body speaks trivial (fun _ _ => ⟨fun _ _ => free _⟩) (fun _ => works)
      (fun _ => begins.toTriggers) (fun _ _ => trivial) (fun _ _ _ => .inl trivial)
      (fun node pin eq => absurd eq (unpulling node pin)) written ?_ unstarting unstopping
    intro type target _
    exact from_handle speaks type target trivial (calm.act rfl rfl) fun _ _ _ =>
      ⟨works, begins.toTriggers⟩

end Free

end Calm

end Etiquette

end Wireboard
