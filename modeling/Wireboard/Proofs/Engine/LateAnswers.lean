import Wireboard.Proofs.Circuit
import Wireboard.Proofs.Engine.StrandEtiquette
import Wireboard.Proofs.Engine.Numbers
import Wireboard.Proofs.Engine.Staleness

/-!
# Answers that come after a stop

A chain may be waiting for the host when the app is stopped.  Nothing takes the request back; the
answer comes in its own time, and the chain goes on with it.  Whatever it does then has no effect on
the variables.  On what nodes keep and on the store it has none either, with the exceptions that
`Run.late_writes` names: a list that was about to grow or to shrink still does, a value that was
about to be stored still is, and a trigger for keys keeps the key of the event that it shares with
the chain.

The reason is where the bodies look at the epoch.  A node looks before it keeps what the host gave
it, and so does everybody before the next wire; after a look that found the chain current, a strand
does not wait before it has done what it looked for.  This is `Phase.fresh`.  A strand that waits is
`late`, and it stays so for as long as its chain is behind the engine.  The lists and the stored
data are written without a look, so they are what a strand can still do when it is late.

One thing has to be kept apart.  A listener may have the app stopped in the middle of a strand, and
the strand goes on with what it has looked for.  It has not waited; so the stop that a listener
orders is a job in which nobody waits (`Phase.stopping`), and the phase of the strand is the same
after it.
-/

namespace Wireboard

variable {σ τ : Type} {b : Board} {env : Surroundings σ} {m m' : Machine σ} {s t : Strand}

/-! ## Phases -/

/-- How a strand stands to a stop of the app. -/
inductive Phase where
  /-- The chain was found current, and the strand has not waited since. -/
  | fresh
  /-- The app may have been stopped since the chain was last found current. -/
  | late
  /-- The strand is just stopping the app. -/
  | stopping
deriving DecidableEq

/-- A node of this kind keeps its result without a look at the epoch. -/
def NodeKind.collects : NodeKind → Bool
  | .listAdd | .listRemove | .onKeyPress => true
  | _ => false

namespace Board

/-- The act lets a node keep a result for which nobody looks at the epoch. -/
def Collects (b : Board) (node : String) (memo : Memo) : Prop :=
  ∃ n kind v, b.Holds n kind ∧ kind.collects = true ∧ n.id = node ∧ memo = .result v

/-- The key is that of a node that stores data. -/
def Saves (b : Board) (key : String) : Prop :=
  ∃ n, b.Holds n .saveData ∧ b.config.storageKey (n.property "key") = .ok key

/-- The node does nothing but go on, since it is the head of a function. -/
def IsHead (b : Board) (node : String) : Prop :=
  ∀ n, b.circuit.node? node = some n → n.kind = "functionDefine"

end Board

variable {φ : Phase}

namespace Phase

/-- The phase after an act. -/
def after : Phase → (a : Act) → a.Reply → Phase
  | .stopping, _, _ => .stopping
  | _, .isStale, stale => bif stale then .late else .fresh
  | φ, _, _ => φ

/-- The phase in which a job begins. -/
def entered (φ : Phase) : Job → Phase
  | .stop => .stopping
  | .execute _ _ => φ
  | _ => .late

/-- The phase after a job has returned. -/
def returned : Phase → Job → Phase
  | .stopping, _ => .stopping
  | φ, .stop => φ
  | _, _ => .late

/-- The act is in order. -/
def Permits (b : Board) (φ : Phase) : Act → Prop
  | .assign _ _ | .remove _ => φ = .fresh
  | .remember node memo => φ = .fresh ∨ b.Collects node memo
  | .save key _ => b.Saves key
  | _ => True

/-- The call is in order. -/
def Calls (b : Board) (φ : Phase) : Job → Prop
  | .stop => True
  | .execute node _ => φ = .fresh ∨ φ ≠ .stopping ∧ b.IsHead node
  | _ => φ ≠ .stopping

theorem after_ne_stopping (a : Act) (r : a.Reply) (h : φ ≠ .stopping) :
    φ.after a r ≠ .stopping := by
  cases φ with
  | stopping => exact absurd rfl h
  | fresh | late =>
    cases a with
    | isStale =>
      cases (r : Bool) <;> exact fun eq => by cases eq
    | _ => exact h

theorem returned_ne_stopping (j : Job) (h : φ ≠ .stopping) : φ.returned j ≠ .stopping := by
  cases φ with
  | stopping => exact absurd rfl h
  | fresh | late => cases j <;> exact fun eq => by cases eq

end Phase

/-- What has to be looked at before a strand writes something. -/
def Board.punctuality (b : Board) : Etiquette where
  Mode := Phase
  ordinary φ := φ ≠ .stopping
  ready φ := φ = .fresh
  ends _ := True
  ground _ := True
  allows := Phase.Permits b
  expects _ _ := True
  alike _ _ _ := False
  after := Phase.after
  asks φ _ := φ ≠ .stopping
  answered _ := .late
  calls := Phase.Calls b
  entered := Phase.entered
  returned φ j _ := φ.returned j
  ordinary_of_ready fresh stopping := by cases fresh.symm.trans stopping
  ends_of_ordinary _ := trivial
  ordinary_after a r _ := Phase.after_ne_stopping a r
  ordinary_answered _ stopping := by cases stopping
  ordinary_returned j _ := Phase.returned_ne_stopping j
  unheard_of_alike := Act.unheard_of_false

namespace Punctuality

open Etiquette

theorem after_isStale (h : φ ≠ .stopping) : φ.after .isStale false = .fresh := by
  cases φ with
  | stopping => exact absurd rfl h
  | fresh | late => rfl

/-- Talk leaves the phase as it is. -/
theorem after_talk (φ : Phase) {a : Act} (talk : a.isTalk = true) (r : a.Reply) :
    φ.after a r = φ := by
  cases φ with
  | stopping => rfl
  | fresh | late =>
    cases a with
    | isStale => cases talk
    | _ => rfl

@[simp] theorem returned_stop (φ : Phase) : φ.returned .stop = φ := by
  cases φ <;> rfl

theorem eq_of_talked {φ ψ : b.punctuality.Mode} (talked : b.punctuality.Talked φ ψ) : ψ = φ := by
  induction talked with
  | refl => rfl
  | act _ talk same =>
    rw [same]
    exact after_talk φ talk _
  | stop _ same =>
    rw [same]
    exact returned_stop φ

theorem fresh_of_checked {φ : b.punctuality.Mode} (checked : b.punctuality.Checked φ) :
    φ = Phase.fresh := by
  induction checked with
  | check usual => exact after_isStale usual
  | talk _ talked fresh => rw [eq_of_talked talked, fresh]
  | keep _ fresh =>
    rw [fresh]
    rfl

theorem talks : b.punctuality.Talks where
  act {φ a} rank := by
    cases a with
    | assign | remember | save | remove => cases rank
    | _ => trivial
  stop := trivial

theorem reads : b.punctuality.Reads where
  act {φ a} rank _ _ := by
    cases a with
    | assign | remember | save | remove => cases rank
    | _ => trivial
  chat usual := usual
  pull usual := usual

theorem works (filed : b.Filed) : b.punctuality.Works b where
  toils n :=
    { ask := fun _ usual => usual
      look := by rintro φ a (rfl | rfl) - <;> trivial
      display := fun _ => trivial
      assign := fun usual _ _ => after_isStale usual
      keep := fun checked _ _ => .inl (fresh_of_checked checked)
      collect := by
        rintro φ kind v - holds (rfl | rfl)
        · exact .inr ⟨n, _, v, holds, rfl, rfl, rfl⟩
        · exact .inr ⟨n, _, v, holds, rfl, rfl, rfl⟩
      save := fun _ holds keyed _ _ => ⟨_, holds, keyed⟩
      remove := fun ready _ _ => ready }
  count checked := .inl (fresh_of_checked checked)
  send ready _ _ _ _ talked := talked.ordinary
    (Etiquette.ordinary_resolved _ _ _ (Etiquette.ordinary_resolved _ _ _
      (b.punctuality.ordinary_of_ready ready)))
  push _ _ _ _ _ := trivial
  setResult _ _ _ := trivial
  function {φ f r entry} usual named :=
    .inr ⟨Phase.after_ne_stopping (.push f) r usual, fun _ found => filed.define named found⟩
  pop _ := trivial
  ordinary_pop {φ f r entry x v} usual := Phase.after_ne_stopping .pop v
    (Phase.returned_ne_stopping _ (Phase.after_ne_stopping (.push f) r usual))
  result usual _ := .inl (after_isStale usual)
  ready_notice {φ n r} ready := (after_talk φ rfl r).trans ready
  ready_depth ready := by rw [ready]; rfl
  fire usual _ := usual
  iterate usual _ := usual
  rounds usual _ := usual
  wire usual := .inl (after_isStale usual)
  filed _ := trivial

theorem begins (filed : b.Filed) : b.punctuality.Begins b where
  chain _ := trivial
  press {φ n kind v} _ listed isKey := by
    refine .inr ⟨n, .onKeyPress, v, ⟨⟨n.id, filed.found listed⟩, ?_⟩, rfl, rfl, rfl⟩
    rw [isKey]
    decide
  arm _ _ := trivial
  listed _ := trivial

theorem suits (filed : b.Filed) : b.punctuality.Suits b 3 := by
  refine suits_of_begins talks reads (works filed) (begins filed) (fun _ _ => trivial) ?_ ?_
    (fun _ _ => trivial) fun _ _ => trivial
  · intro φ j called other
    cases j with
    | stop => exact absurd rfl other
    | execute node pin? =>
      rcases called with fresh | ⟨usual, -⟩
      · exact b.punctuality.ordinary_of_ready fresh
      · exact usual
    | _ => exact fun eq => by cases eq
  · exact fun called => called.imp id And.right

end Punctuality

/-! ## Strands in the middle of jobs -/

namespace Phase

/-- What is called in the middle of a stop is part of the stop. -/
def Nested : Phase → List (Phase × Job) → Prop
  | _, [] => True
  | φ, (ψ, j) :: under => (j = .stop ∨ ψ = .stopping → φ = .stopping) ∧ Nested ψ under

/-- The phase on top may change, but for that of a stop. -/
theorem Nested.change {ψ : Phase} {under : List (Phase × Job)} (nested : Nested φ under)
    (stays : φ = .stopping → ψ = .stopping) : Nested ψ under := by
  cases under with
  | nil => trivial
  | cons p under => exact ⟨fun h => stays (nested.1 h), nested.2⟩

/-- Who is not stopping the app is not in the middle of a stop. -/
theorem Nested.ne_stop {under : List (Phase × Job)} (nested : Nested φ under)
    (usual : φ ≠ .stopping) : ∀ p ∈ under, p.2 ≠ .stop := by
  induction under generalizing φ with
  | nil => exact fun p none => by cases none
  | cons p under ih =>
    obtain ⟨inside, rest⟩ := nested
    rintro q member
    rcases List.mem_cons.mp member with rfl | below
    · exact fun stop => usual (inside (.inl stop))
    · exact ih rest (fun stopping => usual (inside (.inr stopping))) q below

/-- The strand has not found its chain current, nor had any job that a stop has interrupted. -/
def Overdue (φ : Phase) (under : List (Phase × Job)) : Prop :=
  φ ≠ .fresh ∧ ∀ p ∈ under, p.2 = .stop → p.1 ≠ .fresh

/-- Whoever is behind the engine does not find the chain current. -/
theorem after_ne_fresh {c : Context} (late : φ ≠ .fresh) (stale : c.epoch ≠ m.epoch) (a : Act) :
    φ.after a (Machine.perform b env m c a).1 ≠ .fresh := by
  cases φ with
  | fresh => exact absurd rfl late
  | stopping => exact late
  | late =>
    cases a with
    | isStale =>
      have found : (c.epoch != m.epoch) = true := bne_iff_ne.mpr stale
      show (bif c.epoch != m.epoch then Phase.late else Phase.fresh) ≠ .fresh
      rw [found]
      exact late
    | _ => exact late

theorem returned_ne_fresh {j : Job} (late : j = .stop → φ ≠ .fresh) : φ.returned j ≠ .fresh := by
  cases φ with
  | stopping => exact fun eq => by cases eq
  | fresh | late =>
    cases j with
    | stop => exact late rfl
    | _ => exact fun eq => by cases eq

end Phase

namespace Punctuality

variable {β β' : b.punctuality.Bearing}

theorem nested_of_leads (nested : Phase.Nested β.mode β.under) (leads : β.Leads b env m s β') :
    Phase.Nested β'.mode β'.under := by
  cases leads with
  | @returns x p under code _ eq called =>
    rw [eq] at nested
    refine nested.2.change fun stopping => ?_
    show Phase.returned p.1 p.2 = .stopping
    rw [stopping]
    rfl
  | acts code allowed => exact nested.change fun stopping => by rw [stopping]; rfl
  | answered code asks => exact nested.change fun stopping => absurd stopping asks
  | @calls j next code called =>
    refine ⟨?_, nested⟩
    rintro (rfl | stopping)
    · rfl
    · -- a stop calls nothing but another stop
      cases j with
      | stop => rfl
      | execute node pin? =>
        rcases called with fresh | ⟨usual, -⟩
        · cases fresh.symm.trans stopping
        · exact absurd stopping usual
      | _ => exact absurd stopping called

/-- A strand that is overdue stays so, as long as it does not find its chain current. -/
theorem overdue_of_leads (overdue : Phase.Overdue β.mode β.under)
    (stale : s.context.epoch ≠ m.epoch) (leads : β.Leads b env m s β') :
    Phase.Overdue β'.mode β'.under := by
  cases leads with
  | @returns x p under code _ eq called =>
    have below : ∀ q ∈ p :: under, q.2 = .stop → q.1 ≠ .fresh := by
      rw [← eq]
      exact overdue.2
    exact ⟨Phase.returned_ne_fresh (below p List.mem_cons_self),
      fun q member => below q (List.mem_cons_of_mem _ member)⟩
  | @acts a next code allowed =>
    exact ⟨Phase.after_ne_fresh overdue.1 stale a, overdue.2⟩
  | answered code asks => exact ⟨fun eq => (by cases eq), overdue.2⟩
  | @calls j next code called =>
    refine ⟨?_, ?_⟩
    · cases j with
      | execute node pin? => exact overdue.1
      | _ => exact fun eq => by cases eq
    · rintro p member
      rcases List.mem_cons.mp member with rfl | below
      · exact fun _ => overdue.1
      · exact overdue.2 p below

end Punctuality

/-! ## From a stop on -/

theorem Phase.calls_fresh (b : Board) (j : Job) : Phase.Calls b .fresh j := by
  cases j with
  | stop => trivial
  | execute node pin? => exact .inl rfl
  | _ => exact fun eq => by cases eq

namespace Run

variable (run : Run b env) {i j k : Nat}

/-- Whoever waits in the middle of a job is overdue. -/
theorem overdue_of_waits (filed : b.Filed) (waits : (run.state k).Waits s) (begun : s.stack ≠ []) :
    ∃ β : b.punctuality.Bearing,
      s.Follows b.punctuality β ∧ Phase.Overdue β.mode β.under := by
  have governs := (Punctuality.suits filed).governs
  have carries : run.Carries 0 (fun _ => True)
      (fun _ s => ∃ β : b.punctuality.Bearing, s.Follows b.punctuality β ∧
        Phase.Nested β.mode β.under ∧ (s.stack ≠ [] → β.mode = Phase.late))
      (fun _ s => ∃ β : b.punctuality.Bearing, s.Follows b.punctuality β ∧
        Phase.Nested β.mode β.under) := {
    rests := fun _ held _ => held
    resumes := fun _ _ ⟨β, follows, nested, _⟩ _ => ⟨β, follows, nested⟩
    advances := fun {k s t} _ _ _ ⟨β, follows, nested⟩ step _ => by
      obtain ⟨β', leads, follows'⟩ := follows.of_advances governs step fun _ _ _ => trivial
      exact ⟨β', follows', Punctuality.nested_of_leads nested leads⟩
    asks := fun {k s t} _ _ ⟨β, follows, nested⟩ asks _ => by
      obtain ⟨leads, follows'⟩ := follows.of_asks b env (run.state k) asks
      exact ⟨_, follows', Punctuality.nested_of_leads nested leads, fun _ => rfl⟩
    enters := fun {k j frames t} _ _ _ new => by
      have follows := Strand.Follows.of_admits (E := b.punctuality) new (Phase.calls_fresh b j)
        fun _ => trivial
      exact ⟨fun _ => ⟨_, follows, trivial, fun begun => absurd new.stack begun⟩,
        fun _ => ⟨_, follows, trivial⟩⟩
    goes := fun _ _ _ => trivial }
  obtain ⟨-, waiting, -⟩ := carries.always trivial k
  obtain ⟨β, follows, nested, late⟩ := waiting s waits
  have late := late begun
  have usual : β.mode ≠ Phase.stopping := by
    rw [late]
    exact fun eq => by cases eq
  refine ⟨β, follows, ?_, fun p member stop => absurd stop (nested.ne_stop usual p member)⟩
  rw [late]
  exact fun eq => by cases eq

/-- A stop begins a new epoch. -/
theorem epoch_of_stop (stops : (run.state i).act? = some .markStopped) :
    (run.state (i + 1)).epoch = (run.state i).epoch + 1 := by
  obtain ⟨u, running, acts⟩ := Option.bind_eq_some_iff.mp stops
  obtain ⟨next, code⟩ := Strand.code_of_act? acts
  rw [(run.move i).eq_acted running code]
  rfl

/-- A strand that waits in the middle of a job while the app is stopped is overdue from then on, for
as long as it stays the same chain. -/
theorem overdue_since_stop (filed : b.Filed) (stops : (run.state i).act? = some .markStopped)
    (waits : (run.state i).Waits s) (begun : s.stack ≠ []) (after : i < k)
    (bears : (run.state k).Bears t) (number : t.id = s.id)
    (chain : t.context.epoch = s.context.epoch) :
    ∃ β : b.punctuality.Bearing,
      t.Follows b.punctuality β ∧ Phase.Overdue β.mode β.under := by
  have governs := (Punctuality.suits filed).governs
  obtain ⟨u, stopping, acts⟩ := Option.bind_eq_some_iff.mp stops
  obtain ⟨next, code⟩ := Strand.code_of_act? acts
  -- the chain is behind the engine from now on, and nobody else comes in with its number
  have behind : ∀ {l}, i + 1 ≤ l → s.context.epoch ≠ (run.state l).epoch := by
    intro l le
    have old := run.epoch_le i s (.inr waits)
    have new := run.epoch_of_stop stops
    have later := run.epoch_mono le
    omega
  have known : ∀ {l}, i ≤ l → s.id < (run.state l).nextId := fun le =>
    Nat.lt_of_lt_of_le ((run.numbered i).lt_nextId (.inr waits)) (run.nextId_mono le)
  let P : Nat → Strand → Prop := fun _ t => t.id = s.id → t.context.epoch = s.context.epoch →
    ∃ β : b.punctuality.Bearing, t.Follows b.punctuality β ∧ Phase.Overdue β.mode β.under
  have carries : run.Carries (i + 1) (fun _ => True) P P := {
    rests := fun _ held _ => held
    resumes := fun _ _ held _ => held
    advances := fun {k u t} le _ _ held step _ number chain => by
      have number' : u.id = s.id := step.id_eq.symm.trans number
      have chain' : u.context.epoch = s.context.epoch := by
        rcases step.epoch_cases with old | new
        · exact old.symm.trans chain
        · exact absurd (chain.symm.trans new) (behind le)
      obtain ⟨β, follows, overdue⟩ := held number' chain'
      obtain ⟨β', leads, follows'⟩ := follows.of_advances governs step fun _ _ _ => trivial
      have stale : u.context.epoch ≠ (run.state k).epoch := by rw [chain']; exact behind le
      exact ⟨β', follows', Punctuality.overdue_of_leads overdue stale leads⟩
    asks := fun {k u t} le _ held asks _ number chain => by
      have same : t.id = u.id ∧ t.context = u.context := by
        obtain ⟨r, next, reply, -, rfl⟩ := asks
        exact ⟨rfl, rfl⟩
      have chain' : u.context.epoch = s.context.epoch := by rw [← same.2, chain]
      obtain ⟨β, follows, overdue⟩ := held (same.1.symm.trans number) chain'
      obtain ⟨leads, follows'⟩ := follows.of_asks b env (run.state k) asks
      have stale : u.context.epoch ≠ (run.state k).epoch := by rw [chain']; exact behind le
      exact ⟨_, follows', Punctuality.overdue_of_leads overdue stale leads⟩
    enters := fun {k j frames t} le _ _ new => by
      have other : t.id ≠ s.id := by
        rw [new.id]
        exact Nat.ne_of_gt (known (Nat.le_of_succ_le le))
      exact ⟨fun _ number => absurd number other, fun _ number => absurd number other⟩
    goes := fun _ _ _ => trivial }
  have move := run.move i
  have waiting : ∀ t, (run.state (i + 1)).Waits t → P (i + 1) t := by
    intro t waits' number _
    rcases move.waits_cases waits' with
      old | ⟨u', running, r, next, reply, code', -⟩ | ⟨j, _, -, new⟩
    · have stack := ((run.numbered i).same_of_waits old waits number).2
      exact run.overdue_of_waits filed old (by rw [stack]; exact begun)
    · cases stopping.symm.trans running
      cases code.symm.trans code'
    · exact absurd (new.id.symm.trans number) (Nat.ne_of_gt (known (Nat.le_refl i)))
  have running : ∀ t, (run.state (i + 1)).running? = some t → P (i + 1) t := by
    intro t ran number _
    rcases move.running_cases ran with ⟨idle, -⟩ | ⟨u', running, step⟩ | ⟨j, _, -, new⟩
    · cases stopping.symm.trans idle
    · exact absurd (step.id_eq.symm.trans number) ((run.numbered i).ne_of_waits running waits)
    · exact absurd (new.id.symm.trans number) (Nat.ne_of_gt (known (Nat.le_refl i)))
  obtain ⟨-, waiting, running⟩ := carries.holds trivial waiting running after
  exact bears.elim (fun ran => running t ran number chain) fun waits => waiting t waits number chain

end Run

/-! ## What is written -/

/-- What is stored is changed by saving and deleting alone. -/
structure Surroundings.Stores (env : Surroundings σ) (contents : σ → τ) : Prop where
  react : ∀ s c, contents (env.react s c).2 = contents s
  random : ∀ s, contents (env.random s).2 = contents s
  ask : ∀ s r, contents (env.ask s r).2.2 = contents s

namespace Machine

variable {contents : σ → τ}

/-- What a strand writes by its next step: the variables, what nodes keep, and the store. -/
structure Writes (contents : σ → τ) (s : Strand) (m m' : Machine σ) : Prop where
  bindings : m'.bindings = m.bindings ∨ ∃ name v, s.act? = some (.assign name v)
  scratch : m'.scratch = m.scratch ∨ ∃ node memo, s.act? = some (.remember node memo) ∧
    m'.scratch = m.scratch.put node ((m.scratchOf node).keep memo)
  store : contents m'.outside = contents m.outside ∨
    (∃ key text, s.act? = some (.save key text)) ∨ ∃ key, s.act? = some (.remove key)

theorem writes_acted (stores : env.Stores contents) {a : Act}
    {next : a.Reply → Code} (code : s.code = .act a next) :
    Writes contents s m (m.acted b env s a next) := by
  have acts := Strand.act?_of_code code
  cases a with
  | assign name v => exact ⟨.inr ⟨name, v, acts⟩, .inl rfl, .inl rfl⟩
  | remember node memo => exact ⟨.inl rfl, .inr ⟨node, memo, acts, rfl⟩, .inl rfl⟩
  | save key text => exact ⟨.inl rfl, .inl rfl, .inr (.inl ⟨key, text, acts⟩)⟩
  | remove key => exact ⟨.inl rfl, .inl rfl, .inr (.inr ⟨key, acts⟩)⟩
  | random => exact ⟨.inl rfl, .inl rfl, .inl (stores.random m.outside)⟩
  | callback cb =>
    have kept := stores.react m.outside cb
    simp only [acted, perform]
    split
    next r outside heard =>
      rw [heard] at kept
      exact ⟨.inl rfl, .inl rfl, .inl kept⟩
    next outside unheard =>
      rw [unheard] at kept
      exact ⟨.inl rfl, .inl rfl, .inl kept⟩
  | setResult v | enter key =>
    simp only [acted, perform]
    split <;> exact ⟨.inl rfl, .inl rfl, .inl rfl⟩
  | _ => exact ⟨.inl rfl, .inl rfl, .inl rfl⟩

@[simp] theorem ask_outside (env : Surroundings σ) (m : Machine σ) (r : Request) :
    (m.ask env r).2.outside = (env.ask m.outside r).2.2 := by
  simp only [ask, witnessAll_eq]

/-- A request reaches the host at once, or not yet. -/
theorem request_outside (env : Surroundings σ) (m : Machine σ) (s : Strand) (r : Request)
    (next : Except Fault r.Reply → Code) :
    (m.request env s r next).outside = m.outside ∨
      (m.request env s r next).outside = (env.ask m.outside r).2.2 := by
  have asked := ask_outside env m r
  unfold request
  dsimp only
  split
  next =>
    split
    next eq => exact .inr (by rw [← asked, eq])
    next eq => exact .inr (by rw [← asked, eq])
  all_goals exact .inl rfl

theorem writes_stepStrand (stores : env.Stores contents) (m : Machine σ) (s : Strand) :
    Writes contents s m (m.stepStrand b env s) := by
  unfold stepStrand
  split
  next r code =>
    split
    next =>
      obtain ⟨finished, eq⟩ := exists_finish_eq m s r
      rw [eq]
      exact ⟨.inl rfl, .inl rfl, .inl rfl⟩
    next => exact ⟨.inl rfl, .inl rfl, .inl rfl⟩
  next a next code => exact writes_acted stores code
  next r next code =>
    have spares : m.Spares (m.request env s r next) := spares_request m s r next
    refine ⟨.inl spares.bindings, .inl spares.scratch, .inl ?_⟩
    rcases request_outside env m s r next with same | asked
    · rw [same]
    · rw [asked]
      exact stores.ask m.outside r
  next => exact ⟨.inl rfl, .inl rfl, .inl rfl⟩

end Machine

/-- What a chain still does after a stop that came while it waited: no variable is set, and nothing
is kept or stored but the result of a list or of a trigger for keys, and what a node that stores
data was about to store. -/
theorem Run.late_writes {config : Config} {app : App} (built : Board.ofApp config app = .ok b)
    (run : Run b env) {contents : σ → τ} (stores : env.Stores contents) {i j : Nat} {s t : Strand}
    (stops : (run.state i).act? = some .markStopped) (waits : (run.state i).Waits s)
    (begun : s.stack ≠ []) (after : i < j) (running : (run.state j).running? = some t)
    (number : t.id = s.id) (chain : t.context.epoch = s.context.epoch) :
    (run.state (j + 1)).bindings = (run.state j).bindings ∧
      ((run.state (j + 1)).scratch = (run.state j).scratch ∨
        ∃ n kind v, b.Holds n kind ∧ kind.collects = true ∧
          t.act? = some (.remember n.id (.result v)) ∧ (run.state (j + 1)).scratch
            = (run.state j).scratch.put n.id (((run.state j).scratchOf n.id).keep (.result v))) ∧
      (contents (run.state (j + 1)).outside = contents (run.state j).outside ∨
        ∃ n key text, b.Holds n .saveData ∧ b.config.storageKey (n.property "key") = .ok key ∧
          t.act? = some (.save key text)) := by
  obtain ⟨β, follows, late, -⟩ := run.overdue_since_stop (Board.filed_of_ofApp built) stops waits
    begun after (.inl running) number chain
  have writes := Machine.writes_stepStrand (b := b) stores (run.state j) t
  rw [← (run.move j).eq_stepStrand running] at writes
  refine ⟨?_, ?_, ?_⟩
  · rcases writes.bindings with same | ⟨name, v, acts⟩
    · exact same
    · exact absurd (follows.allows acts) late
  · rcases writes.scratch with same | ⟨node, memo, acts, kept⟩
    · exact .inl same
    · rcases follows.allows acts with fresh | ⟨n, kind, v, holds, collects, rfl, rfl⟩
      · exact absurd fresh late
      · exact .inr ⟨n, kind, v, holds, collects, acts, kept⟩
  · rcases writes.store with same | ⟨key, text, acts⟩ | ⟨key, acts⟩
    · exact .inl same
    · obtain ⟨n, holds, keyed⟩ := follows.allows acts
      exact .inr ⟨n, key, text, holds, keyed, acts⟩
    · exact absurd (follows.allows acts) late

/-! ## A list that grows after the stop -/

/-- Surroundings that store data, in which nobody listens and the world answers what is asked. -/
def Surroundings.shelf : Surroundings (Table String) where
  react shelf _ := (none, shelf)
  permission _ := .ok .null
  random shelf := (.int 0, shelf)
  ask shelf _ := (.later 0, [], shelf)
  resume shelf _ _ := (.error .timedOut, [], shelf)
  load shelf key := .ok (((shelf.get? key).map Value.str).getD .null)
  save shelf key text := (.ok (), shelf.put key text)
  remove shelf key := (.ok (), shelf.filter (·.1 != key))

theorem Surroundings.shelf_stores : Surroundings.shelf.Stores fun shelf => shelf :=
  ⟨fun _ _ => rfl, fun _ => rfl, fun _ _ => rfl⟩

/-- A drawing in which the reply of a chat is put into a list. -/
def minutesApp : App where
  id := "minutes"
  name := .str "minutes"
  nodes := [{ id := "start", kind := "onAppStart" }, { id := "minutes", kind := "listAdd" },
    { id := "talk", kind := "geminiChat" }]
  wires := [.link "start" "exec" "minutes" "exec", .link "talk" "response" "minutes" "item"]

def minutesBoard : Board := minutesApp.board

theorem minutesBoard_built : Board.ofApp {} minutesApp = .ok minutesBoard := rfl

/-- The app is started; while the chat has not replied it is stopped; then the chat replies. -/
def minutesRun : Run minutesBoard .shelf :=
  .ofWishes _ _ [] fun
    | 0 => some (.enter none false [] .start)
    | 15 => some .stop
    | 22 => some (.release (fun _ => true) fun
      | .chat _ => some (.ok (.str "adjourned"))
      | _ => none)
    | _ => none

/-- The chain waits for the chat when the app is stopped.  Nine moves later it writes the reply into
the list, which is what it can still do. -/
theorem Run.late_writes_minutesRun :
    (minutesRun.state 17).act? = some .markStopped ∧
      ∃ s t, (minutesRun.state 17).Waits s ∧ s.stack ≠ [] ∧
        (minutesRun.state 26).running? = some t ∧ t.id = s.id ∧
        t.context.epoch = s.context.epoch ∧
        (minutesRun.state 27).bindings = (minutesRun.state 26).bindings ∧
        (minutesRun.state 27).scratch ≠ (minutesRun.state 26).scratch ∧
        ∃ n kind v, minutesBoard.Holds n kind ∧ kind.collects = true ∧
          t.act? = some (.remember n.id (.result v)) := by
  have stops : (minutesRun.state 17).act? = some .markStopped := by decide +kernel
  have suspended : (minutesRun.state 17).calls.map
      (fun c => (c.strand.id, c.strand.context.epoch, c.strand.stack.length)) = [(0, 0, 4)] := by
    decide +kernel
  have resumed : (minutesRun.state 26).running?.map (fun t => (t.id, t.context.epoch))
      = some (0, 0) := by decide +kernel
  have written : (minutesRun.state 27).scratch ≠ (minutesRun.state 26).scratch := by
    decide +kernel
  obtain ⟨c, calls, same⟩ := List.map_eq_singleton_iff.mp suspended
  obtain ⟨t, running, same'⟩ := Option.map_eq_some_iff.mp resumed
  have waits : (minutesRun.state 17).Waits { c.strand with code := c.next (.error .timedOut) } :=
    .inr ⟨c, by rw [calls]; exact List.mem_singleton.mpr rfl, _, rfl⟩
  simp only [Prod.mk.injEq] at same same'
  have begun : c.strand.stack ≠ [] := by
    intro none
    rw [none] at same
    exact absurd same.2.2 (by decide)
  have number : t.id = c.strand.id := same'.1.trans same.1.symm
  have chain : t.context.epoch = c.strand.context.epoch := same'.2.trans same.2.1.symm
  obtain ⟨bindings, kept | ⟨n, kind, v, holds, collects, acts, -⟩, -⟩ :=
    late_writes minutesBoard_built minutesRun Surroundings.shelf_stores stops waits begun
      (by decide) running number chain
  · exact absurd kept written
  · exact ⟨stops, _, t, waits, begun, running, number, chain, bindings, written, n, kind, v, holds,
      collects, acts⟩

end Wireboard
