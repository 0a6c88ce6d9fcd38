import Mathlib.Data.List.Forall2
import Wireboard.Proofs.Engine.JobBodies
import Wireboard.Proofs.Engine.Run

/-!
# Strands that follow an etiquette

The bodies of jobs follow an etiquette as trees, before anybody plays them.  Here the trees are
played.  A strand is in the middle of a job, which another job has called, and so on down its stack;
so where it stands (`Etiquette.Bearing`) is the mode of the job on top, and below it, for each job
that goes on afterwards, the mode in which it has called and what it has called.

A step leads from one bearing to the next in one of four ways (`Etiquette.Bearing.Leads`), as the
script says: it returns, does an act, is answered or calls.  A rule about bearings holds along a run
if these four ways keep it.  That it is enough to look at the ways, and at those who come in, is
said once, for whatever is to be carried along (`Run.Carries.holds`).
-/

namespace Wireboard

variable {σ : Type} {b : Board} {env : Surroundings σ} {m : Machine σ} {s t : Strand}

/-! ## Where a strand stands -/

namespace Etiquette

variable {E : Etiquette}

/-- Where a strand stands: the mode of the job on top, and of each job below the mode in which it
has called and what it has called. -/
structure Bearing (E : Etiquette) where
  mode : E.Mode
  under : List (E.Mode × Job) := []

/-- The job goes on in the right way once what it has called returns. -/
def TakesUp (E : Etiquette) (p : E.Mode × Job)
    (next : Continuation) : Prop :=
  E.calls p.1 p.2 ∧ ∀ x, (next x).Follows E (fun ν _ => E.ends ν) (E.returned p.1 p.2 x)

/-- Whatever may be called follows the etiquette itself. -/
def Governs (E : Etiquette) (b : Board) : Prop :=
  ∀ μ j, E.calls μ j → E.From (E.entered μ j) (b.body j) fun ν _ => E.ends ν

theorem Suits.governs {limit : Nat} (suits : E.Suits b limit) : E.Governs b :=
  fun _ _ => suits.body_follows

/-- The bearing after a step of a strand. -/
inductive Bearing.Leads (b : Board) (env : Surroundings σ) (m : Machine σ) (s : Strand)
    (β : E.Bearing) : E.Bearing → Prop where
  | returns {x : Except Fault Value} {p : E.Mode × Job} {under : List (E.Mode × Job)} :
      s.code = .ret x → E.ends β.mode → β.under = p :: under → E.calls p.1 p.2 →
      Leads b env m s β ⟨E.returned p.1 p.2 x, under⟩
  | acts {a : Act} {next : a.Reply → Code} :
      s.code = .act a next → E.allows β.mode a →
      Leads b env m s β ⟨E.after β.mode a (Machine.perform b env m s.context a).1, β.under⟩
  | answered {r : Request} {next : Except Fault r.Reply → Code} :
      s.code = .wait r next → E.asks β.mode r → Leads b env m s β ⟨E.answered β.mode, β.under⟩
  | calls {j : Job} {next : Continuation} :
      s.code = .call j next → E.calls β.mode j →
      Leads b env m s β ⟨E.entered β.mode j, (β.mode, j) :: β.under⟩

end Etiquette

/-- The strand follows the etiquette from where it stands. -/
structure Strand.Follows (E : Etiquette) (β : E.Bearing) (s : Strand) : Prop where
  code : s.code.Follows E (fun ν _ => E.ends ν) β.mode
  stack : List.Forall₂ E.TakesUp β.under s.stack

namespace Strand.Follows

variable {E : Etiquette} {β : E.Bearing}

/-- Whoever comes in follows the etiquette, if the job may be called. -/
theorem of_admits {j : Job} {frames : List Frame} {μ : E.Mode} (new : m.Admits j frames t)
    (called : E.calls μ j) (ends : ∀ x, E.ends (E.returned μ j x)) : t.Follows E ⟨μ, []⟩ where
  code := by
    rw [new.code]
    exact ⟨called, ends⟩
  stack := by
    rw [new.stack]
    exact .nil

/-- An act is one that the etiquette allows. -/
theorem allows (follows : s.Follows E β) {a : Act} (acts : s.act? = some a) :
    E.allows β.mode a := by
  have lead := follows.code
  obtain ⟨next, code⟩ := Strand.code_of_act? acts
  rw [code] at lead
  exact lead.1

/-- A call is one that the etiquette allows. -/
theorem calls (follows : s.Follows E β) {j : Job} (calls : s.job? = some j) :
    E.calls β.mode j := by
  have lead := follows.code
  obtain ⟨next, code⟩ := Strand.code_of_job? calls
  rw [code] at lead
  exact lead.1

/-- A request is one that the etiquette allows. -/
theorem asks (follows : s.Follows E β) {r : Request}
    {next : Except Fault r.Reply → Code} (code : s.code = .wait r next) :
    E.asks β.mode r := by
  have lead := follows.code
  rw [code] at lead
  exact lead.1

/-- One step follows the etiquette, if the reply of its act is one that the etiquette reckons with.
-/
theorem of_advances (governs : E.Governs b) (follows : s.Follows E β)
    (step : Machine.Advances b env m s t)
    (expected : ∀ a next, s.code = .act a next →
      E.expects a (Machine.perform b env m s.context a).1) :
    ∃ β', β.Leads b env m s β' ∧ t.Follows E β' := by
  have lead := follows.code
  have below := follows.stack
  cases step with
  | @returns x next stack code stacked =>
    rw [stacked] at below
    rw [code] at lead
    obtain ⟨p, under, takes, rest, eq⟩ := List.forall₂_cons_right_iff.mp below
    exact ⟨_, .returns code lead eq takes.1, takes.2 x, rest⟩
  | @acts a next code =>
    rw [code] at lead
    exact ⟨_, .acts code lead.1, lead.2.2 _ (expected a next code), below⟩
  | @answered r next reply code =>
    rw [code] at lead
    exact ⟨_, .answered code lead.1, lead.2 reply, below⟩
  | @calls j next code =>
    rw [code] at lead
    exact ⟨_, .calls code lead.1, governs _ j lead.1, .cons ⟨lead.1, lead.2⟩ below⟩

/-- A strand that has made a request goes on from where the answer leads. -/
theorem of_asks (b : Board) (env : Surroundings σ) (m : Machine σ) (follows : s.Follows E β)
    (asks : Machine.Asks s t) :
    β.Leads b env m s ⟨E.answered β.mode, β.under⟩ ∧ t.Follows E ⟨E.answered β.mode, β.under⟩ := by
  obtain ⟨r, next, reply, code, rfl⟩ := asks
  have lead := follows.code
  rw [code] at lead
  exact ⟨.answered code lead.1, lead.2 reply, follows.stack⟩

end Strand.Follows

/-! ## Along a run -/

namespace Run

variable (run : Run b env)

/-- From a time on, every move carries this along: `T` of the machine, `W` of each strand that
waits, and `R` of the one that runs. -/
structure Carries (first : Nat) (T : Nat → Prop) (W R : Nat → Strand → Prop) : Prop where
  rests : ∀ {k s}, first ≤ k → W k s → (run.state (k + 1)).Waits s → W (k + 1) s
  resumes : ∀ {k s}, first ≤ k → (run.state k).running? = none → W k s →
    (run.state (k + 1)).running? = some s → R (k + 1) s
  advances : ∀ {k s t}, first ≤ k → T k → (run.state k).running? = some s → R k s →
    Machine.Advances b env (run.state k) s t → (run.state (k + 1)).running? = some t → R (k + 1) t
  asks : ∀ {k s t}, first ≤ k → (run.state k).running? = some s → R k s → Machine.Asks s t →
    (run.state (k + 1)).Waits t → W (k + 1) t
  enters : ∀ {k j frames t}, first ≤ k → T k → (run.state k).Summons (run.impulse? k) j frames →
    (run.state k).Admits j frames t →
    ((run.state (k + 1)).Waits t → W (k + 1) t) ∧
      ((run.state (k + 1)).running? = some t → R (k + 1) t)
  goes : ∀ {k}, first ≤ k → T k → (∀ s, (run.state k).running? = some s → R k s) → T (k + 1)

variable {run}

/-- What every move carries along holds from then on. -/
theorem Carries.holds {first : Nat} {T : Nat → Prop} {W R : Nat → Strand → Prop}
    (carries : run.Carries first T W R) (machine : T first)
    (waiting : ∀ s, (run.state first).Waits s → W first s)
    (running : ∀ s, (run.state first).running? = some s → R first s) {k : Nat} (le : first ≤ k) :
    T k ∧ (∀ s, (run.state k).Waits s → W k s) ∧ ∀ s, (run.state k).running? = some s → R k s := by
  induction le with
  | refl => exact ⟨machine, waiting, running⟩
  | @step k le ih =>
    obtain ⟨machine, waiting, running⟩ := ih
    refine ⟨carries.goes le machine running, fun t waits => ?_, fun t ran => ?_⟩
    · rcases (run.move k).waits_cases waits with old | ⟨s, ran, asks⟩ | ⟨j, _, summons, new⟩
      · exact carries.rests le (waiting t old) waits
      · exact carries.asks le ran (running s ran) asks waits
      · exact (carries.enters le machine summons new).1 waits
    · rcases (run.move k).running_cases ran with
        ⟨idle, old⟩ | ⟨s, ran', step⟩ | ⟨j, _, summons, new⟩
      · exact carries.resumes le idle (waiting t old) ran
      · exact carries.advances le machine ran' (running s ran') step ran
      · exact (carries.enters le machine summons new).2 ran

/-- At first there are no strands. -/
theorem not_waits_zero (run : Run b env) (s : Strand) : ¬ (run.state 0).Waits s := by
  obtain ⟨outside, eq⟩ := run.fresh
  rw [eq]
  rintro (⟨_, none, -⟩ | ⟨_, none, -⟩) <;> cases none

@[simp] theorem running?_zero (run : Run b env) : (run.state 0).running? = none := by
  obtain ⟨outside, eq⟩ := run.fresh
  rw [eq]

/-- What every move carries along holds at all times, if it holds of the machine at first. -/
theorem Carries.always {T : Nat → Prop} {W R : Nat → Strand → Prop}
    (carries : run.Carries 0 T W R) (machine : T 0) (k : Nat) :
    T k ∧ (∀ s, (run.state k).Waits s → W k s) ∧ ∀ s, (run.state k).running? = some s → R k s :=
  carries.holds machine (fun s waits => absurd waits (run.not_waits_zero s))
    (fun s running => by rw [run.running?_zero] at running; cases running) (Nat.zero_le k)

/-- The strand that runs follows an etiquette that governs the bodies, if the etiquette reckons with
every reply and everybody may come in. -/
theorem exists_follows {E : Etiquette} (governs : E.Governs b) (μ : E.Mode)
    (expected : ∀ a r, E.expects a r) (called : ∀ j, E.calls μ j)
    (ends : ∀ j x, E.ends (E.returned μ j x)) {k : Nat}
    (running : (run.state k).running? = some s) : ∃ β, s.Follows E β := by
  let P : Nat → Strand → Prop := fun _ s => ∃ β, s.Follows E β
  have carries : run.Carries 0 (fun _ => True) P P := {
    rests := fun _ held _ => held
    resumes := fun _ _ held _ => held
    advances := fun _ _ _ ⟨_, follows⟩ step _ => by
      obtain ⟨β', -, follows'⟩ := follows.of_advances governs step fun _ _ _ => expected _ _
      exact ⟨β', follows'⟩
    asks := fun {k _ _} _ _ ⟨_, follows⟩ asks _ =>
      ⟨_, (follows.of_asks b env (run.state k) asks).2⟩
    enters := fun {_ j _ _} _ _ _ new => by
      have follows := Strand.Follows.of_admits new (called j) (ends j)
      exact ⟨fun _ => ⟨_, follows⟩, fun _ => ⟨_, follows⟩⟩
    goes := fun _ _ _ => trivial }
  obtain ⟨-, -, known⟩ := carries.always trivial k
  exact known s running

end Run

end Wireboard
