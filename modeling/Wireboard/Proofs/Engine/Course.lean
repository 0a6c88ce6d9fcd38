import Mathlib.Data.Nat.Find
import Wireboard.Proofs.Engine.StrandEtiquette
import Wireboard.Proofs.Engine.JobCalls
import Wireboard.Proofs.Engine.Numbers
import Wireboard.Proofs.Engine.Insights

/-!
# Jobs under way

A job that is called is under way until its strand comes back to where it was.  Meanwhile the strand
may wait, others may run, and it may call further jobs, each on top of the other.

The statements here join the terms of single scripts to what happens in a course:

* `Course.inside`: as long as a job is under way, its strand is on a trail of calls, each made
  according to the terms of the one below;
* `Course.Returns.yields`: a job that returns does so as its terms say;
* `Course.returns_of_ends`: a job returns if there is no endless trail of calls, provided that
  requests are answered and listeners come to an end.
-/

namespace Wireboard

variable {σ : Type} {b : Board} {env : Surroundings σ} {m : Machine σ}

/-! ## Trails -/

/-- A job was called in a context, on top of a stack; what is on top of the strand now was called
from there, by calls that keep to the terms, and all that waits will go on in keeping with them. -/
inductive Board.Trail (b : Board) (env : Surroundings σ) (c : Context) (j : Job)
    (under : List Continuation) : Context → Job → List Continuation → Prop where
  | begun : Trail b env c j under c j under
  | inner {d e : Context} {i k : Job} {stack : List Continuation} {next : Continuation} :
      Trail b env c j under d i stack → b.Stands d i e → b.Sends env i d e k →
      (∀ f x, b.Yields e k f x → (next x).Honours (b.terms env i d) (b.Yields d i) f) →
      Trail b env c j under e k (next :: stack)

theorem Board.Trail.length_le {c d : Context} {j i : Job} {under stack : List Continuation}
    (trail : b.Trail env c j under d i stack) : under.length ≤ stack.length := by
  induction trail with
  | begun => exact Nat.le_refl _
  | inner _ _ _ _ ih => exact Nat.le_succ_of_le ih

variable {s t u : Strand} {j : Job} {next : Continuation} {p q l k : Nat}

namespace Strand

/-- What the strand is about to return. -/
def result? (s : Strand) : Option (Except Fault Value) :=
  match s.code with
  | .ret x => some x
  | .act _ _ | .wait _ _ | .call _ _ => none

theorem code_of_result? {x : Except Fault Value} (h : s.result? = some x) : s.code = .ret x := by
  unfold result? at h
  split at h
  next x' code =>
    cases h
    exact code
  all_goals cases h

/-- It is the same strand, at different times. -/
structure Akin (s t : Strand) : Prop where
  id : t.id = s.id
  label : t.label? = s.label?
  tracked : t.tracked = s.tracked

theorem Akin.eq (h : Akin s t) :
    t = { s with context := t.context, code := t.code, stack := t.stack } := by
  obtain ⟨id, label, tracked⟩ := h
  rw [← id, ← label, ← tracked]

/-- The second strand is what has become of the first one inside of the job that it has called. -/
structure Inside (b : Board) (env : Surroundings σ) (s : Strand) (j : Job) (next : Continuation)
    (t : Strand) : Prop where
  akin : Akin s t
  trail : ∃ d i, b.Trail env s.context j (next :: s.stack) d i t.stack ∧
    t.code.Honours (b.terms env i d) (b.Yields d i) t.context

/-- The second strand is what has become of the first one when the job has returned. -/
def Back (b : Board) (s : Strand) (j : Job) (next : Continuation) (t : Strand) : Prop :=
  ∃ x, b.Yields s.context j t.context x ∧ t = { s with context := t.context, code := next x }

theorem Inside.stack_lt (h : Inside b env s j next t) : s.stack.length < t.stack.length := by
  obtain ⟨d, i, trail, -⟩ := h.trail
  exact trail.length_le

theorem Back.stack_eq (h : Back b s j next t) : t.stack = s.stack := by
  obtain ⟨x, -, eq⟩ := h
  rw [eq]

/-- The body of the job stands on top of the strand that has called it. -/
theorem inside_call (b : Board) (env : Surroundings σ) (s : Strand) (j : Job)
    (next : Continuation) :
    Inside b env s j next { s with code := (b.body j).run, stack := next :: s.stack } :=
  ⟨⟨rfl, rfl, rfl⟩, s.context, j, .begun, b.body_honours env j s.context⟩

/-- By one step the strand stays inside of the job, or is back. -/
theorem Inside.advances (h : Inside b env s j next t) (step : Machine.Advances b env m t u) :
    Inside b env s j next u ∨ Back b s j next u := by
  obtain ⟨⟨id, label, tracked⟩, d, i, trail, honours⟩ := h
  cases step with
  | @returns r _ stack code stacked =>
    rw [code] at honours
    rw [stacked] at trail
    cases trail with
    | begun =>
      refine .inr ⟨r, honours.2, ?_⟩
      rw [← id, ← label, ← tracked]
    | inner below _ _ goesOn =>
      exact .inl ⟨⟨id, label, tracked⟩, _, _, below, goesOn _ _ honours.2⟩
  | acts code =>
    rw [code] at honours
    exact .inl ⟨⟨id, label, tracked⟩, d, i, trail, honours.2.2 m⟩
  | answered code =>
    rw [code] at honours
    exact .inl ⟨⟨id, label, tracked⟩, d, i, trail, honours.2 _⟩
  | @calls k goesOn code =>
    rw [code] at honours
    exact .inl ⟨⟨id, label, tracked⟩, t.context, k, .inner trail honours.1 honours.2.1 honours.2.2,
      b.body_honours env k t.context⟩

/-- A strand that makes a request inside of the job stays there. -/
theorem Inside.asks (h : Inside b env s j next t) (asks : Machine.Asks t u) :
    Inside b env s j next u := by
  obtain ⟨⟨id, label, tracked⟩, d, i, trail, honours⟩ := h
  obtain ⟨r, goesOn, reply, code, rfl⟩ := asks
  rw [code] at honours
  exact ⟨⟨id, label, tracked⟩, d, i, trail, honours.2 reply⟩

/-! ### Strands that come in -/

variable {P : Context → Prop}

/-- The strand has come in with a job, in a context of some sort, and is still there, or at work, or
done. -/
def Serves (b : Board) (env : Surroundings σ) (P : Context → Prop) (t : Strand) : Prop :=
  ∃ s j, P s.context ∧ s.code = Machine.jobCode j ∧ s.stack = [] ∧
    (t = s ∨ Inside b env s j .ret t ∨ Back b s j .ret t)

theorem Serves.advances (serves : Serves b env P t) (step : Machine.Advances b env m t u) :
    Serves b env P u := by
  obtain ⟨s, j, begun, code, stack, rfl | inside | ⟨x, -, eq⟩⟩ := serves
  · refine ⟨t, j, begun, code, stack, .inr (.inl ?_)⟩
    cases step with
    | calls code' =>
      cases code.symm.trans code'
      exact inside_call b env t j .ret
    | returns code' _ | acts code' | answered code' => cases code.symm.trans code'
  · exact ⟨s, j, begun, code, stack, .inr (inside.advances step)⟩
  · -- a strand that is done has nothing left to return to
    have done : t.code = .ret x := by rw [eq]
    have last : t.stack = [] := by rw [eq]; exact stack
    cases step with
    | returns _ stacked => cases last.symm.trans stacked
    | acts code' | answered code' | calls code' => cases done.symm.trans code'

theorem Serves.asks (serves : Serves b env P t) (asks : Machine.Asks t u) : Serves b env P u := by
  obtain ⟨s, j, begun, code, stack, rfl | inside | ⟨x, -, eq⟩⟩ := serves
  · obtain ⟨_, _, _, code', -⟩ := asks
    cases code.symm.trans code'
  · exact ⟨s, j, begun, code, stack, .inr (.inl (inside.asks asks))⟩
  · obtain ⟨_, _, _, code', -⟩ := asks
    rw [eq] at code'
    cases code'

/-- Whatever is done is done by the terms of some job. -/
theorem Serves.exists_does (serves : Serves b env P t) {a : Act} (acts : t.act? = some a) :
    ∃ i, b.Does i a := by
  obtain ⟨goesOn, code⟩ := code_of_act? acts
  obtain ⟨s, j, -, code', -, rfl | inside | ⟨x, -, eq⟩⟩ := serves
  · cases code.symm.trans code'
  · obtain ⟨d, i, -, honours⟩ := inside.trail
    rw [code] at honours
    exact ⟨i, honours.2.1⟩
  · rw [eq] at code
    cases code

end Strand

/-- Whoever runs or waits has come in with a job. -/
theorem Run.serves {run : Run b env} {P : Context → Prop} {s : Strand} {k : Nat}
    (entering : ∀ {k j frames t}, (run.state k).Summons (run.impulse? k) j frames →
      (run.state k).Admits j frames t → P t.context)
    (there : (run.state k).running? = some s ∨ (run.state k).Waits s) : s.Serves b env P := by
  have carries : run.Carries 0 (fun _ => True) (fun _ => Strand.Serves b env P)
      fun _ => Strand.Serves b env P := {
    rests := fun _ serves _ => serves
    resumes := fun _ _ serves _ => serves
    advances := fun _ _ _ serves step _ => serves.advances step
    asks := fun _ _ serves asks _ => serves.asks asks
    enters := fun {k j frames t} _ _ summons new => by
      have serves : t.Serves b env P :=
        ⟨t, j, entering summons new, new.code, new.stack, .inl rfl⟩
      exact ⟨fun _ => serves, fun _ => serves⟩
    goes := fun _ _ _ => trivial }
  obtain ⟨-, waiting, running⟩ := carries.always trivial k
  exact there.elim (running s) (waiting s)

/-! ## Jobs under way -/

namespace Course

variable (course : Course b env)

/-- The strand with a number is running. -/
def Runs (i k : Nat) (t : Strand) : Prop := (course.state k).running? = some t ∧ t.id = i

/-- The running strand calls a job, and has in mind how to go on. -/
structure Calls (p : Nat) (s : Strand) (j : Job) (next : Continuation) : Prop where
  running : (course.state p).running? = some s
  code : s.code = .call j next

/-- Between the two times the strand is never back from what it has called at the first one. -/
def Within (s : Strand) (p q : Nat) : Prop :=
  ∀ l t, p < l → l < q → course.Runs s.id l t → s.stack.length < t.stack.length

/-- The strand runs, and is busy with what it has called at another time. -/
structure Busy (s : Strand) (p l : Nat) (t : Strand) : Prop where
  after : p < l
  within : course.Within s p l
  runs : course.Runs s.id l t
  above : s.stack.length < t.stack.length

/-- What the strand has called at one time returns at another one, with the chain in this state and
with this result. -/
def Returns (s : Strand) (p q : Nat) (d : Context) (x : Except Fault Value) : Prop :=
  ∃ t, course.Busy s p q t ∧ t.stack.length = s.stack.length + 1 ∧ t.context = d ∧ t.code = .ret x

/-- From one time to another the strand finds out what enters an input pin: nothing if no wire does,
or else what the pull returns that it calls. -/
inductive Finds (node pin : String) (k : Nat) : Value → Nat → Prop where
  | unwired : b.source? node pin = none → Finds node pin k .null k
  | wired {ref : PinRef} {t : Strand} {goesOn : Continuation} {q : Nat} {d : Context} {v : Value} :
      b.source? node pin = some ref → course.Calls k t (.pull ref.node ref.pin) goesOn →
      course.Returns t k q d (.ok v) → Finds node pin k v (q + 1)

/-- While the job is under way that the strand has called, every request of the strand is answered,
and every listener that stops the app meanwhile comes to an end. -/
structure Served (s : Strand) (p : Nat) : Prop where
  answers : ∀ {l t r next}, course.Busy s p l t → t.code = .wait r next →
    ∃ k u, l < k ∧ course.Runs s.id k u
  listeners : ∀ {l t next}, course.Busy s p l t → t.code = .call .stop next →
    ∃ k u, l < k ∧ course.Runs s.id k u ∧ u.stack.length ≤ t.stack.length

variable {course}

/-- A strand that has run is none that comes in later. -/
theorem Runs.lt_nextId {i : Nat} (runs : course.Runs i p s) (le : p ≤ q) :
    i < (course.state q).nextId := by
  have lt : s.id < (course.state p).nextId := (course.numbered p).lt_nextId (.inl runs.1)
  rw [runs.2] at lt
  exact Nat.lt_of_lt_of_le lt (course.nextId_mono le)

theorem Runs.eq {i : Nat} (h : course.Runs i k s) (h' : course.Runs i k t) : s = t :=
  Option.some.inj (h.1.symm.trans h'.1)

/-- A strand does one thing at a time. -/
theorem Runs.only {i : Nat} {a a' : Act} (runs : course.Runs i k s) (acts : s.act? = some a)
    (runs' : course.Runs i k t) (acts' : t.act? = some a') : a' = a := by
  cases runs.eq runs'
  exact Option.some.inj (acts'.symm.trans acts)

/-! ### One move of a strand -/

/-- How a strand that has run before comes to run. -/
theorem Runs.of_succ {i : Nat} (old : course.Runs i p s) (le : p ≤ k)
    (runs : course.Runs i (k + 1) u) :
    ((course.state k).running? = none ∧ (course.state k).Waits u) ∨
      ∃ t, course.Runs i k t ∧ Machine.Advances b env (course.state k) t u := by
  rcases (course.move k).running_cases runs.1 with waited | ⟨t, running, step⟩ | ⟨_, _, _, new⟩
  · exact .inl waited
  · exact .inr ⟨t, ⟨running, step.id_eq.symm.trans runs.2⟩, step⟩
  · have lt : i < (course.state k).nextId := old.lt_nextId le
    have eq : i = (course.state k).nextId := runs.2.symm.trans new.id
    omega

/-- How a strand that has run before comes to wait. -/
theorem Runs.waits_of_succ (old : course.Runs u.id p s) (le : p ≤ k)
    (waits : (course.state (k + 1)).Waits u) :
    (course.state k).Waits u ∨ ∃ t, course.Runs u.id k t ∧ Machine.Asks t u := by
  rcases (course.move k).waits_cases waits with waited | ⟨t, running, asks⟩ | ⟨_, _, _, new⟩
  · exact .inl waited
  · obtain ⟨r, goesOn, reply, code, rfl⟩ := asks
    exact .inr ⟨t, ⟨running, rfl⟩, r, goesOn, reply, code, rfl⟩
  · have lt : u.id < (course.state k).nextId := old.lt_nextId le
    have eq : u.id = (course.state k).nextId := new.id
    omega

theorem running_after_return {x : Except Fault Value} {stack : List Continuation}
    (running : (course.state k).running? = some t) (code : t.code = .ret x)
    (stacked : t.stack = next :: stack) :
    (course.state (k + 1)).running? = some { t with code := next x, stack } := by
  rw [(course.move k).eq_stepStrand running, Machine.stepStrand, code, stacked]

theorem Calls.running_after (calls : course.Calls p s j next) :
    (course.state (p + 1)).running? =
      some { s with code := (b.body j).run, stack := next :: s.stack } := by
  rw [(course.move p).eq_stepStrand calls.running, Machine.stepStrand, calls.code]

/-! ### While a job is under way -/

theorem Within.mono (within : course.Within s p q) (le : k ≤ q) : course.Within s p k :=
  fun l t after before runs => within l t after (Nat.lt_of_lt_of_le before le) runs

theorem Busy.within_succ (busy : course.Busy s p l t) : course.Within s p (l + 1) := by
  intro k u after before runs
  rcases Nat.lt_succ_iff_lt_or_eq.mp before with earlier | rfl
  · exact busy.within k u after earlier runs
  · rw [← busy.runs.eq runs]
    exact busy.above

/-- A strand that is busy with something inside of a job is busy with the job. -/
theorem Busy.within_of (busy : course.Busy s p l t) (within : course.Within t l k) :
    course.Within s p k := by
  intro i u after before runs
  by_cases early : i ≤ l
  · exact busy.within_succ i u after (Nat.lt_succ_of_le early) runs
  · have above : t.stack.length < u.stack.length := by
      refine within i u (Nat.lt_of_not_le early) before ?_
      rwa [busy.runs.2]
    exact Nat.lt_trans busy.above above

theorem Busy.trans (busy : course.Busy s p l t) (deeper : course.Busy t l k u) :
    course.Busy s p k u where
  after := Nat.lt_trans busy.after deeper.after
  within := busy.within_of deeper.within
  runs := by rw [← busy.runs.2]; exact deeper.runs
  above := Nat.lt_trans busy.above deeper.above

theorem Served.inner (served : course.Served s p) (busy : course.Busy s p l t) :
    course.Served t l where
  answers deeper code := by
    rw [busy.runs.2]
    exact served.answers (busy.trans deeper) code
  listeners deeper code := by
    rw [busy.runs.2]
    exact served.listeners (busy.trans deeper) code

section Inside

variable (calls : course.Calls p s j next)
include calls

/-- What holds of a strand when the body of a job is on top of it, and is kept by every step that
does not lead back, holds as long as the strand is not back, running or waiting.  When it is back
for the first time, there is something to be said of it as well. -/
theorem carried {I B : Strand → Prop}
    (begun : I { s with code := (b.body j).run, stack := next :: s.stack })
    (advances : ∀ {k t u}, I t → Machine.Advances b env (course.state k) t u → I u ∨ B u)
    (asks : ∀ {t u}, I t → Machine.Asks t u → I u) (back : ∀ {u}, B u → u.stack = s.stack)
    (after : p < q) (within : course.Within s p q) :
    (∀ u, course.Runs s.id q u → I u ∨ B u) ∧
      ∀ u, (course.state q).Waits u → u.id = s.id → I u := by
  have old : course.Runs s.id p s := ⟨calls.running, rfl⟩
  induction q with
  | zero => cases after
  | succ k ih =>
    rcases Nat.lt_succ_iff_lt_or_eq.mp after with later | rfl
    -- whoever has the number of the strand was there one move ago, and was inside of the job
    · obtain ⟨runs_k, waits_k⟩ := ih later (within.mono (Nat.le_succ k))
      have running_k (t : Strand) (runs : course.Runs s.id k t) : I t := by
        refine (runs_k t runs).resolve_right fun returned => ?_
        have above := within k t later (Nat.lt_succ_self k) runs
        rw [back returned] at above
        exact Nat.lt_irrefl _ above
      constructor
      · intro u runs
        rcases old.of_succ (Nat.le_of_lt later) runs with ⟨-, waited⟩ | ⟨t, runs', step⟩
        · exact .inl (waits_k u waited runs.2)
        · exact advances (running_k t runs') step
      · intro u waits same
        rw [← same] at old
        rcases old.waits_of_succ (Nat.le_of_lt later) waits with waited | ⟨t, runs', asked⟩
        · exact waits_k u waited same
        · rw [same] at runs'
          exact asks (running_k t runs') asked
    -- right after the call the body of the job is on top, and the strand does not wait as well
    · constructor
      · intro u runs
        cases Option.some.inj (calls.running_after.symm.trans runs.1)
        exact .inl begun
      · intro u waits same
        rw [← same] at old
        rcases old.waits_of_succ (Nat.le_refl p) waits with waited | ⟨t, runs', asks⟩
        · exact absurd same.symm ((course.numbered p).ne_of_waits calls.running waited)
        · cases old.eq runs'
          obtain ⟨r, goesOn, reply, code, -⟩ := asks
          cases calls.code.symm.trans code

/-- As long as the strand is not back, it is inside of the job, running or waiting.  When it is back
for the first time, the job has returned as it should. -/
theorem inside (after : p < q) (within : course.Within s p q) :
    (∀ u, course.Runs s.id q u → Strand.Inside b env s j next u ∨ Strand.Back b s j next u) ∧
      ∀ u, (course.state q).Waits u → u.id = s.id → Strand.Inside b env s j next u :=
  carried calls (Strand.inside_call b env s j next) Strand.Inside.advances Strand.Inside.asks
    Strand.Back.stack_eq after within

theorem Busy.inside (busy : course.Busy s p l t) : Strand.Inside b env s j next t := by
  refine ((Course.inside calls busy.after busy.within).1 t busy.runs).resolve_right fun back => ?_
  have above := busy.above
  rw [back.stack_eq] at above
  exact Nat.lt_irrefl _ above

/-- Whoever is busy with the job itself, and not with what it has called, keeps to its terms. -/
theorem Busy.honours (busy : course.Busy s p l t)
    (height : t.stack.length = s.stack.length + 1) : t.stack = next :: s.stack ∧
      t.code.Honours (b.terms env j s.context) (b.Yields s.context j) t.context := by
  obtain ⟨d, i, trail, honours⟩ := (busy.inside calls).trail
  generalize stacked : t.stack = stack at trail
  cases trail with
  | begun => exact ⟨rfl, honours⟩
  | inner below _ _ _ =>
    have le := below.length_le
    rw [stacked] at height
    simp only [List.length_cons] at height le
    omega

/-- A job that returns does so as it should, and the strand goes on where it was. -/
theorem Returns.yields {d : Context} {x : Except Fault Value} (returns : course.Returns s p q d x) :
    b.Yields s.context j d x ∧
      (course.state (q + 1)).running? = some { s with context := d, code := next x } := by
  obtain ⟨t, busy, height, rfl, code⟩ := returns
  obtain ⟨stacked, honours⟩ := busy.honours calls height
  rw [code] at honours
  refine ⟨honours.2, ?_⟩
  rw [running_after_return busy.runs.1 code stacked, (busy.inside calls).akin.eq]

end Inside

/-! ### Waiting -/

/-- A strand that has made a request does nothing until it runs again, with an answer. -/
theorem asked (runs : course.Runs s.id l s) {r : Request}
    {goesOn : Except Fault r.Reply → Code} (code : s.code = .wait r goesOn)
    (after : l < k) (still : ∀ i t, l < i → i < k → ¬ course.Runs s.id i t) :
    (∀ u, course.Runs s.id k u → ∃ reply, u = { s with code := goesOn reply }) ∧
      ∀ u, (course.state k).Waits u → u.id = s.id →
        ∃ reply, u = { s with code := goesOn reply } := by
  have answered (u : Strand) (asks : Machine.Asks s u) :
      ∃ reply, u = { s with code := goesOn reply } := by
    obtain ⟨r', goesOn', reply, code', rfl⟩ := asks
    cases code.symm.trans code'
    exact ⟨reply, rfl⟩
  induction k with
  | zero => cases after
  | succ k ih =>
    rcases Nat.lt_succ_iff_lt_or_eq.mp after with later | rfl
    · obtain ⟨-, waits_k⟩ := ih later fun i t early before =>
        still i t early (Nat.lt_succ_of_lt before)
      have idle (t : Strand) : ¬ course.Runs s.id k t := still k t later (Nat.lt_succ_self k)
      constructor
      · intro u runs'
        rcases runs.of_succ (Nat.le_of_lt later) runs' with ⟨-, waited⟩ | ⟨t, running, -⟩
        · exact waits_k u waited runs'.2
        · exact absurd running (idle t)
      · intro u waits same
        rw [← same] at runs
        rcases runs.waits_of_succ (Nat.le_of_lt later) waits with waited | ⟨t, running, -⟩
        · exact waits_k u waited same
        · rw [same] at running
          exact absurd running (idle t)
    · constructor
      · intro u runs'
        rcases runs.of_succ (Nat.le_refl l) runs' with ⟨idle, -⟩ | ⟨t, running, step⟩
        · cases runs.1.symm.trans idle
        · cases runs.eq running
          cases step with
          | answered code' =>
            cases code.symm.trans code'
            exact ⟨_, rfl⟩
          | returns code' _ | acts code' | calls code' => cases code.symm.trans code'
      · intro u waits same
        have runs' : course.Runs u.id l s := by rw [same]; exact runs
        rcases runs'.waits_of_succ (Nat.le_refl l) waits with waited | ⟨t, running, asks⟩
        · exact absurd same.symm ((course.numbered l).ne_of_waits runs.1 waited)
        · cases runs'.eq running
          exact answered u asks

/-- A strand whose request is answered runs again, and has done nothing meanwhile. -/
theorem exists_answer (runs : course.Runs s.id l s) {r : Request}
    {goesOn : Except Fault r.Reply → Code} (code : s.code = .wait r goesOn)
    (again : ∃ k u, l < k ∧ course.Runs s.id k u) :
    ∃ k reply, l < k ∧ (∀ i t, l < i → i < k → ¬ course.Runs s.id i t) ∧
      (course.state k).running? = some { s with code := goesOn reply } := by
  classical
  have again' : ∃ k, l < k ∧ ∃ u, course.Runs s.id k u := by
    obtain ⟨k, u, after, runs'⟩ := again
    exact ⟨k, after, u, runs'⟩
  obtain ⟨after, u, runs'⟩ := Nat.find_spec again'
  have still (i : Nat) (t : Strand) (early : l < i) (before : i < Nat.find again') :
      ¬ course.Runs s.id i t :=
    fun running => Nat.find_min again' before ⟨early, t, running⟩
  obtain ⟨reply, rfl⟩ := (asked runs code after still).1 u runs'
  exact ⟨_, reply, after, still, runs'.1⟩

/-- A strand that is back from what it has called was back for a first time. -/
theorem exists_back (calls : course.Calls p s j next) (after : p < k)
    (runs : course.Runs s.id k u) (low : u.stack.length ≤ s.stack.length) :
    ∃ q d x, p < q ∧ q ≤ k ∧ course.Within s p q ∧ b.Yields s.context j d x ∧
      (course.state q).running? = some { s with context := d, code := next x } := by
  classical
  have again : ∃ k, p < k ∧ ∃ u, course.Runs s.id k u ∧ u.stack.length ≤ s.stack.length :=
    ⟨k, after, u, runs, low⟩
  obtain ⟨first, t, runs', low'⟩ := Nat.find_spec again
  have within : course.Within s p (Nat.find again) := fun i t early before running =>
    Nat.lt_of_not_le fun le => Nat.find_min again before ⟨early, t, running, le⟩
  rcases (inside calls first within).1 t runs' with deep | ⟨x, yields, eq⟩
  · exact absurd deep.stack_lt (Nat.not_lt_of_le low')
  · refine ⟨_, t.context, x, first, Nat.find_min' again ⟨after, u, runs, low⟩, within, yields, ?_⟩
    rw [← eq]
    exact runs'.1

end Course

/-! ## Jobs that end -/

namespace Board

/-- One job calls the other, each in its context.  What a listener has ordered is not counted. -/
def Under (b : Board) (env : Surroundings σ) (inner outer : Context × Job) : Prop :=
  inner.2 ≠ .stop ∧ b.Sends env outer.2 outer.1 inner.1 inner.2

/-- There is no endless trail of calls that begins with the job. -/
def Ends (b : Board) (env : Surroundings σ) (c : Context) (j : Job) : Prop :=
  Acc (b.Under env) (c, j)

end Board

namespace Course

variable {course : Course b env}

/-- Where the jobs return that are called, whoever keeps to the terms comes to an end.  The
induction is on the script that is left. -/
theorem returns_of_honours (served : course.Served s p)
    (inner : ∀ {l t i goesOn}, i ≠ .stop → b.Sends env j s.context t.context i →
      course.Calls l t i goesOn → course.Served t l → ∃ q d x, course.Returns t l q d x)
    {code : Code} {c : Context}
    (honours : code.Honours (b.terms env j s.context) (b.Yields s.context j) c)
    (after : p < k) (within : course.Within s p k)
    (running : (course.state k).running? =
      some { s with context := c, code, stack := next :: s.stack }) :
    ∃ q d x, course.Returns s p q d x := by
  induction code generalizing c k with
  | ret x =>
    exact ⟨k, c, x, _, ⟨after, within, ⟨running, rfl⟩, Nat.lt_succ_self _⟩, rfl, rfl, rfl⟩
  | act a goesOn ih =>
    have busy : course.Busy s p k _ := ⟨after, within, ⟨running, rfl⟩, Nat.lt_succ_self _⟩
    exact ih _ (honours.2.2 (course.state k)) (Nat.lt_succ_of_lt after) busy.within_succ
      ((course.move k).running_of_act running rfl)
  | wait r goesOn ih =>
    have busy : course.Busy s p k _ := ⟨after, within, ⟨running, rfl⟩, Nat.lt_succ_self _⟩
    obtain ⟨k', reply, later, still, running'⟩ :=
      exists_answer ⟨running, rfl⟩ rfl (served.answers busy rfl)
    refine ih reply (honours.2 reply) (Nat.lt_trans after later) ?_ running'
    exact busy.within_of fun i t early before runs => absurd runs (still i t early before)
  | call i goesOn ih =>
    have busy : course.Busy s p k _ := ⟨after, within, ⟨running, rfl⟩, Nat.lt_succ_self _⟩
    let t : Strand := { s with context := c, code := .call i goesOn, stack := next :: s.stack }
    have calls' : course.Calls k t i goesOn := ⟨running, rfl⟩
    -- what listeners order may go on without end by its own terms, so it is served by hypothesis
    by_cases ordered : i = .stop
    · subst ordered
      obtain ⟨k', u, later', runs', low⟩ := served.listeners busy rfl
      obtain ⟨q, d, x, later, -, deeper, yields, running'⟩ := exists_back calls' later' runs' low
      exact ih x (honours.2.2 d x yields) (Nat.lt_trans after later) (busy.within_of deeper)
        running'
    · obtain ⟨q, d, x, returns⟩ := inner (t := t) ordered honours.2.1 calls' (served.inner busy)
      obtain ⟨yields, running'⟩ := returns.yields calls'
      obtain ⟨u, deeper, -⟩ := returns
      exact ih x (honours.2.2 d x yields) (Nat.lt_succ_of_lt (Nat.lt_trans after deeper.after))
        (busy.within_of deeper.within_succ) running'

/-- A job returns unless there is an endless trail of calls. -/
theorem returns_of_ends {c : Context} (ends : b.Ends env c j) (calls : course.Calls p s j next)
    (here : s.context = c) (served : course.Served s p) : ∃ q d x, course.Returns s p q d x := by
  unfold Board.Ends at ends
  generalize eq : (c, j) = call at ends
  induction ends generalizing s p c j next with
  | intro call _ ih =>
    subst eq here
    refine returns_of_honours served ?_ (b.body_honours env j s.context) (Nat.lt_succ_self p)
      (fun l t after before => by omega) calls.running_after
    intro l t i goesOn ordered sends calls' served'
    exact ih (t.context, i) ⟨ordered, sends⟩ calls' rfl served' rfl

/-! ### Inside of a call, or past it -/

section

variable {goesOn : Continuation} {d : Context} {x : Except Fault Value}
  (calls : course.Calls p s j next)
include calls

/-- A job that has returned is not under way any more. -/
theorem Returns.le_of_busy (returns : course.Returns s p q d x) (busy : course.Busy s p k t) :
    k ≤ q := by
  have back := (returns.yields calls).2
  obtain ⟨u, busy', -⟩ := returns
  refine Nat.le_of_not_lt fun past => ?_
  rcases Nat.lt_or_eq_of_le (Nat.succ_le_of_lt past) with later | rfl
  · have above := busy.within (q + 1) _ (Nat.lt_succ_of_lt busy'.after) later ⟨back, rfl⟩
    exact Nat.lt_irrefl _ above
  · cases Option.some.inj (back.symm.trans busy.runs.1)
    exact Nat.lt_irrefl _ busy.above

/-- Whoever calls something inside of a job has not returned from it yet. -/
theorem Returns.lt_of_calls (returns : course.Returns s p q d x) (busy : course.Busy s p k t)
    {i : Job} (calls' : course.Calls k t i goesOn) : k < q := by
  refine Nat.lt_of_le_of_ne (returns.le_of_busy calls busy) ?_
  rintro rfl
  obtain ⟨u, busy', -, -, code⟩ := returns
  cases busy.runs.eq busy'.runs
  cases calls'.code.symm.trans code

/-- A job returns once. -/
theorem Returns.eq (returns : course.Returns s p q d x) {q' : Nat} {d' : Context}
    {x' : Except Fault Value} (again : course.Returns s p q' d' x') : q' = q ∧ x' = x := by
  obtain ⟨t, busy, -, -, code⟩ := id returns
  obtain ⟨t', busy', -, -, code'⟩ := id again
  obtain rfl : q' = q :=
    Nat.le_antisymm (returns.le_of_busy calls busy') (again.le_of_busy calls busy)
  cases busy.runs.eq busy'.runs
  cases code.symm.trans code'
  exact ⟨rfl, rfl⟩

/-- Whoever comes back from a call does so because the job has returned. -/
theorem Calls.returned_of_back (after : p ≤ k) (within : course.Within s p (k + 1))
    (runs : course.Runs s.id (k + 1) u) (low : u.stack.length ≤ s.stack.length) :
    ∃ d x, course.Returns s p k d x := by
  have old : course.Runs s.id p s := ⟨calls.running, rfl⟩
  rcases Nat.lt_or_eq_of_le after with later | rfl
  · have within' := within.mono (Nat.le_succ k)
    obtain ⟨-, waiting⟩ := Course.inside calls later within'
    rcases old.of_succ after runs with ⟨-, waited⟩ | ⟨t, runs', step⟩
    · exact absurd (waiting u waited runs.2).stack_lt (Nat.not_lt_of_le low)
    · have above := within k t later (Nat.lt_succ_self k) runs'
      cases step with
      | @returns x _ stack code stacked =>
        refine ⟨t.context, x, t, ⟨later, within', runs', above⟩, ?_, rfl, code⟩
        rw [stacked, List.length_cons] at above ⊢
        have lower : stack.length ≤ s.stack.length := low
        omega
      | acts | answered => exact absurd low (Nat.not_le_of_lt above)
      | calls => exact absurd low (Nat.not_le_of_lt (Nat.lt_succ_of_lt above))
  · cases Option.some.inj (calls.running_after.symm.trans runs.1)
    exact absurd low (Nat.not_succ_le_self _)

/-- Later on a strand is inside of what it has called, or that has returned. -/
theorem Calls.busy_or_returned (after : p < k) (runs : course.Runs s.id k t) :
    course.Busy s p k t ∨ ∃ q d x, q < k ∧ course.Returns s p q d x := by
  classical
  by_cases back : ∃ i, p < i ∧ i ≤ k ∧ ∃ u, course.Runs s.id i u ∧ u.stack.length ≤ s.stack.length
  · obtain ⟨after', le, u, runs', low⟩ := Nat.find_spec back
    obtain ⟨q, eq⟩ := Nat.exists_eq_succ_of_ne_zero (Nat.ne_of_gt (Nat.zero_lt_of_lt after'))
    have within : course.Within s p (q + 1) := by
      intro i t early before running
      have early' : i ≤ k := by omega
      exact Nat.lt_of_not_le fun le' =>
        Nat.find_min back (eq ▸ before) ⟨early, early', t, running, le'⟩
    rw [eq] at after' le runs'
    obtain ⟨d, x, returns⟩ := calls.returned_of_back (Nat.le_of_lt_succ after') within runs' low
    exact .inr ⟨q, d, x, le, returns⟩
  · have above {i : Nat} {u : Strand} (early : p < i) (le : i ≤ k)
        (running : course.Runs s.id i u) : s.stack.length < u.stack.length :=
      Nat.lt_of_not_le fun low => back ⟨i, early, le, u, running, low⟩
    exact .inl ⟨after, fun i u early before => above early (Nat.le_of_lt before), runs,
      above after (Nat.le_refl k) runs⟩

omit calls in
/-- A job that a strand has called inside of another has returned when the other one does. -/
theorem Calls.returned_of_outer (calls : course.Calls k t j goesOn) (busy : course.Busy s p k t)
    (outer : course.Returns s p q d x) (before : k < q) :
    ∃ q' d' x', q' < q ∧ course.Returns t k q' d' x' := by
  obtain ⟨u, busy', height, -, -⟩ := outer
  have runs : course.Runs t.id q u := by
    rw [busy.runs.2]
    exact busy'.runs
  refine (calls.busy_or_returned before runs).resolve_left fun inner => ?_
  have above := Nat.lt_trans busy.above inner.above
  have inner' := inner.above
  have outer' := busy.above
  omega

end

/-! ### Courses that are known

Where the machine is known at every time, what is under way is read off from the heights of the
first strand. -/

section

variable {height : Nat} {x : Except Fault Value}

/-- The first strand begins a job, on a stack of a height. -/
abbrev BeginsOn (course : Course b env) (height p : Nat) (j : Job) : Prop :=
  (course.state p).running?.map (fun s => (s.id, s.stack.length, s.job?)) = some (0, height, some j)

/-- Between two times the first strand is above a height whenever it runs. -/
abbrev RisesAbove (course : Course b env) (height p q : Nat) : Prop :=
  ∀ l < q, p < l → ((course.state l).running?.all fun t =>
    t.id != 0 || decide (height < t.stack.length)) = true

/-- The first strand does a job from one time to another, with a result. -/
abbrev Fulfils (course : Course b env) (height p : Nat) (j : Job) (q : Nat)
    (x : Except Fault Value) : Prop :=
  course.BeginsOn height p j ∧ p < q ∧ course.RisesAbove height p q ∧
    (course.state q).running?.map (fun t => (t.id, t.stack.length, t.result?))
      = some (0, height + 1, some x)

/-- The first strand begins a job at one time, and is back on the stack that it had at another. -/
abbrev Spans (course : Course b env) (height p : Nat) (j : Job) (q : Nat) : Prop :=
  course.BeginsOn height p j ∧ p < q ∧
    (course.state q).running?.map (fun t => (t.id, t.stack.length)) = some (0, height)

theorem BeginsOn.exists_calls (begins : course.BeginsOn height p j) :
    ∃ s next, course.Calls p s j next := by
  obtain ⟨s, running, eq⟩ := Option.map_eq_some_iff.mp begins
  simp only [Prod.mk.injEq] at eq
  obtain ⟨next, code⟩ := Strand.code_of_job? eq.2.2
  exact ⟨s, next, running, code⟩

theorem BeginsOn.stands (begins : course.BeginsOn height p j) (calls : course.Calls p s j next) :
    s.id = 0 ∧ s.stack.length = height := by
  rw [BeginsOn, calls.running] at begins
  simp only [Option.map_some, Option.some.injEq, Prod.mk.injEq] at begins
  exact ⟨begins.1, begins.2.1⟩

theorem BeginsOn.within (begins : course.BeginsOn height p j) (calls : course.Calls p s j next)
    (above : course.RisesAbove height p q) : course.Within s p q := by
  intro l t after before runs
  obtain ⟨id, stack⟩ := begins.stands calls
  have here := above l before after
  simpa [runs.1, runs.2, id, stack] using here

theorem Fulfils.exists_returns (fulfils : course.Fulfils height p j q x)
    (calls : course.Calls p s j next) : ∃ d, course.Returns s p q d x := by
  obtain ⟨begins, after, above, ended⟩ := fulfils
  obtain ⟨id, stack⟩ := begins.stands calls
  obtain ⟨t, running, eq⟩ := Option.map_eq_some_iff.mp ended
  simp only [Prod.mk.injEq] at eq
  obtain ⟨id', stack', result⟩ := eq
  exact ⟨t.context, t, ⟨after, begins.within calls above, ⟨running, id'.trans id.symm⟩, by omega⟩,
    by omega, rfl, Strand.code_of_result? result⟩

/-- Whoever is back runs with the stack that it had. -/
theorem Spans.exists_runs (spans : course.Spans height p j q) (calls : course.Calls p s j next) :
    ∃ u, course.Runs s.id q u ∧ u.stack.length = s.stack.length := by
  obtain ⟨begins, -, back⟩ := spans
  obtain ⟨id, stack⟩ := begins.stands calls
  obtain ⟨u, running, eq⟩ := Option.map_eq_some_iff.mp back
  simp only [Prod.mk.injEq] at eq
  exact ⟨u, ⟨running, eq.1.trans id.symm⟩, eq.2.trans stack.symm⟩

/-- Whoever is back is not busy any more. -/
theorem Spans.le (spans : course.Spans height p j q) (calls : course.Calls p s j next)
    (within : course.Within s p l) : l ≤ q := by
  obtain ⟨u, runs, stack⟩ := spans.exists_runs calls
  refine Nat.le_of_not_lt fun lt => ?_
  have above := within q u spans.2.1 lt runs
  omega

/-- Whoever is back was served. -/
theorem Spans.served (spans : course.Spans height p j q) (calls : course.Calls p s j next) :
    course.Served s p := by
  obtain ⟨u, runs, stack⟩ := spans.exists_runs calls
  have before {l : Nat} {t : Strand} (busy : course.Busy s p l t) : l < q :=
    spans.le calls busy.within_succ
  constructor
  · intro l t r goesOn busy _
    exact ⟨q, u, before busy, runs⟩
  · intro l t goesOn busy _
    have above := busy.above
    exact ⟨q, u, before busy, runs, by omega⟩

end

end Course

end Wireboard
