import Mathlib.Data.List.Forall2
import Wireboard.Proofs.Engine.Run

/-!
# Machines that are alike

Two machines that play nearly the same scripts, in nearly the same surroundings, can be followed
side by side.  How far they may differ is a likeness (`Likeness`): which scripts may stand for each
other, and how much the histories may have in common.  Everything else has to be the same:
variables, what nodes keep, the log, the timers, the clock, and the numbers, contexts and places of
the strands.

What the machine does with strands beyond stepping them, that is to queue them, to set them aside
and to take them up again, respects every likeness (`Machine.Around.take`,
`Machine.Around.receive`).  So does every step of two strands that do the same
(`Machine.Around.stepStrand`).  What is left for a particular likeness are the steps in which the
two differ.
-/

namespace Wireboard

variable {σ : Type} {b b' : Board} {env env' : Surroundings σ} {m m' : Machine σ} {s s' : Strand}

/-- How far two machines may differ. -/
structure Likeness where
  /-- The second script may stand for the first one. -/
  code : Code → Code → Prop
  /-- The histories may go together. -/
  history : List Happening → List Happening → Prop
  /-- A strand may come in to run the job. -/
  admits : Job → Prop
  /-- A new strand may stand for itself. -/
  code_job : ∀ {j}, admits j → code (Machine.jobCode j) (Machine.jobCode j)
  /-- Whatever listeners order is admitted. -/
  admits_handle : ∀ type target, admits (.handle type target)
  /-- The same may happen on both sides. -/
  history_cons : ∀ {h h'} (x : Happening), history h h' → history (x :: h) (x :: h')

/-- The strand may stand for the other one. -/
inductive Strand.Like (L : Likeness) (s : Strand) : Strand → Prop where
  | intro {code : Code}
      {stack : List Continuation} :
      L.code s.code code →
      List.Forall₂ (fun next next' => ∀ x, L.code (next x) (next' x)) s.stack stack →
      Like L s { s with code, stack }

section

variable {L : Likeness} (like : s.Like L s')
include like

theorem Strand.Like.codes : L.code s.code s'.code := by
  cases like with
  | intro code _ => exact code

/-- The strands may go on with other scripts that go together. -/
theorem Strand.Like.recode {code code' : Code} (goes : L.code code code') :
    { s with code }.Like L { s' with code := code' } := by
  cases like with
  | intro _ stack => exact .intro goes stack

end

/-- The call may stand for the other one, whatever the answer is. -/
inductive Call.Like (L : Likeness) (c : Call) : Call → Prop where
  | intro {strand : Strand} {next : Except Fault c.request.Reply → Code} :
      c.strand.Like L strand → (∀ reply, L.code (c.next reply) (next reply)) →
      Like L c { c with strand, next }

/-- The turn may stand for the other one. -/
inductive Turn.Like (L : Likeness) : Turn → Turn → Prop where
  | run {laps : Nat} {s s' : Strand} : s.Like L s' → Like L (.run laps s) (.run laps s')
  | lookUp {c c' : Call} : c.Like L c' → Like L (.lookUp c) (.lookUp c')
  | answer {c : Call} {reply? : Option (Except Fault c.request.Reply)} {strand : Strand}
      {next : Except Fault c.request.Reply → Code} :
      c.strand.Like L strand → (∀ reply, L.code (c.next reply) (next reply)) →
      Like L (.answer c reply?) (.answer { c with strand, next } reply?)
  | windUp {timer : Nat} : Like L (.windUp timer) (.windUp timer)
  | tick {timer : Nat} : Like L (.tick timer) (.tick timer)
  | retire {strand : Nat} : Like L (.retire strand) (.retire strand)
  | checkIdle {label : Nat} : Like L (.checkIdle label) (.checkIdle label)

/-- The machines are alike, but for the strand that is running. -/
inductive Machine.Around (L : Likeness) (m : Machine σ) : Machine σ → Prop where
  | intro {history : List Happening} {running? : Option Strand} {queue : List Turn}
      {calls : List Call} :
      L.history m.history history → List.Forall₂ (Turn.Like L) m.queue queue →
      List.Forall₂ (Call.Like L) m.calls calls → (∀ t ∈ m.timers, L.admits (.chain t.node)) →
      Around L m { m with history, running?, queue, calls }

/-- The machines are alike. -/
structure Machine.Like (L : Likeness) (m m' : Machine σ) : Prop where
  around : m.Around L m'
  running : Option.Rel (Strand.Like L) m.running? m'.running?

/-- The job of the strand that an impulse brings in, if it does. -/
def Impulse.job? : Impulse → Option Job
  | .enter _ _ _ e => some e.job
  | .stop => some .stop
  | .log level message => some (.log level message)
  | .awaitIdle _ | .assign _ _ | .release _ _ | .pass _ => none

/-- Surroundings that differ in their listeners at most. -/
inductive Surroundings.Agrees (env : Surroundings σ) : Surroundings σ → Prop where
  | intro {react : σ → Callback → Option Reaction × σ} : Agrees env { env with react }

namespace Machine

variable {L : Likeness} (around : m.Around L m')
include around

/-- Who is running does not matter. -/
theorem Around.run (running? running?' : Option Strand) :
    { m with running? }.Around L { m' with running? := running?' } := by
  cases around with
  | intro history queue calls timers => exact .intro history queue calls timers

variable {t : Turn}

theorem Around.enqueue {t' : Turn} (like : t.Like L t') :
    (m.enqueue t).Around L (m'.enqueue t') := by
  cases around with
  | intro history queue calls timers =>
    exact .intro history (List.rel_append queue (.cons like .nil)) calls timers

/-- A strand that comes in on both sides is the same. -/
theorem Around.spawn (label? : Option Nat) (tracked : Bool)
    (context : Context) {j : Job} (admitted : L.admits j) :
    (m.spawn label? tracked context (jobCode j)).Around L
      (m'.spawn label? tracked context (jobCode j)) := by
  cases around with
  | intro history queue calls timers =>
    have like : Turn.Like L
        (.run 0 { id := m.nextId, label?, tracked, context, code := jobCode j })
        (.run 0 { id := m.nextId, label?, tracked, context, code := jobCode j }) :=
      .run (.intro (L.code_job admitted) .nil)
    exact .intro history (List.rel_append queue (.cons like .nil)) calls timers

theorem Around.witness (x : Happening) : (m.witness x).Around L (m'.witness x) := by
  cases around with
  | intro history queue calls timers => exact .intro (L.history_cons x history) queue calls timers

theorem Around.witnessAll (xs : List Happening) :
    (m.witnessAll xs).Around L (m'.witnessAll xs) := by
  unfold Machine.witnessAll
  induction xs generalizing m m' with
  | nil => exact around
  | cons x rest ih => exact ih (around.witness x)

/-! ## Steps -/

omit around in
theorem perform_callback_none {c : Context} {cb : Callback} {outside : σ}
    (unheard : env.react m.outside cb = (none, outside)) :
    Machine.perform b env m c (.callback cb) = (none, c, { m with outside }) := by
  simp only [Machine.perform, unheard]
  rfl

omit around in
theorem perform_callback_some {c : Context} {cb : Callback} {r : Reaction} {outside : σ}
    (heard : env.react m.outside cb = (some r, outside)) :
    Machine.perform b env m c (.callback cb)
      = (some r, c, { m with outside }.witness (.callback cb)) := by
  simp only [Machine.perform, heard]
  rfl

theorem Around.outside_eq : m'.outside = m.outside := by
  cases around with
  | intro => rfl

theorem Around.outside (s : σ) : { m with outside := s }.Around L { m' with outside := s } := by
  cases around with
  | intro history queue calls timers => exact .intro history queue calls timers

/-- An act is answered in the same way on both sides, if listeners react in the same way. -/
theorem Around.perform (named : b'.appId = b.appId)
    (agrees : env.Agrees env') (c : Context) (a : Act)
    (heard : ∀ cb, a = .callback cb → env'.react m.outside cb = env.react m.outside cb)
    (armed : ∀ node period? repeats, a = .arm node period? repeats → L.admits (.chain node)) :
    (Machine.perform b' env' m' c a).1 = (Machine.perform b env m c a).1 ∧
      (Machine.perform b' env' m' c a).2.1 = (Machine.perform b env m c a).2.1 ∧
      (Machine.perform b env m c a).2.2.Around L (Machine.perform b' env' m' c a).2.2 := by
  have noticed (n : Notice) := around.witness (.notice n)
  cases a with
  | callback cb =>
    have same : env'.react m'.outside cb = env.react m.outside cb := by
      rw [around.outside_eq]
      exact heard cb rfl
    obtain ⟨⟨heard?, outside⟩, reacts⟩ : ∃ r, env.react m.outside cb = r := ⟨_, rfl⟩
    rw [reacts] at same
    cases heard? with
    | none =>
      rw [perform_callback_none reacts, perform_callback_none same]
      exact ⟨rfl, rfl, around.outside outside⟩
    | some r =>
      rw [perform_callback_some reacts, perform_callback_some same]
      exact ⟨rfl, rfl, (around.outside outside).witness _⟩
  | journal level message =>
    refine ⟨rfl, rfl, ?_⟩
    simp only [Machine.perform, named]
    cases around with
    | intro history queue calls timers => exact .intro (L.history_cons _ history) queue calls timers
  | notice n => exact ⟨rfl, rfl, noticed n⟩
  | dispatch type target =>
    have spawned := around.spawn none true m.freshContext (L.admits_handle type target)
    cases around with
    | intro => exact ⟨rfl, rfl, spawned⟩
  | arm node period? repeats =>
    cases around with
    | intro history queue calls timers =>
      refine ⟨rfl, rfl, .intro history (List.rel_append queue (.cons .windUp .nil)) calls ?_⟩
      intro t member
      rcases List.mem_append.mp member with old | new
      · exact timers t old
      · cases List.mem_singleton.mp new
        exact armed node period? repeats rfl
  | markStopped =>
    cases around with
    | intro history queue calls =>
      exact ⟨rfl, rfl, .intro history queue calls fun _ none => by cases none⟩
  | setResult v | enter key =>
    simp only [Machine.perform]
    split <;> exact ⟨rfl, rfl, around⟩
  | _ =>
    cases agrees with
    | intro =>
      cases around with
      | intro history queue calls timers => exact ⟨rfl, rfl, .intro history queue calls timers⟩

theorem Around.exists_ask (agrees : env.Agrees env') (r : Request) : ∃ answer m₁ m₁',
    m.ask env r = (answer, m₁) ∧ m'.ask env' r = (answer, m₁') ∧ m₁.Around L m₁' := by
  cases agrees with
  | intro =>
    unfold Machine.ask
    rw [around.outside_eq]
    exact ⟨_, _, _, rfl, rfl, (around.outside _).witnessAll _⟩

theorem Around.finish (like : s.Like L s') (r : Except Fault Value) :
    (m.finish s r).Like L (m'.finish s' r) := by
  refine ⟨?_, by rw [finish_running?, finish_running?]; exact .none⟩
  cases like with
  | intro =>
    cases around with
    | intro history queue calls timers =>
      have retires : Turn.Like L (.retire s.id) (.retire s.id) := .retire
      have retired := List.rel_append queue (.cons retires .nil)
      unfold Machine.finish
      dsimp only
      split <;> split
      · exact .intro history retired calls timers
      · exact .intro history retired calls timers
      · exact .intro history queue calls timers
      · exact .intro history queue calls timers

/-- A request is made in the same way on both sides. -/
theorem Around.request (agrees : env.Agrees env') (like : s.Like L s')
    (r : Request) {next next' : Except Fault r.Reply → Code}
    (goes : ∀ reply, L.code (next reply) (next' reply)) :
    (m.request env s r next).Like L (m'.request env' s' r next') := by
  have patience : m'.patienceFor r = m.patienceFor r := by
    cases around with
    | intro => rfl
  have aside := around.run none none
  unfold Machine.request
  rw [patience]
  dsimp only
  split
  next =>
    obtain ⟨answer, m₁, m₁', asks, asks', asked⟩ := around.exists_ask agrees r
    rw [asks, asks']
    cases answer with
    | now reply => exact ⟨asked.run _ _, .some (like.recode (goes reply))⟩
    | later ticket =>
      refine ⟨?_, .none⟩
      cases asked with
      | intro history queue calls timers =>
        refine .intro history queue (List.rel_append calls (.cons ?_ .nil)) timers
        exact .intro like goes
  next => exact ⟨aside.enqueue (.lookUp (.intro like goes)), .none⟩
  next => exact ⟨aside.enqueue (.lookUp (.intro like goes)), .none⟩
  next => exact ⟨aside.enqueue (.run (like.recode (goes _))), .none⟩
  next => exact ⟨around.run _ _, .some (like.recode (goes _))⟩

/-- Two scripts that do the same next. -/
inductive Parallel (L : Likeness) (b b' : Board) :
    Code → Code → Prop where
  | ret {r : Except Fault Value} : Parallel L b b' (.ret r) (.ret r)
  | act {a : Act} {next next' : a.Reply → Code} :
      (∀ node period? repeats, a = .arm node period? repeats → L.admits (.chain node)) →
      (∀ r, L.code (next r) (next' r)) → Parallel L b b' (.act a next) (.act a next')
  | wait {r : Request} {next next' : Except Fault r.Reply → Code} :
      (∀ x, L.code (next x) (next' x)) → Parallel L b b' (.wait r next) (.wait r next')
  | call {j : Job} {next next' : Continuation} :
      L.code (b.body j).run (b'.body j).run → (∀ x, L.code (next x) (next' x)) →
      Parallel L b b' (.call j next) (.call j next')

/-- Strands that do the same stay alike, if listeners react in the same way. -/
theorem Around.stepStrand (named : b'.appId = b.appId)
    (agrees : env.Agrees env') (like : s.Like L s') (parallel : Parallel L b b' s.code s'.code)
    (heard : ∀ cb, s.act? = some (.callback cb) →
      env'.react m.outside cb = env.react m.outside cb) :
    (m.stepStrand b env s).Like L (m'.stepStrand b' env' s') := by
  cases like with
  | @intro code' stack' code stack =>
    generalize lead : s.code = script at parallel
    have like : s.Like L { s with code := code', stack := stack' } := .intro code stack
    unfold Machine.stepStrand
    cases parallel with
    | @ret r =>
      simp only [lead]
      cases stacked : s.stack with
      | nil =>
        rw [stacked] at stack
        cases stack
        exact around.finish like r
      | cons next rest =>
        rw [stacked] at stack
        cases stack with
        | cons goes below => exact ⟨around.run _ _, .some (.intro (goes r) below)⟩
    | @act a next next' armed goes =>
      simp only [lead]
      obtain ⟨reply, context, done⟩ := around.perform named agrees s.context a
        (fun cb eq => heard cb ((Strand.act?_of_code lead).trans (congrArg some eq))) armed
      refine ⟨done.run _ _, .some ?_⟩
      rw [reply, context]
      exact .intro (goes _) stack
    | @wait r next next' goes =>
      simp only [lead]
      exact around.request agrees like r goes
    | @call j next next' bodies goes =>
      simp only [lead]
      exact ⟨around.run _ _, .some (.intro bodies (.cons goes stack))⟩

/-! ## Turns -/

/-- Where nobody is running, it is enough that the machines are alike around that. -/
theorem Around.idle (idle : m.running? = none) (idle' : m'.running? = none) : m.Like L m' :=
  ⟨around, by rw [idle, idle']; exact .none⟩

variable {c c' : Call}

theorem Around.lookUp (agrees : env.Agrees env') (like : c.Like L c') :
    (m.lookUp env c).Around L (m'.lookUp env' c') := by
  cases like with
  | @intro strand next strands goes =>
    obtain ⟨answer, m₁, m₁', asks, asks', asked⟩ := around.exists_ask agrees c.request
    unfold Machine.lookUp
    dsimp only
    rw [asks, asks']
    cases answer with
    | now reply => exact asked.enqueue (.run (strands.recode (goes reply)))
    | later ticket =>
      dsimp only
      split
      · exact asked.enqueue (.run (strands.recode (goes _)))
      · cases asked with
        | intro history queue calls timers =>
          exact .intro history queue
            (List.rel_append calls (.cons (.intro strands goes) .nil)) timers

theorem Around.answer (agrees : env.Agrees env') (idle : m.running? = none)
    (idle' : m'.running? = none) {reply? : Option (Except Fault c.request.Reply)} {strand : Strand}
    {next : Except Fault c.request.Reply → Code}
    (strands : c.strand.Like L strand) (goes : ∀ reply, L.code (c.next reply) (next reply)) :
    (m.answer env c reply?).Like L (m'.answer env' { c with strand, next } reply?) := by
  have becomes (reply : Except Fault c.request.Reply) := strands.recode (goes reply)
  cases agrees with
  | intro =>
    unfold Machine.answer
    dsimp only
    cases reply? with
    | some reply =>
      dsimp only
      split
      · exact (around.enqueue (.run (becomes reply))).idle idle idle'
      · exact ⟨around.run _ _, .some (becomes reply)⟩
    | none =>
      dsimp only
      rw [around.outside_eq]
      have told := (around.outside (env.resume m.outside c.request c.ticket).2.2).witnessAll
        (env.resume m.outside c.request c.ticket).2.1
      split
      · refine (told.enqueue (.run (becomes _))).idle ?_ ?_
        · rw [witnessAll_eq]
          exact idle
        · rw [witnessAll_eq]
          exact idle'
      · exact ⟨told.run _ _, .some (becomes _)⟩

theorem Around.updateTimer (id : Nat) {f : Timer → Option Timer}
    (stays : ∀ {t t'}, f t = some t' → t'.node = t.node) :
    (m.updateTimer id f).Around L (m'.updateTimer id f) := by
  cases around with
  | intro history queue calls timers =>
    refine .intro history queue calls fun t' member => ?_
    obtain ⟨t, old, changed⟩ := List.mem_filterMap.mp member
    split at changed
    · rw [stays changed]
      exact timers t old
    · rw [← Option.some.inj changed]
      exact timers t old

theorem Around.retire (id : Nat) : (m.retire id).Around L (m'.retire id) := by
  cases around with
  | intro history queue calls timers =>
    refine .intro history (List.rel_append queue ?_) calls timers
    rw [List.forall₂_map_left_iff, List.forall₂_map_right_iff, List.forall₂_same]
    exact fun _ _ => .checkIdle

theorem Around.checkIdle (label : Nat) : (m.checkIdle label).Around L (m'.checkIdle label) := by
  cases around with
  | intro history queue calls timers =>
    unfold Machine.checkIdle
    dsimp only
    split <;> exact .intro history queue calls timers

theorem Around.tick (id : Nat) : (m.tick id).Around L (m'.tick id) := by
  have spawned {j : Job} (admitted : L.admits j) :=
    around.spawn none true m.freshContext admitted
  cases around with
  | intro history queue calls timers =>
    unfold Machine.tick
    dsimp only
    split
    · exact .intro history queue calls timers
    next timer found =>
      refine (spawned (timers timer (List.mem_of_find?_eq_some found))).updateTimer id ?_
      intro t t' changed
      split at changed
      · cases changed
        rfl
      · cases changed

/-- Turns that stand for each other are taken in the same way. -/
theorem Around.take (agrees : env.Agrees env') (idle : m.running? = none)
    (idle' : m'.running? = none) {t' : Turn} (like : t.Like L t') :
    (m.take env t).Like L (m'.take env' t') := by
  cases like with
  | @run laps s s' like =>
    cases laps with
    | zero => exact ⟨around.run _ _, .some like⟩
    | succ laps => exact (around.enqueue (.run like)).idle idle idle'
  | lookUp like =>
    refine (around.lookUp agrees like).idle ?_ ?_
    · rw [lookUp_running?, idle]
    · rw [lookUp_running?, idle']
  | answer strands goes => exact around.answer agrees idle idle' strands goes
  | @windUp timer =>
    have same : m'.now = m.now := by
      cases around with
      | intro => rfl
    have wound := around.updateTimer timer (f := fun t => some (t.wound m.now)) fun changed => by
      cases changed
      rfl
    refine Around.idle ?_ idle idle'
    rw [Machine.take, Machine.take, Machine.windUp, Machine.windUp, same]
    exact wound
  | @tick timer =>
    refine (around.tick timer).idle ?_ ?_
    · rw [tick_running?, idle]
    · rw [tick_running?, idle']
  | @retire strand => exact (around.retire strand).idle idle idle'
  | @checkIdle label =>
    have told := around.checkIdle label
    refine Around.idle told ?_ ?_
    · obtain ⟨finished, waiters, eq⟩ := checkIdle_cases m label
      rw [Machine.take, eq]
      exact idle
    · obtain ⟨finished, waiters, eq⟩ := checkIdle_cases m' label
      rw [Machine.take, eq]
      exact idle'

omit around in
theorem step_of_nil (idle : m.running? = none) (queue : m.queue = []) : m.step b env = none := by
  unfold Machine.step
  split
  next running => cases idle.symm.trans running
  next =>
    split
    next => rfl
    next ready => cases queue.symm.trans ready

omit around in
theorem step_of_cons {rest : List Turn} (idle : m.running? = none) (queue : m.queue = t :: rest) :
    m.step b env = some ({ m with queue := rest }.take env t) := by
  unfold Machine.step
  split
  next running => cases idle.symm.trans running
  next =>
    split
    next none => cases queue.symm.trans none
    next ready =>
      cases queue.symm.trans ready
      rfl

/-- Where nobody is running, both sides take the turns that stand for each other, or have none. -/
theorem Around.step_idle (agrees : env.Agrees env')
    (idle : m.running? = none) (idle' : m'.running? = none) :
    Option.Rel (Machine.Like L) (m.step b env) (m'.step b' env') := by
  have turns : List.Forall₂ (Turn.Like L) m.queue m'.queue := by
    cases around with
    | intro _ queue _ => exact queue
  have shortened {rest rest' : List Turn} (like : List.Forall₂ (Turn.Like L) rest rest') :
      { m with queue := rest }.Around L { m' with queue := rest' } := by
    cases around with
    | intro history _ calls timers => exact .intro history like calls timers
  generalize ready : m.queue = queue at turns
  generalize ready' : m'.queue = queue' at turns
  cases turns with
  | nil =>
    rw [step_of_nil idle ready, step_of_nil idle' ready']
    exact .none
  | cons like rest =>
    rw [step_of_cons idle ready, step_of_cons idle' ready']
    exact .some ((shortened rest).take agrees idle idle' like)

/-! ## Impulses -/

omit around in
/-- A call that has a certain trait has its counterpart, if the trait shows in both. -/
theorem find?_like {calls calls' : List Call} (like : List.Forall₂ (Call.Like L) calls calls')
    {p : Call → Bool} (trait : ∀ {c c' : Call}, c.Like L c' → p c' = p c) :
    Option.Rel (Call.Like L) (calls.find? p) (calls'.find? p) := by
  induction like with
  | nil => exact .none
  | @cons c c' rest rest' alike _ ih =>
    rw [List.find?_cons, List.find?_cons, trait alike]
    split
    · exact .some alike
    · exact ih

omit around in
theorem id_of_like (like : c.Like L c') : c'.strand.id = c.strand.id := by
  cases like with
  | intro strands _ =>
    cases strands with
    | intro => rfl

omit around in
/-- The calls of all other strands go together. -/
theorem filter_like {calls calls' : List Call} (like : List.Forall₂ (Call.Like L) calls calls')
    (id : Nat) : List.Forall₂ (Call.Like L) (calls.filter (·.strand.id != id))
      (calls'.filter (·.strand.id != id)) := by
  refine List.rel_filter (fun c c' alike => ?_) like
  dsimp only
  rw [id_of_like alike]

theorem Around.calls {calls calls' : List Call} (like : List.Forall₂ (Call.Like L) calls calls') :
    { m with calls }.Around L { m' with calls := calls' } := by
  cases around with
  | intro history queue _ timers => exact .intro history queue like timers

theorem Around.calls_like : List.Forall₂ (Call.Like L) m.calls m'.calls := by
  cases around with
  | intro _ _ calls => exact calls

omit around in
theorem givenUp_like (like : c.Like L c') : Turn.Like L c.givenUp c'.givenUp := by
  cases like with
  | intro strands goes => exact .run (strands.recode (goes _))

theorem Around.ring (alarm : Alarm) : (m.ring alarm).Around L (m'.ring alarm) := by
  cases alarm with
  | timer id => exact around.enqueue .tick
  | deadline strand =>
    have found := find?_like around.calls_like (p := fun c => c.strand.id == strand) fun alike => by
      rw [id_of_like alike]
    simp only [Machine.ring]
    generalize m.calls.find? (fun c => c.strand.id == strand) = found? at found ⊢
    generalize m'.calls.find? (fun c => c.strand.id == strand) = found?' at found ⊢
    cases found with
    | none => exact around
    | some alike =>
      exact (around.calls (filter_like around.calls_like strand)).enqueue (givenUp_like alike)

theorem Around.release (wanted : Request → Bool)
    (reply : (r : Request) → Option (Except Fault r.Reply)) :
    ((m.release wanted reply).getD m).Around L ((m'.release wanted reply).getD m') := by
  have found := find?_like around.calls_like (p := fun c => wanted c.request) fun alike => by
    cases alike with
    | intro => rfl
  unfold Machine.release
  generalize m.calls.find? (fun c => wanted c.request) = found? at found ⊢
  generalize m'.calls.find? (fun c => wanted c.request) = found?' at found ⊢
  cases found with
  | none => exact around
  | @some c c' alike =>
    have others := filter_like around.calls_like c.strand.id
    dsimp only [Option.getD]
    rw [id_of_like alike]
    cases alike with
    | intro strands goes => exact (around.calls others).enqueue (.answer strands goes)

/-- The same alarms are set on both sides. -/
theorem Around.alarms : m'.alarms = m.alarms := by
  have deadlines {calls calls' : List Call} (like : List.Forall₂ (Call.Like L) calls calls') :
      calls'.filterMap (fun c => c.deadline?.map fun due => (due, Alarm.deadline c.strand.id))
        = calls.filterMap fun c => c.deadline?.map fun due => (due, .deadline c.strand.id) := by
    induction like with
    | nil => rfl
    | @cons c c' rest rest' alike _ ih =>
      have same : c'.deadline? = c.deadline? := by
        cases alike with
        | intro => rfl
      rw [List.filterMap_cons, List.filterMap_cons, same, id_of_like alike, ih]
  cases around with
  | intro _ _ calls => exact congrArg (_ ++ ·) (deadlines calls)

theorem Around.reach (time : Rat) : (m.reach time).Around L (m'.reach time) := by
  have rings (alarms : List Alarm) {m₁ m₁' : Machine σ} (around : m₁.Around L m₁') :
      (alarms.foldl Machine.ring m₁).Around L (alarms.foldl Machine.ring m₁') := by
    induction alarms generalizing m₁ m₁' with
    | nil => exact around
    | cons alarm rest ih => exact ih (around.ring alarm)
  unfold Machine.reach Machine.alarmsAt
  rw [around.alarms]
  refine rings _ ?_
  cases around with
  | intro history queue calls timers => exact .intro history queue calls timers

theorem Around.interrupt {j : Job} (admitted : L.admits j) :
    (m.interrupt j).Like L (m'.interrupt j) := by
  cases around with
  | intro history queue calls timers =>
    exact ⟨.intro history queue calls timers, .some (.intro (L.code_job admitted) .nil)⟩

/-- An impulse is received in the same way on both sides. -/
theorem Around.receive (idle : m.running? = none)
    (idle' : m'.running? = none) (i : Impulse) (admitted : ∀ j, i.job? = some j → L.admits j) :
    (m.receive i).Like L (m'.receive i) := by
  cases i with
  | enter label? tracked frames e =>
    have same : m'.freshContext = m.freshContext := by
      cases around with
      | intro => rfl
    have spawned := around.spawn label? tracked { m.freshContext with frames }
      (admitted e.job rfl)
    refine Around.idle ?_ idle idle'
    rw [Machine.receive, Machine.receive, same]
    exact spawned
  | stop => exact around.interrupt (admitted _ rfl)
  | log level message => exact around.interrupt (admitted _ rfl)
  | awaitIdle label => exact (around.enqueue .checkIdle).idle idle idle'
  | assign name v =>
    refine Around.idle ?_ idle idle'
    cases around with
    | intro history queue calls timers => exact .intro history queue calls timers
  | release wanted reply =>
    have unmoved (m : Machine σ) : ((m.release wanted reply).getD m).running? = m.running? := by
      rcases release_cases m wanted reply with eq | ⟨c, -, eq⟩
      · rw [eq]
      · rw [eq]
        rfl
    refine (around.release wanted reply).idle ?_ ?_
    · rw [unmoved, idle]
    · rw [unmoved, idle']
  | pass time =>
    refine (around.reach time).idle ?_ ?_
    · rw [reach_running?, idle]
    · rw [reach_running?, idle']

end Machine

end Wireboard
