import Wireboard.Proofs.Engine.CountingLoops

/-!
# What a job does by itself

A job that is under way does some things by itself and has others done: it pulls its inputs, and the
wires that it runs lead to nodes of all kinds, among them perhaps its own.  To say that a node does
something exactly once is to say it of the node alone, and not of what it has called.

`Course.Does` tells the two apart.  A job may be cut into parts that call one another, as the rounds
of a loop do; what a part does counts as done by the job.  `Course.Account` lists everything of some
kind that a job does by itself, each thing with its time.

An account is made backwards, from what a script does last to what it does first
(`Since.of_quiet`, `Since.cons`).  The stretches in which nothing of the kind is done are got
through by `Course.Goes`, attempt by attempt; with the deeds between them this makes
`Course.Performs`, and `Course.LeadsTo` says that an attempt gets to the wires that it runs.
-/

namespace Wireboard

variable {σ : Type} {b : Board} {env : Surroundings σ}

theorem Attempt.exists_run_tryCatch {α : Type} (x : Attempt α) (h : Fault → Attempt α) :
    ∃ g : Except Fault α → Script (Except Fault α), (tryCatch x h).run = x.run.bind g ∧
      (∀ a, g (.ok a) = .ret (.ok a)) ∧ ∀ e, g (.error e) = (h e).run :=
  ⟨_, rfl, fun _ => rfl, fun _ => rfl⟩

/-- Nothing but an act of keeping changes what nodes have kept. -/
theorem Machine.Moves.scratch_eq {m m' : Machine σ} {impulse? : Option Impulse}
    (move : m.Moves b env impulse? m') (other : ∀ node memo, m.act? ≠ some (.remember node memo)) :
    m'.scratch = m.scratch :=
  (move.alters.scratch.resolve_left fun ⟨node, memo, acts, _⟩ => other node memo acts).2

namespace Course

/-! ## Deeds -/

/-- The strand runs and is busy with a job, and with nothing that was called for it but parts of
it. -/
structure Itself (course : Course b env) (part : Job → Prop) (s : Strand) (p k : Nat)
    (t : Strand) : Prop where
  busy : course.Busy s p k t
  parts : ∀ {l u j goesOn}, course.Busy s p l u → course.Calls l u j goesOn →
    course.Busy u l k t → part j

/-- At that time the job that the strand has called does something by itself. -/
def Does (course : Course b env) (part : Job → Prop) (s : Strand) (p : Nat) (d : Deed) (k : Nat) :
    Prop :=
  ∃ t, course.Itself part s p k t ∧ t.code.deed? = some d

/-- From one time up to another the job does nothing of a kind by itself. -/
def Quiet (course : Course b env) (part : Job → Prop) (kind : Deed → Prop) (s : Strand) (p : Nat)
    (k l : Nat) : Prop :=
  ∀ i d, k ≤ i → i < l → kind d → ¬ course.Does part s p d i

/-- From a time on, these are all the deeds of a kind that the job does by itself, in order, each
with its time. -/
structure Since (course : Course b env) (part : Job → Prop) (kind : Deed → Prop) (s : Strand)
    (p k : Nat) (ds : List (Nat × Deed)) : Prop where
  does_iff : ∀ {i d}, k ≤ i → kind d → (course.Does part s p d i ↔ (i, d) ∈ ds)
  since : ∀ e ∈ ds, k ≤ e.1
  ordered : ds.Pairwise fun e e' => e.1 < e'.1

/-- These are all the deeds of a kind that the job does by itself, in order, each with its time. -/
def Account (course : Course b env) (part : Job → Prop) (kind : Deed → Prop) (s : Strand) (p : Nat)
    (ds : List (Nat × Deed)) : Prop :=
  course.Since part kind s p 0 ds

variable {course : Course b env} {part : Job → Prop} {kind : Deed → Prop} {s t : Strand}
  {j i : Job} {next goesOn : Continuation} {p k l m : Nat} {c : Context} {d : Deed}
  {code : Code} {ds : List (Nat × Deed)}

theorem Doing.itself (doing : course.Doing s next p k c code) :
    course.Itself part s p k (s.inner next c code) where
  busy := doing.busy
  parts below _ above := by
    have low := below.above
    have high := above.above
    simp only [List.length_cons] at high
    omega

/-- Inside of a job the strand does what its script does. -/
theorem Doing.does_iff (doing : course.Doing s next p k c code) :
    course.Does part s p d k ↔ code.deed? = some d := by
  constructor
  · rintro ⟨t, itself, deed⟩
    cases Option.some.inj (doing.running.symm.trans itself.busy.runs.1)
    exact deed
  · exact fun deed => ⟨_, doing.itself, deed⟩

namespace Quiet

theorem refl (k : Nat) : course.Quiet part kind s p k k :=
  fun _ _ le lt => absurd lt (Nat.not_lt_of_le le)

theorem trans (first : course.Quiet part kind s p k l) (second : course.Quiet part kind s p l m) :
    course.Quiet part kind s p k m := by
  intro i d le lt special
  rcases Nat.lt_or_ge i l with early | late
  · exact first i d le early special
  · exact second i d late lt special

end Quiet

theorem Doing.quiet (doing : course.Doing s next p k c code)
    (other : ∀ d, code.deed? = some d → ¬ kind d) : course.Quiet part kind s p k (k + 1) := by
  intro i d le lt special does
  obtain rfl : i = k := by omega
  exact other d (doing.does_iff.mp does) special

/-! ## Calls -/

/-- What is done by the job itself after a call is done when the call has returned. -/
theorem Doing.returned_of_does (doing : course.Doing s next p k c (.call j goesOn))
    (other : ¬ part j) (after : k < l) (does : course.Does part s p d l) :
    ∃ q e x, q < l ∧ course.Returns (s.inner next c (.call j goesOn)) k q e x := by
  obtain ⟨t, itself, -⟩ := does
  have calls : course.Calls k _ j goesOn := ⟨doing.running, rfl⟩
  refine (calls.busy_or_returned after itself.busy.runs).resolve_left fun inside => ?_
  exact other (itself.parts doing.busy calls inside)

/-- While a call is under way, the job does nothing by itself. -/
theorem Doing.quiet_of_returns (doing : course.Doing s next p k c (.call j goesOn))
    (other : ¬ part j) {q : Nat} {e : Context} {x : Except Fault Value}
    (returns : course.Returns (s.inner next c (.call j goesOn)) k q e x) :
    course.Quiet part kind s p (k + 1) (q + 1) := by
  intro i d le lt _ does
  obtain ⟨q', e', x', before, again⟩ := doing.returned_of_does other le does
  obtain ⟨rfl, -⟩ := returns.eq ⟨doing.running, rfl⟩ again
  omega

namespace Since

theorem of_quiet (since : course.Since part kind s p l ds)
    (quiet : course.Quiet part kind s p k l) (le : k ≤ l) : course.Since part kind s p k ds where
  does_iff {i d} le' special := by
    rcases Nat.lt_or_ge i l with early | late
    · refine iff_of_false (quiet i d le' early special) fun member => ?_
      exact absurd (since.since _ member) (Nat.not_le_of_lt early)
    · exact since.does_iff late special
  since e member := Nat.le_trans le (since.since e member)
  ordered := since.ordered

theorem cons (since : course.Since part kind s p (k + 1) ds)
    (doing : course.Doing s next p k c code) (deed : code.deed? = some d) :
    course.Since part kind s p k ((k, d) :: ds) where
  does_iff {i d'} le special := by
    rcases Nat.eq_or_lt_of_le le with rfl | late
    · have absent : (k, d') ∉ ds := fun member => Nat.not_succ_le_self k (since.since _ member)
      rw [doing.does_iff, deed]
      simp [absent, eq_comm]
    · have later : i ≠ k := Nat.ne_of_gt late
      simp [since.does_iff late special, later]
  since e member := by
    rcases List.mem_cons.mp member with rfl | rest
    · exact Nat.le_refl k
    · exact Nat.le_of_succ_le (since.since e rest)
  ordered := List.pairwise_cons.mpr ⟨fun e member => since.since e member, since.ordered⟩

/-- Before it is called a job does nothing. -/
theorem account (since : course.Since part kind s p (p + 1) ds) :
    course.Account part kind s p ds := by
  refine since.of_quiet ?_ (Nat.zero_le _)
  rintro i d - lt - ⟨t, itself, -⟩
  exact absurd itself.busy.after (Nat.not_lt_of_le (Nat.le_of_lt_succ lt))

end Since

/-- A job that returns does nothing any more. -/
theorem Doing.since_ret {x : Except Fault Value} (doing : course.Doing s next p k c (.ret x))
    (calls : course.Calls p s j next) : course.Since part kind s p k [] where
  does_iff {l d} late _ := by
    refine iff_of_false (fun does => ?_) List.not_mem_nil
    obtain ⟨t, itself, -⟩ := id does
    obtain rfl : l = k := Nat.le_antisymm (doing.returns.le_of_busy calls itself.busy) late
    cases doing.does_iff.mp does
  since := List.forall_mem_nil _
  ordered := .nil

/-- A job that does nothing of the kind once a call has returned does nothing of the kind after
it. -/
theorem Doing.since_call (doing : course.Doing s next p k c (.call i goesOn)) (other : ¬ part i)
    (back : ∀ {q e x}, course.Returns (s.inner next c (.call i goesOn)) k q e x →
      course.Since part kind s p (q + 1) []) : course.Since part kind s p (k + 1) [] where
  does_iff {l d} late special := by
    refine iff_of_false (fun does => ?_) List.not_mem_nil
    obtain ⟨q, e, x, before, returns⟩ := doing.returned_of_does other late does
    exact List.not_mem_nil (((back returns).does_iff before special).mp does)
  since := List.forall_mem_nil _
  ordered := .nil

/-- What a part does that was called last, the job does from then on. -/
theorem Doing.since_part (doing : course.Doing s next p k c (.call i goesOn)) (own : part i)
    (back : ∀ {q e x}, course.Returns (s.inner next c (.call i goesOn)) k q e x →
      course.Since part kind s p (q + 1) [])
    (inner : course.Since part kind (s.inner next c (.call i goesOn)) k (k + 1) ds) :
    course.Since part kind s p (k + 1) ds where
  does_iff {l d} late special := by
    rw [← inner.does_iff late special]
    have calls' : course.Calls k _ i goesOn := ⟨doing.running, rfl⟩
    constructor
    · rintro ⟨t, itself, deed⟩
      rcases calls'.busy_or_returned late itself.busy.runs with inside | ⟨q, e, x, before, returns⟩
      · exact ⟨t, ⟨inside, fun below called above =>
          itself.parts (doing.busy.trans below) called above⟩, deed⟩
      · cases ((back returns).does_iff before special).mp ⟨t, itself, deed⟩
    · rintro ⟨t, itself, deed⟩
      refine ⟨t, ⟨doing.busy.trans itself.busy, ?_⟩, deed⟩
      intro l' u i' goesOn' below called above
      -- whatever was called before the part lies below the job, and above it lies the part
      rcases Nat.lt_trichotomy l' k with early | rfl | late'
      · have lower := below.above
        have higher := above.within k _ early late ⟨doing.running, below.runs.2.symm⟩
        simp only [List.length_cons] at higher
        omega
      · cases Option.some.inj (doing.running.symm.trans called.running)
        cases called.code
        exact own
      · refine itself.parts ⟨late', itself.busy.within.mono (Nat.le_of_lt above.after),
          ⟨called.running, below.runs.2⟩, ?_⟩ called above
        exact itself.busy.within l' u late' above.after ⟨called.running, below.runs.2⟩
  since := inner.since
  ordered := inner.ordered

/-! ## Requests -/

/-- The request that the running strand makes at one time is answered at another one: then the
strand runs again, for the first time, and goes on with the answer. -/
def Answered (course : Course b env) (a : Nat) (r : Request) (k : Nat)
    (reply : Except Fault r.Reply) : Prop :=
  ∃ t goesOn, (course.state a).running? = some t ∧ t.code = .wait r goesOn ∧ a < k ∧
    (∀ i u, a < i → i < k → ¬ course.Runs t.id i u) ∧
    (course.state k).running? = some { t with code := goesOn reply }

/-- A strand that has got its answer goes on inside of the job, and has done nothing meanwhile. -/
theorem Answered.doing {r : Request} {reply : Except Fault r.Reply}
    {goesOn : Except Fault r.Reply → Code}
    (answered : course.Answered k r l reply)
    (doing : course.Doing s next p k c (.wait r goesOn)) :
    k < l ∧ course.Doing s next p l c (goesOn reply) ∧
      ∀ {part kind}, course.Quiet part kind s p (k + 1) l := by
  obtain ⟨t, goesOn', running, code, after, still, again⟩ := answered
  cases Option.some.inj (doing.running.symm.trans running)
  cases code
  refine ⟨after, ⟨Nat.lt_trans doing.after after, ?_, again⟩, ?_⟩
  · exact doing.busy.within_of fun i u early before runs => absurd runs (still i u early before)
  · rintro part kind i d early before - ⟨u, itself, -⟩
    exact still i u early before itself.busy.runs

/-! ## Getting through attempts -/

/-- From that time on an attempt is got through and ends like this, and meanwhile the job does
nothing of a kind by itself. -/
def Goes {α : Type} (course : Course b env) (part : Job → Prop) (kind : Deed → Prop) (s : Strand)
    (next : Continuation) (p k : Nat) (c : Context) (x : Attempt α)
    (Q : Nat → Context → Except Fault α → Prop) : Prop :=
  course.Gets s next p k c x fun l d r => course.Quiet part kind s p k l ∧ Q l d r

section Goes

variable {α β : Type} {Q : Nat → Context → Except Fault β → Prop}

theorem goes_mono {P : Nat → Context → Except Fault β → Prop} {x : Attempt β}
    (hx : course.Goes part kind s next p k c x P) (weaker : ∀ l d r, k ≤ l → P l d r → Q l d r) :
    course.Goes part kind s next p k c x Q :=
  gets_mono hx fun l d r le held => ⟨held.1, weaker l d r le held.2⟩

theorem goes_ofExcept {r : Except Fault β} (h : Q k c r) :
    course.Goes part kind s next p k c (Attempt.ofExcept r) Q :=
  gets_ofExcept ⟨.refl k, h⟩

theorem goes_pure {a : β} (h : Q k c (.ok a)) : course.Goes part kind s next p k c (pure a) Q :=
  goes_ofExcept h

theorem goes_bind {P : Nat → Context → Except Fault α → Prop} {x : Attempt α} {g : α → Attempt β}
    (hx : course.Goes part kind s next p k c x P)
    (ok : ∀ l d a, k ≤ l → P l d (.ok a) → course.Goes part kind s next p l d (g a) Q)
    (error : ∀ l d e, P l d (.error e) → Q l d (.error e)) :
    course.Goes part kind s next p k c (x >>= g) Q :=
  gets_bind hx
    (fun l d a le held => gets_mono (ok l d a le held.2) fun _ _ _ _ held' =>
      ⟨held.1.trans held'.1, held'.2⟩)
    fun l d e held => ⟨held.1, error l d e held.2⟩

theorem goes_tryCatch {x : Attempt β} {h : Fault → Attempt β}
    {P : Nat → Context → Except Fault β → Prop} (hx : course.Goes part kind s next p k c x P)
    (ok : ∀ l d a, P l d (.ok a) → Q l d (.ok a))
    (error : ∀ l d e, k ≤ l → P l d (.error e) → course.Goes part kind s next p l d (h e) Q) :
    course.Goes part kind s next p k c (tryCatch x h) Q := by
  refine gets_run_bind hx fun l d r le held => ?_
  cases r with
  | ok a => exact gets_pure ⟨held.1, ok l d a held.2⟩
  | error e =>
    exact gets_mono (error l d e le held.2) fun _ _ _ _ held' =>
      ⟨held.1.trans held'.1, held'.2⟩

/-- An act takes one move, and leaves the machine as it does. -/
theorem goes_act {a : Act} {Q : Nat → Context → Except Fault a.Reply → Prop}
    (other : ¬ kind (.act a))
    (ends : course.Does part s p (.act a) k → ∀ running?, course.state (k + 1)
        = { (Machine.perform b env (course.state k) c a).2.2 with running? } →
      Q (k + 1) (Machine.perform b env (course.state k) c a).2.1
        (.ok (Machine.perform b env (course.state k) c a).1)) :
    course.Goes part kind s next p k c (Attempt.act a) Q := by
  intro f doing
  have quiet : course.Quiet part kind s p k (k + 1) := by
    refine doing.quiet fun d deed => ?_
    cases deed
    exact other
  obtain ⟨doing', running?, eq⟩ := Doing.acts doing
  exact ⟨k + 1, _, _, Nat.le_succ k, doing', quiet, ends (doing.does_iff.mpr rfl) _ eq⟩

/-- A job that is called, and returns, has been got through. -/
theorem goes_call {i : Job} {Q : Nat → Context → Except Fault Value → Prop} (other : ¬ part i)
    (other' : ¬ kind (.call i))
    (ends : ∀ t goesOn, course.Itself part s p k t → t.context = c → course.Calls k t i goesOn →
      ∃ q d x, course.Returns t k q d x ∧ Q (q + 1) d x) :
    course.Goes part kind s next p k c (Attempt.call i) Q := by
  intro f doing
  obtain ⟨q, d, x, returns, held⟩ := ends _ _ doing.itself rfl ⟨doing.running, rfl⟩
  have quiet : course.Quiet part kind s p k (k + 1) := by
    refine doing.quiet fun d deed => ?_
    cases deed
    exact other'
  obtain ⟨_, busy, -⟩ := id returns
  exact ⟨q + 1, d, x, Nat.le_succ_of_le (Nat.le_of_lt busy.after), doing.of_returns returns,
    quiet.trans (doing.quiet_of_returns other returns), held⟩

end Goes

/-! ## What is kept -/

/-- From one time to another the node has kept these things and no others, and no new epoch has
begun, unless the job has called a stop. -/
structure Keeps (course : Course b env) (part : Job → Prop) (s : Strand) (p : Nat) (node : String)
    (memos : List Memo) (k l : Nat) : Prop where
  le : k ≤ l
  scratch : (course.state l).scratchOf node
    = memos.foldl Scratch.keep ((course.state k).scratchOf node)
  epoch : (course.state l).epoch = (course.state k).epoch ∨
    ∃ i, k ≤ i ∧ i < l ∧ course.Does part s p (.call .stop) i

namespace Keeps

variable {node : String} {memos memos' : List Memo}

theorem refl (k : Nat) : course.Keeps part s p node [] k k := ⟨Nat.le_refl k, rfl, .inl rfl⟩

theorem trans (first : course.Keeps part s p node memos k l)
    (second : course.Keeps part s p node memos' l m) :
    course.Keeps part s p node (memos ++ memos') k m where
  le := Nat.le_trans first.le second.le
  scratch := by rw [second.scratch, first.scratch, List.foldl_append]
  epoch := by
    rcases second.epoch with same | ⟨i, after, before, stops⟩
    · rcases first.epoch with same' | ⟨i, after, before, stops⟩
      · exact .inl (same.trans same')
      · exact .inr ⟨i, after, Nat.lt_of_lt_of_le before second.le, stops⟩
    · exact .inr ⟨i, Nat.le_trans first.le after, before, stops⟩

end Keeps

theorem Doing.act?_eq (doing : course.Doing s next p k c code) {a : Act}
    (acts : (course.state k).act? = some a) : code.deed? = some (.act a) := by
  rw [Machine.act?, doing.running] at acts
  obtain ⟨goesOn, rfl⟩ := Strand.code_of_act? acts
  rfl

/-- A move that is neither a stop nor lets anything be kept leaves all of it alone. -/
theorem Doing.keeps (doing : course.Doing s next p k c code) (node : String)
    (other : ∀ node memo, code.deed? ≠ some (.act (.remember node memo)))
    (other' : code.deed? ≠ some (.act .markStopped)) :
    course.Keeps part s p node [] k (k + 1) where
  le := Nat.le_succ k
  scratch := by
    unfold Machine.scratchOf
    rw [(course.move k).scratch_eq fun node memo acts => other node memo (doing.act?_eq acts)]
    rfl
  epoch := .inl ((course.move k).epoch_eq fun acts => other' (doing.act?_eq acts))

/-! ## Talk -/

/-- Every stop that a listener orders while the job is at work comes to an end. -/
def OrdersEnd (course : Course b env) (part : Job → Prop) (s : Strand) (p : Nat) : Prop :=
  ∀ {k t goesOn}, course.Itself part s p k t → course.Calls k t .stop goesOn →
    ∃ q d x, course.Returns t k q d x

/-- To stop the app leaves alone what nodes have kept. -/
theorem Returns.scratch_eq {q : Nat} {d : Context} {x : Except Fault Value}
    (returns : course.Returns t k q d x) (calls : course.Calls k t .stop goesOn) :
    (course.state (q + 1)).scratch = (course.state k).scratch := by
  refine returns.of_stop (R := fun i l => (course.state l).scratch = (course.state i).scratch)
    (fun _ => rfl) (fun h h' => h'.trans h) (fun {k t} running _ own => ?_) calls rfl
  refine (course.move k).scratch_eq fun node memo acts => ?_
  rw [Machine.act?, running] at acts
  obtain ⟨_, code⟩ := Strand.code_of_act? acts
  cases own _ (congrArg Script.deed? code)

section Talk

variable (orders : course.OrdersEnd part s p) (other : ¬ part .stop)
  (echo : ∀ d, d.isEcho = true → ¬ kind d) (app : String) (level : Level) (message : Value)
  (node : String)

include orders other echo

/-- What a listener is told and orders is none of the job's own deeds of the kind. -/
theorem goes_tell :
    course.Goes part kind s next p k c (Attempt.tell app level message) fun l d r =>
      (d = c ∧ course.Keeps part s p node [] k l) ∧ r = .ok () := by
  refine gets_mono (gets_tell (R := fun k l => course.Quiet part kind s p k l ∧
      course.Keeps part s p node [] k l) (fun k => ⟨.refl k, .refl k⟩)
    (fun h h' => ⟨h.1.trans h'.1, h.2.trans h'.2⟩) (fun doing told => ⟨doing.quiet ?_,
      doing.keeps node ?_ ?_⟩) (fun k => ?_) app level message)
    fun l d r _ held => ⟨held.1.1.1, ⟨held.1.2, held.1.1.2⟩, held.2⟩
  · rintro _ ⟨⟩
    exact echo _ told
  · rintro node memo ⟨⟩
    cases told
  · rintro ⟨⟩
    cases told
  · refine gets_mono (goes_call (Q := fun l d _ => d = c ∧ course.Keeps part s p node [] k l) other
      (echo _ rfl) ?_) fun l d _ _ held => ⟨⟨held.1, held.2.2⟩, held.2.1⟩
    intro t goesOn itself same calls
    obtain ⟨q, d, x, returns⟩ := orders itself calls
    obtain ⟨_, busy, -⟩ := id returns
    have stops : course.Does part s p (.call .stop) k := ⟨t, itself, by rw [calls.code]; rfl⟩
    have later : k ≤ q + 1 := Nat.le_succ_of_le (Nat.le_of_lt busy.after)
    refine ⟨q, d, x, returns, (returns.yields calls).1.1.trans same, later, ?_,
      .inr ⟨k, Nat.le_refl k, Nat.lt_succ_of_lt busy.after, stops⟩⟩
    unfold Machine.scratchOf
    rw [returns.scratch_eq calls]
    rfl

/-- An entry that is not of the kind is made in the log. -/
theorem goes_log (entry : ¬ kind (.act (.journal level message))) :
    course.Goes part kind s next p k c (Attempt.log app level message) fun l d r =>
      (d = c ∧ course.Keeps part s p node [] k l) ∧ r = .ok () := by
  rw [Attempt.log_eq]
  refine goes_bind (P := fun l d r => (d = c ∧ course.Keeps part s p node [] k l) ∧ ∃ u, r = .ok u)
    (goes_act entry fun _ running? eq => ⟨⟨rfl, Nat.le_succ k, by rw [eq]; rfl, .inl ?_⟩, _, rfl⟩)
    ?_ ?_
  · rw [eq]
    rfl
  · rintro l d _ - ⟨⟨rfl, kept⟩, -⟩
    refine goes_mono (goes_tell orders other echo app level message node) ?_
    rintro l' d' r - ⟨⟨rfl, kept'⟩, ended⟩
    exact ⟨⟨rfl, kept.trans kept'⟩, ended⟩
  · rintro l d e ⟨-, u, ⟨⟩⟩

end Talk

/-- As long as the chain is current, no listener orders a stop. -/
theorem Current.ordersEnd (current : course.Current s p) : course.OrdersEnd part s p := by
  intro k t goesOn itself calls
  have doing := calls.doing_void rfl
  obtain ⟨doing', running?, eq⟩ := Doing.acts doing
  have before := current _ _ (itself.busy.trans doing.busy)
  have after := current _ _ (itself.busy.trans doing'.busy)
  have new : (course.state (k + 1 + 1)).epoch = (course.state (k + 1)).epoch + 1 := by
    rw [eq]
    rfl
  omega

/-! ## Attempts with deeds of the kind -/

/-- What a job does by itself from the second time on is what it does from the first time on, after
these deeds. -/
def Joins (course : Course b env) (part : Job → Prop) (kind : Deed → Prop) (s : Strand)
    (p k l : Nat) (ds : List (Nat × Deed)) : Prop :=
  ∀ {ds'}, course.Since part kind s p l ds' → course.Since part kind s p k (ds ++ ds')

/-- From that time on an attempt is got through and ends like this, and meanwhile the job does by
itself just these deeds of a kind. -/
def Performs {α : Type} (course : Course b env) (part : Job → Prop) (kind : Deed → Prop)
    (s : Strand) (next : Continuation) (p k : Nat) (c : Context) (x : Attempt α)
    (Q : List (Nat × Deed) → Nat → Context → Except Fault α → Prop) : Prop :=
  course.Gets s next p k c x fun l d r =>
    ∃ ds, course.Joins part kind s p k l ds ∧ Q ds l d r

/-- The last thing that an attempt does is to run the wires of an output of the node, and before
that the job does by itself just these deeds of a kind. -/
def LeadsTo {α : Type} (course : Course b env) (part : Job → Prop) (kind : Deed → Prop)
    (s : Strand) (next : Continuation) (p k : Nat) (c : Context) (x : Attempt α) (node : String)
    (Q : List (Nat × Deed) → String → Nat → Context → Prop) : Prop :=
  ∀ f : Except Fault α → Code, course.Doing s next p k c (x.run.bind f) →
    ∃ ds pin l d, ∃ g : Except Fault Value → Script (Except Fault α), k ≤ l ∧
      course.Doing s next p l d (.call (.fire node pin) fun r => (g r).bind f) ∧
      (∀ v, ∃ a, g (.ok v) = .ret (.ok a)) ∧ course.Joins part kind s p k l ds ∧ Q ds pin l d

theorem Quiet.joins (quiet : course.Quiet part kind s p k l) (le : k ≤ l) :
    course.Joins part kind s p k l [] :=
  fun since => since.of_quiet quiet le

theorem Joins.trans {ds ds' : List (Nat × Deed)} (first : course.Joins part kind s p k l ds)
    (second : course.Joins part kind s p l m ds') :
    course.Joins part kind s p k m (ds ++ ds') := by
  intro rest since
  rw [List.append_assoc]
  exact first (second since)

section Performs

variable {α β : Type} {P Q : List (Nat × Deed) → Nat → Context → Except Fault α → Prop}
  {x : Attempt α}

theorem performs_mono (hx : course.Performs part kind s next p k c x P)
    (weaker : ∀ ds l d r, P ds l d r → Q ds l d r) :
    course.Performs part kind s next p k c x Q :=
  gets_mono hx fun l d r _ ⟨ds, joins, held⟩ => ⟨ds, joins, weaker ds l d r held⟩

theorem performs_of_goes {P : Nat → Context → Except Fault α → Prop}
    (hx : course.Goes part kind s next p k c x P) :
    course.Performs part kind s next p k c x fun ds l d r => ds = [] ∧ P l d r :=
  gets_mono hx fun _ _ _ le ⟨quiet, held⟩ => ⟨[], quiet.joins le, rfl, held⟩

theorem performs_ofExcept {r : Except Fault α} (held : Q [] k c r) :
    course.Performs part kind s next p k c (Attempt.ofExcept r) Q :=
  gets_ofExcept ⟨[], fun since => since, held⟩

theorem performs_pure {a : α} (held : Q [] k c (.ok a)) :
    course.Performs part kind s next p k c (pure a) Q :=
  performs_ofExcept held

theorem performs_bind {Q : List (Nat × Deed) → Nat → Context → Except Fault β → Prop}
    {g : α → Attempt β} (hx : course.Performs part kind s next p k c x P)
    (ok : ∀ ds l d a, k ≤ l → P ds l d (.ok a) →
      course.Performs part kind s next p l d (g a) fun ds' => Q (ds ++ ds'))
    (error : ∀ ds l d e, P ds l d (.error e) → Q ds l d (.error e)) :
    course.Performs part kind s next p k c (x >>= g) Q := by
  refine gets_bind hx ?_ fun l d e ⟨ds, joins, held⟩ => ⟨ds, joins, error ds l d e held⟩
  rintro l d a le ⟨ds, joins, held⟩
  exact gets_mono (ok ds l d a le held) fun _ _ _ _ ⟨ds', joins', held'⟩ =>
    ⟨ds ++ ds', joins.trans joins', held'⟩

theorem leadsTo_mono {node : String}
    {P Q : List (Nat × Deed) → String → Nat → Context → Prop}
    (hx : course.LeadsTo part kind s next p k c x node P)
    (weaker : ∀ ds pin l d, P ds pin l d → Q ds pin l d) :
    course.LeadsTo part kind s next p k c x node Q := by
  intro f doing
  obtain ⟨ds, pin, l, d, g, le, doing', passes, joins, held⟩ := hx f doing
  exact ⟨ds, pin, l, d, g, le, doing', passes, joins, weaker ds pin l d held⟩

theorem leadsTo_bind {node : String}
    {Q : List (Nat × Deed) → String → Nat → Context → Prop} {g : α → Attempt β}
    (hx : course.Performs part kind s next p k c x P)
    (ok : ∀ ds l d a, k ≤ l → P ds l d (.ok a) →
      course.LeadsTo part kind s next p l d (g a) node fun ds' => Q (ds ++ ds'))
    (error : ∀ ds l d e, ¬ P ds l d (.error e)) :
    course.LeadsTo part kind s next p k c (x >>= g) node Q := by
  intro f doing
  obtain ⟨l, d, r, le, doing', ds, joins, held⟩ := hx _ (Script.bind_bind x.run _ f ▸ doing)
  cases r with
  | ok a =>
    obtain ⟨ds', pin, l', d', g', le', doing'', passes, joins', held'⟩ :=
      ok ds l d a le held f doing'
    exact ⟨ds ++ ds', pin, l', d', g', Nat.le_trans le le', doing'', passes, joins.trans joins',
      held'⟩
  | error e => exact absurd held (error ds l d e)

theorem performs_capture
    {Q : List (Nat × Deed) → Nat → Context → Except Fault (Except Fault α) → Prop}
    (hx : course.Performs part kind s next p k c x P)
    (ended : ∀ ds l d r, P ds l d r → Q ds l d (.ok r)) :
    course.Performs part kind s next p k c (Attempt.capture x) Q :=
  gets_run_bind hx fun l d r _ ⟨ds, joins, held⟩ => gets_pure ⟨ds, joins, ended ds l d r held⟩

/-- A request that is answered has been got through, and it is the only deed. -/
theorem performs_wait {r : Request}
    {Q : List (Nat × Deed) → Nat → Context → Except Fault r.Reply → Prop}
    (ends : course.Does part s p (.ask r) k →
      ∃ l reply, course.Answered k r l reply ∧ Q [(k, .ask r)] l c reply) :
    course.Performs part kind s next p k c (Attempt.wait r) Q := by
  intro f doing
  obtain ⟨l, reply, answered, held⟩ := ends (doing.does_iff.mpr rfl)
  obtain ⟨after, doing', quiet⟩ := answered.doing doing
  exact ⟨l, c, reply, Nat.le_of_lt after, doing', _,
    fun since => (since.of_quiet quiet after).cons doing rfl, held⟩

/-- An attempt gets to the wires that it runs. -/
theorem leadsTo_fire {node pin : String} {Q : List (Nat × Deed) → String → Nat → Context → Prop}
    (held : Q [] pin k c) :
    course.LeadsTo part kind s next p k c (Attempt.fire node pin) node Q :=
  fun _ doing =>
    ⟨[], pin, k, c, _, Nat.le_refl k, doing, fun _ => ⟨_, rfl⟩, fun since => since, held⟩

/-- What is done last is to run the wires. -/
theorem LeadsTo.since {node : String} {Q : List (Nat × Deed) → String → Nat → Context → Prop}
    {f : Except Fault α → Code}
    (leads : course.LeadsTo part kind s next p k c x node Q) (calls : course.Calls p s j next)
    (doing : course.Doing s next p k c (x.run.bind f)) (ends : ∀ a, ∃ y, f (.ok a) = .ret y)
    (other : ∀ pin, ¬ part (.fire node pin)) :
    ∃ ds pin l d, Q ds pin l d ∧
      course.Since part kind s p k (ds ++ [(l, .call (.fire node pin))]) := by
  obtain ⟨ds, pin, l, d, g, le, doing', passes, joins, held⟩ := leads f doing
  refine ⟨ds, pin, l, d, held, joins (Since.cons ?_ doing' rfl)⟩
  refine doing'.since_call (other pin) fun {q e x} returns => ?_
  obtain ⟨-, v, rfl⟩ := (returns.yields ⟨doing'.running, rfl⟩).1
  obtain ⟨a, passes⟩ := passes v
  obtain ⟨y, ends⟩ := ends a
  have back := doing'.of_returns returns
  rw [passes, Script.bind, ends] at back
  exact back.since_ret calls

end Performs

/-! ## Nodes -/

/-- A node that is executed gives notice and does what it is for; if this fails it writes so into
the log. -/
theorem Calls.doing_perform (part : Job → Prop) (kind : Deed → Prop) {id : String}
    {pin? : Option String} {n : Node} {of : NodeKind}
    (calls : course.Calls p s (.execute id pin?) next) (found : b.circuit.node? id = some n)
    (named : NodeKind.ofName? n.kind = some of)
    (other : ∀ notice, ¬ kind (.act (.notice notice))) :
    course.Quiet part kind s p (p + 1) (p + 2) ∧ ∃ f : Except Fault Unit → Script _,
      course.Doing s next p (p + 2) s.context ((b.perform n of).run.bind f) ∧
      (∀ u, f (.ok u) = .ret (.ok .null)) ∧
      ∀ e, f (.error e) = (b.log .error s!"Error in node {n.kind} ({id}): {e.message}").run.bind
        fun r => .ret (r.map fun _ => .null) := by
  have body : ∃ notice, b.execute id pin? = (Attempt.act (.notice notice) >>= fun _ =>
      tryCatch (b.perform n of) fun f =>
        b.log .error s!"Error in node {n.kind} ({id}): {f.message}") := by
    simp only [Board.execute, found, named]
    exact ⟨_, rfl⟩
  obtain ⟨notice, body⟩ := body
  have doing := calls.doing_void (congrArg Attempt.void body)
  obtain ⟨g, caught, ok, error⟩ := Attempt.exists_run_tryCatch (b.perform n of) fun f =>
    b.log .error s!"Error in node {n.kind} ({id}): {f.message}"
  have doing' : course.Doing s next p (p + 2) s.context
      (((b.perform n of).run.bind g).bind fun r => .ret (r.map fun _ => .null)) := by
    rw [← caught]
    exact (Doing.acts doing).1
  rw [Script.bind_bind] at doing'
  refine ⟨doing.quiet ?_, _, doing', fun u => by rw [ok]; rfl, fun e => by rw [error]⟩
  rintro _ ⟨⟩
  exact other notice

end Course

end Wireboard
