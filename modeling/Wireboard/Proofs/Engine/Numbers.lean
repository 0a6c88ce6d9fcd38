import Wireboard.Proofs.Engine.Run

/-!
# Every strand has a number of its own

A strand is told from others by its number.  That this works is an invariant: no number is borne by
two strands at once, and none is given out twice, because numbers are counted up
(`Machine.Numbered`).  A strand that waits is a place in the queue or among the calls; the code with
which it will go on may still hang on an answer, but its number, its context and its stack do not.

So whatever is said of the strand with a number, at different times, is said of one strand.
-/

namespace Wireboard

variable {σ : Type} {b : Board} {env : Surroundings σ} {m m' : Machine σ} {s t : Strand}

variable {number : Nat} {turn : Turn}

theorem Turn.isOf_of_strand? (about : turn.strand?.map (·.id) = some number) (id : Nat) :
    turn.isOf id = (number == id) := by
  obtain ⟨s, eq, rfl⟩ := Option.map_eq_some_iff.mp about
  simp [isOf, eq]

namespace Machine

/-- Strands go on or end, and one at most comes in, with the next number. -/
structure Succeeds (m m' : Machine σ) : Prop where
  tally : ∀ id, m'.tally id ≤ m.tally id + if id = m.nextId ∧ m.nextId < m'.nextId then 1 else 0
  nextId : m.nextId ≤ m'.nextId

theorem Numbered.of_succeeds (h : m.Numbered) (succeeds : m.Succeeds m') : m'.Numbered where
  once id := by
    have bound := succeeds.tally id
    have once := h.once id
    have unborne : id = m.nextId → m.tally id = 0 := fun eq => h.unborne (Nat.le_of_eq eq.symm)
    split at bound
    next new => have := unborne new.1; omega
    next => omega
  unborne {id} ge := by
    have bound := succeeds.tally id
    have old := h.unborne (Nat.le_trans succeeds.nextId ge)
    rw [if_neg (by omega)] at bound
    omega

/-- Nobody comes in. -/
theorem Succeeds.of_le (nextId : m.nextId ≤ m'.nextId) (le : ∀ id, m'.tally id ≤ m.tally id) :
    m.Succeeds m' :=
  ⟨fun id => Nat.le_trans (le id) (Nat.le_add_right _ _), nextId⟩

/-! ## Steps -/

@[simp] theorem tally_enqueue (m : Machine σ) (t : Turn) (id : Nat) :
    (m.enqueue t).tally id = m.tally id + if t.isOf id then 1 else 0 := by
  simp only [tally, enqueue, List.countP_append, List.countP_singleton]
  omega

theorem succeeds_enqueue (m : Machine σ) {t : Turn} (none : t.strand? = none) :
    m.Succeeds (m.enqueue t) := by
  refine .of_le (Nat.le_refl _) fun id => ?_
  simp [Turn.isOf, none]

/-- The strand that is spawned has the next number. -/
theorem succeeds_spawn (m : Machine σ) (label? : Option Nat) (tracked : Bool) (context : Context)
    (code : Code) : m.Succeeds (m.spawn label? tracked context code) where
  tally id := by
    refine Nat.le_of_eq ((tally_enqueue _ _ id).trans ?_)
    have later : m.nextId < m.nextId + 1 := Nat.lt_succ_self _
    simp only [Turn.isOf, Turn.strand?, Option.any_some, beq_iff_eq, tally, eq_comm (b := id),
      spawn, enqueue, later, and_true]
  nextId := Nat.le_succ _

theorem succeeds_perform (b : Board) (env : Surroundings σ) (m : Machine σ) (c : Context)
    (a : Act) : m.Succeeds (perform b env m c a).2.2 := by
  cases a with
  | dispatch type target => exact succeeds_spawn m _ _ _ _
  | arm node period? repeats =>
    refine .of_le (Nat.le_succ _) fun id => ?_
    simp only [perform, arm, tally_enqueue]
    exact Nat.le_refl _
  | mark => exact .of_le (Nat.le_succ _) fun _ => Nat.le_refl _
  | setResult v | enter key | callback cb =>
    simp only [perform]
    split <;> exact .of_le (Nat.le_refl _) fun _ => Nat.le_refl _
  | _ => exact .of_le (Nat.le_refl _) fun _ => Nat.le_refl _

/-- How many strands bear a number where one of them is running. -/
theorem tally_running (m : Machine σ) (s : Strand) (id : Nat) :
    { m with running? := some s }.tally id
      = { m with running? := none }.tally id + if s.id == id then 1 else 0 := by
  simp only [tally, Option.toList_some, Option.toList_none, List.countP_singleton, List.countP_nil]
  omega

theorem tally_of_running (running : m.running? = some s) (id : Nat) :
    m.tally id = { m with running? := none }.tally id + if s.id == id then 1 else 0 := by
  rw [← tally_running, ← running]

theorem tally_idle_le (m : Machine σ) (id : Nat) :
    { m with running? := none }.tally id ≤ m.tally id := by
  simp only [tally, Option.toList_none, List.countP_nil]
  omega

theorem tally_run_le (m : Machine σ) (s : Strand) (id : Nat) :
    { m with running? := some s }.tally id ≤ m.tally id + if s.id == id then 1 else 0 := by
  rw [tally_running]
  exact Nat.add_le_add_right (tally_idle_le m id) _

/-- A strand that is put somewhere is one more with its number. -/
theorem Puts.tally_le {becomes : Strand → Prop} (puts : m.Puts becomes number m') (id : Nat) :
    m'.tally id ≤ m.tally id + if number == id then 1 else 0 := by
  cases puts with
  | @runs s outside history _ same => exact same ▸ tally_run_le { m with outside, history } s id
  | queues _ about =>
    rw [tally_enqueue, Turn.isOf_of_strand? about]
    exact Nat.le_refl _
  | waits _ same =>
    simp only [tally, List.countP_append, List.countP_singleton, same]
    omega

theorem Puts.nextId_eq {becomes : Strand → Prop} (puts : m.Puts becomes number m') :
    m'.nextId = m.nextId := by
  cases puts <;> rfl

theorem tally_finish_le (m : Machine σ) (s : Strand) (r : Except Fault Value) :
    (m.finish s r).nextId = m.nextId ∧ ∀ id, (m.finish s r).tally id ≤ m.tally id := by
  obtain ⟨finished, eq⟩ := exists_finish_eq m s r
  rw [eq]
  refine ⟨rfl, fun id => Nat.le_trans (Nat.le_of_eq ?_) (tally_idle_le m id)⟩
  simp only [tally, List.countP_append]
  split <;> simp [Turn.isOf, Turn.strand?]

@[simp] theorem perform_running? (b : Board) (env : Surroundings σ) (m : Machine σ) (c : Context)
    (a : Act) : (perform b env m c a).2.2.running? = m.running? := by
  cases a with
  | setResult v | enter key | callback cb =>
    simp only [perform]
    split <;> rfl
  | _ => rfl

theorem succeeds_stepStrand (running : m.running? = some s) :
    m.Succeeds (m.stepStrand b env s) := by
  have held := tally_of_running running
  -- the strand goes on with the number it has
  have same {s' : Strand} (number : s'.id = s.id) : m.Succeeds { m with running? := some s' } := by
    refine .of_le (Nat.le_refl _) fun id => Nat.le_of_eq ?_
    rw [tally_running, number, held id]
  unfold stepStrand
  split
  next r code =>
    split
    next =>
      obtain ⟨nextId, fewer⟩ := tally_finish_le m s r
      exact .of_le (Nat.le_of_eq nextId.symm) fewer
    next => exact same rfl
  next a next code =>
    have done := succeeds_perform b env m s.context a
    refine ⟨fun id => ?_, done.nextId⟩
    have bound := done.tally id
    rw [tally_of_running ((perform_running? b env m s.context a).trans running)] at bound
    exact Nat.le_trans (Nat.le_of_eq (tally_running _ _ id)) bound
  next r next code =>
    have puts := puts_request env m s r next
    exact .of_le (Nat.le_of_eq puts.nextId_eq.symm) fun id => held id ▸ puts.tally_le id
  next => exact same rfl

/-! ## Turns -/

theorem tally_of_queue {rest : List Turn} (queue : m.queue = turn :: rest) (id : Nat) :
    m.tally id = { m with queue := rest }.tally id + if turn.isOf id then 1 else 0 := by
  simp only [tally, queue, List.countP_cons]
  omega

@[simp] theorem tally_retire (m : Machine σ) (strand id : Nat) :
    (m.retire strand).tally id = m.tally id := by
  have looks (ws : List Waiter) :
      (ws.map fun w => Turn.checkIdle w.label).countP (·.isOf id) = 0 := by
    simp [List.countP_eq_zero, Turn.isOf, Turn.strand?]
  simp only [tally, retire, List.countP_append, looks, Nat.add_zero]

theorem succeeds_tick (m : Machine σ) (id : Nat) : m.Succeeds (m.tick id) := by
  unfold tick
  split
  · exact .of_le (Nat.le_refl _) fun _ => Nat.le_refl _
  next timer found =>
    have spawned := succeeds_spawn m none true m.freshContext (jobCode (.chain timer.node))
    exact ⟨spawned.tally, spawned.nextId⟩

/-- Taking a turn leaves the strands that are not concerned, and takes up the one that is. -/
theorem tally_take_le (m : Machine σ) (turn : Turn) (id : Nat) :
    (m.take env turn).tally id ≤ m.tally id + (if turn.isOf id then 1 else 0)
      + if id = m.nextId ∧ m.nextId < (m.take env turn).nextId then 1 else 0 := by
  have quiet {m' : Machine σ} (le : m'.tally id ≤ m.tally id + if turn.isOf id then 1 else 0) :
      m'.tally id ≤ m.tally id + (if turn.isOf id then 1 else 0)
        + if id = m.nextId ∧ m.nextId < m'.nextId then 1 else 0 :=
    Nat.le_trans le (Nat.le_add_right _ _)
  cases turn with
  | run | lookUp | answer => exact quiet ((puts_take env m rfl).tally_le id)
  | windUp timer => exact quiet (Nat.le_refl _)
  | tick timer => exact (succeeds_tick m timer).tally id
  | retire strand => exact quiet (Nat.le_of_eq (tally_retire m strand id))
  | checkIdle label =>
    obtain ⟨finished, waiters, eq⟩ := checkIdle_cases m label
    refine quiet ?_
    rw [take, eq]
    exact Nat.le_refl _

theorem nextId_le_take (m : Machine σ) (turn : Turn) : m.nextId ≤ (m.take env turn).nextId := by
  cases turn with
  | run | lookUp | answer => exact Nat.le_of_eq (puts_take env m rfl).nextId_eq.symm
  | tick timer => exact (succeeds_tick m timer).nextId
  | checkIdle label =>
    obtain ⟨finished, waiters, eq⟩ := checkIdle_cases m label
    exact Nat.le_of_eq (by rw [take, eq])
  | windUp timer | retire strand => exact Nat.le_refl _

/-! ## Impulses -/

/-- A call that is taken out of those that wait is put into the queue. -/
theorem tally_requeue_le {c : Call} (member : c ∈ m.calls)
    (strand : turn.strand?.map (·.id) = some c.strand.id) (id : Nat) :
    ({ m with calls := m.calls.filter (·.strand.id != c.strand.id) }.enqueue turn).tally id
      ≤ m.tally id := by
  rw [tally_enqueue, Turn.isOf_of_strand? strand]
  simp only [tally]
  by_cases same : c.strand.id = id
  · subst same
    have gone : (m.calls.filter (·.strand.id != c.strand.id)).countP
        (·.strand.id == c.strand.id) = 0 := by
      simp [List.countP_eq_zero]
    have here : 0 < m.calls.countP (·.strand.id == c.strand.id) :=
      List.countP_pos_iff.mpr ⟨c, member, by simp⟩
    simp only [gone, beq_self_eq_true, if_true]
    omega
  · have fewer : (m.calls.filter (·.strand.id != c.strand.id)).countP (·.strand.id == id)
        ≤ m.calls.countP (·.strand.id == id) :=
      List.Sublist.countP_le List.filter_sublist
    simp only [beq_iff_eq, same, if_false]
    omega

theorem tally_ring_le (m : Machine σ) (alarm : Alarm) :
    (m.ring alarm).nextId = m.nextId ∧ ∀ id, (m.ring alarm).tally id ≤ m.tally id := by
  cases alarm with
  | timer id => exact ⟨rfl, fun id => Nat.le_of_eq (tally_enqueue _ _ id)⟩
  | deadline strand =>
    simp only [ring]
    split
    · exact ⟨rfl, fun _ => Nat.le_refl _⟩
    next c found =>
      have number : c.strand.id = strand := by
        simpa using List.find?_some found
      rw [← number]
      exact ⟨rfl, fun id => tally_requeue_le (List.mem_of_find?_eq_some found) rfl id⟩

theorem succeeds_reach (m : Machine σ) (time : Rat) : m.Succeeds (m.reach time) := by
  have rings (alarms : List Alarm) (m' : Machine σ) :
      (alarms.foldl ring m').nextId = m'.nextId ∧
        ∀ id, (alarms.foldl ring m').tally id ≤ m'.tally id := by
    induction alarms generalizing m' with
    | nil => exact ⟨rfl, fun _ => Nat.le_refl _⟩
    | cons a rest ih =>
      obtain ⟨nextId, fewer⟩ := tally_ring_le m' a
      exact ⟨(ih _).1.trans nextId, fun id => Nat.le_trans ((ih _).2 id) (fewer id)⟩
  obtain ⟨nextId, fewer⟩ := rings (m.alarmsAt time) { m with now := time }
  exact .of_le (Nat.le_of_eq nextId.symm) fewer

theorem succeeds_receive (idle : m.running? = none) (i : Impulse) : m.Succeeds (m.receive i) := by
  have interrupts (j : Job) : m.Succeeds (m.interrupt j) := by
    refine ⟨fun id => ?_, Nat.le_succ _⟩
    have later : m.nextId < m.nextId + 1 := Nat.lt_succ_self _
    simp only [tally, interrupt, newcomer, idle, Option.toList_some, Option.toList_none,
      List.countP_singleton, List.countP_nil, beq_iff_eq, later, and_true, eq_comm (b := id)]
    omega
  cases i with
  | enter label? tracked frames e => exact succeeds_spawn m _ _ _ _
  | stop => exact interrupts .stop
  | log level message => exact interrupts (.log level message)
  | awaitIdle label => exact succeeds_enqueue m rfl
  | assign name v => exact .of_le (Nat.le_refl _) fun _ => Nat.le_refl _
  | release wanted reply =>
    rcases release_cases m wanted reply with eq | ⟨c, member, eq⟩
    · rw [receive, eq]
      exact .of_le (Nat.le_refl _) fun _ => Nat.le_refl _
    · rw [receive, eq]
      exact .of_le (Nat.le_refl _) fun id => tally_requeue_le member rfl id
  | pass time => exact succeeds_reach m time

/-! ## Moves -/

theorem Moves.succeeds {impulse? : Option Impulse} (move : m.Moves b env impulse? m') :
    m.Succeeds m' := by
  rcases move.cases with ⟨i, -, idle, rfl⟩ | ⟨s, running, rfl⟩ | ⟨turn, rest, -, queue, rfl⟩
  · exact succeeds_receive idle i
  · exact succeeds_stepStrand running
  · refine ⟨fun id => ?_, nextId_le_take { m with queue := rest } turn⟩
    rw [tally_of_queue queue id]
    exact tally_take_le { m with queue := rest } turn id

/-! ## One strand for a number -/

/-- What a turn holds of a strand does not hang on an answer, but for the code. -/
theorem isOf_of_holds (holds : turn.Holds s) :
    turn.isOf s.id = true ∧
      ∀ u, turn.strand? = some u → s.context = u.context ∧ s.stack = u.stack := by
  cases turn with
  | run laps u =>
    cases (holds : s = u)
    exact ⟨by simp [Turn.isOf, Turn.strand?], fun _ eq => by cases eq; exact ⟨rfl, rfl⟩⟩
  | lookUp c | answer c reply? =>
    obtain ⟨reply, rfl⟩ := holds
    exact ⟨by simp [Turn.isOf, Turn.strand?], fun _ eq => by cases eq; exact ⟨rfl, rfl⟩⟩
  | windUp | tick | retire | checkIdle => exact holds.elim

theorem Waits.tally_pos (waits : m.Waits s) :
    0 < m.queue.countP (·.isOf s.id) + m.calls.countP (·.strand.id == s.id) := by
  rcases waits with ⟨turn, member, holds⟩ | ⟨c, member, reply, rfl⟩
  · exact Nat.add_pos_left (List.countP_pos_iff.mpr ⟨turn, member, (isOf_of_holds holds).1⟩) _
  · exact Nat.add_pos_right _ (List.countP_pos_iff.mpr ⟨c, member, by simp⟩)

/-- Two members of a list that are counted are one, if the count is one. -/
theorem eq_of_countP_le_one {α : Type} {p : α → Bool} {l : List α} (once : l.countP p ≤ 1) {x y : α}
    (hx : x ∈ l) (hy : y ∈ l) (px : p x = true) (py : p y = true) : x = y := by
  induction l with
  | nil => cases hx
  | cons z rest ih =>
    rw [List.countP_cons] at once
    have others {w : α} (hw : w ∈ rest) (pw : p w = true) : 0 < rest.countP p :=
      List.countP_pos_iff.mpr ⟨w, hw, pw⟩
    rcases List.mem_cons.mp hx with rfl | hx' <;> rcases List.mem_cons.mp hy with rfl | hy'
    · rfl
    · have := others hy' py
      rw [if_pos px] at once
      omega
    · have := others hx' px
      rw [if_pos py] at once
      omega
    · exact ih (by omega) hx' hy'

/-- The running strand is not one that waits. -/
theorem Numbered.ne_of_waits (numbered : m.Numbered) (running : m.running? = some s)
    (waits : m.Waits t) : s.id ≠ t.id := by
  intro same
  have once := numbered.once t.id
  have there := waits.tally_pos
  simp only [tally, running, Option.toList_some, List.countP_singleton, same, beq_self_eq_true,
    if_true] at once
  omega

/-- Of two strands with one number that wait, only the code may differ. -/
theorem Numbered.same_of_waits (numbered : m.Numbered) (hs : m.Waits s) (ht : m.Waits t)
    (same : s.id = t.id) : s.context = t.context ∧ s.stack = t.stack := by
  have once := numbered.once t.id
  simp only [tally] at once
  rcases hs with ⟨turn, member, holds⟩ | ⟨c, member, reply, rfl⟩ <;>
    rcases ht with ⟨turn', member', holds'⟩ | ⟨c', member', reply', rfl⟩
  · obtain ⟨isOf, held⟩ := isOf_of_holds holds
    obtain ⟨isOf', held'⟩ := isOf_of_holds holds'
    rw [same] at isOf
    cases eq_of_countP_le_one (p := fun turn => turn.isOf t.id) (by omega) member member' isOf isOf'
    obtain ⟨u, strand⟩ : ∃ u, turn.strand? = some u := by
      simp only [Turn.isOf, Option.any_eq_true] at isOf
      exact ⟨isOf.choose, isOf.choose_spec.1⟩
    obtain ⟨context, stack⟩ := held u strand
    obtain ⟨context', stack'⟩ := held' u strand
    exact ⟨context.trans context'.symm, stack.trans stack'.symm⟩
  · have here : 0 < m.queue.countP (·.isOf c'.strand.id) :=
      List.countP_pos_iff.mpr ⟨turn, member, by
        rw [← (same : s.id = c'.strand.id)]
        exact (isOf_of_holds holds).1⟩
    have there : 0 < m.calls.countP (·.strand.id == c'.strand.id) :=
      List.countP_pos_iff.mpr ⟨c', member', by simp⟩
    dsimp only at once
    omega
  · have here : 0 < m.queue.countP (·.isOf t.id) :=
      List.countP_pos_iff.mpr ⟨turn', member', (isOf_of_holds holds').1⟩
    have there : 0 < m.calls.countP (·.strand.id == t.id) :=
      List.countP_pos_iff.mpr ⟨c, member, by simpa using same⟩
    omega
  · cases eq_of_countP_le_one (by dsimp only at once; omega) member member'
      (p := fun c => c.strand.id == c'.strand.id) (by simpa using same) (by simp)
    exact ⟨rfl, rfl⟩

theorem Numbered.lt_nextId (numbered : m.Numbered) (bears : m.Bears s) : s.id < m.nextId := by
  refine Nat.lt_of_not_le fun ge => ?_
  have unborne := numbered.unborne ge
  simp only [tally] at unborne
  rcases bears with running | waits
  · simp only [running, Option.toList_some, List.countP_singleton, beq_self_eq_true,
      if_true] at unborne
    omega
  · have := waits.tally_pos
    omega

end Machine

/-- Along every course, every strand has a number of its own. -/
theorem Course.numbered (course : Course b env) (k : Nat) : (course.state k).Numbered := by
  induction k with
  | zero => exact course.first
  | succ k ih => exact ih.of_succeeds (course.move k).succeeds

/-- Numbers that were given out are not given out again. -/
theorem Course.nextId_mono (course : Course b env) {i j : Nat} (le : i ≤ j) :
    (course.state i).nextId ≤ (course.state j).nextId := by
  induction le with
  | refl => exact Nat.le_refl _
  | step _ ih => exact Nat.le_trans ih (course.move _).succeeds.nextId

end Wireboard
