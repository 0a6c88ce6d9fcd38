import Wireboard.Proofs.Circuit
import Wireboard.Proofs.Engine.Progress
import Wireboard.Proofs.Engine.Stopping

/-!
# One timer for each node

Starting an app sets a timer for each node that is one, and stopping it takes all timers away.  So a
node should never have two timers, and in an app that is not started it should have none.

The second half holds.  The first one has an exception, since starting takes its time.  It runs the
chains of the start triggers before it sets the timers, and a chain may wait.  If the app is stopped
meanwhile and started again, the first start finds a started app when its chains are done at last,
and sets the timers as well.  Its timers are those that were `Run.Overtaken`, and of two timers of a
node one is always of that sort (`Run.timers_set_once`).
-/

namespace Wireboard

variable {σ : Type} {b : Board} {env : Surroundings σ}

/-! ## Where timers come from -/

namespace Run

variable (run : Run b env) {i j k l id : Nat}

/-- The timer that there is at the second time was set at the first one, by a strand with that
number, and the app has not been stopped since. -/
structure SetAt (l k id : Nat) (timer : Timer) : Prop where
  before : l < k
  arms : run.Arms l id timer.node
  number : (run.state l).nextId = timer.id
  unstopped : ∀ h, l < h → h < k → (run.state h).act? ≠ some .markStopped

variable {run}

variable {timer : Timer}

theorem SetAt.later {timer' : Timer} (set : run.SetAt l k id timer)
    (same : timer.badge = timer'.badge) (other : (run.state k).act? ≠ some .markStopped) :
    run.SetAt l (k + 1) id timer' := by
  obtain ⟨number, node⟩ := Prod.mk.inj same
  refine ⟨Nat.lt_succ_of_lt set.before, node ▸ set.arms, set.number.trans number,
    fun h after le => ?_⟩
  rcases Nat.lt_succ_iff_lt_or_eq.mp le with earlier | rfl
  · exact set.unstopped h after earlier
  · exact other

variable (run)

/-- Every timer was set, and not taken away since. -/
theorem exists_setAt (member : timer ∈ (run.state k).timers) : ∃ l id, run.SetAt l k id timer := by
  induction k generalizing timer with
  | zero =>
    obtain ⟨outside, eq⟩ := run.fresh
    rw [eq] at member
    cases member
  | succ k ih =>
    rcases (run.move k).alters.timers with
      ⟨node, period?, repeats, acts, eq⟩ | ⟨-, none⟩ | ⟨other, fewer⟩
    · obtain ⟨s, running, arms⟩ := Option.bind_eq_some_iff.mp acts
      have new : run.Arms k s.id node := ⟨s, period?, repeats, running, rfl, arms⟩
      rw [eq] at member
      rcases List.mem_append.mp member with old | last
      · obtain ⟨l, id, set⟩ := ih old
        exact ⟨l, id, set.later rfl new.act?_ne⟩
      · cases List.mem_singleton.mp last
        exact ⟨k, s.id, Nat.lt_succ_self k, new, rfl, fun h after before => by omega⟩
    · rw [none] at member
      cases member
    · obtain ⟨timer', old, same⟩ := List.mem_map.mp (fewer.subset (List.mem_map_of_mem member))
      obtain ⟨l, id, set⟩ := ih old
      exact ⟨l, id, set.later same other⟩

variable {run}

/-- The number of a timer is not given out again. -/
theorem SetAt.lt_nextId (set : run.SetAt l k id timer) : timer.id < (run.state k).nextId := by
  obtain ⟨s, period?, repeats, running, -, arms⟩ := set.arms
  obtain ⟨next, code⟩ := Strand.code_of_act? arms
  have grows : (run.state (l + 1)).nextId = (run.state l).nextId + 1 := by
    rw [(run.move l).eq_acted running code]
    rfl
  have le : (run.state (l + 1)).nextId ≤ (run.state k).nextId := run.nextId_mono set.before
  have number := set.number
  omega

variable (run)

/-- No two timers have the same number. -/
theorem nodup_timers (k : Nat) : ((run.state k).timers.map Timer.id).Nodup := by
  induction k with
  | zero =>
    obtain ⟨outside, eq⟩ := run.fresh
    rw [eq]
    exact .nil
  | succ k ih =>
    rcases (run.move k).alters.timers with
      ⟨node, period?, repeats, -, eq⟩ | ⟨-, none⟩ | ⟨-, fewer⟩
    · rw [eq, List.map_append, List.nodup_append]
      refine ⟨ih, List.pairwise_singleton _ _, fun number old number' new => ?_⟩
      obtain ⟨timer, member, rfl⟩ := List.mem_map.mp old
      cases List.mem_singleton.mp new
      obtain ⟨l, id, set⟩ := run.exists_setAt member
      exact Nat.ne_of_lt set.lt_nextId
    · rw [none]
      exact .nil
    · have fewer' := fewer.map Prod.fst
      rw [List.map_map, List.map_map] at fewer'
      exact ih.sublist fewer'

/-! ## Starts that were overtaken -/

/-- What only one act puts an end to ends by this act. -/
theorem exists_act {P : Machine σ → Prop} {a : Act} (le : i ≤ j)
    (keeps : ∀ k, P (run.state k) → (run.state k).act? ≠ some a → P (run.state (k + 1)))
    (holds : P (run.state i)) (ends : ¬ P (run.state j)) :
    ∃ h, i ≤ h ∧ h < j ∧ (run.state h).act? = some a := by
  induction le with
  | refl => exact absurd holds ends
  | @step j le ih =>
    by_cases still : P (run.state j)
    · exact ⟨j, le, Nat.lt_succ_self j, Decidable.byContradiction fun other =>
        ends (keeps j still other)⟩
    · obtain ⟨h, after, before, acts⟩ := ih still
      exact ⟨h, after, Nat.lt_succ_of_lt before, acts⟩

variable {run}

/-- As long as there is a timer, the app is started. -/
theorem SetAt.started (set : run.SetAt l k id timer) : (run.state k).status = .started := by
  by_contra other
  obtain ⟨h, after, before, stops⟩ := run.exists_act (P := fun m => m.status = .started)
    (Nat.le_of_lt set.before) (fun k => (run.move k).started) set.arms.started other
  rcases Nat.lt_or_eq_of_le after with lt | rfl
  · exact set.unstopped h lt before stops
  · exact set.arms.act?_ne stops

variable (run)

/-- The strand that has set the timer had started the app before.  Since then, and before it has set
the timer, the app was stopped, and another strand has started it again. -/
def Overtaken (k : Nat) (timer : Timer) : Prop :=
  ∃ i h j l id id', i < h ∧ h < j ∧ j < l ∧ run.Marks i id ∧
    (run.state h).act? = some .markStopped ∧ run.Marks j id' ∧ id' ≠ id ∧ run.SetAt l k id timer

variable {run}

/-- Of two strands that have set timers which are still there, the one that was the first to start
the app was overtaken. -/
theorem SetAt.overtaken (distinct : ((b.circuit.nodesOf "onTimer").map Node.id).Nodup)
    {timer' : Timer} {id' l' i' : Nat} (set : run.SetAt l k id timer)
    (set' : run.SetAt l' k id' timer') (marks : run.Marks i id) (marks' : run.Marks i' id')
    (before : i' < l') (first : i < i') : run.Overtaken k timer := by
  -- the second one has found the app not started, so somebody has stopped it
  obtain ⟨h, after, earlier, stops⟩ := run.exists_act (P := fun m => m.status = .started) first
    (fun k => (run.move k).started) marks.started (marks'.first distinct).1
  -- the stop has not taken the timer of the first one, which was set afterwards
  have later : h < l := by
    have le : h ≤ l := Nat.le_of_not_lt fun lt =>
      set.unstopped h lt (Nat.lt_trans (Nat.lt_trans earlier before) set'.before) stops
    exact Nat.lt_of_le_of_ne le fun eq => set.arms.act?_ne (eq ▸ stops)
  -- by then the app was started again
  obtain ⟨j, after', earlier', starts⟩ := run.exists_act (P := fun m => m.status = .stopped) later
    (fun k => (run.move k).stopped) (run.hushed_of_stop stops).status
    (by rw [set.arms.started]; exact fun eq => by cases eq)
  obtain ⟨u, running, acts⟩ := Option.bind_eq_some_iff.mp starts
  have again : run.Marks j u.id := ⟨u, running, rfl, acts⟩
  have other : u.id ≠ id := by
    rintro rfl
    exact (again.first distinct).2 i (by omega) marks
  exact ⟨i, h, j, l, id, u.id, after, after', earlier', marks, stops, again, other, set⟩

/-- In an app that is not started there are no timers, and in one that is there are timers only for
nodes that are timers.  A node may have several of them, but all apart from one were set by strands
that had been overtaken. -/
theorem timers_set_once {config : Config} {app : App} (built : Board.ofApp config app = .ok b)
    (run : Run b env) (k : Nat) :
    ((run.state k).status ≠ .started → (run.state k).timers = []) ∧
      (∀ timer ∈ (run.state k).timers, ∃ n ∈ b.circuit.nodesOf "onTimer", n.id = timer.node) ∧
      (run.state k).timers.Pairwise fun timer timer' =>
        timer.node = timer'.node → run.Overtaken k timer ∨ run.Overtaken k timer' := by
  have distinct := Board.nodup_ids_nodesOf built "onTimer"
  refine ⟨fun idle => ?_, fun timer member => ?_, ?_⟩
  · refine List.eq_nil_iff_forall_not_mem.mpr fun timer member => idle ?_
    obtain ⟨l, id, set⟩ := run.exists_setAt member
    exact set.started
  · obtain ⟨l, id, set⟩ := run.exists_setAt member
    exact (set.arms.first distinct).1
  · refine List.Pairwise.imp_of_mem ?_ (List.pairwise_map.mp (run.nodup_timers k))
    intro timer timer' member member' other same
    obtain ⟨l, id, set⟩ := run.exists_setAt member
    obtain ⟨l', id', set'⟩ := run.exists_setAt member'
    obtain ⟨-, ⟨i, before, marks⟩, once⟩ := set.arms.first distinct
    obtain ⟨-, ⟨i', before', marks'⟩, once'⟩ := set'.arms.first distinct
    have apart : id ≠ id' := by
      rintro rfl
      rcases Nat.lt_trichotomy l l' with lt | rfl | lt
      · exact once' l lt (same ▸ set.arms)
      · exact other (set.number.symm.trans set'.number)
      · exact once l' lt (same ▸ set'.arms)
    rcases Nat.lt_trichotomy i i' with lt | rfl | lt
    · exact .inl (set.overtaken distinct set' marks marks' before' lt)
    · obtain ⟨s, running, number, -⟩ := marks
      exact absurd (number.symm.trans (marks'.act_eq running).1) apart
    · exact .inr (set'.overtaken distinct set marks' marks before lt)

end Run

/-! ## A clock with two timers -/

/-- A drawing with a timer, in which a chain of the start trigger reads the clipboard. -/
def relayApp : App where
  id := "relay"
  name := .str "relay"
  nodes := [{ id := "start", kind := "onAppStart" }, { id := "read", kind := "getClipboard" },
    { id := "clock", kind := "onTimer", properties := [("interval", .int 100)] }]
  wires := [.link "start" "exec" "read" "exec"]

def relayBoard : Board := relayApp.board

theorem relayBoard_built : Board.ofApp {} relayApp = .ok relayBoard := rfl

/-- While the clipboard has not been read the app is stopped, and started again.  Then both readers
get their answers. -/
def relayRun : Run relayBoard .silent :=
  .ofWishes _ _ () fun
    | 0 | 20 => some (.enter none false [] .start)
    | 13 => some .stop
    | 33 | 42 => some (.release (fun _ => true) fun
      | .readClipboard => some (.ok (.str ""))
      | _ => none)
    | _ => none

/-- In the end the clock has two timers, and one of them was set by a start that was overtaken. -/
theorem Run.timers_set_once_relayRun : ∃ timer timer',
    (relayRun.state 57).timers = [timer, timer'] ∧ timer.node = "clock" ∧ timer'.node = "clock" ∧
      (relayRun.Overtaken 57 timer ∨ relayRun.Overtaken 57 timer') ∧
      (relayRun.state 20).timers = [] := by
  have badges : (relayRun.state 57).timers.map Timer.node = ["clock", "clock"] := by
    decide +kernel
  have stopped : (relayRun.state 20).status ≠ .started := by decide +kernel
  obtain ⟨-, -, twice⟩ := timers_set_once relayBoard_built relayRun 57
  generalize (relayRun.state 57).timers = timers at badges twice
  obtain ⟨timer, rest, rfl, clock, others⟩ := List.map_eq_cons_iff.mp badges
  obtain ⟨timer', rfl, clock'⟩ := List.map_eq_singleton_iff.mp others
  have one := (List.pairwise_cons.mp twice).1 timer' List.mem_cons_self (clock.trans clock'.symm)
  exact ⟨timer, timer', rfl, clock, clock', one,
    (timers_set_once relayBoard_built relayRun 20).1 stopped⟩

end Wireboard
