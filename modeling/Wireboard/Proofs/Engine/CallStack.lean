import Wireboard.Proofs.Engine.ChainsEnd
import Wireboard.Proofs.Engine.Frames

/-!
# The calls of a chain

A chain has a frame for each call of a function that is under way, and may not have more of them
than the app is configured for.  Frames are put up and taken down around whatever a function does,
and that may end early in many ways: a callback fails, the app is stopped, the calls are too many,
there is no such function.  Still the frames are right at all times.

What the chain may look like is among the terms of every job (`Board.Stands`), so nothing about
single nodes is left to be said here.  A job that is called with no more frames than allowed never
has more (`Board.Stands.depth_le`); along the trail of calls that lead to where a strand is now,
this adds up (`Strand.Inside.depth_le`); and a strand that comes in is on such a trail from then on,
until it is done (`Strand.Serves`).
-/

namespace Wireboard

variable {σ : Type} {b : Board} {env : Surroundings σ} {c d : Context} {j : Job} {most : Nat}

/-! ## One job -/

theorem Context.frames_of_enter {key : String} (enters : c.enter key = some d) :
    d.frames = c.frames := by
  unfold enter at enters
  split at enters
  · cases enters
  · cases enters
    rfl

/-- No job returns with more frames than it was called with. -/
theorem Board.Yields.depth_le {x : Except Fault Value} (yields : b.Yields c j d x) :
    d.frames.length ≤ c.frames.length := by
  cases j with
  | pull | resolve | stop | log => exact Nat.le_of_eq (congrArg (·.frames.length) yields.1)
  | fire | execute => exact Nat.le_of_eq yields.1.depth
  | iterate | rounds => exact Nat.le_of_eq (Context.Matches.depth yields)
  | chain | handle => exact yields.1
  | start => exact yields

section Limit

variable (limit : b.config.maxCallDepth = .int most)
include limit

/-- A job puts up a frame only where there is room for it. -/
theorem Board.Stands.depth_le (stands : b.Stands c j d) (le : c.frames.length ≤ most) :
    d.frames.length ≤ most := by
  cases j with
  | pull node pin =>
    rcases stands with rfl | ⟨n, -, enters⟩
    · exact le
    · rw [Context.frames_of_enter enters]
      exact le
  | resolve | stop | log =>
    cases (stands : d = c)
    exact le
  | fire | iterate | rounds =>
    rw [Context.Matches.depth stands]
    exact le
  | execute =>
    rcases stands with same | ⟨f, bound, told, room, same⟩
    · rw [same.depth]
      exact le
    · rw [limit] at told
      cases told
      rw [Num.int_le_int, decide_eq_false_iff_not, not_le, Nat.cast_lt] at room
      rw [same.depth]
      exact room
  | chain | start | handle => exact Nat.le_trans stands le

theorem Board.Trail.depth_le {i : Job} {under stack : List Continuation}
    (trail : b.Trail env c j under d i stack) (le : c.frames.length ≤ most) :
    d.frames.length ≤ most := by
  induction trail with
  | begun => exact le
  | inner _ stands _ _ ih => exact stands.depth_le limit ih

/-! ## Strands -/

namespace Strand

variable {s t : Strand}

theorem Inside.depth_le {next : Continuation} (inside : Inside b env s j next t)
    (le : s.context.frames.length ≤ most) : t.context.frames.length ≤ most := by
  obtain ⟨d, i, trail, honours⟩ := inside.trail
  exact honours.stands.depth_le limit (trail.depth_le limit le)

theorem Serves.depth_le (serves : t.Serves b env fun c => c.frames.length ≤ most) :
    t.context.frames.length ≤ most := by
  obtain ⟨s, j, le, -, -, rfl | inside | ⟨x, yields, -⟩⟩ := serves
  · exact le
  · exact inside.depth_le limit le
  · exact Nat.le_trans yields.depth_le le

end Strand

end Limit

/-! ## Runs -/

namespace Run

/-- Suppose that an app is configured for so many calls, and nobody comes in with more.  Then no
strand ever has more frames than that, whether it runs or waits.  And whatever happens inside,
whoever runs wires or executes a node has afterwards the frames that there were before: of the same
functions, with the same parameters, in the same order, and all but the first one with the same
result. -/
theorem frames_bounded_and_restored (run : Run b env) (limit : b.config.maxCallDepth = .int most)
    (entering : ∀ k label? tracked frames e,
      run.impulse? k = some (.enter label? tracked frames e) → frames.length ≤ most) :
    (∀ k s, (run.state k).running? = some s ∨ (run.state k).Waits s →
      s.context.frames.length ≤ most) ∧
    ∀ p q s j next d x, (∃ node pin, j = .fire node pin) ∨ (∃ node pin?, j = .execute node pin?) →
      run.Calls p s j next → run.Returns s p q d x →
        d.frames.map Frame.call = s.context.frames.map Frame.call ∧
          d.frames.tail = s.context.frames.tail := by
  have few {k : Nat} {j : Job} {frames : List Frame} {t : Strand}
      (summons : (run.state k).Summons (run.impulse? k) j frames)
      (new : (run.state k).Admits j frames t) : t.context.frames.length ≤ most := by
    rw [new.frames]
    cases summons with
    | entrance given => exact entering _ _ _ _ _ given
    | _ => exact Nat.zero_le _
  refine ⟨fun k s there => (serves few there).depth_le limit, ?_⟩
  intro p q s j next d x executes calls returns
  have yields := (returns.yields calls).1
  have same : s.context.Matches d := by
    obtain ⟨_, _, rfl⟩ | ⟨_, _, rfl⟩ := executes
    · exact yields.1
    · exact yields.1
  exact ⟨same.calls, same.callers⟩

end Run

/-- A function calls itself while there is room for one more call.  What runs at its head returns
after all that, with the frame that there was. -/
theorem Run.frames_bounded_and_restored_nestingRun :
    ((nestingRun.state 46).running?.map fun t => t.context.depth) = some 2 ∧
    (∀ k s, (nestingRun.state k).running? = some s ∨ (nestingRun.state k).Waits s →
      s.context.frames.length ≤ 2) ∧
    ∃ s next d, nestingRun.Calls 20 s (.fire "echo" "exec") next ∧
      nestingRun.Returns s 20 70 d (.ok .null) ∧
      d.frames.map Frame.call = s.context.frames.map Frame.call ∧
      d.frames.tail = s.context.frames.tail := by
  have fulfils : nestingRun.Fulfils 4 20 (.fire "echo" "exec") 70 (.ok .null) := by decide +kernel
  obtain ⟨s, next, calls⟩ := fulfils.1.exists_calls
  obtain ⟨d, returns⟩ := fulfils.exists_returns calls
  have limit : nestingBoard.config.maxCallDepth = .int (2 : Nat) := rfl
  obtain ⟨bounded, restored⟩ := frames_bounded_and_restored nestingRun limit
    fun k label? tracked frames e entered => by
      rw [nestingRun_unburdened k label? tracked frames e entered]
      decide
  exact ⟨by decide +kernel, bounded, s, next, d, calls, returns,
    restored 20 70 s _ next d _ (.inl ⟨_, _, rfl⟩) calls returns⟩

end Wireboard
