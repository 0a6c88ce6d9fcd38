import Wireboard.Proofs.Engine.CallResults
import Wireboard.Proofs.Engine.Pulls

/-!
# Frames belong to calls

A call of a function has a frame in its chain, with its parameters and a slot for what it returns.
The frames of a chain are exactly the calls that are still active in it, innermost first
(`Run.Stacks`, `Run.Tallies`), however calls are nested and whatever other chains do meanwhile.  So

* a parameter that is pulled is the one that the innermost active call of the function was begun
  with, and null if there is none;
* a call that ends takes its own frame away, and returns what was delivered last while this frame
  was on top, or null if nothing was.

The first part has one condition.  A pull is known by a key that is made of the id of the node and
the name of the pin, and different pins may have the same key; while the other one is being pulled,
the parameter cannot be.  A parameter that has a key of its own is never open when it is to be
pulled (`Run.unopened_of_keyedApart`).
-/

namespace Wireboard

variable {σ : Type} {b : Board} {env : Surroundings σ} {m : Machine σ} {s t : Strand}

/-! ## Calls in a run -/

/-- A call of a function: when it was begun, with which frame, by the job at which height, and how
many calls were active then. -/
structure Invocation where
  time : Nat
  frame : Frame
  height : Nat
  depth : Nat

variable {run : Run b env} {i k : Nat} {calls : List Invocation} {frames : List Frame}
  {c : Invocation} {f : Frame}

namespace Run

variable (run)

/-- The strand begins the call, at a node whose pins have given the parameters. -/
def Makes (i : Nat) (c : Invocation) : Prop :=
  ∃ t n record, run.Runs i c.time t ∧ t.act? = some (.push c.frame) ∧ t.stack.length = c.height ∧
    t.context.depth = c.depth ∧ b.Calling n c.frame record ∧ run.Records i c.height record c.time

/-- The call is still active: the job that has begun it is there and has not ended it, and the chain
is the same. -/
structure Active (i : Nat) (c : Invocation) (k : Nat) : Prop where
  begun : c.time < k
  stays : run.StaysAbove i c.height c.time k
  unended : ∀ l t, c.time < l → l < k → run.Runs i l t →
    t.act? ≠ some .beginChain ∧ (t.act? = some .pop → t.stack.length ≠ c.height)

/-- The call is the innermost active one of a function. -/
structure Innermost (i k : Nat) (name : String) (c : Invocation) : Prop where
  made : run.Makes i c
  active : run.Active i c k
  function : c.frame.function = name
  last : ∀ c', run.Makes i c' → run.Active i c' k → c'.frame.function = name → c'.time ≤ c.time

/-- The value is the parameter of the innermost active call of a function, or null if no call of it
is active. -/
def Parameter (i k : Nat) (name pin : String) (v : Value) : Prop :=
  (∃ c, run.Innermost i k name c ∧ v = (c.frame.params.get? pin).getD .null) ∨
    (∀ c, run.Makes i c → run.Active i c k → c.frame.function ≠ name) ∧ v = .null

/-- Something is delivered while the frame above so many others is on top. -/
def Touches (i depth l : Nat) : Prop :=
  ∃ t v, run.Runs i l t ∧ t.act? = some (.setResult v) ∧ t.context.depth = depth + 1

/-- A node delivers what its pin has given while the frame above so many others is on top. -/
def Delivers (i depth l : Nat) (v : Value) : Prop :=
  ∃ t n record, run.Runs i l t ∧ t.act? = some (.setResult v) ∧ t.context.depth = depth + 1 ∧
    b.Returning n v record ∧ run.Records i t.stack.length record l

/-- The value was delivered last since the call was begun, while its frame was on top; or it is null
and nothing was delivered. -/
def LastDelivery (i k : Nat) (c : Invocation) (v : Value) : Prop :=
  (∃ q, c.time < q ∧ q < k ∧ run.Delivers i c.depth q v ∧
    ∀ l, q < l → l < k → ¬ run.Touches i c.depth l) ∨
  v = .null ∧ ∀ l, c.time < l → l < k → ¬ run.Touches i c.depth l

/-- The frame is the one of the call. -/
structure Backs (i k : Nat) (c : Invocation) (f : Frame) : Prop where
  made : run.Makes i c
  active : run.Active i c k
  function : f.function = c.frame.function
  params : f.params = c.frame.params
  result : run.LastDelivery i k c f.result

/-- The frames are those of the calls, and the calls were begun by jobs at heights where a call has
yet to be ended.  There may be more such heights, below a job that has begun a new chain. -/
inductive Stacks (i k : Nat) : List Invocation → List Frame → List Nat → Prop where
  | nil {owed : List Nat} : Stacks i k [] [] owed
  | cons {c : Invocation} {calls : List Invocation} {f : Frame} {frames : List Frame}
      {owed : List Nat} : run.Backs i k c f → c.depth = frames.length →
      (∀ c' ∈ calls, c'.time < c.time) → Stacks i k calls frames owed →
      Stacks i k (c :: calls) (f :: frames) (c.height :: owed)

/-- The frames are those of the calls, and the calls are all that are active. -/
structure Tallies (i k : Nat) (calls : List Invocation) (frames : List Frame) (owed : List Nat) :
    Prop where
  piled : run.Stacks i k calls frames owed
  complete : ∀ c, run.Makes i c → run.Active i c k → c ∈ calls

variable {run} {depth : Nat} {owed : List Nat} {v : Value}

/-- What a strand does at a time tells which call it begins. -/
theorem Makes.eq {c' : Invocation} (h : run.Makes i c) (h' : run.Makes i c')
    (time : c.time = c'.time) : c = c' := by
  obtain ⟨_, frame, height, depth⟩ := c
  obtain ⟨_, frame', height', depth'⟩ := c'
  obtain ⟨t, -, -, runs, acts, rfl, rfl, -, -⟩ := h
  obtain ⟨t', -, -, runs', acts', rfl, rfl, -, -⟩ := h'
  cases time
  cases runs.eq runs'
  cases acts.symm.trans acts'
  rfl

namespace Stacks

variable (piled : run.Stacks i k calls frames owed)
include piled

theorem height_mem (member : c ∈ calls) : c.height ∈ owed := by
  induction piled with
  | nil => cases member
  | cons _ _ _ _ ih =>
    rcases List.mem_cons.mp member with rfl | below
    · exact List.mem_cons_self
    · exact List.mem_cons_of_mem _ (ih below)

theorem depth_lt (member : c ∈ calls) : c.depth < frames.length := by
  induction piled with
  | nil => cases member
  | cons _ depth _ _ ih =>
    rcases List.mem_cons.mp member with rfl | below
    · exact Nat.lt_succ_of_le (Nat.le_of_eq depth)
    · exact Nat.lt_succ_of_lt (ih below)

theorem backed (member : c ∈ calls) : ∃ f, run.Backs i k c f := by
  induction piled with
  | nil => cases member
  | cons backs _ _ _ ih =>
    rcases List.mem_cons.mp member with rfl | below
    · exact ⟨_, backs⟩
    · exact ih below

/-- The frame that is found for a function is the one of the innermost call. -/
theorem find? (name : String) :
    (frames.find? (·.function == name) = none ∧ ∀ c ∈ calls, c.frame.function ≠ name) ∨
      ∃ c ∈ calls, ∃ f, frames.find? (·.function == name) = some f ∧ run.Backs i k c f ∧
        c.frame.function = name ∧
        ∀ c' ∈ calls, c'.frame.function = name → c'.time ≤ c.time := by
  induction piled with
  | nil => exact .inl ⟨rfl, fun _ none => by cases none⟩
  | @cons c calls f frames owed backs _ earlier _ ih =>
    by_cases here : f.function = name
    · refine .inr ⟨c, List.mem_cons_self, f, ?_, backs, backs.function.symm.trans here, ?_⟩
      · exact List.find?_cons_of_pos (beq_iff_eq.mpr here)
      · intro c' member _
        rcases List.mem_cons.mp member with rfl | below
        · exact Nat.le_refl _
        · exact Nat.le_of_lt (earlier c' below)
    · have elsewhere : c.frame.function ≠ name := fun same => here (backs.function.trans same)
      have skip : (f :: frames).find? (·.function == name) = frames.find? (·.function == name) :=
        List.find?_cons_of_neg fun same => here (beq_iff_eq.mp same)
      rw [skip]
      rcases ih with ⟨none, others⟩ | ⟨c', member, f', found, backs', function, last⟩
      · refine .inl ⟨none, fun c' member => ?_⟩
        rcases List.mem_cons.mp member with rfl | below
        · exact elsewhere
        · exact others c' below
      · refine .inr ⟨c', List.mem_cons_of_mem _ member, f', found, backs', function, ?_⟩
        intro c'' member function'
        rcases List.mem_cons.mp member with rfl | below
        · exact absurd function' elsewhere
        · exact last c'' below function'

end Stacks

/-! ## One move later -/

/-- The move from then on does nothing to the call. -/
structure LeavesBe (run : Run b env) (i k : Nat) (c : Invocation) : Prop where
  above : ∀ t, run.Runs i (k + 1) t → c.height ≤ t.stack.length
  unended : ∀ t, run.Runs i k t →
    t.act? ≠ some .beginChain ∧ (t.act? = some .pop → t.stack.length ≠ c.height)
  untouched : ¬ run.Touches i c.depth k

theorem Active.later (active : run.Active i c k)
    (above : ∀ t, run.Runs i (k + 1) t → c.height ≤ t.stack.length)
    (unended : ∀ t, run.Runs i k t →
      t.act? ≠ some .beginChain ∧ (t.act? = some .pop → t.stack.length ≠ c.height)) :
    run.Active i c (k + 1) where
  begun := Nat.lt_succ_of_lt active.begun
  stays := active.stays.later above
  unended l t after before runs := by
    rcases Nat.lt_succ_iff_lt_or_eq.mp before with earlier | rfl
    · exact active.unended l t after earlier runs
    · exact unended t runs

/-- Who is active after a move was active before, or has just been begun. -/
theorem Active.earlier (active : run.Active i c (k + 1)) :
    c.time = k ∨ run.Active i c k := by
  rcases Nat.lt_succ_iff_lt_or_eq.mp active.begun with before | same
  · refine .inr ⟨before, fun l t after le => ?_, fun l t after lt => ?_⟩
    · exact active.stays l t after (Nat.le_succ_of_le le)
    · exact active.unended l t after (Nat.lt_succ_of_lt lt)
  · exact .inl same

theorem LastDelivery.later (last : run.LastDelivery i k c v)
    (untouched : ¬ run.Touches i c.depth k) : run.LastDelivery i (k + 1) c v := by
  have still {p : Nat} (none : ∀ l, p < l → l < k → ¬ run.Touches i c.depth l) :
      ∀ l, p < l → l < k + 1 → ¬ run.Touches i c.depth l := by
    intro l after before
    rcases Nat.lt_succ_iff_lt_or_eq.mp before with earlier | rfl
    · exact none l after earlier
    · exact untouched
  rcases last with ⟨q, after, before, delivers, none⟩ | ⟨null, none⟩
  · exact .inl ⟨q, after, Nat.lt_succ_of_lt before, delivers, still none⟩
  · exact .inr ⟨null, still none⟩

theorem Backs.later (backs : run.Backs i k c f) (be : run.LeavesBe i k c) :
    run.Backs i (k + 1) c f :=
  ⟨backs.made, backs.active.later be.above be.unended, backs.function, backs.params,
    backs.result.later be.untouched⟩

theorem Stacks.later (piled : run.Stacks i k calls frames owed)
    (be : ∀ c ∈ calls, run.LeavesBe i k c) : run.Stacks i (k + 1) calls frames owed := by
  induction piled with
  | nil => exact .nil
  | cons backs depth earlier _ ih =>
    exact .cons (backs.later (be _ List.mem_cons_self)) depth earlier
      (ih fun c member => be c (List.mem_cons_of_mem _ member))

/-- Unless a call is begun, the calls that are active were active before. -/
theorem Tallies.complete_later (tallies : run.Tallies i k calls frames owed)
    (idle : ∀ t f, run.Runs i k t → t.act? ≠ some (.push f)) (made : run.Makes i c)
    (active : run.Active i c (k + 1)) : c ∈ calls := by
  rcases active.earlier with rfl | before
  · obtain ⟨t, -, -, runs, acts, -⟩ := made
    exact absurd acts (idle t _ runs)
  · exact tallies.complete c made before

end Run

/-! ## What is owed -/

namespace Ledger

/-- The heights of the jobs that wait and have yet to end a call, innermost first. -/
def below : List (Ledger × Job) → List Nat
  | [] => []
  | p :: under => if p.1.owing then under.length :: below under else below under

/-- The heights of all jobs of a strand that have yet to end a call. -/
def owed (μ : Ledger) (under : List (Ledger × Job)) : List Nat :=
  if μ.owing then under.length :: below under else below under

variable {μ : Ledger} {under : List (Ledger × Job)} {height : Nat}

theorem lt_of_mem_below (member : height ∈ below under) : height < under.length := by
  induction under with
  | nil => cases member
  | cons p under ih =>
    unfold below at member
    split at member
    · rcases List.mem_cons.mp member with rfl | deeper
      · exact Nat.lt_succ_self _
      · exact Nat.lt_succ_of_lt (ih deeper)
    · exact Nat.lt_succ_of_lt (ih member)

theorem owed_of_owing (owing : μ.owing = true) : μ.owed under = under.length :: below under := by
  rw [owed, if_pos owing]

theorem owed_of_clear (clear : μ.owing = false) : μ.owed under = below under := by
  rw [owed, clear]
  rfl

theorem le_of_mem_owed (member : height ∈ μ.owed under) : height ≤ under.length := by
  unfold owed at member
  split at member
  · rcases List.mem_cons.mp member with rfl | deeper
    · exact Nat.le_refl _
    · exact Nat.le_of_lt (lt_of_mem_below deeper)
  · exact Nat.le_of_lt (lt_of_mem_below member)

end Ledger

/-! ## Steps -/

@[simp] theorem Context.frames_pop (context : Context) :
    context.pop.2.frames = context.frames.tail := by
  unfold pop
  split
  next eq => rw [eq]; rfl
  next eq => rw [eq]; rfl

@[simp] theorem Machine.perform_setResult_frames (b : Board) (env : Surroundings σ) (m : Machine σ)
    (context : Context) (v : Value) : (perform b env m context (.setResult v)).2.1.frames
      = context.frames.modifyHead fun f => { f with result := v } := by
  simp only [perform, Context.setResult]
  cases eq : context.frames with
  | nil => exact eq
  | cons f rest => rfl

namespace Run

variable {owed : List Nat}

/-- Nothing happens to the calls if no act concerns the frames. -/
theorem Tallies.later (tallies : run.Tallies i k calls frames owed)
    (above : ∀ t, run.Runs i (k + 1) t → ∀ h ∈ owed, h ≤ t.stack.length)
    (quiet : ∀ t a, run.Runs i k t → t.act? = some a → a.handlesFrames = false) :
    run.Tallies i (k + 1) calls frames owed where
  piled := by
    refine tallies.piled.later fun c member => ⟨fun t runs => ?_, fun t runs => ⟨?_, ?_⟩, ?_⟩
    · exact above t runs _ (tallies.piled.height_mem member)
    · exact fun begins => by cases quiet t _ runs begins
    · exact fun pops => by cases quiet t _ runs pops
    · rintro ⟨t, v, runs, sets, -⟩
      cases quiet t _ runs sets
  complete c := by
    refine tallies.complete_later fun t f runs pushes => ?_
    cases quiet t _ runs pushes

/-- With a new chain there are no calls. -/
theorem tallies_of_beginChain (runs : run.Runs i k s) (acts : s.act? = some .beginChain) :
    run.Tallies i (k + 1) [] [] owed := by
  refine ⟨.nil, fun c made active => ?_⟩
  rcases active.earlier with rfl | before
  · obtain ⟨t, -, -, runs', pushes, -⟩ := made
    cases runs.only acts runs' pushes
  · exact absurd acts (active.unended k s before.begun (Nat.lt_succ_self k) runs).1

section Acts

variable (tallies : run.Tallies i k calls frames owed) (runs : run.Runs i k s)
  (held : s.context.frames = frames)

include tallies runs

include held in
/-- A call begins: its frame comes on top. -/
theorem Tallies.push (acts : s.act? = some (.push f)) {n : Node}
    {record : List (Job × Except Fault Value)} (calling : b.Calling n f record)
    (records : run.Records i s.stack.length record k) (clear : ∀ h ∈ owed, h ≤ s.stack.length)
    (above : ∀ t, run.Runs i (k + 1) t → s.stack.length ≤ t.stack.length) :
    ∃ c, run.Tallies i (k + 1) (c :: calls) (f :: frames) (s.stack.length :: owed) := by
  let c : Invocation := ⟨k, f, s.stack.length, s.context.depth⟩
  have made : run.Makes i c := ⟨s, n, record, runs, acts, rfl, rfl, calling, records⟩
  have active : run.Active i c (k + 1) := by
    refine ⟨Nat.lt_succ_self k, staysAbove_succ above, fun l t after before => ?_⟩
    exact absurd before (Nat.not_lt_of_le after)
  have backs : run.Backs i (k + 1) c f := by
    refine ⟨made, active, rfl, rfl, .inr ⟨calling.result, fun l after before => ?_⟩⟩
    exact absurd before (Nat.not_lt_of_le after)
  refine ⟨c, .cons backs (congrArg List.length held) (fun c' member => ?_)
    (tallies.piled.later fun c' member => ⟨fun t runs' => ?_, fun t runs' => ⟨?_, ?_⟩, ?_⟩), ?_⟩
  · obtain ⟨_, backs'⟩ := tallies.piled.backed member
    exact backs'.active.begun
  · exact Nat.le_trans (clear _ (tallies.piled.height_mem member)) (above t runs')
  · exact fun begins => by cases runs.only acts runs' begins
  · exact fun pops => by cases runs.only acts runs' pops
  · rintro ⟨t, v, runs', sets, -⟩
    cases runs.only acts runs' sets
  · intro c' made' active'
    rcases active'.earlier with same | before
    · rw [made'.eq made same]
      exact List.mem_cons_self
    · exact List.mem_cons_of_mem _ (tallies.complete c' made' before)

/-- A call ends, and it is the one on top that does: the job that ends it has begun it. -/
theorem Tallies.pop (acts : s.act? = some .pop) {below : List Nat}
    (own : owed = s.stack.length :: below) (deeper : ∀ h ∈ below, h < s.stack.length)
    (above : ∀ t, run.Runs i (k + 1) t → s.stack.length ≤ t.stack.length) :
    run.Tallies i (k + 1) calls.tail frames.tail below := by
  have older {c : Invocation} : run.Makes i c → run.Active i c (k + 1) → c ∈ calls :=
    tallies.complete_later fun t f runs' pushes => by cases runs.only acts runs' pushes
  cases tallies.piled with
  | nil => exact ⟨.nil, fun _ => older⟩
  | @cons c rest f frames owed' backs depth earlier piled =>
    obtain ⟨height, rfl⟩ := List.cons.inj own
    refine ⟨piled.later fun c' member => ⟨fun t runs' => ?_, fun t runs' => ⟨?_, fun _ => ?_⟩, ?_⟩,
      fun c' made active => ?_⟩
    · exact Nat.le_trans (Nat.le_of_lt (deeper _ (piled.height_mem member))) (above t runs')
    · exact fun begins => by cases runs.only acts runs' begins
    · rw [← runs.eq runs']
      exact Nat.ne_of_gt (deeper _ (piled.height_mem member))
    · rintro ⟨t, v, runs', sets, -⟩
      cases runs.only acts runs' sets
    · rcases List.mem_cons.mp (older made active) with rfl | member
      · have ended := (active.unended k s backs.active.begun (Nat.lt_succ_self k) runs).2 acts
        exact absurd height.symm ended
      · exact member

include held in
/-- A value is delivered to the call on top. -/
theorem Tallies.setResult {v : Value} (acts : s.act? = some (.setResult v)) {n : Node}
    {record : List (Job × Except Fault Value)} (returning : b.Returning n v record)
    (records : run.Records i s.stack.length record k)
    (above : ∀ t, run.Runs i (k + 1) t → ∀ h ∈ owed, h ≤ t.stack.length) :
    run.Tallies i (k + 1) calls (frames.modifyHead fun f => { f with result := v }) owed := by
  refine ⟨?_, fun c => tallies.complete_later fun t f runs' pushes => by
    cases runs.only acts runs' pushes⟩
  have goes (c : Invocation) : ∀ t, run.Runs i k t →
      t.act? ≠ some .beginChain ∧ (t.act? = some .pop → t.stack.length ≠ c.height) := fun t runs' =>
    ⟨fun begins => (by cases runs.only acts runs' begins),
      fun pops => (by cases runs.only acts runs' pops)⟩
  cases tallies.piled with
  | nil => exact .nil
  | @cons c rest f frames owed backs depth earlier piled =>
    have top : s.context.depth = frames.length + 1 := congrArg List.length held
    have active : run.Active i c (k + 1) :=
      backs.active.later (fun t runs' => above t runs' _ List.mem_cons_self) (goes c)
    have delivers : run.Delivers i c.depth k v :=
      ⟨s, n, record, runs, acts, by rw [top, depth], returning, records⟩
    have last : run.LastDelivery i (k + 1) c v := by
      refine .inl ⟨k, backs.active.begun, Nat.lt_succ_self k, delivers, fun l after before => ?_⟩
      omega
    refine .cons ⟨backs.made, active, backs.function, backs.params, last⟩ depth earlier
      (piled.later fun c' member => ⟨fun t runs' => ?_, goes c', ?_⟩)
    · exact above t runs' _ (List.mem_cons_of_mem _ (piled.height_mem member))
    · rintro ⟨t, v', runs', -, other⟩
      have lower := piled.depth_lt member
      rw [← runs.eq runs', top] at other
      omega

end Acts

/-- One step of a strand keeps account of its calls. -/
theorem Tallies.of_leads {β β' : b.bookkeeping.Bearing}
    (tallies : run.Tallies i k calls s.context.frames (Ledger.owed β.mode β.under))
    (books : run.Books i β k) (runs : run.Runs i k s) (height : s.stack.length = β.under.length)
    (leads : β.Leads b env (run.state k) s β')
    (step : Machine.Advances b env (run.state k) s t)
    (runs' : run.Runs i (k + 1) t) (height' : t.stack.length = β'.under.length) :
    ∃ calls, run.Tallies i (k + 1) calls t.context.frames (Ledger.owed β'.mode β'.under) := by
  have above : ∀ t', run.Runs i (k + 1) t' → t'.stack.length = β'.under.length :=
    fun t' runs'' => runs'.eq runs'' ▸ height'
  have within {μ : Ledger} {under : List (Ledger × Job)} (le : under.length ≤ β'.under.length) :
      ∀ t', run.Runs i (k + 1) t' → ∀ h ∈ μ.owed under, h ≤ t'.stack.length := by
    intro t' runs'' h member
    rw [above t' runs'']
    exact Nat.le_trans (Ledger.le_of_mem_owed member) le
  have quietly (still : s.act? = none)
      (same : Ledger.owed β'.mode β'.under = Ledger.owed β.mode β.under) :
      ∃ calls, run.Tallies i (k + 1) calls t.context.frames (Ledger.owed β'.mode β'.under) := by
    rcases step.context_cases with ⟨-, context⟩ | ⟨a, acts, -⟩
    · rw [context]
      rw [← same] at tallies
      refine ⟨calls, tallies.later (within (Nat.le_refl _)) fun t' a runs'' acts => ?_⟩
      cases runs.eq runs''
      cases still.symm.trans acts
    · cases still.symm.trans acts
  cases leads with
  | @returns x p under code ends eq _ =>
    refine quietly (by rw [Strand.act?, code]) ?_
    rw [Ledger.owed_of_clear (ends : Ledger.owing β.mode = false), eq]
    rfl
  | answered code _ => exact quietly (by rw [Strand.act?, code]) rfl
  | calls code _ => exact quietly (by rw [Strand.act?, code]) rfl
  | @acts a next code allowed =>
    have acts : s.act? = some a := Strand.act?_of_code code
    have context : t.context = (Machine.perform b env (run.state k) s.context a).2.1 := by
      rcases step.context_cases with ⟨still, -⟩ | ⟨a', acts', context⟩
      · cases still.symm.trans acts
      · cases acts.symm.trans acts'
        exact context
    have records : run.Records i s.stack.length (Ledger.record β.mode) k := by
      rw [height]
      exact books.top
    have level : ∀ t', run.Runs i (k + 1) t' → s.stack.length ≤ t'.stack.length :=
      fun t' runs'' => Nat.le_of_eq (height.trans (above t' runs'').symm)
    rw [context]
    cases a with
    | push f =>
      obtain ⟨clear, n, calling⟩ := allowed
      have owed : Ledger.owed (Ledger.after β.mode (.push f)) β.under
          = s.stack.length :: Ledger.owed β.mode β.under := by
        rw [Ledger.owed_of_owing rfl, Ledger.owed_of_clear clear, height]
      obtain ⟨c, tallies'⟩ := tallies.push runs rfl acts calling records
        (fun h member => by rw [height]; exact Ledger.le_of_mem_owed member) level
      exact ⟨c :: calls, owed ▸ tallies'⟩
    | pop =>
      have owing : Ledger.owing β.mode = true := allowed
      have popped := tallies.pop runs acts (by rw [Ledger.owed_of_owing owing, height])
        (fun h member => by rw [height]; exact Ledger.lt_of_mem_below member) level
      rw [← Context.frames_pop] at popped
      exact ⟨calls.tail, popped⟩
    | setResult v =>
      obtain ⟨n, returning⟩ := allowed
      rw [Machine.perform_setResult_frames]
      exact ⟨calls, tallies.setResult runs rfl acts returning records (within (Nat.le_refl _))⟩
    | beginChain => exact ⟨[], tallies_of_beginChain runs acts⟩
    | _ =>
      rw [(Machine.perform_context_parts b env _ _ _).2.1 rfl]
      refine ⟨calls, tallies.later (within (Nat.le_refl _)) fun t' a runs'' acts' => ?_⟩
      rw [runs.only acts runs'' acts']
      rfl

/-! ## Along a run -/

variable (run)

/-- Nobody comes in with frames of calls that were begun elsewhere. -/
def Unburdened : Prop :=
  ∀ k label? tracked frames e, run.impulse? k = some (.enter label? tracked frames e) → frames = []

variable {run}

/-- Where a strand stands, and its calls. -/
def Accounted (run : Run b env) (k : Nat) (s : Strand) : Prop :=
  ∃ (β : b.bookkeeping.Bearing) (calls : List Invocation), s.Follows b.bookkeeping β ∧
    run.Books s.id β k ∧ run.Tallies s.id k calls s.context.frames (Ledger.owed β.mode β.under)

/-- Nothing happens to a strand that does not move. -/
theorem Accounted.later (accounted : run.Accounted k s)
    (still : ∀ t, ¬ run.Runs s.id k t) (same : ∀ t, run.Runs s.id (k + 1) t → t = s) :
    run.Accounted (k + 1) s := by
  obtain ⟨β, calls, follows, books, tallies⟩ := accounted
  have booked : run.Booked k s β := ⟨follows, books⟩
  obtain ⟨-, books'⟩ := booked.later same
  refine ⟨β, calls, follows, books',
    tallies.later (fun t runs h member => ?_) fun t _ runs => absurd runs (still t)⟩
  rw [same t runs, booked.height_eq]
  exact Ledger.le_of_mem_owed member

theorem Accounted.advances (accounted : run.Accounted k s)
    (running : (run.state k).running? = some s) (step : Machine.Advances b env (run.state k) s t)
    (running' : (run.state (k + 1)).running? = some t) : run.Accounted (k + 1) t := by
  obtain ⟨β, calls, follows, books, tallies⟩ := accounted
  have booked : run.Booked k s β := ⟨follows, books⟩
  obtain ⟨β', leads, booked'⟩ := booked.advances running step running'
  obtain ⟨calls', tallies'⟩ := tallies.of_leads books ⟨running, rfl⟩ booked.height_eq leads step
    ⟨running', step.id_eq⟩ booked'.height_eq
  rw [← step.id_eq] at tallies'
  exact ⟨β', calls', booked'.follows, booked'.books, tallies'⟩

theorem Accounted.asks (accounted : run.Accounted k s)
    (running : (run.state k).running? = some s) (asks : Machine.Asks s t)
    (waits : (run.state (k + 1)).Waits t) : run.Accounted (k + 1) t := by
  obtain ⟨β, calls, follows, books, tallies⟩ := accounted
  have booked : run.Booked k s β := ⟨follows, books⟩
  obtain ⟨follows', books'⟩ := booked.asks running asks waits
  have runs : run.Runs s.id k s := ⟨running, rfl⟩
  obtain ⟨r, next, reply, code, rfl⟩ := asks
  have gone : ∀ t', ¬ run.Runs s.id (k + 1) t' := fun _ runs' => not_runs_of_waits waits runs'
  refine ⟨_, calls, follows', books',
    tallies.later (fun t' runs' => absurd runs' (gone t')) fun t' a runs' acts => ?_⟩
  cases runs.eq runs'
  rw [Strand.act?, code] at acts
  cases acts

theorem accounted_of_admits {j : Job} {frames : List Frame} (unburdened : run.Unburdened)
    (summons : (run.state k).Summons (run.impulse? k) j frames)
    (new : (run.state k).Admits j frames t) : run.Accounted (k + 1) t := by
  have none : frames = [] := by
    cases summons with
    | entrance given => exact unburdened _ _ _ _ _ given
    | _ => rfl
  have booked : run.Booked (k + 1) t ⟨{}, []⟩ := .of_admits new
  refine ⟨_, [], booked.follows, booked.books, ?_⟩
  rw [new.frames, none]
  refine ⟨.nil, fun c made active => ?_⟩
  -- the number was not given out before
  obtain ⟨t', -, -, runs, -⟩ := made
  have known := (run.numbered c.time).lt_nextId (.inl runs.1)
  have later := run.nextId_mono (Nat.le_of_lt_succ active.begun)
  rw [runs.2, new.id] at known
  exact absurd (Nat.lt_of_lt_of_le known later) (Nat.lt_irrefl _)

/-- Along a run, the frames of the strand that runs are those of its active calls. -/
theorem accounted (unburdened : run.Unburdened) (running : (run.state k).running? = some t) :
    run.Accounted k t := by
  have carries : run.Carries 0 (fun _ => True)
      (fun k s => (run.state k).Waits s ∧ run.Accounted k s) run.Accounted := {
    rests := fun _ ⟨waits, accounted⟩ waits' => ⟨waits', accounted.later
      (fun _ => not_runs_of_waits waits) fun _ runs => absurd runs (not_runs_of_waits waits')⟩
    resumes := fun {k s} _ idle ⟨_, accounted⟩ running => accounted.later
      (fun _ runs => by cases idle.symm.trans runs.1)
      fun _ runs => Option.some.inj (runs.1.symm.trans running)
    advances := fun _ _ running accounted step running' => accounted.advances running step running'
    asks := fun _ running accounted asks waits => ⟨waits, accounted.asks running asks waits⟩
    enters := fun _ _ summons new =>
      ⟨fun waits => ⟨waits, accounted_of_admits unburdened summons new⟩,
        fun _ => accounted_of_admits unburdened summons new⟩
    goes := fun _ _ _ => trivial }
  obtain ⟨-, -, known⟩ := carries.always trivial k
  exact known t running

end Run

/-! ## Pulling a parameter -/

/-- To pull a parameter of a function is to open the pull, to look for the innermost frame of the
function and to close the pull. -/
theorem Board.body_pull_parameter {id pin name : String} {n : Node}
    (found : b.circuit.node? id = some n) (kind : n.kind = "functionDefine")
    (param : pin = "param1" ∨ pin = "param2")
    (named : Circuit.functionName b.config n = .ok name) :
    ∃ next : Bool → Code,
      (b.body (.pull id pin)).run = .act (.enter (Context.pullKey n.id pin)) next ∧
      next true = .act (.frame name) fun f? : Option Frame =>
        .act (.leave (Context.pullKey n.id pin)) fun _ =>
          .ret (.ok ((f?.bind (·.params.get? pin)).getD .null)) := by
  have define : NodeKind.ofName? n.kind = some .functionDefine := by
    rw [kind]
    decide
  have isParam : (pin = "param1" || pin = "param2") = true := by
    rcases param with rfl | rfl <;> rfl
  simp only [Board.body, Board.pull, found, define, Board.evaluate, Board.pullParameter, isParam,
    named]
  refine ⟨_, rfl, ?_⟩
  refine congrArg (Script.act (.frame name)) (funext fun f? => ?_)
  cases f? <;> rfl

namespace Run

variable {owed : List Nat}

/-- A parameter with a key of its own is not open when anything is called, since to pull it is to
look once and calls nothing. -/
theorem unopened_of_keyedApart {config : Config} {app : App}
    (built : Board.ofApp config app = .ok b) {id pin : String} {n : Node}
    (found : b.circuit.node? id = some n) (kind : n.kind = "functionDefine")
    (param : pin = "param1" ∨ pin = "param2") (apart : b.KeyedApart n pin)
    (running : (run.state k).running? = some t) {j : Job}
    {next : Continuation} (code : t.code = .call j next) :
    Context.pullKey n.id pin ∉ t.context.opened := by
  obtain ⟨name, named⟩ := Board.named_of_ofApp built found kind
  obtain ⟨entered, body, looks⟩ := Board.body_pull_parameter found kind param named
  exact run.unopened_of_brief (Board.filed_of_ofApp built) found apart body looks
    (fun _ _ _ => ⟨_, rfl⟩) running code

/-- What is found among the frames is the parameter of the innermost active call. -/
theorem Tallies.parameter (tallies : run.Tallies i k calls frames owed) (name pin : String) :
    run.Parameter i k name pin
      (((frames.find? (·.function == name)).bind (·.params.get? pin)).getD .null) := by
  rcases tallies.piled.find? name with
    ⟨none, others⟩ | ⟨c, -, f, found, backs, function, last⟩
  · rw [none]
    exact .inr ⟨fun c made active => others c (tallies.complete c made active), rfl⟩
  · rw [found]
    refine .inl ⟨c, ⟨backs.made, backs.active, function, fun c' made active => ?_⟩, ?_⟩
    · exact last c' (tallies.complete c' made active)
    · rw [← backs.params]
      rfl

/-- The frame on top is the one of the last call that is active. -/
theorem Tallies.top {f : Frame} {rest : List Frame} {height : Nat} {below : List Nat}
    (tallies : run.Tallies i k calls (f :: rest) (height :: below)) :
    ∃ c, run.Backs i k c f ∧ c.height = height ∧ c.depth = rest.length ∧
      ∀ c', run.Makes i c' → run.Active i c' k → c'.time ≤ c.time := by
  obtain ⟨piled, complete⟩ := tallies
  cases piled with
  | cons backs depth earlier _ =>
    refine ⟨_, backs, rfl, depth, fun c' made active => ?_⟩
    rcases List.mem_cons.mp (complete c' made active) with rfl | member
    · exact Nat.le_refl _
    · exact Nat.le_of_lt (earlier c' member)

/-- Frames belong to calls.  A parameter that is pulled, with a key of its own, is the one of the
innermost active call of the function in its chain, as the pins of the calling node gave it; it is
null if there is none.  A frame that is taken away is the one of the call that is ended, by the
job that has begun it, and it holds what was delivered last while it was on top, as the pin of the
delivering node gave it; it holds null if nothing was delivered. -/
theorem frames_belong_to_calls {config : Config} {app : App}
    (built : Board.ofApp config app = .ok b) (run : Run b env) (unburdened : run.Unburdened)
    {t : Strand} (running : (run.state k).running? = some t) :
    (∀ id n pin next, b.circuit.node? id = some n → n.kind = "functionDefine" →
      pin = "param1" ∨ pin = "param2" → b.KeyedApart n pin → t.code = .call (.pull id pin) next →
      ∃ name v, Circuit.functionName b.config n = .ok name ∧
        (run.state (k + 5)).running? = some { t with code := next (.ok v) } ∧
        run.Parameter t.id k name pin v) ∧
    ∀ f rest, t.act? = some .pop → t.context.frames = f :: rest →
      ∃ c, run.Makes t.id c ∧ run.Active t.id c k ∧
        (∀ c', run.Makes t.id c' → run.Active t.id c' k → c'.time ≤ c.time) ∧
        c.height = t.stack.length ∧ c.depth = rest.length ∧ run.LastDelivery t.id k c f.result := by
  obtain ⟨β, calls, follows, -, tallies⟩ := accounted unburdened running
  refine ⟨fun id n pin next found kind param apart code => ?_, fun f rest pops held => ?_⟩
  · obtain ⟨name, named⟩ := Board.named_of_ofApp built found kind
    obtain ⟨entered, body, looks⟩ := Board.body_pull_parameter found kind param named
    refine ⟨name, _, named, ?_, tallies.parameter name pin⟩
    refine run.running_after_look (.frame name) (t.context.frame? name) body looks ?_ running code
      (unopened_of_keyedApart built found kind param apart running code)
    intro m context _ same
    simp only [Machine.perform, Context.frame?, same]
  · have owing : Ledger.owing β.mode = true := follows.allows pops
    rw [held, Ledger.owed_of_owing owing] at tallies
    obtain ⟨c, backs, height, depth, last⟩ := tallies.top
    refine ⟨c, backs.made, backs.active, last, ?_, depth, backs.result⟩
    exact height.trans follows.stack.length_eq

end Run

/-! ## A call within a call -/

/-- A drawing in which a function that returns its parameter calls itself with another one.  The
depth of calls is limited, so this ends. -/
def nestingApp : App where
  id := "nesting"
  name := .str "nesting"
  nodes := [{ id := "start", kind := "onAppStart" },
    { id := "outer", kind := "functionCall", properties := [("funcName", .str "echo")] },
    { id := "inner", kind := "functionCall", properties := [("funcName", .str "echo")] },
    { id := "echo", kind := "functionDefine", properties := [("funcName", .str "echo")] },
    { id := "answer", kind := "functionReturn" },
    { id := "far", kind := "stringLiteral", properties := [("value", .str "far")] },
    { id := "near", kind := "stringLiteral", properties := [("value", .str "near")] }]
  wires := [.link "start" "exec" "outer" "exec", .link "far" "value" "outer" "param1",
    .link "near" "value" "inner" "param1", .link "echo" "exec" "answer" "exec",
    .link "echo" "exec" "inner" "exec", .link "echo" "param1" "answer" "value"]

def nestingBoard : Board := nestingApp.board shallow

theorem nestingBoard_built : Board.ofApp shallow nestingApp = .ok nestingBoard := rfl

def nestingRun : Run nestingBoard .silent := .ofStart _ _ ()

theorem nestingRun_unburdened : nestingRun.Unburdened := by
  intro k label? tracked frames e entered
  rcases Machine.wished_of_comply entered with wished | passed
  · dsimp only at wished
    split at wished
    · cases wished
      rfl
    · cases wished
  · cases passed

/-- The inner call pulls a parameter while two calls of the function are active; the outer one ends
later, and still returns what was delivered to it before. -/
theorem Run.frames_belong_to_calls_nestingRun :
    (∃ t next name v, (nestingRun.state 46).running? = some t ∧ t.context.depth = 2 ∧
      t.code = .call (.pull "echo" "param1") next ∧
      (nestingRun.state 51).running? = some { t with code := next (.ok v) } ∧
      nestingRun.Parameter t.id 46 name "param1" v) ∧
    ∃ t f c, (nestingRun.state 72).running? = some t ∧ t.act? = some .pop ∧
      t.context.frames = [f] ∧ f.result = .str "far" ∧ nestingRun.Makes t.id c ∧
      nestingRun.Active t.id c 72 ∧ nestingRun.LastDelivery t.id 72 c f.result := by
  constructor
  · have pulls : (nestingRun.state 46).running?.map (fun t => (t.job?, t.context.depth))
        = some (some (.pull "echo" "param1"), 2) := by decide +kernel
    obtain ⟨t, running, same⟩ := Option.map_eq_some_iff.mp pulls
    have depth : t.context.depth = 2 := congrArg Prod.snd same
    obtain ⟨next, code⟩ := Strand.code_of_job? (congrArg Prod.fst same)
    have found : ∃ n, nestingBoard.circuit.node? "echo" = some n ∧ n.kind = "functionDefine" :=
      ⟨_, rfl, rfl⟩
    obtain ⟨n, found, kind⟩ := found
    have apart := Board.keyedApart_of_plain nestingBoard_built (by decide) found "param1"
    have yields := (frames_belong_to_calls nestingBoard_built nestingRun nestingRun_unburdened
      running).1 "echo" n "param1" next found kind (.inl rfl) apart code
    obtain ⟨name, v, -, goesOn, parameter⟩ := yields
    exact ⟨t, next, name, v, running, depth, code, goesOn, parameter⟩
  · have pops : (nestingRun.state 72).running?.map (fun t => (t.act?, t.context.frames))
        = some (some .pop, [{ function := "echo"
                              params := [("param1", .str "far"), ("param2", .null)]
                              result := .str "far" }]) := by decide +kernel
    obtain ⟨t, running, same⟩ := Option.map_eq_some_iff.mp pops
    have acts : t.act? = some .pop := congrArg Prod.fst same
    have frames := congrArg Prod.snd same
    obtain ⟨c, made, active, -, -, -, last⟩ := (frames_belong_to_calls nestingBoard_built nestingRun
      nestingRun_unburdened running).2 _ [] acts frames
    exact ⟨t, _, c, running, acts, frames, rfl, made, active, last⟩

end Wireboard
