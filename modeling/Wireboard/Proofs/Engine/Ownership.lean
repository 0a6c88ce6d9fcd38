import Wireboard.Proofs.Engine.CountingLoops

/-!
# What is written, and by whom

Nodes keep things for themselves, and some set variables.  A chain runs through many nodes, in loops
and in functions that call each other, and pulls through many more; but what a node has kept changes
only if that node was executed, and a variable changes only if a node was executed that sets it.

The terms of a job say what it writes (`Board.Does`): what a node keeps, it keeps while it is
executed or counts.  So a write is traced back to the innermost job that was under way then
(`Course.Busy.exists_innermost`), and from a lap of a counting loop to the node that began to count
(`Course.Busy.executes_of_iterate`).

The nodes, the wires and the functions are those of the board.  A course has one board for all its
moves, so there is nothing to be shown about them.
-/

namespace Wireboard

variable {σ : Type} {config : Config} {app : App} {b : Board} {env : Surroundings σ}

/-- The job runs a chain, or a part of one. -/
def Job.runsChain : Job → Bool
  | .chain _ | .fire _ _ | .execute _ _ => true
  | _ => false

namespace Course

variable {course : Course b env} {s t u : Strand} {j : Job} {next goesOn : Continuation}
  {p q l k : Nat}

/-! ## Innermost jobs -/

/-- Whoever is busy with a job is busy with an innermost one, which the strand has called itself
since then.  That was when the strand was last below where it is now. -/
theorem Busy.exists_innermost (busy : course.Busy s p l t) (calls : course.Calls p s j next) :
    ∃ k u i goesOn, p ≤ k ∧ k < l ∧ (k = p ∧ i = j ∨ course.Busy s p k u) ∧ u.id = s.id ∧
      course.Calls k u i goesOn ∧
      t.code.Honours (b.terms env i u.context) (b.Yields u.context i) t.context := by
  classical
  let P : Nat → Prop := fun k =>
    p ≤ k ∧ ∃ u, course.Runs s.id k u ∧ u.stack.length < t.stack.length
  have first : P p := ⟨Nat.le_refl p, s, ⟨calls.running, rfl⟩, busy.above⟩
  obtain ⟨le, u, runs, below⟩ :=
    Nat.findGreatest_spec (P := P) (Nat.le_sub_one_of_lt busy.after) first
  generalize last : Nat.findGreatest P (l - 1) = k at le runs
  have before : k < l := by
    have le := Nat.findGreatest_le (P := P) (l - 1)
    have after := busy.after
    omega
  have above (i : Nat) (v : Strand) (after : k < i) (le' : i ≤ l) (runs' : course.Runs s.id i v) :
      t.stack.length ≤ v.stack.length := by
    rcases Nat.lt_or_eq_of_le le' with earlier | rfl
    · refine Nat.le_of_not_lt fun low => ?_
      exact Nat.findGreatest_is_greatest (last.symm ▸ after) (Nat.le_sub_one_of_lt earlier)
        (⟨Nat.le_of_lt (Nat.lt_of_le_of_lt le after), v, runs', low⟩ : P i)
    · rw [busy.runs.eq runs']
  have inner : course.Busy u k l t :=
    { after := before
      within := fun i v after before runs' =>
        Nat.lt_of_lt_of_le below (above i v after (Nat.le_of_lt before) (runs.2 ▸ runs'))
      runs := runs.2.symm ▸ busy.runs
      above := below }
  have outer : k = p ∧ u = s ∨ course.Busy s p k u := by
    rcases Nat.lt_or_eq_of_le le with later | rfl
    · exact .inr ⟨later, busy.within.mono (Nat.le_of_lt before), runs,
        busy.within k u later before runs⟩
    · exact .inl ⟨rfl, runs.eq ⟨calls.running, rfl⟩⟩
  -- whatever the strand did then, it left the stack as it was or lower, unless it was a call
  cases code : u.code with
  | ret x =>
    rcases outer with ⟨rfl, rfl⟩ | outer
    · cases calls.code.symm.trans code
    · cases stacked : u.stack with
      | nil =>
        have above := outer.above
        rw [stacked] at above
        cases above
      | cons goesOn rest =>
        have lower : t.stack.length ≤ rest.length := above (k + 1) _ (Nat.lt_succ_self k) before
          ⟨running_after_return runs.1 code stacked, runs.2⟩
        rw [stacked] at below
        simp only [List.length_cons] at below
        omega
  | act a goesOn =>
    have same := above (k + 1) _ (Nat.lt_succ_self k) before
      ⟨(course.move k).running_of_act runs.1 code, runs.2⟩
    exact absurd same (Nat.not_le_of_lt below)
  | wait r goesOn =>
    obtain ⟨k', reply, later, still, running⟩ := exists_answer ⟨runs.1, rfl⟩ code
      ⟨l, t, before, inner.runs⟩
    have soon : k' ≤ l := Nat.le_of_not_lt fun lt => still l t before lt inner.runs
    exact absurd (above k' _ later soon ⟨running, runs.2⟩) (Nat.not_le_of_lt below)
  | call i goesOn =>
    have calls' : course.Calls k u i goesOn := ⟨runs.1, code⟩
    have higher := above (k + 1) _ (Nat.lt_succ_self k) before ⟨calls'.running_after, runs.2⟩
    have height : t.stack.length = u.stack.length + 1 := Nat.le_antisymm higher below
    refine ⟨k, u, i, goesOn, le, before, outer.imp ?_ id, runs.2, calls',
      (inner.honours calls' height).2⟩
    rintro ⟨rfl, rfl⟩
    cases calls.code.symm.trans code
    exact ⟨rfl, rfl⟩

/-! ## Owners -/

/-- Between two times the strand with a number executes a node. -/
def Executes (course : Course b env) (i p q : Nat) (id : String) : Prop :=
  ∃ k u pin? next, p ≤ k ∧ k < q ∧ u.id = i ∧ course.Calls k u (.execute id pin?) next

theorem Executes.mono {i : Nat} {id : String} (executes : course.Executes i p k id) (le : k ≤ q) :
    course.Executes i p q id := by
  obtain ⟨l, u, pin?, next, after, before, number, calls⟩ := executes
  exact ⟨l, u, pin?, next, after, Nat.lt_of_lt_of_le before le, number, calls⟩

/-- Whatever differs between two machines has an owner that the strand with a number has executed
between two times: the node that keeps it, or one that sets the variable of that name. -/
structure Owned (course : Course b env) (i p q : Nat) (m m' : Machine σ) : Prop where
  scratch : ∀ id, m'.scratchOf id ≠ m.scratchOf id → course.Executes i p q id
  bindings : ∀ key, m'.bindings.get? key ≠ m.bindings.get? key →
    ∃ id name, key = .text name ∧ b.Names id name ∧ course.Executes i p q id

/-- What differs in the end differs by the second step or did so by the first. -/
theorem Owned.trans {i : Nat} {m m' m'' : Machine σ} (h : course.Owned i p q m m')
    (h' : course.Owned i p q m' m'') : course.Owned i p q m m'' := by
  constructor
  · intro id changed
    by_cases same : m''.scratchOf id = m'.scratchOf id
    · exact h.scratch id (same ▸ changed)
    · exact h'.scratch id same
  · intro key changed
    by_cases same : m''.bindings.get? key = m'.bindings.get? key
    · exact h.bindings key (same ▸ changed)
    · exact h'.bindings key same

variable (filed : b.Filed) (calls : course.Calls p s j next) (runs : j.runsChain = true)
include filed calls runs

/-- Whoever counts was executed before.  The induction goes back from lap to lap. -/
theorem Busy.executes_of_iterate {node : String} {index stop : Num} (busy : course.Busy s p k u)
    (code : u.code = .call (.iterate node index stop) goesOn) : course.Executes s.id p k node := by
  induction k using Nat.strong_induction_on generalizing u index goesOn with
  | _ k ih =>
    obtain ⟨l, v, i, goesOn', after, before, outer, number, calls', honours⟩ :=
      busy.exists_innermost calls
    rw [code] at honours
    obtain ⟨-, sends, -⟩ := honours
    generalize v.context = c, u.context = d at sends
    cases sends with
    | @count id pin? n _ _ _ found =>
      rw [filed.id_eq found]
      exact ⟨l, v, pin?, goesOn', after, before, number, calls'⟩
    | next less add same =>
      rcases outer with ⟨-, rfl⟩ | outer
      · cases runs
      · exact (ih l before outer calls'.code).mono (Nat.le_of_lt before)

omit filed runs in
/-- Nobody handles an event inside of a chain. -/
theorem Busy.not_handle {type target : Value} (busy : course.Busy s p k u) :
    u.code ≠ .call (.handle type target) goesOn := by
  intro code
  obtain ⟨l, v, i, _, _, _, _, _, _, honours⟩ := busy.exists_innermost calls
  rw [code] at honours
  obtain ⟨-, sends, -⟩ := honours
  generalize v.context = c, u.context = d at sends
  cases sends

/-- What is written inside of a chain is the affair of a node that was executed in it. -/
theorem Busy.executes_of_act {a : Act} (busy : course.Busy s p l t) (acts : t.act? = some a) :
    (∀ id memo, a = .remember id memo → course.Executes s.id p l id) ∧
      ∀ name v, a = .assign name v → ∃ id, b.Names id name ∧ course.Executes s.id p l id := by
  obtain ⟨k, u, i, goesOn, after, before, outer, number, calls', honours⟩ :=
    busy.exists_innermost calls
  obtain ⟨_, code⟩ := Strand.code_of_act? acts
  rw [code] at honours
  have does : b.Does i a := honours.2.1
  constructor
  · rintro id memo rfl
    cases i with
    | execute node pin? =>
      obtain ⟨n, found, rfl⟩ := does
      rw [filed.id_eq found]
      exact ⟨k, u, pin?, goesOn, after, before, number, calls'⟩
    | iterate node index stop =>
      cases (does : id = node)
      rcases outer with ⟨-, rfl⟩ | outer
      · cases runs
      · exact (outer.executes_of_iterate filed calls runs calls'.code).mono (Nat.le_of_lt before)
    | handle =>
      rcases outer with ⟨-, rfl⟩ | outer
      · cases runs
      · exact absurd calls'.code (outer.not_handle calls)
    | pull | resolve => rcases does with look | turns <;> contradiction
    | _ => cases does
  · rintro name v rfl
    cases i with
    | execute node pin? => exact ⟨node, does, k, u, pin?, goesOn, after, before, number, calls'⟩
    | pull | resolve => rcases does with look | turns <;> contradiction
    | _ => cases does

/-- One move of the strand that runs alone changes nothing that is not owned. -/
theorem owned_move (alone : course.Alone s.id p q) (within : course.Within s p q) (le : p ≤ k)
    (before : k < q) : course.Owned s.id p q (course.state k) (course.state (k + 1)) := by
  have busy {a : Act} (acts : (course.state k).act? = some a) :
      ∃ t, course.Busy s p k t ∧ t.act? = some a := by
    obtain ⟨t, running, acts⟩ := Option.bind_eq_some_iff.mp acts
    exact ⟨t, alone.busy calls within le before running acts, acts⟩
  have alters := (course.move k).alters
  constructor
  · intro id changed
    rcases alters.scratch with ⟨node, memo, acts, kept⟩ | ⟨-, same⟩
    · have owner : node = id := by
        refine Classical.byContradiction fun other => changed ?_
        simp only [Machine.scratchOf, kept, Table.get?_put, if_neg other]
      obtain ⟨t, busy, acts⟩ := busy acts
      have keeps := (busy.executes_of_act filed calls runs acts).1
      exact (keeps id memo (owner ▸ rfl)).mono (Nat.le_of_lt before)
    · exact absurd (by simp only [Machine.scratchOf, same]) changed
  · intro key changed
    rcases alters.bindings with same | ⟨name, v, acts, put⟩ | ⟨name, v, assigns⟩
    · exact absurd (by rw [same]) changed
    · have named : key = .text name := by
        refine Classical.byContradiction fun other => changed ?_
        rw [put, Dictionary.get?_put, if_neg]
        exact fun same => other (Option.some.inj same).symm
      obtain ⟨t, busy, acts⟩ := busy acts
      obtain ⟨id, sets, executes⟩ := (busy.executes_of_act filed calls runs acts).2 name v rfl
      exact ⟨id, name, named, sets, executes.mono (Nat.le_of_lt before)⟩
    · exact absurd assigns (alone.still k name v le before)

omit filed in
/-- Where a chain runs alone, what a node has kept differs from what it had kept before only if the
node was executed by then, and a variable has another value only if a node was executed that sets
the variable of that name. -/
theorem writes_stay_with_owner (built : Board.ofApp config app = .ok b) (le : p ≤ q)
    (within : course.Within s p q) (alone : course.Alone s.id p q) :
    course.Owned s.id p q (course.state p) (course.state q) := by
  have filed : b.Filed := Board.filed_of_ofApp built
  have sofar (k : Nat) (le : p ≤ k) (le' : k ≤ q) :
      course.Owned s.id p q (course.state p) (course.state k) := by
    induction k, le using Nat.le_induction with
    | base => exact ⟨fun _ changed => absurd rfl changed, fun _ changed => absurd rfl changed⟩
    | succ k le ih =>
      exact (ih (Nat.le_of_succ_le le')).trans (owned_move filed calls runs alone within le le')
  exact sofar q le (Nat.le_refl q)

end Course

/-- A loop counts, and a variable is set in every lap.  Both have changed when the chain is done,
and both nodes were executed. -/
theorem Course.writes_stay_with_owner_paceRun : ∃ s next,
    paceRun.Calls 8 s (.fire "start" "exec") next ∧
      (paceRun.state 63).scratchOf "pace" ≠ (paceRun.state 8).scratchOf "pace" ∧
      paceRun.Executes s.id 8 63 "pace" ∧
      (paceRun.state 63).bindings.get? (.text "myVar") = some (.int 3) ∧
      ∃ id, paceBoard.Names id "myVar" ∧ paceRun.Executes s.id 8 63 id := by
  have begins : paceRun.BeginsOn 1 8 (.fire "start" "exec") := by decide +kernel
  have above : paceRun.RisesAbove 1 8 63 := by decide +kernel
  have alone : paceRun.FirstAlone 8 63 := by decide +kernel
  have kept : (paceRun.state 63).scratchOf "pace"
      ≠ (paceRun.state 8).scratchOf "pace" := by decide +kernel
  have set : (paceRun.state 8).bindings.get? (.text "myVar") = none ∧
      (paceRun.state 63).bindings.get? (.text "myVar") = some (.int 3) := by decide +kernel
  obtain ⟨s, next, calls⟩ := begins.exists_calls
  obtain ⟨keeps, sets⟩ := writes_stay_with_owner calls rfl
    (show Board.ofApp {} paceApp = .ok paceBoard from rfl)
    (by decide) (begins.within calls above) (begins.alone calls alone)
  obtain ⟨id, name, eq, names, executes⟩ := sets (.text "myVar") (by rw [set.1, set.2]; decide)
  cases eq
  exact ⟨s, next, calls, kept, keeps "pace" kept, set.2, id, names, executes⟩

end Wireboard
