import Mathlib.Algebra.Order.Archimedean.Basic
import Mathlib.Data.Fintype.Card
import Mathlib.Data.Fintype.EquivFin
import Mathlib.Logic.Relation
import Wireboard.Proofs.Engine.PullsEnd

/-!
# Chains come to an end

A chain may go on for ever along wires that run in a circle, and in loops whose ends it never
reaches.  Where a drawing has neither (`Board.Bounded`), every chain ends.  That is not obvious,
because functions may call each other and themselves, from inside of loops, and the jump from a call
to its function is not a wire.

Three things are counted, one inside of the other.

* With every call of a function there is one call less that may still be made, since the number of
  calls under way is limited.  Nothing but a call changes that number, and when a call has returned
  it is as before (`Board.ends_of_bounded`).
* As long as no function is called, a chain goes from node to node along wires, and never comes back
  to a node that it has left (`App.acc_leads`).
* A loop stays at its node, and counts up to a number that it reaches (`Board.ends_iterate`,
  `Board.ends_rounds`).

Everything a node pulls on its way ends as well (`Board.ends_of_pulls`).
-/

namespace Wireboard

variable {σ : Type} {config : Config} {app : App} {b : Board} {env : Surroundings σ}
  {c d : Context} {node pin : String} {pin? : Option String}

/-! ## Numbers that loops count to -/

namespace Num

theorem int_lt (m : Int) (n : Num) :
    (Num.int m).lt n = n.quantity?.any (Quantity.lt (.ratio m)) := by
  unfold lt
  cases n.quantity? <;> rfl

@[simp] theorem int_lt_int (m n : Int) : (Num.int m).lt (.int n) = decide (m < n) := by
  simp [int_lt, quantity?, Quantity.lt]

@[simp] theorem int_le_int (m n : Int) : (Num.int m).le (.int n) = decide (m ≤ n) := by
  simp only [le, int_lt_int, same, quantity?, Quantity.ratio.injEq, Int.cast_inj,
    ← Bool.decide_or]
  exact decide_eq_decide.mpr Int.le_iff_lt_or_eq.symm

/-- The number is whole, and no double. -/
def isInt : Num → Bool
  | .int _ => true
  | .float _ => false

theorem exists_of_isInt {n : Num} (whole : n.isInt = true) : ∃ k, n = .int k := by
  cases n with
  | int k => exact ⟨k, rfl⟩
  | float x => cases whole

/-- The number is not beyond all others. -/
def IsReached (n : Num) : Prop := n.quantity? ≠ some .top

theorem isReached_int (n : Int) : (Num.int n).IsReached := fun h => by cases h

/-- One comes to such a number by counting, and stays there. -/
theorem IsReached.exists_le {n : Num} (reached : n.IsReached) :
    ∃ bound : Nat, ∀ count, bound ≤ count → (Num.int count).lt n = false := by
  unfold IsReached at reached
  cases place : n.quantity? with
  | none => exact ⟨0, fun count _ => by simp [int_lt, place]⟩
  | some q =>
    cases q with
    | top => exact absurd place reached
    | bottom => exact ⟨0, fun count _ => by simp [int_lt, place, Quantity.lt]⟩
    | ratio r =>
      obtain ⟨bound, above⟩ := exists_nat_ge r
      refine ⟨bound, fun count le => ?_⟩
      have later : r ≤ (count : Rat) := above.trans (by exact_mod_cast le)
      simpa [int_lt, place, Quantity.lt] using later

end Num

/-! ## Drawings without endless ways -/

namespace App

/-- A wire from an output for control leads from one node to the other. -/
def Leads (app : App) (a c : String) : Prop :=
  ∃ w ∈ app.wires, w.source.node = a ∧ w.source.pin ∈ execPins ∧ w.target.node = c

/-- Where no node leads back to itself, all ways from node to node end. -/
theorem acc_leads (acyclic : ∀ n ∈ app.nodes, ¬ Relation.TransGen app.Leads n.id n.id)
    (id : String) : Acc (fun c a => app.Leads a c ∧ app.hasNode a = true) id := by
  let ids : Finset String := (app.nodes.map (·.id)).toFinset
  have mem_ids {a : String} : a ∈ ids ↔ app.hasNode a = true := by simp [ids, hasNode_iff]
  let leadsOn : ids → ids → Prop := fun c a => Relation.TransGen app.Leads a c
  have : IsTrans ids leadsOn := ⟨fun _ _ _ later earlier => Relation.TransGen.trans earlier later⟩
  have : Std.Irrefl leadsOn := ⟨fun a circle => by
    obtain ⟨n, member, same⟩ := hasNode_iff.mp (mem_ids.mp a.2)
    exact acyclic n member (same ▸ circle)⟩
  have outside {a : String} (missing : a ∉ ids) :
      Acc (fun c a => app.Leads a c ∧ app.hasNode a = true) a :=
    Acc.intro _ fun c leads => absurd (mem_ids.mpr leads.2) missing
  have inside (a : ids) : Acc (fun c a => app.Leads a c ∧ app.hasNode a = true) (a : String) := by
    induction a using (Finite.wellFounded_of_trans_of_irrefl leadsOn).induction with
    | _ a ih =>
      refine Acc.intro _ fun c leads => ?_
      by_cases member : c ∈ ids
      · exact ih ⟨c, member⟩ (.single leads.1)
      · exact outside member
  by_cases member : id ∈ ids
  · exact inside ⟨id, member⟩
  · exact outside member

/-- No node leads back to itself where every wire leads downwards. -/
theorem acyclic_of_falls (height : String → Nat)
    (falls : ∀ w ∈ app.wires, w.source.pin ∈ execPins →
      height w.target.node < height w.source.node) (a : String) :
    ¬ Relation.TransGen app.Leads a a := by
  have lower {a c : String} (leads : app.Leads a c) : height c < height a := by
    obtain ⟨w, member, rfl, output, rfl⟩ := leads
    exact falls w member output
  have lowest {a c : String} (way : Relation.TransGen app.Leads a c) : height c < height a := by
    induction way with
    | single leads => exact lower leads
    | tail _ leads ih => exact (lower leads).trans ih
  exact fun circle => Nat.lt_irrefl _ (lowest circle)

end App

/-- No way through the drawing is endless. -/
structure Board.Bounded (b : Board) (app : App) : Prop where
  /-- No node leads back to itself along wires that hand on control. -/
  acyclic : ∀ n ∈ app.nodes, ¬ Relation.TransGen app.Leads n.id n.id
  /-- What enters the ends of a counting loop, if anything, is a literal with a whole number. -/
  counts : ∀ {id : String} {n : Node}, b.circuit.node? id = some n → n.kind = "forLoop" →
    ∀ pin ∈ ["start", "end"], ∀ p, b.source? n.id pin = some p →
      ∃ m, b.circuit.node? p.node = some m ∧ m.kind = "numberLiteral" ∧
        (m.property "value").toNum.isInt = true
  /-- A conditional loop has a whole number for its limit, or none. -/
  limits : ∀ {id : String} {n : Node}, b.circuit.node? id = some n → n.kind = "whileLoop" →
    (n.property "maxIterations").toNum.isInt = true
  /-- The limit for those that have none is not infinite. -/
  limited : ∀ most, b.config.maxIterations.asNum? = some most → most.IsReached
  /-- The number of calls under way is limited. -/
  calls : ∃ most : Int, b.config.maxCallDepth = .int most

theorem NodeKind.name_of_ofName? {name : String} {kind : NodeKind}
    (named : NodeKind.ofName? name = some kind) : name = kind.name := by
  unfold NodeKind.ofName? at named
  have same := List.find?_some named
  exact (eq_of_beq same).symm

theorem Value.toNum_toValue_toNum {v : Value} {k : Int} (whole : v.toNum = .int k) :
    v.toNum.toValue.toNum = .int k := by
  rw [whole]
  rfl

namespace Board

/-- What enters an end of a counting loop is a whole number. -/
theorem Bounded.exists_int (bounded : b.Bounded app) {id : String} {n : Node}
    (found : b.circuit.node? id = some n) (loop : n.kind = "forLoop")
    (isEnd : pin ∈ ["start", "end"]) {v : Value} (enters : b.Enters n.id pin v) :
    ∃ k : Int, v.toNum = .int k := by
  unfold Enters at enters
  split at enters
  next =>
    rw [enters]
    exact ⟨0, rfl⟩
  next p source =>
    obtain ⟨m, found', literal, isInt⟩ := bounded.counts found loop pin isEnd p source
    obtain ⟨k, whole⟩ := Num.exists_of_isInt isInt
    have named : NodeKind.ofName? m.kind = some .numberLiteral := by
      rw [literal]
      rfl
    rcases enters m found' named with rfl | rfl
    · exact ⟨k, Value.toNum_toValue_toNum whole⟩
    · exact ⟨0, rfl⟩

/-- A conditional loop makes only so many rounds. -/
theorem Bounded.exists_limit (bounded : b.Bounded app) {id : String} {n : Node}
    (found : b.circuit.node? id = some n) (loop : n.kind = "whileLoop") :
    ∃ bound : Nat, ∀ most, (b.roundLimit n).boundBy "<" = .ok most →
      ∀ count, bound ≤ count → (Num.int count).lt most = false := by
  have reached (most : Num) (limit : (b.roundLimit n).asNum? = some most) : most.IsReached := by
    obtain ⟨k, whole⟩ := Num.exists_of_isInt (bounded.limits found loop)
    unfold roundLimit at limit
    dsimp only at limit
    split at limit
    · exact bounded.limited most limit
    · rw [whole] at limit
      cases limit
      exact Num.isReached_int k
  cases limit : (b.roundLimit n).asNum? with
  | none =>
    refine ⟨0, fun most bound => ?_⟩
    rw [Value.boundBy, limit] at bound
    cases bound
  | some most' =>
    obtain ⟨bound, beyond⟩ := (reached most' limit).exists_le
    refine ⟨bound, fun most eq => ?_⟩
    rw [Value.boundBy, limit] at eq
    cases eq
    exact beyond

/-! ## Loops -/

/-- A counting loop at a node comes to an end, if what it sets off does.  The induction is on the
numbers that are left. -/
theorem ends_iterate (fires : ∀ d, c.Matches d → ∀ pin ∈ execPins, b.Ends env d (.fire node pin))
    (index stop : Int) : b.Ends env c (.iterate node (.int index) (.int stop)) := by
  induction left : (stop - index).toNat using Nat.strong_induction_on generalizing c index with
  | _ left' ih =>
    refine Acc.intro _ ?_
    rintro ⟨d, i⟩ ⟨other, sends⟩
    cases sends with
    | order => exact absurd rfl other
    | loop output => exact fires c (.refl c) _ output
    | next less add same =>
      rw [Num.int_lt_int, decide_eq_true_iff] at less
      cases add
      exact ih _ (by omega) (fun e same' => fires e (same.trans same')) (index + 1) rfl
    | chain begins => cases begins

/-- A conditional loop comes to an end, if what it sets off does. -/
theorem ends_rounds (built : Board.ofApp config app = .ok b)
    (fires : ∀ d, c.Matches d → ∀ pin ∈ execPins, b.Ends env d (.fire node pin)) {limit : Value}
    {bound : Nat} (limited : ∀ most, limit.boundBy "<" = .ok most →
      ∀ count, bound ≤ count → (Num.int count).lt most = false) (count : Nat) :
    b.Ends env c (.rounds node count limit) := by
  induction left : bound - count using Nat.strong_induction_on generalizing c count with
  | _ left' ih =>
    refine Acc.intro _ ?_
    rintro ⟨d, i⟩ ⟨other, sends⟩
    cases sends with
    | order => exact absurd rfl other
    | condition source => exact ends_of_pulls built c rfl
    | round output => exact fires c (.refl c) _ output
    | again bounds less same =>
      have early : count < bound := by
        refine Nat.lt_of_not_le fun le => ?_
        cases (limited _ bounds count le).symm.trans less
      exact ih _ (by omega) (fun e same' => fires e (same.trans same')) (count + 1) rfl
    | chain begins => cases begins

/-! ## Nodes -/

/-- The wires of a pin come to an end, if the nodes do to which they lead. -/
theorem ends_fire (targets : ∀ w ∈ b.circuit.wiresFrom node pin, ∀ d, c.Matches d →
    b.Ends env d (.execute w.target.node (some w.target.pin))) : b.Ends env c (.fire node pin) := by
  refine Acc.intro _ ?_
  rintro ⟨d, i⟩ ⟨other, sends⟩
  cases sends with
  | order => exact absurd rfl other
  | wire member same => exact targets _ member d same
  | chain begins => cases begins

variable (built : Board.ofApp config app = .ok b) (bounded : b.Bounded app)
include built bounded

/-- A node comes to an end, if the wires of its outputs do, and so does any function that may still
be called. -/
theorem ends_execute {most : Int} (limit : b.config.maxCallDepth = .int most)
    (fires : ∀ n, b.circuit.node? node = some n → ∀ d, c.Matches d → ∀ pin ∈ execPins,
      b.Ends env d (.fire node pin))
    (functions : ∀ f entry, c.depth < most → b.Ends env (c.push f) (.execute entry none)) :
    b.Ends env c (.execute node pin?) := by
  have filed : b.Filed := filed_of_ofApp built
  refine Acc.intro _ ?_
  rintro ⟨d, i⟩ ⟨other, sends⟩
  cases sends with
  | order => exact absurd rfl other
  | input found source => exact ends_of_pulls built c rfl
  | output found output =>
    rw [filed.id_eq found]
    exact fires _ found c (.refl c) _ output
  | count found named first stop =>
    have loop := NodeKind.name_of_ofName? named
    obtain ⟨k, first'⟩ := bounded.exists_int found loop (by decide) first
    obtain ⟨k', stop'⟩ := bounded.exists_int found loop (by decide) stop
    rw [first', stop', filed.id_eq found]
    exact ends_iterate (fires _ found) k k'
  | test found named =>
    obtain ⟨bound, limited⟩ := bounded.exists_limit found (NodeKind.name_of_ofName? named)
    rw [filed.id_eq found]
    exact ends_rounds built (fires _ found) limited 0
  | function _ bound shallow =>
    rw [limit] at bound
    cases bound
    rw [Num.int_le_int, decide_eq_false_iff_not, not_le] at shallow
    exact functions _ _ shallow
  | chain begins => cases begins

/-- Every node comes to an end.  The induction is on the number of calls that may still be made, and
inside of it along the wires. -/
theorem ends_of_bounded (c : Context) (node : String) (pin? : Option String) :
    b.Ends env c (.execute node pin?) := by
  obtain ⟨most, limit⟩ := bounded.calls
  induction left : (most - c.depth).toNat using Nat.strong_induction_on
    generalizing c node pin? with
  | _ left' deeper =>
    induction app.acc_leads bounded.acyclic node generalizing c pin? with
    | intro node _ along =>
      refine ends_execute built bounded limit ?_ ?_
      · intro n found d same pin output
        refine ends_fire fun w member e same' => ?_
        rw [wiresFrom_of_ofApp built, List.mem_filter, decide_eq_true_iff] at member
        have leads : app.Leads node w.target.node :=
          ⟨w, member.1, by rw [member.2], by rw [member.2]; exact output, rfl⟩
        have has : app.hasNode node = true := by
          rw [← hasNode_of_ofApp built]
          exact hasNode_of_node? found
        have depth : e.depth = c.depth := same'.depth.trans same.depth
        exact along w.target.node ⟨leads, has⟩ e _ (by rw [depth]; exact left)
      · intro f entry shallow
        have depth : (c.push f).depth = c.depth + 1 := rfl
        exact deeper _ (by omega) (c.push f) entry none rfl

/-- Whatever begins chains comes to an end. -/
theorem ends_of_beginsChains {j : Job} (begins : j.beginsChains = true) (c : Context) :
    b.Ends env c j := by
  refine Acc.intro _ ?_
  rintro ⟨d, i⟩ ⟨other, sends⟩
  cases sends with
  | order => exact absurd rfl other
  | chain => exact ends_fire fun w _ d _ => ends_of_bounded built bounded d _ _
  | _ => cases begins

end Board

/-- Where no way through the drawing is endless, every chain comes to an end: the start of the app,
the tick of a timer and the handling of an event, as long as requests are answered and listeners
end. -/
theorem Course.chain_comes_to_end (built : Board.ofApp config app = .ok b)
    (bounded : b.Bounded app) (course : Course b env) {s : Strand} {j : Job} {next : Continuation}
    {p : Nat} (calls : course.Calls p s j next) (begins : j.beginsChains = true)
    (served : course.Served s p) : ∃ q d x, course.Returns s p q d x :=
  returns_of_ends (Board.ends_of_beginsChains built bounded begins s.context) calls rfl served

/-- A drawing with a function that calls itself, and a loop that calls the function twice. -/
def spiralApp : App where
  id := "spiral"
  name := .str "spiral"
  nodes := [{ id := "start", kind := "onAppStart" }, { id := "loop", kind := "forLoop" },
    { id := "two", kind := "numberLiteral", properties := [("value", .int 2)] },
    { id := "down", kind := "functionCall", properties := [("funcName", .str "f")] },
    { id := "f", kind := "functionDefine", properties := [("funcName", .str "f")] },
    { id := "again", kind := "functionCall", properties := [("funcName", .str "f")] }]
  wires := [.link "start" "exec" "loop" "exec", .link "two" "value" "loop" "end",
    .link "loop" "loop" "down" "exec", .link "f" "exec" "again" "exec"]

/-- The board of the drawing, with two calls under way at most. -/
def spiralBoard : Board := spiralApp.board { maxCallDepth := .int 2 }

theorem spiralBoard_built :
    Board.ofApp { maxCallDepth := .int 2 } spiralApp = .ok spiralBoard := rfl

def spiralRun : Run spiralBoard .silent := .ofStart _ _ ()

theorem spiralBoard_bounded : spiralBoard.Bounded spiralApp where
  acyclic n _ := App.acyclic_of_falls (fun
    | "start" => 2
    | "loop" | "f" => 1
    | _ => 0) (by decide) n.id
  counts found loop := by
    have all : ∀ n ∈ spiralApp.nodes, n.kind = "forLoop" → ∀ pin ∈ ["start", "end"],
        ∀ p ∈ spiralBoard.source? n.id pin, ∃ m ∈ spiralBoard.circuit.node? p.node,
          m.kind = "numberLiteral" ∧ (m.property "value").toNum.isInt = true := by decide +kernel
    exact all _ (Board.mem_nodes_of_node? spiralBoard_built found) loop
  limits found loop := by
    have all : ∀ n ∈ spiralApp.nodes, n.kind = "whileLoop" →
        (n.property "maxIterations").toNum.isInt = true := by decide +kernel
    exact all _ (Board.mem_nodes_of_node? spiralBoard_built found) loop
  limited most limit := by
    cases limit
    exact Num.isReached_int _
  calls := ⟨2, rfl⟩

/-- The function is called over and over, but each chain of calls is cut off, and the start of the
app is done in the end. -/
theorem Course.chain_comes_to_end_spiralRun : ∃ s next,
    spiralRun.Calls 2 s .start next ∧ ∃ q d x, spiralRun.Returns s 2 q d x := by
  have spans : spiralRun.Spans 0 2 .start 122 := by decide +kernel
  obtain ⟨s, next, calls⟩ := spans.1.exists_calls
  exact ⟨s, next, calls, chain_comes_to_end spiralBoard_built spiralBoard_bounded
    spiralRun.toCourse calls rfl (spans.served calls)⟩

end Wireboard
