import Mathlib.Data.Fintype.Card
import Mathlib.Data.Fintype.EquivFin
import Mathlib.Data.Fintype.Sets
import Mathlib.Order.WellFounded
import Wireboard.Proofs.Engine.Needs
import Wireboard.Proofs.Engine.PullsEnd

/-!
# Every value once

The engine keeps no values: what is needed twice is pulled twice.  Here is the other way to find
values.  All pins are put in an order in which none stands before what it needs (`Board.Ready`), and
each is worked out once, from those in the table that has been made so far (`Board.tabulate`).

What a pin gives depends on what the chain sees (`View`): the variables, what nodes have kept, the
calls under way and what is stored.  Some nodes look elsewhere, at the user, at chance or at a chat;
their values are taken as they come.

In the end every entry of the table is what its node makes of the other entries
(`Board.entry_eq_valueAt`).  And there is an order for any pins of a drawing without a cycle
(`Board.exists_ready`).
-/

namespace Wireboard

variable {σ : Type} {config : Config} {app : App}

/-- What a chain sees. -/
structure View where
  binding : String → Value
  scratch : String → Scratch
  frame? : String → Option Frame
  load : String → Except Fault Value

/-- What a chain sees of a machine. -/
def Machine.view (env : Surroundings σ) (m : Machine σ) (c : Context) : View where
  binding name := (m.bindings.get? (.text name)).getD .null
  scratch := m.scratchOf
  frame? := c.frame?
  load := env.load m.outside

/-- The kind gives what somebody else says, and not what the chain sees. -/
def NodeKind.looksElsewhere : NodeKind → Bool
  | .randomNumber | .geminiChat | .getInputValue => true
  | _ => false

namespace Board

variable (b : Board)

/-- What a node tells of what the chain sees. -/
def report (w : View) (n : Node) (pin : String) : NodeKind → Except Fault Value
  | .onKeyPress =>
    return if pin = "key" then (w.scratch n.id).result.orElse (.str "") else .null
  | .stringLiteral => return match n.property "value" with
    | .null => .str ""
    | v => v
  | .numberLiteral => return (n.property "value").toNum.toValue
  | .getVariable => return w.binding (← (n.propertyOr "varName" (.str "myVar")).toPlain)
  | .createList => return .list []
  | .listAdd | .listRemove => return match (w.scratch n.id).result with
    | .null => .list []
    | v => v
  | .forLoop => return ((w.scratch n.id).index?.map Num.toValue).getD (.int 0)
  | .loadData => do
    let key ← b.config.storageKey (n.property "key")
    return ((w.load key >>= readStored).toOption).getD .null
  | .getClipboard => return (w.scratch n.id).result.orElse (.str "")
  | .getLocation =>
    let s := w.scratch n.id
    return match if pin = "lon" then s.longitude else s.latitude with
      | .null => .int 0
      | v => v
  | .getBattery =>
    let s := w.scratch n.id
    return if pin = "charging" then .bool (s.charging?.getD false) else .int (s.level?.getD 0)
  | .httpRequest =>
    let s := w.scratch n.id
    return if pin = "status" then s.status.orElse (.int 0) else s.result
  | .functionDefine => do
    if pin = "param1" || pin = "param2" then
      let frame? := w.frame? (← Circuit.functionName b.config n)
      return (frame?.bind fun f => f.params.get? pin).getD .null
    else return .null
  | .functionCall => return (w.scratch n.id).result
  | _ => return .null

/-- What a node works out, from the values that have entered it or from what the chain sees. -/
def workOut (w : View) (n : Node) (pin : String) (kind : NodeKind) (vs : List Value) :
    Except Fault Value :=
  if kind.inputs.isEmpty then b.report w n pin kind else combine n kind vs

/-- The value that enters an input pin, where the values of other pins are given. -/
def entering (given : PinRef → Value) (node pin : String) : Value :=
  match b.source? node pin with
  | none => .null
  | some q => given q

/-- The value at a pin, where the values of other pins are given.  What cannot be worked out is
null. -/
def valueAt (w : View) (elsewhere given : PinRef → Value) (p : PinRef) : Value :=
  match b.circuit.node? p.node with
  | none => .null
  | some n =>
    match NodeKind.ofName? n.kind with
    | none => .null
    | some kind =>
      if kind.looksElsewhere then elsewhere p
      else
        let entered := kind.inputs.map (b.entering given n.id)
        ((b.workOut w n p.pin kind entered).toOption).getD .null

/-- The value of a pin in a table. -/
def entry (table : List (PinRef × Value)) (p : PinRef) : Value := (table.lookup p).getD .null

/-- Work out some pins, one after the other, each from the table made so far. -/
def tabulate (w : View) (elsewhere : PinRef → Value) :
    List (PinRef × Value) → List PinRef → List (PinRef × Value)
  | table, [] => table
  | table, p :: rest =>
    tabulate w elsewhere ((p, b.valueAt w elsewhere (entry table) p) :: table) rest

/-- When some pins are done, the others can be worked out in this order: each once, and none before
what it needs. -/
def Ready : List PinRef → List PinRef → Prop
  | _, [] => True
  | done, p :: rest => p ∉ done ∧ (∀ q, b.Needs p q → q ∈ done) ∧ Ready (p :: done) rest

/-- Neither the pin nor what it needs, however far away, looks elsewhere. -/
def Settled (p : PinRef) : Prop :=
  ∀ q n kind, Relation.ReflTransGen b.Needs p q → b.circuit.node? q.node = some n →
    NodeKind.ofName? n.kind = some kind → kind.looksElsewhere = false

variable {b}

variable {p : PinRef}

theorem Settled.of_needs {q : PinRef} (settled : b.Settled p) (needs : b.Needs p q) : b.Settled q :=
  fun r n kind trail => settled r n kind (trail.head needs)

/-! ## The entries of a table -/

@[simp] theorem entry_cons_self (p : PinRef) (v : Value) (table : List (PinRef × Value)) :
    entry ((p, v) :: table) p = v := by
  simp [entry]

theorem entry_cons_of_ne {q : PinRef} (other : q ≠ p) (v : Value) (table : List (PinRef × Value)) :
    entry ((p, v) :: table) q = entry table q := by
  simp [entry, List.lookup_cons, beq_eq_false_iff_ne.mpr other]

variable {elsewhere : PinRef → Value} {w : View}

/-- The value at a pin depends on the pins that it needs, and on no others. -/
theorem valueAt_congr {f g : PinRef → Value} (same : ∀ q, b.Needs p q → f q = g q) :
    b.valueAt w elsewhere f p = b.valueAt w elsewhere g p := by
  unfold valueAt
  split
  · rfl
  next n found =>
    split
    · rfl
    next kind named =>
      have inputs : kind.inputs.map (b.entering f n.id) = kind.inputs.map (b.entering g n.id) := by
        refine List.map_congr_left fun input asked => ?_
        unfold entering
        split
        · rfl
        next q source => exact same q ⟨n, kind, input, found, named, asked, source⟩
      rw [inputs]

/-- The pins are done: each is in the table as its node makes it of the others, and so are those
that it needs. -/
def Done (b : Board) (w : View) (elsewhere : PinRef → Value) (table : List (PinRef × Value))
    (done : List PinRef) : Prop :=
  ∀ p ∈ done, entry table p = b.valueAt w elsewhere (entry table) p ∧ ∀ q, b.Needs p q → q ∈ done

theorem Done.cons {table : List (PinRef × Value)} {done : List PinRef}
    (all : b.Done w elsewhere table done) (new : p ∉ done) (needs : ∀ q, b.Needs p q → q ∈ done) :
    b.Done w elsewhere ((p, b.valueAt w elsewhere (entry table) p) :: table) (p :: done) := by
  have kept {q : PinRef} (member : q ∈ done) :
      entry ((p, b.valueAt w elsewhere (entry table) p) :: table) q = entry table q :=
    entry_cons_of_ne (fun eq => new (by rwa [← eq])) _ _
  intro q member
  rcases List.mem_cons.mp member with rfl | old
  · refine ⟨?_, fun r needed => List.mem_cons_of_mem _ (needs r needed)⟩
    rw [entry_cons_self]
    exact valueAt_congr fun r needed => (kept (needs r needed)).symm
  · obtain ⟨eq, closed⟩ := all q old
    refine ⟨?_, fun r needed => List.mem_cons_of_mem _ (closed r needed)⟩
    rw [kept old, eq]
    exact valueAt_congr fun r needed => (kept (closed r needed)).symm

/-- In the end every entry is what its node makes of the others. -/
theorem entry_eq_valueAt_of_done {table : List (PinRef × Value)} {done order : List PinRef}
    (all : b.Done w elsewhere table done) (ready : b.Ready done order)
    (member : p ∈ done ∨ p ∈ order) :
    entry (b.tabulate w elsewhere table order) p
      = b.valueAt w elsewhere (entry (b.tabulate w elsewhere table order)) p := by
  induction order generalizing table done with
  | nil =>
    have member : p ∈ done := member.resolve_right (List.not_mem_nil)
    exact (all p member).1
  | cons q rest ih =>
    obtain ⟨new, needs, ready⟩ := ready
    refine ih (all.cons new needs) ready ?_
    rcases member with old | here
    · exact .inl (List.mem_cons_of_mem _ old)
    · rcases List.mem_cons.mp here with rfl | later
      · exact .inl List.mem_cons_self
      · exact .inr later

theorem entry_eq_valueAt {order : List PinRef} (ready : b.Ready [] order) (member : p ∈ order) :
    entry (b.tabulate w elsewhere [] order) p
      = b.valueAt w elsewhere (entry (b.tabulate w elsewhere [] order)) p :=
  entry_eq_valueAt_of_done (fun _ none => by cases none) ready (.inr member)

/-! ## Orders -/

/-- Among pins that are left, there is one that needs none of them. -/
theorem exists_first (acyclic : b.Acyclic) {pins : Finset PinRef} (some : pins.Nonempty) :
    ∃ p ∈ pins, ∀ q ∈ pins, ¬ b.Needs p q := by
  let below : pins → pins → Prop := fun q p => Relation.TransGen b.Needs p.1 q.1
  have : IsTrans pins below := ⟨fun _ _ _ h h' => h'.trans h⟩
  have : Std.Irrefl below := ⟨fun p cycle => acyclic p.1 cycle⟩
  have founded : WellFounded below := Finite.wellFounded_of_trans_of_irrefl below
  obtain ⟨p, member⟩ := some
  obtain ⟨first, -, least⟩ := founded.has_min Set.univ ⟨⟨p, member⟩, trivial⟩
  exact ⟨first.1, first.2, fun q member needs => least ⟨q, member⟩ trivial (.single needs)⟩

/-- Pins that need nothing outside of them can be put in order. -/
theorem exists_ready_of_closed (acyclic : b.Acyclic) {pins : Finset PinRef}
    (closed : ∀ p ∈ pins, ∀ q, b.Needs p q → q ∈ pins) (done : List PinRef) :
    ∃ order, b.Ready done order ∧ ∀ p ∈ pins, p ∈ done ∨ p ∈ order := by
  induction left : (pins.filter (· ∉ done)).card generalizing done with
  | zero =>
    refine ⟨[], trivial, fun p member => .inl ?_⟩
    by_contra missing
    have here : p ∈ pins.filter (· ∉ done) := Finset.mem_filter.mpr ⟨member, missing⟩
    rw [Finset.card_eq_zero.mp left] at here
    cases here
  | succ n ih =>
    have some : (pins.filter (· ∉ done)).Nonempty := Finset.card_pos.mp (by omega)
    obtain ⟨p, member, free⟩ := exists_first acyclic some
    obtain ⟨inside, new⟩ := Finset.mem_filter.mp member
    have fewer : pins.filter (· ∉ p :: done) = (pins.filter (· ∉ done)).erase p := by
      ext q
      simp only [Finset.mem_filter, Finset.mem_erase, List.mem_cons, not_or]
      tauto
    obtain ⟨order, ready, all⟩ := ih (p :: done) (by
      rw [fewer, Finset.card_erase_of_mem member, left]
      rfl)
    refine ⟨p :: order, ⟨new, fun q needs => ?_, ready⟩, fun q member => ?_⟩
    · by_contra missing
      exact free q (Finset.mem_filter.mpr ⟨closed p inside q needs, missing⟩) needs
    · rcases all q member with old | later
      · rcases List.mem_cons.mp old with rfl | old
        · exact .inr List.mem_cons_self
        · exact .inl old
      · exact .inr (List.mem_cons_of_mem _ later)

/-- Any pins of a drawing without a cycle can be worked out, with all that they need. -/
theorem exists_ready (built : Board.ofApp config app = .ok b) (acyclic : b.Acyclic)
    (pins : Finset PinRef) : ∃ order, b.Ready [] order ∧ ∀ p ∈ pins, p ∈ order := by
  have closed (p : PinRef) (_ : p ∈ pins ∪ app.sources) (q : PinRef) (needs : b.Needs p q) :
      q ∈ pins ∪ app.sources := by
    obtain ⟨_, _, _, _, _, _, source⟩ := needs
    exact Finset.mem_union_right _ (mem_sources built source)
  obtain ⟨order, ready, all⟩ := exists_ready_of_closed acyclic closed []
  refine ⟨order, ready, fun p member => ?_⟩
  exact (all p (Finset.mem_union_left _ member)).resolve_left List.not_mem_nil

end Board

end Wireboard
