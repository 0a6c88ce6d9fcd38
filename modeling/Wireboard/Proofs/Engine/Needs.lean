import Mathlib.Logic.Relation
import Wireboard.Proofs.Engine.Pulls

/-!
# Which values a value is made of

A node asks the input pins that its kind names, and no others, before it gives a value.  So the
drawing says which pins a pin needs (`Board.Needs`), and no run of the app can change that.

A pin that needs itself, however far around, has no value.  A drawing without such pins has no
cycle (`Board.Acyclic`), whatever else its wires do: a wire into a pin that is never asked, or out
of a pin that only says what its node has kept, closes no circle.

An open pull is known by its key, which is made of two texts and does not always tell where the one
ends and the other begins.  So it is a matter of its own whether the keys of pins that need each
other are apart (`Board.KeysApart`); they are if no id has a colon (`Board.keysApart_of_plain`).
-/

namespace Wireboard

/-- The key under which a pin is pulled. -/
def PinRef.key (p : PinRef) : String := Context.pullKey p.node p.pin

namespace Board

variable (b : Board)

/-- The value at one pin is made of the value at another one: the node of the first has a kind that
asks an input pin into which the second leads. -/
def Needs (p q : PinRef) : Prop :=
  ∃ n kind input, b.circuit.node? p.node = some n ∧ NodeKind.ofName? n.kind = some kind ∧
    input ∈ kind.inputs ∧ b.source? n.id input = some q

/-- No pin needs itself, however far around. -/
def Acyclic : Prop := ∀ p, ¬ Relation.TransGen b.Needs p p

/-- No pin needs another one with the same key, however far away. -/
def KeysApart : Prop := ∀ p q, Relation.TransGen b.Needs p q → p.key = q.key → p = q

variable {b}

theorem exists_node_of_needs {p q : PinRef} (needs : Relation.TransGen b.Needs p q) :
    (∃ n, b.circuit.node? p.node = some n) ∧ ∃ n, b.circuit.node? q.node = some n := by
  induction needs with
  | single needs =>
    obtain ⟨n, _, _, found, _, _, source⟩ := needs
    obtain ⟨-, -, -, there⟩ := b.exists_wire_of_source? source
    exact ⟨⟨n, found⟩, there⟩
  | tail _ needs ih =>
    obtain ⟨_, _, _, _, _, _, source⟩ := needs
    obtain ⟨-, -, -, there⟩ := b.exists_wire_of_source? source
    exact ⟨ih.1, there⟩

variable {config : Config} {app : App} (built : Board.ofApp config app = .ok b)
include built

/-- What a pin needs is the source of a wire into its node. -/
theorem exists_wire_of_needs {p q : PinRef} (needs : b.Needs p q) :
    ∃ w ∈ app.wires, w.source = q ∧ w.target.node = p.node := by
  obtain ⟨n, _, input, found, _, _, source⟩ := needs
  rw [(filed_of_ofApp built).id_eq found] at source
  obtain ⟨w, first, rfl, -⟩ := b.exists_wire_of_source? source
  rw [wireInto?_of_ofApp built] at first
  have target : w.target = ⟨p.node, input⟩ := by simpa using List.find?_some first
  exact ⟨w, List.mem_of_find?_eq_some first, rfl, by rw [target]⟩

/-- A drawing has no cycle if its nodes can be placed so that every wire leads upwards. -/
theorem acyclic_of_upwards (place : String → Nat)
    (upwards : ∀ w ∈ app.wires, place w.source.node < place w.target.node) : b.Acyclic := by
  have lower {p q : PinRef} (needs : Relation.TransGen b.Needs p q) :
      place q.node < place p.node := by
    induction needs with
    | single needs =>
      obtain ⟨w, member, source, target⟩ := exists_wire_of_needs built needs
      rw [← source, ← target]
      exact upwards w member
    | tail _ needs ih =>
      obtain ⟨w, member, source, target⟩ := exists_wire_of_needs built needs
      rw [← source]
      refine Nat.lt_trans ?_ ih
      rw [← target]
      exact upwards w member
  exact fun p needs => Nat.lt_irrefl _ (lower needs)

/-- Where no id has a colon, no two pins have the same key. -/
theorem keysApart_of_plain (plain : ∀ n ∈ app.nodes, ':' ∉ n.id.toList) : b.KeysApart := by
  have filed := filed_of_ofApp built
  intro p q needs same
  obtain ⟨⟨n, found⟩, n', found'⟩ := exists_node_of_needs needs
  have plain_p := plain n (mem_nodes_of_node? built found)
  have plain_q := plain n' (mem_nodes_of_node? built found')
  rw [filed.id_eq found] at plain_p
  rw [filed.id_eq found'] at plain_q
  obtain ⟨node, pin⟩ := Context.eq_of_pullKey_eq plain_q plain_p same
  cases p
  cases q
  cases node
  cases pin
  rfl

end Board

end Wireboard
