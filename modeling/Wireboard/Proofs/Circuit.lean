import Wireboard.Circuit
import Wireboard.Proofs.Table

/-!
# What a board holds

The board of an app holds its nodes under their ids, each once, and its functions under their names.
So a node that is found is found under its own id, a node that is listed is found, and what is filed
as a function is a node that defines one (`Board.Filed`).

The wires are filed under the pins they leave, all of them and in order, and under the pins they
enter, the first one only.  To look something up is to scan the app for it
(`Board.lookups_eq_scans`).
-/

namespace Wireboard

@[simp] theorem PinIndex.get?_alter {α : Type} (index : PinIndex α) (p q : PinRef)
    (f : Option α → α) :
    (index.alter p f).get? q = if p = q then some (f (index.get? q)) else index.get? q := by
  induction index with
  | nil => by_cases same : p = q <;> simp [alter, get?, same]
  | cons e rest ih =>
    obtain ⟨r, a⟩ := e
    by_cases here : r = p
    · subst here
      by_cases same : r = q <;> simp [alter, get?, same]
    · by_cases same : r = q
      · subst same
        simp [alter, get?, here, Ne.symm here]
      · simp [alter, get?, here, same, ih]

namespace Circuit

/-- The wires that leave a pin, in order. -/
@[simp] theorem getD_outgoingIndex (wires : List Wire) (p : PinRef) :
    ((outgoingIndex wires).get? p).getD [] = wires.filter (decide <| ·.source = p) := by
  induction wires using List.reverseRecOn with
  | nil => rfl
  | append_singleton wires w ih =>
    have step : outgoingIndex (wires ++ [w])
        = (outgoingIndex wires).alter w.source fun ws? => ws?.getD [] ++ [w] := List.foldl_append
    rw [step, PinIndex.get?_alter, List.filter_append, ← ih]
    by_cases leaves : w.source = p <;> simp [leaves]

/-- Of the wires that enter a pin the first one counts. -/
theorem get?_incomingIndex (wires : List Wire) (p : PinRef) :
    (incomingIndex wires).get? p = wires.find? (decide <| ·.target = p) := by
  induction wires using List.reverseRecOn with
  | nil => rfl
  | append_singleton wires w ih =>
    have step : incomingIndex (wires ++ [w])
        = (incomingIndex wires).alter w.target fun w? => w?.getD w := List.foldl_append
    rw [step, PinIndex.get?_alter, List.find?_append, ← ih]
    by_cases enters : w.target = p
    · cases (incomingIndex wires).get? p <;> simp [enters]
    · simp [enters]

theorem id_of_mem_nodeTable {nodes : List Node} {e : String × Node}
    (member : e ∈ nodeTable nodes) : e.2.id = e.1 := by
  obtain ⟨n, -, rfl⟩ := List.mem_map.mp (Table.mem_of_mem_ofEntries member)
  rfl

/-- Of the nodes with an id the last one counts. -/
@[simp] theorem get?_nodeTable (nodes : List Node) (id : String) :
    (nodeTable nodes).get? id = nodes.findRev? (·.id == id) := by
  rw [nodeTable, Table.get?_ofEntries, List.findRev?_eq_find?_reverse,
    List.findRev?_eq_find?_reverse, ← List.map_reverse, List.find?_map, Option.map_map]
  exact Option.map_id'

/-- What a node is called as a function: what it says itself, or what the settings say where it says
nothing, null or the empty text. -/
def functionLabel (config : Config) (n : Node) : Value :=
  if n.property "funcName" = .null ∨ n.property "funcName" = .str "" then config.functionName
  else n.property "funcName"

theorem functionName_eq (config : Config) (n : Node) :
    functionName config n = (functionLabel config n).toPlain := by
  unfold functionName Node.propertyOr functionLabel
  cases n.property "funcName" with
  | str s => by_cases empty : s = "" <;> simp [empty]
  | _ => simp

/-- The nodes of a table that define functions. -/
def definers (nodes : Table Node) : List Node :=
  (nodes.map (·.2)).filter (·.kind == "functionDefine")

theorem mem_definers_nodeTable {nodes : List Node} {n : Node} :
    n ∈ definers (nodeTable nodes) ↔
      n ∈ nodes ∧ nodes.findRev? (·.id == n.id) = some n ∧ n.kind = "functionDefine" := by
  have distinct : (nodeTable nodes).names.Nodup := Table.nodup_names_ofEntries _
  rw [definers, List.mem_filter, List.mem_map, beq_iff_eq, ← get?_nodeTable]
  constructor
  · rintro ⟨⟨e, member, rfl⟩, kind⟩
    obtain ⟨n, listed, rfl⟩ := List.mem_map.mp (Table.mem_of_mem_ofEntries member)
    exact ⟨listed, Table.get?_of_mem distinct member, kind⟩
  · rintro ⟨-, found, kind⟩
    exact ⟨⟨_, Table.mem_of_get? found, rfl⟩, kind⟩

/-- There is a table of functions if all of them have a name, and then they are put into it one
after the other. -/
theorem functionTable_eq_ok_iff {config : Config} {nodes : Table Node} {table : Table String} :
    functionTable config nodes = .ok table ↔
      (∀ n ∈ definers nodes, (functionLabel config n).hasText = true) ∧
      Table.ofEntries ((definers nodes).map fun n => ((functionLabel config n).plain, n.id))
        = table := by
  unfold functionTable Table.ofEntries
  generalize ([] : Table String) = before
  induction nodes generalizing before with
  | nil =>
    exact ⟨fun done => ⟨List.forall_mem_nil _, Except.ok.inj done⟩, fun named => congrArg _ named.2⟩
  | cons e rest ih =>
    rw [List.foldlM_cons, functionName_eq]
    by_cases defines : e.2.kind == "functionDefine"
    · have first : definers (e :: rest) = e.2 :: definers rest := List.filter_cons_of_pos defines
      rw [if_pos defines, first, List.forall_mem_cons, Value.toPlain]
      cases text : (functionLabel config e.2).hasText with
      | true =>
        rw [and_iff_right rfl]
        exact ih (Table.put before (functionLabel config e.2).plain e.2.id)
      | false => exact iff_of_false (fun done => by cases done) fun named => by cases named.1.1
    · have later : definers (e :: rest) = definers rest := List.filter_cons_of_neg defines
      rw [if_neg defines, later]
      exact ih before

end Circuit

/-- There is a node with the id. -/
def App.hasNode (app : App) (id : String) : Bool := app.nodes.any (·.id == id)

theorem App.hasNode_iff {app : App} {id : String} :
    app.hasNode id = true ↔ ∃ n ∈ app.nodes, n.id = id := by
  simp [hasNode]

namespace Board

variable {b : Board} {config : Config} {app : App}

/-- A node can be looked up under the id. -/
def hasNode (b : Board) (id : String) : Bool := (b.circuit.node? id).isSome

theorem hasNode_of_node? {id : String} {n : Node} (found : b.circuit.node? id = some n) :
    b.hasNode id = true := by
  rw [hasNode, found, Option.isSome_some]

/-- The board of an app, part by part. -/
theorem ofApp_eq_ok_iff : Board.ofApp config app = .ok b ↔
    (∀ n ∈ Circuit.definers (Circuit.nodeTable app.nodes),
      (Circuit.functionLabel config n).hasText = true) ∧
    b = { appId := app.id, config, circuit :=
      { nodes := Circuit.nodeTable app.nodes
        outgoing := Circuit.outgoingIndex app.wires
        incoming := Circuit.incomingIndex app.wires
        functions := .ofEntries <| (Circuit.definers (Circuit.nodeTable app.nodes)).map fun n =>
          ((Circuit.functionLabel config n).plain, n.id) } } := by
  unfold Board.ofApp Circuit.ofApp
  dsimp only
  constructor
  · intro built
    cases functions : Circuit.functionTable config (Circuit.nodeTable app.nodes) with
    | error f =>
      rw [functions] at built
      cases built
    | ok table =>
      rw [functions] at built
      cases built
      obtain ⟨named, rfl⟩ := Circuit.functionTable_eq_ok_iff.mp functions
      exact ⟨named, rfl⟩
  · rintro ⟨named, rfl⟩
    rw [Circuit.functionTable_eq_ok_iff.mpr ⟨named, rfl⟩]
    rfl

section

variable (built : Board.ofApp config app = .ok b)
include built

theorem config_of_ofApp : b.config = config := by
  obtain ⟨-, rfl⟩ := ofApp_eq_ok_iff.mp built
  rfl

/-- The nodes of an app are filed under their ids. -/
theorem nodes_of_ofApp : b.circuit.nodes = Circuit.nodeTable app.nodes := by
  obtain ⟨-, rfl⟩ := ofApp_eq_ok_iff.mp built
  rfl

/-- The node with an id is the last one that the app has. -/
theorem node?_of_ofApp (id : String) :
    b.circuit.node? id = app.nodes.findRev? (·.id == id) := by
  rw [Circuit.node?, nodes_of_ofApp built, Circuit.get?_nodeTable]

/-- Every node of the board is one of the app. -/
theorem mem_nodes_of_node? {id : String} {n : Node}
    (found : b.circuit.node? id = some n) : n ∈ app.nodes := by
  rw [node?_of_ofApp built, List.findRev?_eq_find?_reverse] at found
  exact List.mem_reverse.mp (List.mem_of_find?_eq_some found)

/-- There is a node with an id on the board if the app has one. -/
theorem hasNode_of_ofApp (id : String) : b.hasNode id = app.hasNode id := by
  rw [hasNode, node?_of_ofApp built, List.findRev?_eq_find?_reverse, List.isSome_find?,
    List.any_reverse, App.hasNode]

theorem wiresFrom_of_ofApp (node pin : String) :
    b.circuit.wiresFrom node pin = app.wires.filter (decide <| ·.source = ⟨node, pin⟩) := by
  obtain ⟨-, rfl⟩ := ofApp_eq_ok_iff.mp built
  exact Circuit.getD_outgoingIndex app.wires ⟨node, pin⟩

theorem wireInto?_of_ofApp (node pin : String) :
    b.circuit.wireInto? node pin = app.wires.find? (decide <| ·.target = ⟨node, pin⟩) := by
  obtain ⟨-, rfl⟩ := ofApp_eq_ok_iff.mp built
  exact Circuit.get?_incomingIndex app.wires ⟨node, pin⟩

/-- Every node that defines a function has a name for it. -/
theorem named_of_ofApp {id : String} {n : Node}
    (found : b.circuit.node? id = some n) (kind : n.kind = "functionDefine") :
    ∃ name, Circuit.functionName b.config n = .ok name := by
  obtain ⟨named, rfl⟩ := ofApp_eq_ok_iff.mp built
  have defines : n ∈ Circuit.definers (Circuit.nodeTable app.nodes) :=
    List.mem_filter.mpr ⟨List.mem_map_of_mem (Table.mem_of_get? found), beq_iff_eq.mpr kind⟩
  exact ⟨_, (Circuit.functionName_eq config n).trans (if_pos (named n defines))⟩

/-- Everything is found where it belongs. -/
structure Filed (b : Board) : Prop where
  /-- A node is found under its own id. -/
  id_eq : ∀ {id : String} {n : Node}, b.circuit.node? id = some n → n.id = id
  /-- What is listed is found. -/
  found : ∀ {n : Node} {kind : String}, n ∈ b.circuit.nodesOf kind →
    b.circuit.node? n.id = some n
  /-- What is filed as a function defines one. -/
  define : ∀ {name entry : String} {n : Node}, b.circuit.functions.get? name = some entry →
    b.circuit.node? entry = some n → n.kind = "functionDefine"

/-- No two nodes of a kind have the same id. -/
theorem nodup_ids_nodesOf (kind : String) : ((b.circuit.nodesOf kind).map Node.id).Nodup := by
  have distinct : (Circuit.nodeTable app.nodes).names.Nodup := Table.nodup_names_ofEntries _
  have ids : (b.circuit.nodes.map (·.2)).map Node.id = (Circuit.nodeTable app.nodes).names := by
    rw [nodes_of_ofApp built, List.map_map]
    exact List.map_congr_left fun e member => Circuit.id_of_mem_nodeTable member
  rw [← ids] at distinct
  exact distinct.sublist (List.filter_sublist.map Node.id)

theorem filed_of_ofApp : b.Filed := by
  obtain ⟨-, rfl⟩ := ofApp_eq_ok_iff.mp built
  have distinct : (Circuit.nodeTable app.nodes).names.Nodup := Table.nodup_names_ofEntries _
  refine ⟨fun found => Circuit.id_of_mem_nodeTable (Table.mem_of_get? found), ?_, ?_⟩
  · intro n kind listed
    obtain ⟨e, member, rfl⟩ := List.mem_map.mp (List.mem_filter.mp listed).1
    rw [Circuit.id_of_mem_nodeTable member]
    exact Table.get?_of_mem distinct member
  · intro name entry n filed found
    obtain ⟨m, defines, same⟩ :=
      List.mem_map.mp (Table.mem_of_mem_ofEntries (Table.mem_of_get? filed))
    obtain ⟨-, last, kind⟩ := Circuit.mem_definers_nodeTable.mp defines
    cases same
    rw [Circuit.node?, Circuit.get?_nodeTable, last] at found
    cases found
    exact kind

end

/-- A board can be built exactly if every function of the app has a name, and then looking up is
scanning the app.  The wires that leave a pin are all of those in the app, in order and as often as
they are drawn, and the wire that enters a pin is the first one.  The node with an id is the last
one in the app, but its place is that of the first.  The function of a name is the last node, by
these places, that defines a function and is called so. -/
theorem lookups_eq_scans (config : Config) (app : App) :
    ((∃ b, Board.ofApp config app = .ok b) ↔
      ∀ n ∈ app.nodes, app.nodes.findRev? (·.id == n.id) = some n → n.kind = "functionDefine" →
        (Circuit.functionLabel config n).hasText = true) ∧
    ∀ b, Board.ofApp config app = .ok b →
      (∀ node pin, b.circuit.wiresFrom node pin
        = app.wires.filter (decide <| ·.source = ⟨node, pin⟩)) ∧
      (∀ node pin, b.circuit.wireInto? node pin
        = app.wires.find? (decide <| ·.target = ⟨node, pin⟩)) ∧
      (∀ id, b.circuit.node? id = app.nodes.findRev? (·.id == id)) ∧
      b.circuit.nodes.names = (app.nodes.map Node.id).eraseDups ∧
      ∀ name, b.circuit.functions.get? name
        = ((b.circuit.nodesOf "functionDefine").findRev? fun n =>
            (Circuit.functionLabel config n).plain == name).map Node.id := by
  constructor
  · constructor
    · rintro ⟨b, built⟩ n listed last kind
      exact (ofApp_eq_ok_iff.mp built).1 n (Circuit.mem_definers_nodeTable.mpr ⟨listed, last, kind⟩)
    · intro named
      refine ⟨_, ofApp_eq_ok_iff.mpr ⟨fun n defines => ?_, rfl⟩⟩
      obtain ⟨listed, last, kind⟩ := Circuit.mem_definers_nodeTable.mp defines
      exact named n listed last kind
  · intro b built
    refine ⟨wiresFrom_of_ofApp built, wireInto?_of_ofApp built, node?_of_ofApp built, ?_,
      fun name => ?_⟩
    · rw [nodes_of_ofApp built, Circuit.nodeTable, Table.names_ofEntries, List.map_map]
      rfl
    · obtain ⟨-, rfl⟩ := ofApp_eq_ok_iff.mp built
      rw [Table.get?_ofEntries, List.findRev?_eq_find?_reverse, List.findRev?_eq_find?_reverse,
        ← List.map_reverse, List.find?_map, Option.map_map]
      rfl

/-- Two functions of one name.  The first is drawn again at the end, so it is the last one drawn but
keeps the first place. -/
def rivals : App where
  id := "rivals"
  name := .str "Rivals"
  nodes := [
    { id := "f", kind := "functionDefine", properties := [("funcName", .str "old")] },
    { id := "g", kind := "functionDefine", properties := [("funcName", .str "go")] },
    { id := "h", kind := "functionDefine", properties := [("funcName", .str "")] },
    { id := "f", kind := "functionDefine", properties := [("funcName", .str "go")], x := .int 9 }]
  wires := [⟨⟨"f", "exec"⟩, ⟨"g", "exec"⟩, []⟩, ⟨⟨"h", "exec"⟩, ⟨"g", "exec"⟩, []⟩,
    ⟨⟨"f", "exec"⟩, ⟨"g", "exec"⟩, []⟩]

theorem lookups_eq_scans_rivals :
    ∃ b, Board.ofApp {} rivals = .ok b ∧
      b.circuit.wiresFrom "f" "exec" = List.replicate 2 ⟨⟨"f", "exec"⟩, ⟨"g", "exec"⟩, []⟩ ∧
      b.circuit.wireInto? "g" "exec" = some ⟨⟨"f", "exec"⟩, ⟨"g", "exec"⟩, []⟩ ∧
      (b.circuit.node? "f").map Node.x = some (.int 9) ∧
      b.circuit.nodes.names = ["f", "g", "h"] ∧
      ["go", "myFunction", "old"].map b.circuit.functions.get? = [some "g", some "h", none] := by
  obtain ⟨b, built⟩ := (lookups_eq_scans {} rivals).1.mpr (by decide)
  obtain ⟨leaving, entering, node, names, functions⟩ := (lookups_eq_scans {} rivals).2 b built
  rw [Circuit.nodesOf, nodes_of_ofApp built] at functions
  refine ⟨b, built, (leaving _ _).trans (by decide), (entering _ _).trans (by decide), ?_,
    names.trans (by decide), ?_⟩
  · rw [node]
    decide
  · rw [funext functions]
    decide

end Board

end Wireboard
