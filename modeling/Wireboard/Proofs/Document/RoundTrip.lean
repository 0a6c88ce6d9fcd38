import Wireboard.Proofs.Document.Fields
import Wireboard.Proofs.Json.RoundTrip

/-!
# Documents that are saved and loaded again

Loading an app loses what it cannot use: vacant fields, entries of the wrong kind, wires that do not
join two pins.  What it keeps is never lost afterwards.  The text that an app is saved as loads as
the same app, and saving that one gives the same text (`App.load_text_of_loaded`).

Two things could break this.  A default could be vacant, so that it is replaced when it is read
again, or a known field could end up among the unknown ones, and then in another place.  Neither
happens: each record that was decoded decodes from what it is written to (`Page.restores` and the
like).  For the app itself `App.Decoded` says field by field what decoding gives, and `App.written`
what is written under each name; the round trip sets the one against the other.

What is written has to pass the check of a document as well, which asks for a name
(`App.ofValue_toValue`).  From values to texts the way is that of `Json.read_indented`.
-/

namespace Wireboard

variable {t : Table Value}

/-! ## Records of an app -/

theorem Page.ofTable_eq_ok {p : Page} : Page.ofTable t = .ok p ↔
    textField t "id" "" = .ok p.id ∧ textField t "name" "" = .ok p.name
      ∧ unknownFields t ["id", "name"] = p.extra := by
  cases p
  simp [Page.ofTable]

/-- A page that was decoded decodes from what it is written to. -/
theorem Page.restores {p : Page} (tidy : (Value.obj t).Tidy) (ok : Page.ofTable t = .ok p) :
    Restores Page.toValue Page.ofTable p := by
  obtain ⟨id, name, extra⟩ := p
  obtain ⟨idOk, nameOk, rfl⟩ := ofTable_eq_ok.mp ok
  refine restores_of_record ["id", "name"] (by decide) (by decide) tidy rfl (List.Sublist.refl _) ?_
    fun extra => ?_
  · simp [Value.Tidy.str]
  · exact ofTable_eq_ok.mpr
      ⟨textField_again idOk fieldOr_record, textField_again nameOk fieldOr_record, extra⟩

theorem Layer.ofTable_eq_ok {l : Layer} : Layer.ofTable t = .ok l ↔
    textField t "id" "" = .ok l.id ∧ textField t "name" "" = .ok l.name
      ∧ (fieldOr t "visible" != .bool false) = l.visible
      ∧ unknownFields t ["id", "name", "visible"] = l.extra := by
  cases l
  simp [Layer.ofTable]

/-- A layer that was decoded decodes from what it is written to. -/
theorem Layer.restores {l : Layer} (tidy : (Value.obj t).Tidy) (ok : Layer.ofTable t = .ok l) :
    Restores Layer.toValue Layer.ofTable l := by
  obtain ⟨id, name, visible, extra⟩ := l
  obtain ⟨idOk, nameOk, -, rfl⟩ := ofTable_eq_ok.mp ok
  refine restores_of_record ["id", "name", "visible"] (by decide) (by decide) tidy rfl
    (List.Sublist.refl _) ?_ fun extra => ?_
  · simp [Value.Tidy.str, Value.Tidy.bool]
  · refine ofTable_eq_ok.mpr
      ⟨textField_again idOk fieldOr_record, textField_again nameOk fieldOr_record, ?_, extra⟩
    -- Whatever is not false makes a layer visible; it is written as true.
    rw [fieldOr_record]
    cases visible <;> rfl

theorem Component.ofTable_eq_ok {c : Component} : Component.ofTable t = .ok c ↔
    textField t "id" "" = .ok c.id ∧ textField t "type" "" = .ok c.kind
      ∧ (∃ page?, textField? t "pageId" = .ok page? ∧ (page?.map .str).getD .null = c.pageId)
      ∧ textField? t "layer" = .ok c.layer?
      ∧ tableField t "props" = c.props ∧ tableField t "style" = c.style
      ∧ numberField t "x" (.int 0) = c.x ∧ numberField t "y" (.int 0) = c.y
      ∧ unknownFields t ["id", "type", "props", "style", "x", "y", "pageId", "layer"]
        = c.extra := by
  cases c
  simp [Component.ofTable]
  grind

/-- A component that was decoded decodes from what it is written to. -/
theorem Component.restores {c : Component} (tidy : (Value.obj t).Tidy)
    (ok : Component.ofTable t = .ok c) : Restores Component.toValue Component.ofTable c := by
  obtain ⟨id, kind, props, style, x, y, page, layer?, extra⟩ := c
  obtain ⟨idOk, kindOk, ⟨page?, -, rfl⟩, -, rfl, rfl, rfl, rfl, rfl⟩ := ofTable_eq_ok.mp ok
  refine restores_of_record ["id", "type", "props", "style", "x", "y", "pageId", "layer"]
    (by decide) (by decide) tidy rfl ?_ ?_ fun extra => ?_
  · -- Page and layer are written only where they are set, but always in this place.
    simp only [Table.names, List.map_append]
    exact ((List.Sublist.refl ["id", "type", "props", "style", "x", "y"]).append
      (names_presentField "pageId" _)).append (names_optionalField "layer" layer?)
  · simp only [List.forall_mem_append, List.forall_mem_cons]
    exact ⟨⟨⟨.str id, .str kind, tidy_tableField tidy "props", tidy_tableField tidy "style",
      tidy_numberField tidy "x" (by decide), tidy_numberField tidy "y" (by decide),
      List.forall_mem_nil _⟩,
      tidy_presentField "pageId" (tidy_optionalText page?)⟩, tidy_optionalField "layer" layer?⟩
  · refine ofTable_eq_ok.mpr
      ⟨textField_again idOk fieldOr_record, textField_again kindOk fieldOr_record,
        ⟨page?, textField?_again ?_, rfl⟩, textField?_again ?_, tableField_of_obj fieldOr_record,
        tableField_of_obj fieldOr_record, numberField_again fieldOr_record,
        numberField_again fieldOr_record, extra⟩
    all_goals
      rw [fieldOr_record]
      simp [fieldOr]

theorem Node.ofTable_eq_ok {n : Node} : Node.ofTable t = .ok n ↔
    textField t "id" "" = .ok n.id ∧ textField t "type" "" = .ok n.kind
      ∧ textField? t "layer" = .ok n.layer? ∧ numberField t "x" (.int 0) = n.x
      ∧ numberField t "y" (.int 0) = n.y ∧ tableField t "properties" = n.properties
      ∧ unknownFields t ["id", "type", "x", "y", "properties", "layer"] = n.extra := by
  cases n
  simp [Node.ofTable]

/-- A node that was decoded decodes from what it is written to. -/
theorem Node.restores {n : Node} (tidy : (Value.obj t).Tidy) (ok : Node.ofTable t = .ok n) :
    Restores Node.toValue Node.ofTable n := by
  obtain ⟨id, kind, x, y, properties, layer?, extra⟩ := n
  obtain ⟨idOk, kindOk, -, rfl, rfl, rfl, rfl⟩ := ofTable_eq_ok.mp ok
  refine restores_of_record ["id", "type", "x", "y", "properties", "layer"] (by decide) (by decide)
    tidy rfl ?_ ?_ fun extra => ?_
  · simp only [Table.names, List.map_append]
    exact (List.Sublist.refl ["id", "type", "x", "y", "properties"]).append
      (names_optionalField "layer" layer?)
  · simp only [List.forall_mem_append, List.forall_mem_cons]
    exact ⟨⟨.str id, .str kind, tidy_numberField tidy "x" (by decide),
      tidy_numberField tidy "y" (by decide), tidy_tableField tidy "properties",
      List.forall_mem_nil _⟩,
      tidy_optionalField "layer" layer?⟩
  · refine ofTable_eq_ok.mpr
      ⟨textField_again idOk fieldOr_record, textField_again kindOk fieldOr_record,
        textField?_again ?_, numberField_again fieldOr_record, numberField_again fieldOr_record,
        tableField_of_obj fieldOr_record, extra⟩
    rw [fieldOr_record]
    simp [fieldOr]

variable {v : Value}

-- A canvas that is no object is decoded like an empty one.
theorem Canvas.exists_table {c : Canvas} (tidy : v.Tidy) (ok : Canvas.ofValue v = .ok c) :
    ∃ t, (Value.obj t).Tidy ∧ Canvas.ofValue (.obj t) = .ok c := by
  cases v with
  | obj fields => exact ⟨fields, tidy, ok⟩
  | _ => exact ⟨[], Value.tidy_obj_nil, ok⟩

/-- A canvas that was decoded decodes from what it is written to. -/
theorem Canvas.restores {c : Canvas} (tidy : v.Tidy) (ok : Canvas.ofValue v = .ok c) :
    Canvas.ofValue c.toValue = .ok c ∧ c.toValue.Tidy := by
  obtain ⟨t, inside, ok⟩ := exists_table tidy ok
  obtain ⟨background, backgroundOk, ok⟩ := bind_eq_ok.mp ok
  cases ok
  constructor
  · refine bind_eq_ok.mpr ⟨background, textField_again backgroundOk rfl, ?_⟩
    refine congrArg Except.ok (Canvas.mk.injEq .. ▸ ?_)
    exact ⟨numberField_again rfl, numberField_again rfl, rfl⟩
  · refine .obj (by decide : ["width", "height", "backgroundColor"].Nodup) ?_
    simp only [List.forall_mem_cons]
    exact ⟨tidy_numberField inside "width" (by decide),
      tidy_numberField inside "height" (by decide),
      .str background, List.forall_mem_nil _⟩

/-! ## Wires -/

theorem PinRef.tidy_toValue (p : PinRef) : p.toValue.Tidy := by
  refine .obj (by decide : ["nodeId", "pinId"].Nodup) ?_
  simp only [List.forall_mem_cons]
  exact ⟨.str p.node, .str p.pin, List.forall_mem_nil _⟩

/-- A wire that was decoded decodes from what it is written to. -/
theorem Wire.restores {w : Wire} (tidy : v.Tidy) (found : Wire.ofValue? v = some w) :
    Wire.ofValue? w.toValue = some w ∧ w.toValue.Tidy := by
  unfold Wire.ofValue? at found
  split at found
  next fields =>
    split at found
    next source target _ _ =>
      cases found
      have within : ∀ name ∈ ["from", "to"], name ∈ ["from", "to"] := fun _ member => member
      have extra : unknownFields ([("from", source.toValue), ("to", target.toValue)]
          ++ unknownFields fields ["from", "to"]) ["from", "to"]
          = unknownFields fields ["from", "to"] :=
        unknownFields_record within
      constructor
      · unfold Wire.ofValue? Wire.toValue
        dsimp only
        rw [fieldOr_record, fieldOr_record, extra]
        rfl
      · refine tidy_record tidy (by decide : ["from", "to"].Nodup) within ?_
        simp only [List.forall_mem_cons]
        exact ⟨source.tidy_toValue, target.tidy_toValue, List.forall_mem_nil _⟩
    next => cases found
  next => cases found

@[simp] theorem wiresOf_unlimited (items : List Value) :
    wiresOf items = .ok (items.filterMap Wire.ofValue?) := by
  simp only [wiresOf, Reach.copyEach_unlimited]
  show List.mapM (fun w => pure (id w)) _ = _
  rw [List.mapM_pure, List.map_id]
  rfl

theorem Wire.filterMap_toValue {wires : List Wire}
    (each : ∀ w ∈ wires, Wire.ofValue? w.toValue = some w) :
    (wires.map Wire.toValue).filterMap Wire.ofValue? = wires := by
  induction wires with
  | nil => rfl
  | cons w wires ih =>
    obtain ⟨first, others⟩ := List.forall_mem_cons.mp each
    rw [List.map_cons, List.filterMap_cons, first, ih others]

/-! ## Apps -/

namespace App

/-- The fields of an app that are known, in the order in which they are written. -/
def knownPart (app : App) : Table Value :=
  [("id", .str app.id), ("name", app.name), ("version", .str app.version),
      ("displayMode", .str app.displayMode)]
    ++ app.floatingField ++ presentField "createdAt" app.createdAt
    ++ presentField "updatedAt" app.updatedAt
    ++ [("canvas", app.canvas.toValue), ("pages", .list (app.pages.map Page.toValue)),
      ("uiComponents", .list (app.components.map Component.toValue)),
      ("nodes", .list (app.nodes.map Node.toValue)),
      ("connections", .list (app.wires.map Wire.toValue)),
      ("layers", .list (app.layers.map Layer.toValue))]

theorem toValue_eq (app : App) : app.toValue = .obj (app.knownPart ++ app.extra) := rfl

@[simp] theorem get?_floatingField (app : App) (key : String) :
    Table.get? app.floatingField key
      = if "floatingSize" = key then app.floatingSize?.map .obj else none := by
  unfold floatingField
  cases app.floatingSize? <;> simp [Table.get?]

theorem names_floatingField (app : App) : app.floatingField.names.Sublist ["floatingSize"] := by
  unfold floatingField
  cases app.floatingSize? <;> simp [Table.names]

/-- The value that is written under a name, null where none is. -/
def written (app : App) (name : String) : Value :=
  match name with
  | "id" => .str app.id
  | "name" => app.name
  | "version" => .str app.version
  | "displayMode" => .str app.displayMode
  | "floatingSize" => (app.floatingSize?.map .obj).getD .null
  | "createdAt" => app.createdAt
  | "updatedAt" => app.updatedAt
  | "canvas" => app.canvas.toValue
  | "pages" => .list (app.pages.map Page.toValue)
  | "uiComponents" => .list (app.components.map Component.toValue)
  | "nodes" => .list (app.nodes.map Node.toValue)
  | "connections" => .list (app.wires.map Wire.toValue)
  | "layers" => .list (app.layers.map Layer.toValue)
  | _ => .null

variable {name : String}

theorem fieldOr_knownPart (app : App) (isKnown : name ∈ knownFields) :
    fieldOr app.knownPart name = app.written name := by
  simp only [knownFields, List.mem_cons, List.not_mem_nil, or_false] at isKnown
  rcases isKnown with
      rfl | rfl | rfl | rfl | rfl | rfl | rfl | rfl | rfl | rfl | rfl | rfl | rfl <;>
    simp [knownPart, written, fieldOr]

theorem names_knownPart (app : App) : app.knownPart.names.Sublist
    ["id", "name", "version", "displayMode", "floatingSize", "createdAt", "updatedAt", "canvas",
      "pages", "uiComponents", "nodes", "connections", "layers"] := by
  simp only [knownPart, Table.names, List.map_append]
  exact ((((List.Sublist.refl ["id", "name", "version", "displayMode"]).append
    app.names_floatingField).append (names_presentField "createdAt" _)).append
    (names_presentField "updatedAt" _)).append (List.Sublist.refl _)

/-- The app is what is decoded from the table, field by field. -/
structure Decoded (t : Table Value) (app : App) : Prop where
  id : textField t "id" "" = .ok app.id
  name : ∃ s, textField t "name" "" = .ok s ∧ app.name = .str s
  version : textField t "version" "1.0" = .ok app.version
  displayMode : textField t "displayMode" defaultDisplayMode = .ok app.displayMode
  canvas : Canvas.ofValue (fieldOr t "canvas") = .ok app.canvas
  pages : recordsField t "pages" Page.ofTable = .ok app.pages
  layers : recordsField t "layers" Layer.ofTable = .ok app.layers
  components : recordsField t "uiComponents" Component.ofTable = .ok app.components
  nodes : recordsField t "nodes" Node.ofTable = .ok app.nodes
  wires : ∃ items, members (fieldOr t "connections") = .ok items
    ∧ wiresOf items = .ok app.wires
  createdAt : app.createdAt = fieldOr t "createdAt"
  updatedAt : app.updatedAt = fieldOr t "updatedAt"
  floatingSize? : sizeOf? (fieldOr t "floatingSize") = .ok app.floatingSize?
  extra : app.extra = unknownFields t knownFields

theorem ofTable_eq_ok {app : App} : ofTable t = .ok app ↔ Decoded t app := by
  constructor
  · intro ok
    obtain ⟨pages, pagesOk, ok⟩ := bind_eq_ok.mp ok
    obtain ⟨layers, layersOk, ok⟩ := bind_eq_ok.mp ok
    obtain ⟨components, componentsOk, ok⟩ := bind_eq_ok.mp ok
    obtain ⟨nodes, nodesOk, ok⟩ := bind_eq_ok.mp ok
    obtain ⟨items, found, ok⟩ := bind_eq_ok.mp ok
    obtain ⟨wires, wiresOk, ok⟩ := bind_eq_ok.mp ok
    obtain ⟨id, idOk, ok⟩ := bind_eq_ok.mp ok
    obtain ⟨name, nameOk, ok⟩ := bind_eq_ok.mp ok
    obtain ⟨version, versionOk, ok⟩ := bind_eq_ok.mp ok
    obtain ⟨displayMode, displayModeOk, ok⟩ := bind_eq_ok.mp ok
    obtain ⟨canvas, canvasOk, ok⟩ := bind_eq_ok.mp ok
    obtain ⟨size, sizeOk, ok⟩ := bind_eq_ok.mp ok
    rw [Reach.copyEach_unlimited] at ok
    cases ok
    exact ⟨idOk, ⟨name, nameOk, rfl⟩, versionOk, displayModeOk, canvasOk, pagesOk, layersOk,
      componentsOk, nodesOk, ⟨items, found, wiresOk⟩, rfl, rfl, sizeOk, rfl⟩
  · intro decoded
    obtain ⟨name, nameOk, same⟩ := decoded.name
    obtain ⟨items, found, wires⟩ := decoded.wires
    rw [ofTable, decoded.pages, decoded.layers, decoded.components, decoded.nodes, found,
      decoded.id, nameOk, decoded.version, decoded.displayMode, decoded.canvas,
      decoded.floatingSize?, Reach.copyEach_unlimited]
    show (wiresOf items >>= _) = _
    rw [wires]
    refine congrArg Except.ok (App.mk.injEq .. ▸ ?_)
    exact ⟨rfl, same.symm, rfl, rfl, rfl, rfl, rfl, rfl, rfl, rfl, decoded.createdAt.symm,
      decoded.updatedAt.symm, rfl, decoded.extra.symm⟩

namespace Decoded

variable {app : App}

theorem tidy_floatingField (decoded : Decoded t app) (tidy : (Value.obj t).Tidy) :
    ∀ e ∈ app.floatingField, e.2.Tidy := by
  intro e member
  unfold floatingField at member
  split at member
  next size isSize =>
    rw [List.mem_singleton.mp member]
    have found := decoded.floatingSize?
    rw [isSize] at found
    unfold sizeOf? at found
    split at found
    next inside =>
      cases found
      exact inside ▸ tidy_fieldOr tidy "floatingSize"
    next => cases found
  next => cases member

theorem wires_restore (decoded : Decoded t app) (tidy : (Value.obj t).Tidy) :
    ∀ w ∈ app.wires, Wire.ofValue? w.toValue = some w ∧ w.toValue.Tidy := by
  intro w member
  obtain ⟨items, found, isWires⟩ := decoded.wires
  have same := Except.ok.inj (isWires.symm.trans (wiresOf_unlimited items))
  rw [same] at member
  obtain ⟨v, inside, isWire⟩ := List.mem_filterMap.mp member
  exact Wire.restores (tidy_of_members (tidy_fieldOr tidy "connections") found v inside) isWire

theorem fieldOr_toValue (decoded : Decoded t app) (isKnown : name ∈ knownFields) :
    fieldOr (app.knownPart ++ app.extra) name = app.written name := by
  rw [decoded.extra, fieldOr_record isKnown, app.fieldOr_knownPart isKnown]

end Decoded

/-- An app that was decoded decodes from what it is written to. -/
theorem restores {app : App} (tidy : (Value.obj t).Tidy) (ok : ofTable t = .ok app) :
    Restores toValue ofTable app := by
  have decoded := ofTable_eq_ok.mp ok
  have pages := restores_of_recordsField tidy Page.restores decoded.pages
  have layers := restores_of_recordsField tidy Layer.restores decoded.layers
  have components := restores_of_recordsField tidy Component.restores decoded.components
  have nodes := restores_of_recordsField tidy Node.restores decoded.nodes
  have wires := decoded.wires_restore tidy
  have canvas := Canvas.restores (tidy_fieldOr tidy "canvas") decoded.canvas
  obtain ⟨name, nameOk, isText⟩ := decoded.name
  have read (name : String) (isKnown : name ∈ knownFields) :
      fieldOr (app.knownPart ++ unknownFields t knownFields) name = app.written name :=
    decoded.extra ▸ decoded.fieldOr_toValue isKnown
  refine restores_of_record _ (by decide) (by decide) tidy (decoded.extra ▸ app.toValue_eq)
    app.names_knownPart ?_ fun extra => ?_
  · simp only [knownPart, List.forall_mem_append, List.forall_mem_cons]
    exact ⟨⟨⟨⟨⟨.str _, isText ▸ .str name, .str _, .str _, List.forall_mem_nil _⟩,
      decoded.tidy_floatingField tidy⟩,
      tidy_presentField _ (decoded.createdAt ▸ tidy_fieldOr tidy _)⟩,
      tidy_presentField _ (decoded.updatedAt ▸ tidy_fieldOr tidy _)⟩,
      canvas.2, tidy_list_of_restores pages, tidy_list_of_restores components,
      tidy_list_of_restores nodes,
      .list (List.forall_mem_map.mpr fun w member => (wires w member).2),
      tidy_list_of_restores layers, List.forall_mem_nil _⟩
  · exact ofTable_eq_ok.mpr {
      id := textField_again decoded.id (read "id" (by decide))
      name := ⟨name, textField_again nameOk ((read "name" (by decide)).trans isText), isText⟩
      version := textField_again decoded.version (read "version" (by decide))
      displayMode := textField_again decoded.displayMode (read "displayMode" (by decide))
      canvas := read "canvas" (by decide) ▸ canvas.1
      pages := recordsField_of_restores pages (read "pages" (by decide))
      layers := recordsField_of_restores layers (read "layers" (by decide))
      components := recordsField_of_restores components (read "uiComponents" (by decide))
      nodes := recordsField_of_restores nodes (read "nodes" (by decide))
      wires := ⟨app.wires.map Wire.toValue, read "connections" (by decide) ▸ members_list _, by
        rw [wiresOf_unlimited, Wire.filterMap_toValue fun w member => (wires w member).1]⟩
      createdAt := (read "createdAt" (by decide)).symm
      updatedAt := (read "updatedAt" (by decide)).symm
      floatingSize? := by
        rw [read "floatingSize" (by decide)]
        unfold written
        cases app.floatingSize? <;> rfl
      extra := decoded.extra.trans extra.symm }

/-! ## The shape of a document -/

theorem isVacant_of_isName (named : isName v = true) : v.isVacant = false := by
  cases v with
  | str s => simpa [isName, Value.isVacant] using named
  | _ => cases named

theorem validate_eq_ok (ok : validate v = .ok t) :
    ∃ fields, v = .obj fields ∧ isName (fieldOr fields "name") = true
      ∧ t = withDisplayMode fields := by
  unfold validate at ok
  split at ok
  next fields =>
    split at ok
    next => cases ok
    next named =>
      split at ok
      next => cases ok
      next =>
        cases ok
        exact ⟨fields, rfl, by simpa using named, rfl⟩
  next => cases ok

theorem fieldOr_withDisplayMode (fields : Table Value) (other : name ≠ "displayMode") :
    fieldOr (withDisplayMode fields) name = fieldOr fields name := by
  unfold withDisplayMode
  split
  next => simp [fieldOr, Ne.symm other]
  next => rfl

theorem tidy_withDisplayMode {fields : Table Value} (tidy : (Value.obj fields).Tidy) :
    (Value.obj (withDisplayMode fields)).Tidy := by
  unfold withDisplayMode
  split
  next => exact tidy.put "displayMode" (.str _)
  next => exact tidy

/-- What a named app is written to has the shape of a document, and a display mode. -/
theorem Decoded.validate_toValue {app : App} (decoded : Decoded t app)
    (named : isName app.name = true) : validate app.toValue = .ok (app.knownPart ++ app.extra) := by
  have name : isName (fieldOr (app.knownPart ++ app.extra) "name") = true := by
    rw [decoded.fieldOr_toValue (by decide)]
    exact named
  have lists : requiredLists.find? (fun key => !isList (fieldOr (app.knownPart ++ app.extra) key))
      = none := by
    have known : ∀ key ∈ requiredLists, key ∈ knownFields := by decide
    have each : ∀ key ∈ requiredLists, isList (app.written key) = true := by
      simp only [requiredLists, List.forall_mem_cons]
      exact ⟨rfl, rfl, rfl, List.forall_mem_nil _⟩
    refine List.find?_eq_none.mpr fun key member => ?_
    rw [decoded.fieldOr_toValue (known key member), each key member]
    decide
  have mode : withDisplayMode (app.knownPart ++ app.extra) = app.knownPart ++ app.extra := by
    have visible : app.displayMode ≠ "" := fun empty =>
      absurd (other_eq_empty_of_textField (empty ▸ decoded.displayMode)) (by decide)
    rw [withDisplayMode, decoded.fieldOr_toValue (by decide), if_neg]
    simpa [written, Value.isVacant] using visible
  rw [toValue_eq, validate, name, lists, mode]
  rfl

/-- What a named app that was decoded is written to is tidy, and loads as the app. -/
theorem Decoded.ofValue_toValue {app : App} (decoded : Decoded t app) (tidy : (Value.obj t).Tidy)
    (named : isName app.name = true) : ofValue app.toValue = .ok app ∧ app.toValue.Tidy := by
  obtain ⟨known, shape, again, inside⟩ := restores tidy (ofTable_eq_ok.mpr decoded)
  have same : known = app.knownPart ++ app.extra := by
    rw [toValue_eq] at shape
    cases shape
    rfl
  exact ⟨bind_eq_ok.mpr ⟨_, decoded.validate_toValue named, same ▸ again⟩, shape ▸ inside⟩

/-- An app that was loaded was decoded, and has a name. -/
theorem exists_decoded {app : App} (tidy : v.Tidy) (ok : ofValue v = .ok app) :
    ∃ t, (Value.obj t).Tidy ∧ Decoded t app ∧ isName app.name = true := by
  obtain ⟨t, valid, ok⟩ := bind_eq_ok.mp ok
  obtain ⟨fields, rfl, named, rfl⟩ := validate_eq_ok valid
  have decoded := ofTable_eq_ok.mp ok
  obtain ⟨name, nameOk, isText⟩ := decoded.name
  have visible : name ≠ "" := by
    refine textField_ne_empty ?_ nameOk
    rw [fieldOr_withDisplayMode fields (by decide)]
    exact isVacant_of_isName named
  refine ⟨_, tidy_withDisplayMode tidy, decoded, ?_⟩
  rw [isText]
  simpa [isName] using visible

/-- What an app that was loaded is written to is tidy, and loads as the app. -/
theorem ofValue_toValue {app : App} (tidy : v.Tidy) (ok : ofValue v = .ok app) :
    ofValue app.toValue = .ok app ∧ app.toValue.Tidy := by
  obtain ⟨t, inside, decoded, named⟩ := exists_decoded tidy ok
  exact decoded.ofValue_toValue inside named

/-! ## Texts -/

/-- The app was loaded from a value, which may be a text, or from bytes. -/
inductive Loaded (app : App) : Prop where
  | value {v : Value} : v.Tidy → load v = .ok app → Loaded app
  | bytes {bytes : List UInt8} : ofBytes bytes = .ok app → Loaded app

/-- Whatever an app was loaded from, it is the app of a tidy value. -/
theorem Loaded.exists_ofValue {app : App} (loaded : app.Loaded) :
    ∃ v, v.Tidy ∧ ofValue v = .ok app := by
  cases loaded with
  | @value v tidy ok =>
    cases v with
    | str text =>
      obtain ⟨v, found, ok⟩ := bind_eq_ok.mp ok
      exact ⟨v, Json.tidy_of_read (Json.ok_of_mapError found), ok⟩
    | _ => exact ⟨_, tidy, ok⟩
  | bytes ok =>
    obtain ⟨v, found, ok⟩ := bind_eq_ok.mp ok
    exact ⟨v, Json.tidy_of_readBytes (Json.ok_of_mapError found), ok⟩

/-- Loading undoes saving: the text of an app that was loaded from anywhere loads as that app, with
every field and every unknown field in its place, so saving it again gives the same text.  The
doubles of the app are asked to read back. -/
theorem load_text_of_loaded {app : App} (loaded : app.Loaded)
    (doubles : ∀ x ∈ app.toValue.doubles, Json.ReadsBack x) :
    ∃ text, app.text = .ok text ∧ load (.str text) = .ok app
      ∧ (load (.str text) >>= App.text) = .ok text := by
  obtain ⟨v, tidy, ok⟩ := loaded.exists_ofValue
  obtain ⟨again, inside⟩ := ofValue_toValue tidy ok
  have saved : app.text = .ok (Json.indented app.toValue) := by
    rw [App.text, Value.toJsonIndented, if_pos inside.hasText]
  have read : load (.str (Json.indented app.toValue)) = .ok app := by
    rw [load, ofText, Json.read_indented inside doubles]
    exact again
  refine ⟨_, saved, read, ?_⟩
  rw [read]
  exact saved

/-- The drawing of an editor that is newer in one thing and careless in another: fields are new,
missing or of the wrong kind, and so are entries of lists. -/
def sketch : Value := .obj [
  ("theme", .list [.float 1.5, .null]),
  ("name", .str "Sketch"),
  ("version", .int 0),
  ("uiComponents", .list [
    .obj [("glow", .obj [("size", .int 3)]), ("id", .str "b"), ("type", .str "button"),
      ("x", .float 2.5), ("pageId", .int 7)],
    .int 7]),
  ("nodes", .list [.obj [("id", .str "n"), ("type", .str "log")]]),
  ("connections", .list [
    .str "loose",
    .obj [("color", .str "red"), ("from", .obj [("nodeId", .str "n"), ("pinId", .str "out")]),
      ("to", .obj [("nodeId", .str "n"), ("pinId", .str "in")])]])]

/-- The app of the drawing. -/
def sketchApp : App where
  id := ""
  name := .str "Sketch"
  components := [{
    id := "b", kind := "button", x := .float 2.5, pageId := .str "7"
    extra := [("glow", .obj [("size", .int 3)])] }]
  nodes := [{ id := "n", kind := "log" }]
  wires := [⟨⟨"n", "out"⟩, ⟨"n", "in"⟩, [("color", .str "red")]⟩]
  extra := [("theme", .list [.float 1.5, .null])]

theorem eq_ok_of_toOption {ε α : Type} {r : Except ε α} {a : α} (found : r.toOption = some a) :
    r = .ok a := by
  cases r with
  | error e => cases found
  | ok b =>
    cases found
    rfl

theorem loaded_sketchApp : sketchApp.Loaded := by
  have tidy : sketch.Tidy := by
    simp [sketch, Table.names, Value.Tidy.null, Value.Tidy.float, Value.Tidy.str,
      Value.tidy_int_of_lt_1000]
  have found : (load sketch).toOption = some sketchApp := by decide +kernel
  exact .value tidy (eq_ok_of_toOption found)

theorem readsBack_sketchApp : ∀ x ∈ sketchApp.toValue.doubles, Json.ReadsBack x := by
  have doubles : sketchApp.toValue.doubles = [2.5, 1.5] := by decide +kernel
  have found : ∀ x ∈ [(2.5 : Float), 1.5],
      (Json.read (Number.shortestText Json.openEnds x)).toOption = some (.float x) := by
    decide +kernel
  intro x member
  rw [doubles] at member
  exact eq_ok_of_toOption (found x member)

theorem load_text_sketchApp : ∃ text, sketchApp.text = .ok text ∧ load (.str text) = .ok sketchApp
    ∧ (load (.str text) >>= App.text) = .ok text :=
  load_text_of_loaded loaded_sketchApp readsBack_sketchApp

end App

end Wireboard
