import Mathlib.Data.List.Forall2
import Wireboard.Proofs.Document.Refusal

/-!
# Documents that nothing is lost of

Decoding forgives what is missing or of the wrong kind, at the price of losing it.  A document in
which every known field is there and of its own kind loses nothing: the app that is loaded from it
is written to the same document again, up to the order of fields, and with whatever fields it has
beyond those (`App.load_keeps_document`).

What a document should look like is a `Shape`: a list of slots, each with a name and a test for the
value under it.  A record is written as its slots followed by its unknown fields, so one lemma
(`Shape.keeps_record`) does for all records.  What remains for each of them is that the value of
every slot is decoded to itself.
-/

namespace Wireboard

/-! ## Up to the order of fields -/

/-- The second value is the first one with its fields in another order.  Everything else is the
same: the order of lists, and whole numbers and doubles. -/
inductive Value.Rearranged : Value → Value → Prop
  | refl (v : Value) : Rearranged v v
  | list {xs ys : List Value} (items : List.Forall₂ Rearranged xs ys) :
      Rearranged (.list xs) (.list ys)
  | obj {s t : Table Value} (before : s.names.Nodup) (after : t.names.Nodup)
      (fields : ∀ name, Option.Rel Rearranged (s.get? name) (t.get? name)) :
      Rearranged (.obj s) (.obj t)

theorem Value.rearranged_of_eq {v? w? : Option Value} (same : v? = w?) :
    Option.Rel Value.Rearranged v? w? := by
  subst same
  cases v? with
  | none => exact .none
  | some v => exact .some (.refl v)

/-! ## Shapes -/

/-- A field that is known: what its value must be, and whether it may be missing. -/
structure Slot where
  name : String
  fits : Value → Bool
  isOptional : Bool := false

/-- What an object must look like.  An open shape allows further fields. -/
structure Shape where
  slots : List Slot
  isOpen : Bool := true

/-- The table has the field of a slot, or may be without it. -/
def Slot.accepts (slot : Slot) (t : Table Value) : Bool :=
  match t.get? slot.name with
  | some v => slot.fits v
  | none => slot.isOptional

namespace Shape

/-- The names of the fields that are known. -/
def names (s : Shape) : List String := s.slots.map (·.name)

/-- The value is an object of the shape, with every name once. -/
def fits (s : Shape) : Value → Bool
  | .obj t => decide (Table.names t).Nodup && s.slots.all (·.accepts t)
      && (s.isOpen || (Table.names t).all (s.names.contains ·))
  | _ => false

/-- The fields of an object that are not known, in their order. -/
def unknown (s : Shape) : Value → Table Value
  | .obj t => unknownFields t s.names
  | _ => []

/-- Nothing of the first value is lost in the second, and the unknown fields keep their order. -/
def Keeps (s : Shape) (v w : Value) : Prop := v.Rearranged w ∧ s.unknown v = s.unknown w

end Shape

/-- The value is a text. -/
def Value.isText : Value → Bool
  | .str _ => true
  | _ => false

/-- The value is a number, and no truth value. -/
def Value.isNumber : Value → Bool
  | .int _ | .float _ | .nan _ => true
  | _ => false

/-- The value is a truth value. -/
def Value.isTruth : Value → Bool
  | .bool _ => true
  | _ => false

/-- The value is an object. -/
def Value.isObject : Value → Bool
  | .obj _ => true
  | _ => false

/-- The value is a list whose items pass a test. -/
def Value.isListOf (test : Value → Bool) : Value → Bool
  | .list items => items.all test
  | _ => false

/-- A page with its fields. -/
def Page.shape : Shape where
  slots := [⟨"id", Value.isText, false⟩, ⟨"name", Value.isText, false⟩]

/-- A layer with its fields. -/
def Layer.shape : Shape where
  slots := [⟨"id", Value.isText, false⟩, ⟨"name", Value.isText, false⟩,
    ⟨"visible", Value.isTruth, false⟩]

/-- A component with its fields. -/
def Component.shape : Shape where
  slots := [⟨"id", Value.isText, false⟩, ⟨"type", Value.isText, false⟩,
    ⟨"props", Value.isObject, false⟩, ⟨"style", Value.isObject, false⟩,
    ⟨"x", Value.isNumber, false⟩, ⟨"y", Value.isNumber, false⟩,
    ⟨"pageId", Value.isText, true⟩, ⟨"layer", Value.isText, true⟩]

/-- A node with its fields. -/
def Node.shape : Shape where
  slots := [⟨"id", Value.isText, false⟩, ⟨"type", Value.isText, false⟩,
    ⟨"x", Value.isNumber, false⟩, ⟨"y", Value.isNumber, false⟩,
    ⟨"properties", Value.isObject, false⟩, ⟨"layer", Value.isText, true⟩]

/-- A canvas with its fields and no others. -/
def Canvas.shape : Shape where
  slots := [⟨"width", Value.isNumber, false⟩, ⟨"height", Value.isNumber, false⟩,
    ⟨"backgroundColor", App.isName, false⟩]
  isOpen := false

/-- A pin with its fields and no others. -/
def PinRef.shape : Shape where
  slots := [⟨"nodeId", Value.isText, false⟩, ⟨"pinId", Value.isText, false⟩]
  isOpen := false

/-- A wire with its two pins. -/
def Wire.shape : Shape where
  slots := [⟨"from", PinRef.shape.fits, false⟩, ⟨"to", PinRef.shape.fits, false⟩]

/-- A document with its fields. -/
def App.shape : Shape where
  slots := [⟨"id", Value.isText, false⟩, ⟨"name", isName, false⟩, ⟨"version", isName, false⟩,
    ⟨"displayMode", isName, false⟩, ⟨"canvas", Canvas.shape.fits, false⟩,
    ⟨"pages", Value.isListOf Page.shape.fits, false⟩,
    ⟨"layers", Value.isListOf Layer.shape.fits, false⟩,
    ⟨"uiComponents", Value.isListOf Component.shape.fits, false⟩,
    ⟨"nodes", Value.isListOf Node.shape.fits, false⟩,
    ⟨"connections", Value.isListOf Wire.shape.fits, false⟩,
    ⟨"createdAt", (· != .null), true⟩, ⟨"updatedAt", (· != .null), true⟩,
    ⟨"floatingSize", Value.isObject, true⟩]

/-! ## Records -/

section Records

variable {s : Shape} {t base : Table Value}

theorem Shape.fits_obj : s.fits (.obj t) = true ↔ t.names.Nodup
    ∧ (∀ slot ∈ s.slots, slot.accepts t = true)
    ∧ (s.isOpen = true ∨ ∀ name ∈ t.names, name ∈ s.names) := by
  simp [fits, and_assoc]

/-- The fields of a shape, followed by the unknown fields of a table, are all of the table if every
slot has what it had there. -/
theorem Shape.keeps_record (fits : s.fits (.obj t) = true) (names : List String)
    (distinct : names.Nodup) (within : ∀ name ∈ names, name ∈ s.names)
    (among : base.names.Sublist names)
    (slots : ∀ slot ∈ s.slots,
      Option.Rel Value.Rearranged (t.get? slot.name) (base.get? slot.name)) :
    s.Keeps (.obj t) (.obj (base ++ unknownFields t s.names)) := by
  obtain ⟨others, -, -⟩ := fits_obj.mp fits
  have inside : ∀ name ∈ base.names, name ∈ s.names := fun name member =>
    within name (among.subset member)
  refine ⟨.obj others ?_ fun name => ?_, (unknownFields_record inside).symm⟩
  · exact nodup_names_record others (distinct.sublist among) inside
  · by_cases isKnown : name ∈ s.names
    · rw [get?_record isKnown]
      obtain ⟨slot, member, rfl⟩ := List.mem_map.mp isKnown
      exact slots slot member
    · have absent : base.get? name = none :=
        Table.get?_eq_none_iff.mpr fun member => isKnown (inside name member)
      rw [Table.get?_append, absent, Option.none_or, unknownFields,
        Table.get?_filter (p := fun name => !s.names.contains name) (by simpa using isKnown)]
      exact Value.rearranged_of_eq rfl

/-- A record keeps the table if its fields are those of the shape, as they were there. -/
theorem Shape.keeps_of_eq (fits : s.fits (.obj t) = true) (distinct : s.names.Nodup)
    (among : base.names.Sublist s.names)
    (slots : ∀ slot ∈ s.slots, t.get? slot.name = base.get? slot.name) :
    s.Keeps (.obj t) (.obj (base ++ unknownFields t s.names)) :=
  s.keeps_record fits s.names distinct (fun _ member => member) among fun slot member =>
    Value.rearranged_of_eq (slots slot member)

/-- A table of a closed shape has nothing else. -/
theorem Shape.unknownFields_of_closed (fits : s.fits (.obj t) = true) (closed : s.isOpen = false) :
    unknownFields t s.names = [] := by
  obtain ⟨-, -, isOpen | only⟩ := fits_obj.mp fits
  · rw [closed] at isOpen
    cases isOpen
  · refine List.filter_eq_nil_iff.mpr fun e member => ?_
    simpa using only e.1 (List.mem_map.mpr ⟨e, member, rfl⟩)

end Records

/-! ## Slots

A value that is what its slot asks for is decoded to itself. -/

variable {v : Value}

namespace Slot

variable {t : Table Value} {name : String} {test : Value → Bool}

theorem exists_value (accepted : accepts ⟨name, test, false⟩ t = true) :
    ∃ v, t.get? name = some v ∧ test v = true := by
  unfold accepts at accepted
  split at accepted
  next v found => exact ⟨v, found, accepted⟩
  next => cases accepted

theorem fieldOr_of_get? (found : t.get? name = some v) : fieldOr t name = v := by
  rw [fieldOr, found]
  rfl

theorem cases_of_optional (accepted : accepts ⟨name, test, true⟩ t = true) :
    (∃ v, t.get? name = some v ∧ fieldOr t name = v ∧ test v = true) ∨
      t.get? name = none ∧ fieldOr t name = .null := by
  unfold accepts at accepted
  split at accepted
  next v found => exact .inl ⟨v, found, fieldOr_of_get? found, accepted⟩
  next missing => exact .inr ⟨missing, congrArg (Option.getD · _) missing⟩

theorem exists_text (accepted : accepts ⟨name, Value.isText, false⟩ t = true) :
    ∃ s, t.get? name = some (.str s) ∧ textField t name "" = .ok s := by
  obtain ⟨v, found, isText⟩ := exists_value accepted
  cases v with
  | str s =>
    refine ⟨s, found, ?_⟩
    rw [textField, fieldOr_of_get? found, Value.orElse]
    split
    next vacant =>
      have empty : s = "" := by simpa [Value.isVacant] using vacant
      rw [empty]
      rfl
    next => rfl
  | _ => cases isText

theorem exists_name (accepted : accepts ⟨name, App.isName, false⟩ t = true) (other : String) :
    ∃ s, s ≠ "" ∧ t.get? name = some (.str s) ∧ textField t name other = .ok s := by
  obtain ⟨v, found, named⟩ := exists_value accepted
  cases v with
  | str s =>
    refine ⟨s, by simpa [App.isName] using named, found, ?_⟩
    rw [textField, fieldOr_of_get? found, Value.orElse, App.isVacant_of_isName named]
    rfl
  | _ => cases named

theorem exists_text? (accepted : accepts ⟨name, Value.isText, true⟩ t = true) :
    ∃ s?, t.get? name = s?.map .str ∧ textField? t name = .ok s? := by
  rw [textField?]
  rcases cases_of_optional accepted with ⟨v, found, field, isText⟩ | ⟨missing, field⟩ <;> rw [field]
  · cases v with
    | str s => exact ⟨some s, found, rfl⟩
    | _ => cases isText
  · exact ⟨none, missing, rfl⟩

theorem get?_of_isNumber (accepted : accepts ⟨name, Value.isNumber, false⟩ t = true)
    (other : Value) : t.get? name = some (numberField t name other) := by
  obtain ⟨v, found, isNumber⟩ := exists_value accepted
  rw [found, numberField, fieldOr_of_get? found]
  cases v with
  | int | float | nan => rfl
  | _ => cases isNumber

theorem get?_of_isObject (accepted : accepts ⟨name, Value.isObject, false⟩ t = true) :
    t.get? name = some (.obj (tableField t name)) := by
  obtain ⟨v, found, isObject⟩ := exists_value accepted
  rw [found, tableField, fieldOr_of_get? found]
  cases v with
  | obj => rfl
  | _ => cases isObject

theorem get?_of_isObject? (accepted : accepts ⟨name, Value.isObject, true⟩ t = true) :
    t.get? name = (fieldOr t name).fields?.map .obj := by
  rcases cases_of_optional accepted with ⟨v, found, field, isObject⟩ | ⟨missing, field⟩
  · rw [found, field]
    cases v with
    | obj => rfl
    | _ => cases isObject
  · rw [missing, field]
    rfl

theorem get?_of_isTruth (accepted : accepts ⟨name, Value.isTruth, false⟩ t = true) :
    t.get? name = some (.bool (fieldOr t name != .bool false)) := by
  obtain ⟨v, found, isTruth⟩ := exists_value accepted
  rw [found, fieldOr_of_get? found]
  cases v with
  | bool b => cases b <;> rfl
  | _ => cases isTruth

theorem get?_of_present (accepted : accepts ⟨name, (· != .null), true⟩ t = true) :
    t.get? name = (fieldOr t name).present? := by
  rcases cases_of_optional accepted with ⟨v, found, field, present⟩ | ⟨missing, field⟩
  · rw [found, field, Value.present?, if_neg (by simpa using present)]
  · rw [missing, field]
    rfl

end Slot

/-! ## Records of an app -/

section Apps

variable {t : Table Value}

theorem Page.keeps (fits : Page.shape.fits (.obj t) = true) :
    ∃ p, Page.ofTable t = .ok p ∧ Page.shape.Keeps (.obj t) p.toValue := by
  have slots := (Shape.fits_obj.mp fits).2.1
  simp only [Page.shape, List.forall_mem_cons] at slots
  obtain ⟨isId, isName, -⟩ := slots
  obtain ⟨id, idValue, idOk⟩ := Slot.exists_text isId
  obtain ⟨name, nameValue, nameOk⟩ := Slot.exists_text isName
  refine ⟨⟨id, name, _⟩, ofTable_eq_ok.mpr ⟨idOk, nameOk, rfl⟩, ?_⟩
  refine Shape.keeps_of_eq fits (by decide) (List.Sublist.refl _) ?_
  simp only [Page.shape, List.forall_mem_cons]
  exact ⟨idValue, nameValue, List.forall_mem_nil _⟩

theorem Layer.keeps (fits : Layer.shape.fits (.obj t) = true) :
    ∃ l, Layer.ofTable t = .ok l ∧ Layer.shape.Keeps (.obj t) l.toValue := by
  have slots := (Shape.fits_obj.mp fits).2.1
  simp only [Layer.shape, List.forall_mem_cons] at slots
  obtain ⟨isId, isName, isVisible, -⟩ := slots
  obtain ⟨id, idValue, idOk⟩ := Slot.exists_text isId
  obtain ⟨name, nameValue, nameOk⟩ := Slot.exists_text isName
  refine ⟨⟨id, name, _, _⟩, ofTable_eq_ok.mpr ⟨idOk, nameOk, rfl, rfl⟩, ?_⟩
  refine Shape.keeps_of_eq fits (by decide) (List.Sublist.refl _) ?_
  simp only [Layer.shape, List.forall_mem_cons]
  exact ⟨idValue, nameValue, Slot.get?_of_isTruth isVisible, List.forall_mem_nil _⟩

variable {α : Type}

theorem Value.present?_getD_map {f : α → Value} (set : ∀ a, f a ≠ .null) (a? : Option α) :
    ((a?.map f).getD .null).present? = a?.map f := by
  cases a? with
  | none => rfl
  | some a => exact if_neg (set a)

theorem Component.keeps (fits : Component.shape.fits (.obj t) = true) :
    ∃ c, Component.ofTable t = .ok c ∧ Component.shape.Keeps (.obj t) c.toValue := by
  have slots := (Shape.fits_obj.mp fits).2.1
  simp only [Component.shape, List.forall_mem_cons] at slots
  obtain ⟨isId, isKind, props, style, x, y, isPage, isLayer, -⟩ := slots
  obtain ⟨id, idValue, idOk⟩ := Slot.exists_text isId
  obtain ⟨kind, kindValue, kindOk⟩ := Slot.exists_text isKind
  obtain ⟨page?, pageValue, pageOk⟩ := Slot.exists_text? isPage
  obtain ⟨layer?, layerValue, layerOk⟩ := Slot.exists_text? isLayer
  refine ⟨⟨id, kind, _, _, _, _, (page?.map .str).getD .null, layer?, _⟩, ofTable_eq_ok.mpr
    ⟨idOk, kindOk, ⟨page?, pageOk, rfl⟩, layerOk, rfl, rfl, rfl, rfl, rfl⟩, ?_⟩
  refine Shape.keeps_of_eq fits (by decide) ?_ ?_
  · simp only [Table.names, List.map_append]
    exact ((List.Sublist.refl ["id", "type", "props", "style", "x", "y"]).append
      (names_presentField "pageId" _)).append (names_optionalField "layer" layer?)
  · simp only [Component.shape, List.forall_mem_cons]
    refine ⟨idValue, kindValue, Slot.get?_of_isObject props, Slot.get?_of_isObject style,
      Slot.get?_of_isNumber x _, Slot.get?_of_isNumber y _, pageValue.trans ?_,
      layerValue.trans ?_, List.forall_mem_nil _⟩
    · refine (Value.present?_getD_map (by simp) page?).symm.trans ?_
      simp
    · simp

theorem Node.keeps (fits : Node.shape.fits (.obj t) = true) :
    ∃ n, Node.ofTable t = .ok n ∧ Node.shape.Keeps (.obj t) n.toValue := by
  have slots := (Shape.fits_obj.mp fits).2.1
  simp only [Node.shape, List.forall_mem_cons] at slots
  obtain ⟨isId, isKind, x, y, properties, isLayer, -⟩ := slots
  obtain ⟨id, idValue, idOk⟩ := Slot.exists_text isId
  obtain ⟨kind, kindValue, kindOk⟩ := Slot.exists_text isKind
  obtain ⟨layer?, layerValue, layerOk⟩ := Slot.exists_text? isLayer
  refine ⟨⟨id, kind, _, _, _, layer?, _⟩,
    ofTable_eq_ok.mpr ⟨idOk, kindOk, layerOk, rfl, rfl, rfl, rfl⟩, ?_⟩
  refine Shape.keeps_of_eq fits (by decide) ?_ ?_
  · simp only [Table.names, List.map_append]
    exact (List.Sublist.refl ["id", "type", "x", "y", "properties"]).append
      (names_optionalField "layer" layer?)
  · simp only [Node.shape, List.forall_mem_cons]
    refine ⟨idValue, kindValue, Slot.get?_of_isNumber x _, Slot.get?_of_isNumber y _,
      Slot.get?_of_isObject properties, layerValue.trans ?_, List.forall_mem_nil _⟩
    simp

theorem Shape.exists_table {s : Shape} (fits : s.fits v = true) : ∃ t, v = .obj t := by
  cases v with
  | obj t => exact ⟨t, rfl⟩
  | _ => cases fits

/-- A record of a closed shape is its fields and nothing else. -/
theorem Shape.rearranged_of_closed {s : Shape} {base : Table Value} (fits : s.fits (.obj t) = true)
    (closed : s.isOpen = false) (distinct : s.names.Nodup) (among : base.names.Sublist s.names)
    (slots : ∀ slot ∈ s.slots, t.get? slot.name = base.get? slot.name) :
    (Value.obj t).Rearranged (.obj base) := by
  have kept := (s.keeps_of_eq fits distinct among slots).1
  rwa [unknownFields_of_closed fits closed, List.append_nil] at kept

theorem Canvas.keeps (fits : Canvas.shape.fits v = true) :
    ∃ c, Canvas.ofValue v = .ok c ∧ v.Rearranged c.toValue := by
  obtain ⟨t, rfl⟩ := Shape.exists_table fits
  have slots := (Shape.fits_obj.mp fits).2.1
  simp only [Canvas.shape, List.forall_mem_cons] at slots
  obtain ⟨width, height, isBackground, -⟩ := slots
  obtain ⟨background, -, value, ok⟩ := Slot.exists_name isBackground defaultBackground
  refine ⟨_, bind_eq_ok.mpr ⟨background, ok, rfl⟩, ?_⟩
  refine Shape.rearranged_of_closed fits rfl (by decide) (List.Sublist.refl _) ?_
  simp only [Canvas.shape, List.forall_mem_cons]
  exact ⟨Slot.get?_of_isNumber width _, Slot.get?_of_isNumber height _, value,
    List.forall_mem_nil _⟩

theorem PinRef.keeps (fits : PinRef.shape.fits v = true) :
    ∃ p, PinRef.ofValue? v = some p ∧ v.Rearranged p.toValue := by
  obtain ⟨t, rfl⟩ := Shape.exists_table fits
  have slots := (Shape.fits_obj.mp fits).2.1
  simp only [PinRef.shape, List.forall_mem_cons] at slots
  obtain ⟨isNode, isPin, -⟩ := slots
  obtain ⟨node, nodeValue, -⟩ := Slot.exists_text isNode
  obtain ⟨pin, pinValue, -⟩ := Slot.exists_text isPin
  refine ⟨⟨node, pin⟩, ?_, ?_⟩
  · rw [PinRef.ofValue?, nodeValue, pinValue]
  · refine Shape.rearranged_of_closed fits rfl (by decide) (List.Sublist.refl _) ?_
    simp only [PinRef.shape, List.forall_mem_cons]
    exact ⟨nodeValue, pinValue, List.forall_mem_nil _⟩

theorem Wire.keeps (fits : Wire.shape.fits v = true) :
    ∃ w, Wire.ofValue? v = some w ∧ Wire.shape.Keeps v w.toValue := by
  obtain ⟨t, rfl⟩ := Shape.exists_table fits
  have slots := (Shape.fits_obj.mp fits).2.1
  simp only [Wire.shape, List.forall_mem_cons] at slots
  obtain ⟨isSource, isTarget, -⟩ := slots
  obtain ⟨x, sourceValue, sourceFits⟩ := Slot.exists_value isSource
  obtain ⟨y, targetValue, targetFits⟩ := Slot.exists_value isTarget
  obtain ⟨source, sourceOk, sourceKept⟩ := PinRef.keeps sourceFits
  obtain ⟨target, targetOk, targetKept⟩ := PinRef.keeps targetFits
  refine ⟨⟨source, target, unknownFields t ["from", "to"]⟩, ?_, ?_⟩
  · rw [Wire.ofValue?, Slot.fieldOr_of_get? sourceValue, Slot.fieldOr_of_get? targetValue,
      sourceOk, targetOk]
  · refine Shape.keeps_record fits ["from", "to"] (by decide) (by decide) (List.Sublist.refl _) ?_
    simp only [Wire.shape, List.forall_mem_cons, sourceValue, targetValue]
    exact ⟨.some sourceKept, .some targetKept, List.forall_mem_nil _⟩

/-! ## Lists of records -/

theorem exists_mapM_keeps {s : Shape} {decode : Table Value → Except Fault α} {toValue : α → Value}
    (record : ∀ {t}, s.fits (.obj t) = true → ∃ x, decode t = .ok x ∧ s.Keeps (.obj t) (toValue x))
    {items : List Value} (fits : ∀ v ∈ items, s.fits v = true) :
    ∃ xs, (items.filterMap Value.fields?).mapM decode = .ok xs
      ∧ List.Forall₂ s.Keeps items (xs.map toValue) := by
  induction items with
  | nil => exact ⟨[], rfl, .nil⟩
  | cons v items ih =>
    obtain ⟨first, others⟩ := List.forall_mem_cons.mp fits
    obtain ⟨t, rfl⟩ := Shape.exists_table first
    obtain ⟨x, decoded, kept⟩ := record first
    obtain ⟨xs, areDecoded, areKept⟩ := ih others
    refine ⟨x :: xs, ?_, .cons kept areKept⟩
    rw [List.filterMap_cons, Value.fields?, List.mapM_cons, decoded, areDecoded]
    rfl

/-- A list of records in their shape is decoded without losing anything of them. -/
theorem exists_records {s : Shape} {decode : Table Value → Except Fault α} {toValue : α → Value}
    (record : ∀ {t}, s.fits (.obj t) = true → ∃ x, decode t = .ok x ∧ s.Keeps (.obj t) (toValue x))
    {name : String} (accepted : Slot.accepts ⟨name, Value.isListOf s.fits, false⟩ t = true) :
    ∃ items xs, t.get? name = some (.list items) ∧ recordsField t name decode = .ok xs
      ∧ List.Forall₂ s.Keeps items (xs.map toValue) := by
  obtain ⟨v, found, fits⟩ := Slot.exists_value accepted
  cases v with
  | list items =>
    obtain ⟨xs, decoded, kept⟩ := exists_mapM_keeps record (List.all_eq_true.mp fits)
    refine ⟨items, xs, found, ?_, kept⟩
    refine bind_eq_ok.mpr ⟨items, ?_, decoded⟩
    rw [Slot.fieldOr_of_get? found, members_list]
  | _ => cases fits

theorem exists_wires (accepted :
      Slot.accepts ⟨"connections", Value.isListOf Wire.shape.fits, false⟩ t = true) :
    ∃ items, t.get? "connections" = some (.list items)
      ∧ List.Forall₂ Wire.shape.Keeps items ((items.filterMap Wire.ofValue?).map Wire.toValue) := by
  obtain ⟨v, found, fits⟩ := Slot.exists_value accepted
  cases v with
  | list items =>
    refine ⟨items, found, ?_⟩
    replace fits := List.all_eq_true.mp fits
    clear found
    induction items with
    | nil => exact .nil
    | cons v items ih =>
      obtain ⟨first, others⟩ := List.forall_mem_cons.mp fits
      obtain ⟨w, decoded, kept⟩ := Wire.keeps first
      rw [List.filterMap_cons, decoded]
      exact .cons kept (ih others)
  | _ => cases fits

/-! ## Apps -/

namespace App

theorem get?_knownPart {app : App} (named : app.name ≠ .null) {name : String}
    (isKnown : name ∈ knownFields) : app.knownPart.get? name = (app.written name).present? := by
  have size := Value.present?_getD_map (by simp : ∀ fields, Value.obj fields ≠ .null)
    app.floatingSize?
  simp only [knownFields, List.mem_cons, List.not_mem_nil, or_false] at isKnown
  rcases isKnown with
      rfl | rfl | rfl | rfl | rfl | rfl | rfl | rfl | rfl | rfl | rfl | rfl | rfl <;>
    simp [knownPart, written, size] <;>
    simp [Value.present?, named, Canvas.toValue]

/-- The lists of records in a document, with their shapes. -/
def recordShapes : List (String × Shape) :=
  [("pages", Page.shape), ("layers", Layer.shape), ("uiComponents", Component.shape),
    ("nodes", Node.shape), ("connections", Wire.shape)]

/-- The items of the list in a field of a document. -/
def itemsUnder (doc : Value) (name : String) : List Value :=
  match doc.field? name with
  | some (.list items) => items
  | _ => []

/-- Nothing of the document is lost, and the unknown fields keep their order, in the document and in
each of its records. -/
structure Faithful (doc out : Value) : Prop where
  document : shape.Keeps doc out
  records : ∀ kind ∈ recordShapes,
    List.Forall₂ kind.2.Keeps (itemsUnder doc kind.1) (itemsUnder out kind.1)

/-- The app is decoded from a table, and what is written under each name is what was there. -/
structure Transcribes (app : App) (t : Table Value) : Prop where
  decoded : Decoded t app
  slots : ∀ slot ∈ shape.slots,
    Option.Rel Value.Rearranged (t.get? slot.name) (app.written slot.name).present?
  records : ∀ kind ∈ recordShapes, ∃ items items', t.get? kind.1 = some (.list items)
    ∧ app.written kind.1 = .list items' ∧ List.Forall₂ kind.2.Keeps items items'

theorem rearranged_list {s : Shape} {items items' : List Value}
    (each : List.Forall₂ s.Keeps items items') : (Value.list items).Rearranged (.list items') :=
  .list (each.imp fun _ _ kept => kept.1)

theorem exists_transcribes (fits : shape.fits (.obj t) = true) : ∃ app, Transcribes app t := by
  have slots := (Shape.fits_obj.mp fits).2.1
  simp only [shape, List.forall_mem_cons] at slots
  obtain ⟨isId, isName, isVersion, isMode, isCanvas, arePages, areLayers, areComponents, areNodes,
    areWires, created, updated, isSize, -⟩ := slots
  obtain ⟨id, idValue, idOk⟩ := Slot.exists_text isId
  obtain ⟨name, -, nameValue, nameOk⟩ := Slot.exists_name isName ""
  obtain ⟨version, -, versionValue, versionOk⟩ := Slot.exists_name isVersion "1.0"
  obtain ⟨mode, -, modeValue, modeOk⟩ := Slot.exists_name isMode defaultDisplayMode
  obtain ⟨v, canvasValue, canvasFits⟩ := Slot.exists_value isCanvas
  obtain ⟨canvas, canvasOk, canvasKept⟩ := Canvas.keeps canvasFits
  obtain ⟨pageItems, pages, pagesValue, pagesOk, pagesKept⟩ := exists_records Page.keeps arePages
  obtain ⟨layerItems, layers, layersValue, layersOk, layersKept⟩ :=
    exists_records Layer.keeps areLayers
  obtain ⟨componentItems, components, componentsValue, componentsOk, componentsKept⟩ :=
    exists_records Component.keeps areComponents
  obtain ⟨nodeItems, nodes, nodesValue, nodesOk, nodesKept⟩ := exists_records Node.keeps areNodes
  obtain ⟨wireItems, wiresValue, wiresKept⟩ := exists_wires areWires
  refine ⟨{
    id, name := .str name, version, displayMode := mode, canvas, pages, layers, components, nodes
    wires := wireItems.filterMap Wire.ofValue?
    createdAt := fieldOr t "createdAt"
    updatedAt := fieldOr t "updatedAt"
    floatingSize? := (fieldOr t "floatingSize").fields?
    extra := unknownFields t knownFields }, ?_, ?_, ?_⟩
  · exact {
      id := idOk
      name := ⟨name, nameOk, rfl⟩
      version := versionOk
      displayMode := modeOk
      canvas := by rw [Slot.fieldOr_of_get? canvasValue, canvasOk]
      pages := pagesOk
      layers := layersOk
      components := componentsOk
      nodes := nodesOk
      wires := ⟨wireItems, by rw [Slot.fieldOr_of_get? wiresValue, members_list],
        wiresOf_unlimited wireItems⟩
      createdAt := rfl
      updatedAt := rfl
      floatingSize? := by cases fieldOr t "floatingSize" <;> rfl
      extra := rfl }
  · simp only [shape, List.forall_mem_cons, idValue, nameValue, versionValue, modeValue,
      canvasValue, pagesValue, layersValue, componentsValue, nodesValue, wiresValue]
    refine ⟨.some (.refl _), .some (.refl _), .some (.refl _), .some (.refl _), .some canvasKept,
      .some (rearranged_list pagesKept), .some (rearranged_list layersKept),
      .some (rearranged_list componentsKept), .some (rearranged_list nodesKept),
      .some (rearranged_list wiresKept), Value.rearranged_of_eq (Slot.get?_of_present created),
      Value.rearranged_of_eq (Slot.get?_of_present updated), Value.rearranged_of_eq ?_,
      List.forall_mem_nil _⟩
    rw [Slot.get?_of_isObject? isSize]
    exact (Value.present?_getD_map (by simp) _).symm
  · simp only [recordShapes, List.forall_mem_cons]
    exact ⟨⟨_, _, pagesValue, rfl, pagesKept⟩, ⟨_, _, layersValue, rfl, layersKept⟩,
      ⟨_, _, componentsValue, rfl, componentsKept⟩, ⟨_, _, nodesValue, rfl, nodesKept⟩,
      ⟨_, _, wiresValue, rfl, wiresKept⟩, List.forall_mem_nil _⟩

theorem isDocument_of_fits (fits : shape.fits (.obj t) = true) :
    IsDocument t ∧ withDisplayMode t = t := by
  have slots := (Shape.fits_obj.mp fits).2.1
  simp only [shape, List.forall_mem_cons] at slots
  obtain ⟨-, isName, -, isMode, -, -, -, areComponents, areNodes, areWires, -⟩ := slots
  obtain ⟨name, visible, nameValue, -⟩ := Slot.exists_name isName ""
  obtain ⟨mode, filled, modeValue, -⟩ := Slot.exists_name isMode defaultDisplayMode
  obtain ⟨_, _, componentsValue, -⟩ := exists_records Component.keeps areComponents
  obtain ⟨_, _, nodesValue, -⟩ := exists_records Node.keeps areNodes
  obtain ⟨_, wiresValue, -⟩ := exists_wires areWires
  refine ⟨⟨?_, ?_⟩, ?_⟩
  · rw [Slot.fieldOr_of_get? nameValue]
    simpa [App.isName] using visible
  · simp only [requiredLists, List.forall_mem_cons, Slot.fieldOr_of_get? componentsValue,
      Slot.fieldOr_of_get? nodesValue, Slot.fieldOr_of_get? wiresValue]
    exact ⟨rfl, rfl, rfl, List.forall_mem_nil _⟩
  · rw [withDisplayMode, Slot.fieldOr_of_get? modeValue, if_neg (by simpa [Value.isVacant])]

theorem Transcribes.faithful {app : App} (transcribes : Transcribes app t)
    (fits : shape.fits (.obj t) = true) : Faithful (.obj t) app.toValue := by
  have known : ∀ slot ∈ shape.slots, slot.name ∈ knownFields := by decide
  have named : app.name ≠ .null := by
    obtain ⟨name, -, isText⟩ := transcribes.decoded.name
    simp [isText]
  have written {name : String} (isKnown : name ∈ knownFields) :
      app.toValue.field? name = (app.written name).present? := by
    rw [toValue_eq, transcribes.decoded.extra, Value.field?, get?_record isKnown,
      get?_knownPart named isKnown]
  refine ⟨?_, fun kind member => ?_⟩
  · rw [toValue_eq, transcribes.decoded.extra]
    refine Shape.keeps_record fits _ (by decide) (by decide) app.names_knownPart ?_
    intro slot member
    rw [get?_knownPart named (known slot member)]
    exact transcribes.slots slot member
  · have isKnown : ∀ kind ∈ recordShapes, kind.1 ∈ knownFields := by decide
    obtain ⟨items, items', before, after, kept⟩ := transcribes.records kind member
    have first : itemsUnder (.obj t) kind.1 = items := by
      rw [itemsUnder, Value.field?, before]
    have second : itemsUnder app.toValue kind.1 = items' := by
      rw [itemsUnder, written (isKnown kind member), after]
      rfl
    rw [first, second]
    exact kept

/-- Nothing is lost of a document in its shape: it loads, and what the app is written to is the
document, up to the order of fields, with its unknown fields and those of its records in their
order. -/
theorem load_keeps_document {doc : Value} (fits : shape.fits doc = true) :
    ∃ app, load doc = .ok app ∧ Faithful doc app.toValue := by
  obtain ⟨t, rfl⟩ := Shape.exists_table fits
  obtain ⟨document, complete⟩ := isDocument_of_fits fits
  obtain ⟨app, transcribes⟩ := exists_transcribes fits
  refine ⟨app, ?_, transcribes.faithful fits⟩
  show ofValue (.obj t) = .ok app
  rw [ofValue, validate_of_isDocument document, complete]
  exact ofTable_eq_ok.mpr transcribes.decoded

/-- A document with further fields everywhere, and its own fields in no special order. -/
def blueprint : Value := .obj [
  ("theme", .str "dark"),
  ("name", .str "Plan"),
  ("nodes", .list [.obj [("x", .float 1.5), ("y", .int 2), ("type", .str "log"), ("id", .str "n"),
    ("glow", .null), ("properties", .obj [("b", .int 0), ("a", .float 0.0)]), ("dim", .int 1)]]),
  ("layers", .list [.obj [("visible", .bool false), ("lock", .bool true), ("name", .str ""),
    ("id", .str "l")]]),
  ("version", .str "2"),
  ("canvas", .obj [("backgroundColor", .str "red"), ("height", .int 3), ("width", .float 4.0)]),
  ("connections", .list [.obj [("to", .obj [("pinId", .str "in"), ("nodeId", .str "n")]),
    ("bend", .list [.int 1]), ("from", .obj [("nodeId", .str "n"), ("pinId", .str "out")])]]),
  ("pages", .list [.obj [("z", .int 1), ("name", .str "One"), ("a", .int 2), ("id", .str "")]]),
  ("author", .null),
  ("uiComponents", .list [.obj [("style", .obj []), ("layer", .str ""), ("id", .str "c"),
    ("type", .str "button"), ("x", .int 0), ("y", .int 0), ("props", .obj [("t", .bool false)])]]),
  ("id", .str ""),
  ("updatedAt", .int 0),
  ("floatingSize", .obj []),
  ("displayMode", .str "floating")]

theorem load_keeps_document_blueprint : shape.fits blueprint = true
    ∧ ∃ app, load blueprint = .ok app ∧ Faithful blueprint app.toValue := by
  have fits : shape.fits blueprint = true := by decide +kernel
  exact ⟨fits, load_keeps_document fits⟩

end App

end Apps

end Wireboard
