import Mathlib.Tactic.MkIffOfInductiveProp
import Wireboard.Proofs.Document.RoundTrip

/-!
# What becomes of a document

A document that has the wrong shape should be refused, and with a cause that says so.  But only four
fields are checked, and the decoder goes on to read many more.  It is forgiving about nearly all of
them.  There are three things that it cannot do: to go through the members of something that has
none, where pages and layers are expected, to find a text for a value with too long a whole number
in it, and to go further down into a value than there is room for.  None of them is told as a fault
of the document.

`App.load_outcome` says exactly when loading ends in which of the three ways.  It comes from what
each decoder needs to succeed and what else it may fail with (`Hinges`), one bind after the other.
-/

namespace Wireboard

variable {α β : Type} {t : Table Value} {name : String}

/-! ## Success and failure -/

/-- There is a result. -/
def Succeeds (r : Except Fault α) : Prop := ∃ a, r = .ok a

/-- Whatever the attempt fails with is of this sort. -/
def FailsOnly (P : Fault → Prop) (r : Except Fault α) : Prop := ∀ f, r = .error f → P f

theorem succeeds_ok (a : α) : Succeeds (.ok a : Except Fault α) := ⟨a, rfl⟩

theorem not_succeeds_error (f : Fault) : ¬ Succeeds (.error f : Except Fault α) := by
  rintro ⟨a, ok⟩
  cases ok

variable {r : Except Fault α} {f : α → Except Fault β}

/-- The second part succeeds under a condition that does not depend on the first. -/
theorem succeeds_bind_iff {C : Prop} (next : ∀ a, Succeeds (f a) ↔ C) :
    Succeeds (r >>= f) ↔ Succeeds r ∧ C := by
  cases r with
  | error e => simp [Succeeds, bind, Except.bind]
  | ok a => simpa [Succeeds, bind, Except.bind] using next a

theorem succeeds_mapM_iff {l : List α} : Succeeds (l.mapM f) ↔ ∀ x ∈ l, Succeeds (f x) := by
  induction l with
  | nil => exact iff_of_true (succeeds_ok []) (List.forall_mem_nil _)
  | cons x l ih =>
    have rest (y : β) : Succeeds (l.mapM f >>= fun ys => pure (y :: ys)) ↔ Succeeds (l.mapM f) := by
      refine (succeeds_bind_iff (C := True) fun ys => ?_).trans (and_iff_left trivial)
      exact iff_true_intro (succeeds_ok (y :: ys))
    rw [List.mapM_cons, succeeds_bind_iff rest, ih, List.forall_mem_cons]

variable {P : Fault → Prop}

theorem failsOnly_ok (a : α) : FailsOnly P (.ok a : Except Fault α) := by
  intro f failed
  cases failed

theorem FailsOnly.mono {Q : Fault → Prop} (fails : FailsOnly P r) (weaker : ∀ f, P f → Q f) :
    FailsOnly Q r :=
  fun f failed => weaker f (fails f failed)

theorem FailsOnly.bind (first : FailsOnly P r) (second : ∀ a, FailsOnly P (f a)) :
    FailsOnly P (r >>= f) := by
  cases r with
  | error e =>
    intro f failed
    cases failed
    exact first e rfl
  | ok a => exact second a

theorem FailsOnly.mapM {l : List α} (each : ∀ x ∈ l, FailsOnly P (f x)) :
    FailsOnly P (l.mapM f) := by
  induction l with
  | nil => exact failsOnly_ok _
  | cons x l ih =>
    obtain ⟨first, others⟩ := List.forall_mem_cons.mp each
    rw [List.mapM_cons]
    exact first.bind fun y => (ih others).bind fun ys => failsOnly_ok _

/-! ## Fields -/

variable {v : Value}

theorem Value.hasText_of_isVacant (vacant : v.isVacant = true) : v.hasText = true := by
  cases v with
  | int n =>
    have zero : n = 0 := by simpa [isVacant] using vacant
    rw [zero]
    exact (tidy_int_of_lt_1000 (by decide)).hasText
  | list items =>
    have empty : items = [] := by simpa [isVacant] using vacant
    rw [empty]
    rfl
  | obj fields =>
    have empty : fields = [] := by simpa [isVacant] using vacant
    rw [empty]
    rfl
  | _ => rfl

@[simp] theorem Value.hasText_orElse (v : Value) (other : String) :
    (v.orElse (.str other)).hasText = v.hasText := by
  unfold orElse
  split
  next vacant => exact (hasText_of_isVacant vacant).symm
  next => rfl

theorem Value.isFlat_of_isVacant (vacant : v.isVacant = true) : v.isFlat = true := by
  cases v with
  | list items => exact vacant
  | obj fields => exact vacant
  | _ => rfl

@[simp] theorem succeeds_toPlain_iff : Succeeds v.toPlain ↔ v.hasText = true := by
  unfold Value.toPlain
  split
  next long => exact iff_of_true (succeeds_ok _) long
  next short => exact iff_of_false (not_succeeds_error _) short

theorem failsOnly_toPlain (v : Value) : FailsOnly (· = .tooLongToWrite) v.toPlain := by
  unfold Value.toPlain
  split
  next => exact failsOnly_ok _
  next =>
    intro f failed
    cases failed
    rfl

/-- The value has a text, and it can be shown. -/
structure Reach.Renders (reach : Reach) (v : Value) : Prop where
  hasText : v.hasText = true
  shows : reach.shows v = true

variable {reach : Reach}

theorem Reach.renders_of_isVacant (vacant : v.isVacant = true) : reach.Renders v where
  hasText := Value.hasText_of_isVacant vacant
  shows := reach.shows_flat v (Value.isFlat_of_isVacant vacant)

theorem Reach.renders_str (reach : Reach) (s : String) : reach.Renders (.str s) where
  hasText := rfl
  shows := reach.shows_flat _ rfl

@[simp] theorem Reach.renders_orElse_iff {other : String} :
    reach.Renders (v.orElse (.str other)) ↔ reach.Renders v := by
  unfold Value.orElse
  split
  next vacant => exact iff_of_true (reach.renders_str other) (renders_of_isVacant vacant)
  next => rfl

/-! ## Members -/

/-- The value has members to go through, or is vacant and counts as empty. -/
def Value.isEnumerable : Value → Bool
  | .bool b => !b
  | .int n => n == 0
  | .float x => x == 0.0
  | .nan _ => false
  | .null | .str _ | .list _ | .obj _ => true

/-- The fields of an object; any other value has none. -/
def Value.fields? : Value → Option (Table Value)
  | .obj fields => some fields
  | _ => none

/-- The objects in a list; any other value has none. -/
def Value.records : Value → List (Table Value)
  | .list items => items.filterMap fields?
  | _ => []

theorem members_of_isEnumerable (enumerable : v.isEnumerable = true) :
    ∃ items, members v = .ok items ∧ items.filterMap Value.fields? = v.records := by
  cases v with
  | null => exact ⟨[], rfl, rfl⟩
  | bool b =>
    cases b with
    | false => exact ⟨[], rfl, rfl⟩
    | true => cases enumerable
  | int n => exact ⟨[], if_pos enumerable, rfl⟩
  | float x => exact ⟨[], if_pos enumerable, rfl⟩
  | nan o => cases enumerable
  | str s =>
    by_cases empty : s = ""
    · rw [empty]
      exact ⟨[], rfl, rfl⟩
    · refine ⟨s.toList.map fun c => .str (String.ofList [c]), ?_, ?_⟩
      · rw [members, if_neg (by simpa [Value.isVacant] using empty)]
      · rw [List.filterMap_map]
        exact List.filterMap_eq_nil_iff.mpr fun _ _ => rfl
  | list items => exact ⟨items, members_list items, rfl⟩
  | obj fields =>
    refine ⟨fields.map fun e => .str e.1, ?_, ?_⟩
    · cases fields <;> rfl
    · rw [List.filterMap_map]
      exact List.filterMap_eq_nil_iff.mpr fun _ _ => rfl

theorem members_of_not_isEnumerable (single : v.isEnumerable = false) :
    members v = .error (.notIterable v.kindName) := by
  cases v with
  | bool b =>
    cases b with
    | false => cases single
    | true => rfl
  | int n => exact if_neg (Bool.not_eq_true _ ▸ single)
  | float x => exact if_neg (Bool.not_eq_true _ ▸ single)
  | nan o => rfl
  | null | str | list | obj => cases single

theorem tidy_of_mem_records (tidy : v.Tidy) {fields : Table Value} (member : fields ∈ v.records) :
    (Value.obj fields).Tidy := by
  cases v with
  | list items =>
    obtain ⟨item, inside, isObject⟩ := List.mem_filterMap.mp member
    have same : item = .obj fields := by
      cases item with
      | obj own =>
        cases isObject
        rfl
      | _ => cases isObject
    exact same ▸ Value.tidy_list_iff.mp tidy item inside
  | _ => cases member

/-! ## What a decoder needs -/

/-- The fault says that one cannot go on: there are no members, or no room for them. -/
def Fault.isStuck : Fault → Bool
  | .tooDeep _ | .notIterable _ => true
  | _ => false

/-- The attempt to decode something succeeds exactly under the condition.  Otherwise it is stuck, or
it meets a number that is too long for a text, as none in a tidy value is. -/
structure Hinges (source : Value) (r : Except Fault α) (C : Prop) : Prop where
  succeeds : Succeeds r ↔ C
  fails : FailsOnly (fun f => f.isStuck = true ∨ f = .tooLongToWrite ∧ ¬ source.Tidy) r

namespace Hinges

variable {source : Value} {C D : Prop}

theorem ok (a : α) : Hinges source (.ok a) True where
  succeeds := iff_true_intro (succeeds_ok a)
  fails := failsOnly_ok a

theorem stuck {f : Fault} (isStuck : f.isStuck = true) (no : ¬ C) :
    Hinges source (.error f : Except Fault α) C where
  succeeds := iff_of_false (not_succeeds_error f) no
  fails := by
    rintro _ ⟨⟩
    exact .inl isStuck

theorem bind (first : Hinges source r C) (second : ∀ a, Hinges source (f a) D) :
    Hinges source (r >>= f) (C ∧ D) where
  succeeds := (succeeds_bind_iff fun a => (second a).succeeds).trans
    (and_congr_left' first.succeeds)
  fails := first.fails.bind fun a => (second a).fails

theorem bind_of_ok {a : α} (first : r = .ok a) (second : Hinges source (f a) D) :
    Hinges source (r >>= f) D :=
  first ▸ second

theorem map {g : α → β} (first : Hinges source r C) : Hinges source (r.map g) C := by
  cases r with
  | ok a => exact ⟨(iff_of_true (succeeds_ok _) (succeeds_ok a)).trans first.succeeds,
      failsOnly_ok _⟩
  | error f =>
    refine ⟨(iff_of_false (not_succeeds_error _) (not_succeeds_error f)).trans first.succeeds, ?_⟩
    rintro _ ⟨⟩
    exact first.fails f rfl

theorem congr (hinges : Hinges source r C) (same : C ↔ D) : Hinges source r D where
  succeeds := hinges.succeeds.trans same
  fails := hinges.fails

/-- What is inside something tidy is tidy. -/
theorem of_inside {inner : Value} (hinges : Hinges inner r C) (tidy : source.Tidy → inner.Tidy) :
    Hinges source r C where
  succeeds := hinges.succeeds
  fails := hinges.fails.mono fun _ fault => fault.imp_right fun ⟨long, untidy⟩ =>
    ⟨long, fun whole => untidy (tidy whole)⟩

theorem mapM {l : List α} {needs : α → Prop} (each : ∀ x ∈ l, Hinges source (f x) (needs x)) :
    Hinges source (l.mapM f) (∀ x ∈ l, needs x) where
  succeeds := succeeds_mapM_iff.trans
    (forall_congr' fun x => forall_congr' fun member => (each x member).succeeds)
  fails := .mapM fun x member => (each x member).fails

theorem toPlain (reach : Reach) (v : Value) : Hinges v (reach.toPlain v) (reach.Renders v) := by
  unfold Reach.toPlain
  split
  next shows =>
    refine ⟨succeeds_toPlain_iff.trans ⟨fun text => ⟨text, shows⟩, Reach.Renders.hasText⟩, ?_⟩
    intro f failed
    refine .inr ⟨failsOnly_toPlain v f failed, fun tidy => ?_⟩
    obtain ⟨text, found⟩ := succeeds_toPlain_iff.mpr tidy.hasText
    rw [found] at failed
    cases failed
  next deep => exact stuck rfl fun renders => deep renders.shows

theorem textField (reach : Reach) (t : Table Value) (name other : String) :
    Hinges (.obj t) (textField t name other reach) (reach.Renders (fieldOr t name)) := by
  refine ((toPlain reach _).of_inside fun tidy => ?_).congr Reach.renders_orElse_iff
  unfold Value.orElse
  split
  next => exact .str other
  next => exact tidy_fieldOr tidy name

theorem textField? (reach : Reach) (t : Table Value) (name : String) :
    Hinges (.obj t) (textField? t name reach) (reach.Renders (fieldOr t name)) := by
  unfold Wireboard.textField?
  split
  next null =>
    rw [null]
    exact (ok none).congr (iff_of_true trivial (Reach.renders_of_isVacant rfl))
  next => exact ((toPlain reach _).of_inside fun tidy => tidy_fieldOr tidy name).map

theorem copy (fields : Table Value) :
    Hinges source (reach.copy fields) (reach.copies (.obj fields) = true) := by
  unfold Reach.copy
  split
  next copies => exact (ok fields).congr (iff_of_true trivial copies)
  next deep => exact stuck rfl deep

theorem copyEach (fields : Table Value) :
    Hinges source (reach.copyEach fields) (∀ e ∈ fields, reach.copies e.2 = true) := by
  unfold Reach.copyEach
  split
  next copies => exact (ok fields).congr (iff_of_true trivial (List.all_eq_true.mp copies))
  next deep => exact stuck rfl fun each => deep (List.all_eq_true.mpr each)

theorem recordsField {decode : Table Value → Except Fault α} {needs : Table Value → Prop}
    (each : ∀ fields, Hinges (.obj fields) (decode fields) (needs fields)) :
    Hinges (.obj t) (recordsField t name decode)
      ((fieldOr t name).isEnumerable = true
        ∧ ∀ fields ∈ (fieldOr t name).records, needs fields) := by
  have shape : Wireboard.recordsField t name decode = Wireboard.members (fieldOr t name) >>=
      fun items => (items.filterMap Value.fields?).mapM decode := rfl
  rw [shape]
  cases enumerable : (fieldOr t name).isEnumerable with
  | false =>
    rw [members_of_not_isEnumerable enumerable]
    exact stuck rfl fun both => Bool.false_ne_true both.1
  | true =>
    obtain ⟨items, found, records⟩ := members_of_isEnumerable enumerable
    rw [found, ← records]
    refine Hinges.congr (mapM fun fields member => ?_) (and_iff_right rfl).symm
    exact (each fields).of_inside fun tidy =>
      tidy_of_mem_records (tidy_fieldOr tidy name) (records ▸ member)

end Hinges

/-! ## Records -/

/-- What a decoder does with the fields of a record: it shows some, copies some that are objects,
and copies those that it does not know. -/
structure RecordPlan where
  texts : List String
  tables : List String
  known : List String

/-- The decoder gets through the record. -/
@[mk_iff]
structure RecordPlan.Suits (plan : RecordPlan) (reach : Reach) (t : Table Value) : Prop where
  texts : ∀ name ∈ plan.texts, reach.Renders (fieldOr t name)
  tables : ∀ name ∈ plan.tables, reach.copies (.obj (tableField t name)) = true
  others : ∀ e ∈ unknownFields t plan.known, reach.copies e.2 = true

def Page.plan : RecordPlan where
  texts := ["id", "name"]
  tables := []
  known := ["id", "name"]

def Layer.plan : RecordPlan where
  texts := ["id", "name"]
  tables := []
  known := ["id", "name", "visible"]

def Component.plan : RecordPlan where
  texts := ["id", "type", "pageId", "layer"]
  tables := ["props", "style"]
  known := ["id", "type", "props", "style", "x", "y", "pageId", "layer"]

def Node.plan : RecordPlan where
  texts := ["id", "type", "layer"]
  tables := ["properties"]
  known := ["id", "type", "x", "y", "properties", "layer"]

namespace Hinges

theorem page (t : Table Value) :
    Hinges (.obj t) (Page.ofTable t reach) (Page.plan.Suits reach t) := by
  refine congr (bind (textField reach t "id" _) fun _ => bind (textField reach t "name" _) fun _ =>
    bind (copyEach _) fun _ => ok _) ?_
  simp [RecordPlan.suits_iff, Page.plan, and_assoc]

theorem layer (t : Table Value) :
    Hinges (.obj t) (Layer.ofTable t reach) (Layer.plan.Suits reach t) := by
  refine congr (bind (textField reach t "id" _) fun _ => bind (textField reach t "name" _) fun _ =>
    bind (copyEach _) fun _ => ok _) ?_
  simp [RecordPlan.suits_iff, Layer.plan, and_assoc]

theorem component (t : Table Value) :
    Hinges (.obj t) (Component.ofTable t reach) (Component.plan.Suits reach t) := by
  refine congr (bind (textField reach t "id" _) fun _ => bind (textField reach t "type" _) fun _ =>
    bind (copy _) fun _ => bind (copy _) fun _ => bind (textField? reach t "pageId") fun _ =>
    bind (textField? reach t "layer") fun _ => bind (copyEach _) fun _ => ok _) ?_
  simp only [RecordPlan.suits_iff, Component.plan, List.forall_mem_cons, List.not_mem_nil]
  tauto

theorem node (t : Table Value) :
    Hinges (.obj t) (Node.ofTable t reach) (Node.plan.Suits reach t) := by
  refine congr (bind (textField reach t "id" _) fun _ => bind (textField reach t "type" _) fun _ =>
    bind (copy _) fun _ => bind (textField? reach t "layer") fun _ =>
    bind (copyEach _) fun _ => ok _) ?_
  simp only [RecordPlan.suits_iff, Node.plan, List.forall_mem_cons, List.not_mem_nil]
  tauto

theorem canvas (v : Value) : Hinges v (Canvas.ofValue v reach)
    (∀ fields, v = .obj fields → reach.Renders (fieldOr fields "backgroundColor")) := by
  cases v with
  | obj fields =>
    refine congr (bind (textField reach fields "backgroundColor" _) fun _ => ok _) ?_
    simp
  | _ =>
    refine congr (bind ((textField reach [] "backgroundColor" _).of_inside fun _ => ?_)
      fun _ => ok _) ?_
    · exact Value.tidy_obj_iff.mpr ⟨List.nodup_nil, List.forall_mem_nil _⟩
    · exact iff_of_true ⟨Reach.renders_of_isVacant rfl, trivial⟩ fun fields other => by cases other

theorem wires (items : List Value) : Hinges (.obj t) (wiresOf items reach)
    (∀ w ∈ items.filterMap Wire.ofValue?, ∀ e ∈ w.extra, reach.copies e.2 = true) :=
  mapM fun w _ => congr (bind (copyEach w.extra) fun _ => ok _) (and_iff_left trivial)

theorem size (v : Value) : Hinges source (App.sizeOf? v reach)
    (∀ fields, v = .obj fields → reach.copies (.obj fields) = true) := by
  cases v with
  | obj fields =>
    refine congr (copy fields).map ?_
    simp
  | _ => exact congr (ok none) (iff_of_true trivial fun fields other => by cases other)

end Hinges

namespace App

/-! ## Documents -/

/-- The table has the four fields that are checked: a name and three lists. -/
structure IsDocument (t : Table Value) : Prop where
  named : isName (fieldOr t "name") = true
  lists : ∀ key ∈ requiredLists, isList (fieldOr t key) = true

/-- The lists of records, with what is done with each record. -/
def recordPlans : List (String × RecordPlan) :=
  [("pages", Page.plan), ("layers", Layer.plan), ("uiComponents", Component.plan),
    ("nodes", Node.plan)]

/-- The wires in a list; any other value has none. -/
def wiresIn : Value → List Wire
  | .list items => items.filterMap Wire.ofValue?
  | _ => []

/-- The decoder gets through the fields that are not checked. -/
@[mk_iff]
structure Decodable (reach : Reach) (t : Table Value) : Prop where
  pages : (fieldOr t "pages").isEnumerable = true
  layers : (fieldOr t "layers").isEnumerable = true
  texts : ∀ name ∈ ["id", "version", "displayMode"], reach.Renders (fieldOr t name)
  canvas : ∀ fields, fieldOr t "canvas" = .obj fields →
    reach.Renders (fieldOr fields "backgroundColor")
  records : ∀ kind ∈ recordPlans, ∀ fields ∈ (fieldOr t kind.1).records, kind.2.Suits reach fields
  wires : ∀ w ∈ wiresIn (fieldOr t "connections"), ∀ e ∈ w.extra, reach.copies e.2 = true
  size : ∀ fields, fieldOr t "floatingSize" = .obj fields → reach.copies (.obj fields) = true
  others : ∀ e ∈ unknownFields t knownFields, reach.copies e.2 = true

theorem isEnumerable_of_isList (list : isList v = true) : v.isEnumerable = true := by
  cases v with
  | list items => rfl
  | _ => cases list

theorem renders_of_isName (named : isName v = true) : reach.Renders v := by
  cases v with
  | str s => exact reach.renders_str s
  | _ => cases named

theorem eq_list_of_isList (list : isList v = true) : ∃ items, v = .list items := by
  cases v with
  | list items => exact ⟨items, rfl⟩
  | _ => cases list

theorem hinges_ofTable (document : IsDocument t) :
    Hinges (.obj t) (ofTable t reach) (Decodable reach t) := by
  have lists := document.lists
  simp only [requiredLists, List.forall_mem_cons] at lists
  obtain ⟨components, nodes, connections, -⟩ := lists
  obtain ⟨items, isList⟩ := eq_list_of_isList connections
  refine .congr (.bind (.recordsField .page) fun _ => .bind (.recordsField .layer) fun _ =>
    .bind (.recordsField .component) fun _ => .bind (.recordsField .node) fun _ =>
    .bind_of_ok (isList ▸ members_list items) <| .bind (.wires items) fun _ =>
    .bind (.textField reach t "id" _) fun _ => .bind (.textField reach t "name" _) fun _ =>
    .bind (.textField reach t "version" _) fun _ =>
    .bind (.textField reach t "displayMode" _) fun _ =>
    .bind (.of_inside (.canvas _) fun tidy => tidy_fieldOr tidy "canvas") fun _ =>
    .bind (.size _) fun _ => .bind (.copyEach _) fun _ => .ok _) ?_
  have name : reach.Renders (fieldOr t "name") := renders_of_isName document.named
  simp only [decodable_iff, recordPlans, List.forall_mem_cons, List.not_mem_nil, isList, wiresIn,
    isEnumerable_of_isList components, isEnumerable_of_isList nodes]
  tauto

theorem isDocument_withDisplayMode (document : IsDocument t) : IsDocument (withDisplayMode t) where
  named := fieldOr_withDisplayMode t (by decide : "name" ≠ "displayMode") ▸ document.named
  lists key member := by
    have other : ∀ key ∈ requiredLists, key ≠ "displayMode" := by decide
    rw [fieldOr_withDisplayMode t (other key member)]
    exact document.lists key member

@[simp] theorem renders_withDisplayMode_iff (name : String) :
    reach.Renders (fieldOr (withDisplayMode t) name) ↔ reach.Renders (fieldOr t name) := by
  unfold withDisplayMode
  split
  next vacant =>
    by_cases same : "displayMode" = name
    · subst same
      rw [fieldOr, Table.get?_put, if_pos rfl]
      exact iff_of_true (reach.renders_str _) (Reach.renders_of_isVacant vacant)
    · simp [fieldOr, same]
  next => rfl

@[simp] theorem unknownFields_withDisplayMode (t : Table Value) :
    unknownFields (withDisplayMode t) knownFields = unknownFields t knownFields := by
  unfold withDisplayMode
  split
  next =>
    exact Table.filter_put (fun name => !knownFields.contains name) t "displayMode" _
  next => rfl

theorem decodable_withDisplayMode_iff :
    Decodable reach (withDisplayMode t) ↔ Decodable reach t := by
  simp [decodable_iff, recordPlans, fieldOr_withDisplayMode]

/-! ## Loading -/

theorem validate_of_isDocument (document : IsDocument t) :
    validate (.obj t) = .ok (withDisplayMode t) := by
  have lists : requiredLists.find? (fun key => !isList (fieldOr t key)) = none :=
    List.find?_eq_none.mpr fun key member => by simp [document.lists key member]
  rw [validate, document.named, lists]
  rfl

theorem exists_cause_of_no_document (none : ∀ t, v = .obj t → ¬ IsDocument t) :
    ∃ cause, validate v = .error (.format cause) := by
  unfold validate
  split
  next fields =>
    split
    next => exact ⟨_, rfl⟩
    next named =>
      split
      next => exact ⟨_, rfl⟩
      next lists =>
        refine absurd ⟨by simpa using named, fun key member => ?_⟩ (none fields rfl)
        simpa using List.find?_eq_none.mp lists key member
  next => exact ⟨_, rfl⟩

/-- What becomes of a document hinges on the fields that are not checked. -/
theorem hinges_ofValue (reach : Reach) (document : IsDocument t) :
    Hinges (.obj t) (ofValue (.obj t) reach) (Decodable reach t) := by
  refine .bind_of_ok (validate_of_isDocument document) ?_
  exact .of_inside (.congr (hinges_ofTable (isDocument_withDisplayMode document))
    decodable_withDisplayMode_iff) tidy_withDisplayMode

theorem ofValue_of_no_document (reach : Reach) (none : ∀ t, v = .obj t → ¬ IsDocument t) :
    ∃ cause, ofValue v reach = .error (.format cause) := by
  obtain ⟨cause, refused⟩ := exists_cause_of_no_document none
  rw [ofValue, refused]
  exact ⟨cause, rfl⟩

/-- The value that there is to decode: what a text says, or else the value itself. -/
def Denotes (reach : Reach) (v w : Value) : Prop :=
  match v with
  | .str text => Json.read text reach.reading = .ok w
  | v => w = v

theorem load_of_denotes {w : Value} (denotes : Denotes reach v w) :
    load v reach = ofValue w reach := by
  cases v with
  | str text =>
    rw [load, ofText, denotes]
    rfl
  | _ =>
    cases denotes
    rfl

/-- A text that says nothing has trouble or too long a number in it, or is nested too deeply. -/
theorem denotes_or_stops (reach : Reach) (v : Value) :
    (∃ w, Denotes reach v w)
      ∨ (∃ text trouble, v = .str text ∧ Json.read text reach.reading = .error (.json trouble))
      ∨ (∃ text digits, v = .str text
          ∧ Json.read text reach.reading = .error (.tooLongToRead digits))
      ∨ ∃ text task, v = .str text ∧ Json.read text reach.reading = .error (.tooDeep task) := by
  cases v with
  | str text =>
    cases found : Json.readText text.toList reach.reading with
    | ok w => exact .inl ⟨w, congrArg (Except.mapError _) found⟩
    | error halt =>
      have stopped : Json.read text reach.reading = .error (halt.toFault text.toList) :=
        congrArg (Except.mapError _) found
      cases halt with
      | trouble reason left => exact .inr (.inl ⟨text, _, rfl, stopped⟩)
      | tooLong digits => exact .inr (.inr (.inl ⟨text, digits, rfl, stopped⟩))
      | tooDeep task => exact .inr (.inr (.inr ⟨text, task, rfl, stopped⟩))
  | _ => exact .inl ⟨_, rfl⟩

/-- The fault does not say that a document is refused, but a document may lead to it. -/
def strays : Fault → Bool
  | .tooLongToRead _ | .tooLongToWrite => true
  | f => f.isStuck

theorem strays_of_isStuck {f : Fault} (stuck : f.isStuck = true) : strays f = true := by
  cases f <;> first | rfl | cases stuck

theorem ofValue_of_not_decodable (document : IsDocument t) (stuck : ¬ Decodable reach t) :
    ∃ f, ofValue (.obj t) reach = .error f ∧ strays f = true := by
  have hinges := hinges_ofValue reach document
  cases decoded : ofValue (.obj t) reach with
  | ok app => exact absurd (hinges.succeeds.mp ⟨app, decoded⟩) stuck
  | error f =>
    refine ⟨f, rfl, ?_⟩
    rcases hinges.fails f decoded with isStuck | ⟨rfl, -⟩
    · exact strays_of_isStuck isStuck
    · rfl

-- Three conditions that leave nothing out are sharp if their consequences exclude each other.
theorem iff_of_exclusive {A B C P Q R : Prop} (cover : P ∨ Q ∨ R) (first : P → A) (second : Q → B)
    (third : R → C) (notB : A → ¬ B) (notC : A → ¬ C) (neither : B → ¬ C) :
    (A ↔ P) ∧ (B ↔ Q) ∧ (C ↔ R) := by
  grind

/-- Whatever is loaded, there are three outcomes, and each is known beforehand.  An app is loaded
exactly if the value is a document, or a text that says one, and the decoder gets through it.  It is
refused with a cause exactly if the text is no JSON, or if what it says is no document.  And a text
with too long a number or nested too deeply, or a document that the decoder does not get through,
ends in a fault that has nothing to do with documents. -/
theorem load_outcome (reach : Reach) (v : Value) :
    ((∃ app, load v reach = .ok app) ↔
        ∃ t, Denotes reach v (.obj t) ∧ IsDocument t ∧ Decodable reach t)
      ∧ ((∃ cause, load v reach = .error (.format cause)) ↔
        (∃ text trouble, v = .str text ∧ Json.read text reach.reading = .error (.json trouble))
          ∨ ∃ w, Denotes reach v w ∧ ∀ t, w = .obj t → ¬ IsDocument t)
      ∧ ((∃ f, load v reach = .error f ∧ strays f = true) ↔
        (∃ text digits, v = .str text
            ∧ Json.read text reach.reading = .error (.tooLongToRead digits))
          ∨ (∃ text task, v = .str text ∧ Json.read text reach.reading = .error (.tooDeep task))
          ∨ ∃ t, Denotes reach v (.obj t) ∧ IsDocument t ∧ ¬ Decodable reach t) := by
  refine iff_of_exclusive ?_ ?_ ?_ ?_ ?_ ?_ ?_
  · rcases denotes_or_stops reach v with ⟨w, denotes⟩ | trouble | long | deep
    · by_cases document : ∃ t, w = .obj t ∧ IsDocument t
      · obtain ⟨t, rfl, document⟩ := document
        by_cases decodable : Decodable reach t
        · exact .inl ⟨t, denotes, document, decodable⟩
        · exact .inr (.inr (.inr (.inr ⟨t, denotes, document, decodable⟩)))
      · exact .inr (.inl (.inr ⟨w, denotes, fun t isObject document' =>
          document ⟨t, isObject, document'⟩⟩))
    · exact .inr (.inl (.inl trouble))
    · exact .inr (.inr (.inl long))
    · exact .inr (.inr (.inr (.inl deep)))
  · rintro ⟨t, denotes, document, decodable⟩
    rw [load_of_denotes denotes]
    exact (hinges_ofValue reach document).succeeds.mpr decodable
  · rintro (⟨text, trouble, rfl, stopped⟩ | ⟨w, denotes, none⟩)
    · rw [load, ofText, stopped]
      exact ⟨_, rfl⟩
    · rw [load_of_denotes denotes]
      exact ofValue_of_no_document reach none
  · rintro (⟨text, digits, rfl, stopped⟩ | ⟨text, task, rfl, stopped⟩
      | ⟨t, denotes, document, stuck⟩)
    · rw [load, ofText, stopped]
      exact ⟨_, rfl, rfl⟩
    · rw [load, ofText, stopped]
      exact ⟨_, rfl, rfl⟩
    · rw [load_of_denotes denotes]
      exact ofValue_of_not_decodable document stuck
  · rintro ⟨app, ok⟩ ⟨cause, refused⟩
    rw [ok] at refused
    cases refused
  · rintro ⟨app, ok⟩ ⟨f, failed, -⟩
    rw [ok] at failed
    cases failed
  · rintro ⟨cause, refused⟩ ⟨f, failed, stray⟩
    rw [refused] at failed
    cases failed
    cases stray

-- The three lists are there, but the pages are a number.
example : load (.obj [("name", .str "Sketch"), ("uiComponents", .list []), ("nodes", .list []),
    ("connections", .list []), ("pages", .int 5)]) = .error (.notIterable "int") := by rfl

end App

end Wireboard
