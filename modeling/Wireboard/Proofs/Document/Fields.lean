import Wireboard.Document.Decode
import Wireboard.Document.Encode
import Wireboard.Proofs.Json.Tidy

/-!
# Fields that are decoded a second time

Decoding is forgiving: vacant fields get defaults, values of the wrong kind become texts, and what
is not known goes to the end.  So the table that a record is written to is seldom the one it was
read from.  But it is a fixed point: whatever a field was decoded to decodes to itself.

For the fields one by one this is `textField_again`, `numberField_again` and so on.  A record is
written as its known fields followed by its unknown ones, and `fieldOr_record`,
`unknownFields_record` and `tidy_record` say of such a table what a decoder asks of it.  `Restores`
is the outcome for a whole record.
-/

namespace Wireboard

@[simp] theorem bind_eq_ok {ε α β : Type} {r : Except ε α} {f : α → Except ε β} {b : β} :
    (r >>= f) = .ok b ↔ ∃ a, r = .ok a ∧ f a = .ok b := by
  cases r <;> simp [bind, Except.bind]

/-! ## Texts of values -/

theorem Number.intText_ne_empty (n : Int) : intText n ≠ "" := by
  cases n with
  | ofNat m => simp [intText]
  | negSucc m => simp [intText]

theorem Number.layOut_ne_empty (style : Style) (d : Shortest.Decimal) : layOut style d ≠ "" := by
  unfold layOut exponentText
  dsimp only
  split
  · split <;> simp
  · split
    · simp
    · split <;> simp

theorem Number.signText_ne_empty {text : String} (negative : Bool) (visible : text ≠ "") :
    signText negative text ≠ "" := by
  cases negative <;> simp [signText, visible]

theorem Number.floatText_ne_empty (x : Float) : floatText x ≠ "" := by
  unfold floatText shortestText
  split
  · decide
  · exact signText_ne_empty _ (by decide)
  · split
    · exact signText_ne_empty _ (by decide)
    · exact signText_ne_empty _ (layOut_ne_empty _ _)

variable {v : Value}

/-- Only the empty text is shown as the empty text. -/
theorem Value.plain_eq_empty_iff : v.plain = "" ↔ v = .str "" := by
  cases v with
  | null => simp [plain, shown]
  | bool b => cases b <;> simp [plain, shown]
  | int n => simpa [plain, shown] using Number.intText_ne_empty n
  | float x => simpa [plain, shown] using Number.floatText_ne_empty x
  | nan o => simp [plain, shown, Number.valueEnds]
  | str s => simp [plain]
  | list items => simp [plain, shown]
  | obj fields => simp [plain, shown]

theorem Value.plain_ne_empty (kept : v.isVacant = false) : v.plain ≠ "" := by
  intro none
  rw [plain_eq_empty_iff.mp none] at kept
  cases kept

/-! ## Fields -/

section Fields

variable {t u : Table Value} {name : String}

variable {other s : String}

theorem textField_eq_ok :
    textField t name other = .ok s ↔
      ((fieldOr t name).orElse (.str other)).hasText = true
        ∧ ((fieldOr t name).orElse (.str other)).plain = s := by
  rw [textField, Reach.toPlain_unlimited, Value.toPlain]
  split <;> simp [*]

theorem textField_ne_empty (kept : (fieldOr t name).isVacant = false)
    (ok : textField t name other = .ok s) : s ≠ "" := by
  obtain ⟨-, rfl⟩ := textField_eq_ok.mp ok
  rw [Value.orElse, kept]
  exact Value.plain_ne_empty kept

/-- A field is decoded to the empty text only where this is its default. -/
theorem other_eq_empty_of_textField (ok : textField t name other = .ok "") : other = "" := by
  cases kept : (fieldOr t name).isVacant with
  | true =>
    obtain ⟨-, shown⟩ := textField_eq_ok.mp ok
    simpa [Value.orElse, kept, Value.plain] using shown
  | false => exact (textField_ne_empty kept ok rfl).elim

/-- A text that a field was decoded to decodes to itself. -/
theorem textField_again (ok : textField t name other = .ok s) (field : fieldOr u name = .str s) :
    textField u name other = .ok s := by
  rw [textField_eq_ok, field]
  by_cases empty : s = ""
  · have settled : other = "" := other_eq_empty_of_textField (empty ▸ ok)
    simp [Value.orElse, Value.isVacant, Value.hasText, Value.plain, empty, settled]
  · simp [Value.orElse, Value.isVacant, Value.hasText, Value.plain, empty]

theorem textField?_again {s? : Option String} (field : fieldOr u name = (s?.map .str).getD .null) :
    textField? u name = .ok s? := by
  unfold textField?
  rw [field]
  cases s? <;> rfl

theorem numberField_again {n : Int} (field : fieldOr u name = numberField t name (.int n)) :
    numberField u name (.int n) = numberField t name (.int n) := by
  unfold numberField at field ⊢
  rw [field]
  cases fieldOr t name <;> rfl

theorem tableField_of_obj {fields : Table Value} (field : fieldOr u name = .obj fields) :
    tableField u name = fields := by
  rw [tableField, field]

theorem tidy_fieldOr (tidy : (Value.obj t).Tidy) (name : String) : (fieldOr t name).Tidy := by
  unfold fieldOr
  cases found : t.get? name with
  | none => exact .null
  | some v =>
    obtain ⟨-, each⟩ := Value.tidy_obj_iff.mp tidy
    exact each _ (Table.mem_of_get? found)

theorem tidy_numberField (tidy : (Value.obj t).Tidy) (name : String) {n : Int}
    (small : n.natAbs < 1000) : (numberField t name (.int n)).Tidy := by
  have inside := tidy_fieldOr tidy name
  unfold numberField
  split
  next field => exact field ▸ inside
  next field => exact field ▸ inside
  next field => exact field ▸ inside
  next => exact Value.tidy_int_of_lt_1000 small

theorem tidy_tableField (tidy : (Value.obj t).Tidy) (name : String) :
    (Value.obj (tableField t name)).Tidy := by
  have inside := tidy_fieldOr tidy name
  unfold tableField
  split
  next field => exact field ▸ inside
  next => exact Value.tidy_obj_nil

theorem tidy_optionalText (s? : Option String) : ((s?.map Value.str).getD .null).Tidy := by
  cases s? with
  | none => exact .null
  | some s => exact .str s

theorem Value.Tidy.put {t : Table Value} (tidy : (Value.obj t).Tidy) (name : String)
    (new : v.Tidy) : (Value.obj (t.put name v)).Tidy := by
  obtain ⟨distinct, each⟩ := tidy_obj_iff.mp tidy
  refine .obj (Table.nodup_names_put name v distinct) fun e member => ?_
  rcases Table.mem_put member with old | rfl
  · exact each e old
  · exact new

end Fields

/-! ## Records -/

section Records

variable {base t : Table Value} {known : List String}

/-- The value, if it is not null. -/
def Value.present? (v : Value) : Option Value := if v = .null then none else some v

@[simp] theorem Value.getD_present? (v : Value) : v.present?.getD .null = v := by
  unfold present?
  split
  next absent => exact absent.symm
  next => rfl

@[simp] theorem get?_presentField (name key : String) (v : Value) :
    Table.get? (presentField name v) key = if name = key then v.present? else none := by
  cases v <;> simp [presentField, Table.get?, Value.present?]

@[simp] theorem get?_optionalField (name key : String) (s? : Option String) :
    Table.get? (optionalField name s?) key = if name = key then s?.map .str else none := by
  cases s? <;> simp [optionalField, Table.get?]

@[simp] theorem mem_unknownFields {e : String × Value} :
    e ∈ unknownFields t known ↔ e ∈ t ∧ e.1 ∉ known := by
  simp [unknownFields]

/-- The unknown fields do not hide a known one. -/
theorem get?_record {name : String} (isKnown : name ∈ known) :
    Table.get? (base ++ unknownFields t known) name = base.get? name := by
  have absent : Table.get? (unknownFields t known) name = none := by
    rw [Table.get?_eq_none_iff]
    intro member
    obtain ⟨e, inside, rfl⟩ := List.mem_map.mp member
    exact (mem_unknownFields.mp inside).2 isKnown
  rw [Table.get?_append, absent, Option.or_none]

theorem fieldOr_record {name : String} (isKnown : name ∈ known := by decide) :
    fieldOr (base ++ unknownFields t known) name = fieldOr base name := by
  rw [fieldOr, get?_record isKnown, fieldOr]

/-- The unknown fields are the same ones again, in the same order. -/
theorem unknownFields_record (within : ∀ name ∈ base.names, name ∈ known) :
    unknownFields (base ++ unknownFields t known) known = unknownFields t known := by
  have none : unknownFields base known = [] := by
    refine List.filter_eq_nil_iff.mpr fun e member => ?_
    simpa using within e.1 (List.mem_map.mpr ⟨e, member, rfl⟩)
  have all : unknownFields (unknownFields t known) known = unknownFields t known :=
    List.filter_eq_self.mpr fun e member => (List.mem_filter.mp member).2
  calc unknownFields (base ++ unknownFields t known) known
      = unknownFields base known ++ unknownFields (unknownFields t known) known :=
        List.filter_append ..
    _ = unknownFields t known := by rw [none, all, List.nil_append]

theorem nodup_names_record (others : t.names.Nodup) (distinct : base.names.Nodup)
    (within : ∀ name ∈ base.names, name ∈ known) :
    (Table.names (base ++ unknownFields t known)).Nodup := by
  rw [Table.names, List.map_append, List.nodup_append]
  refine ⟨distinct, others.sublist (List.filter_sublist.map _), ?_⟩
  rintro name first _ second rfl
  obtain ⟨e, inside, rfl⟩ := List.mem_map.mp second
  exact (mem_unknownFields.mp inside).2 (within e.1 first)

/-- Known fields that have every name once and tidy values, followed by the unknown fields of a tidy
table, are a tidy table. -/
theorem tidy_record (tidy : (Value.obj t).Tidy) (distinct : base.names.Nodup)
    (within : ∀ name ∈ base.names, name ∈ known) (each : ∀ e ∈ base, e.2.Tidy) :
    (Value.obj (base ++ unknownFields t known)).Tidy := by
  obtain ⟨others, eachOther⟩ := Value.tidy_obj_iff.mp tidy
  refine .obj (nodup_names_record others distinct within) fun e member => ?_
  rcases List.mem_append.mp member with first | second
  · exact each e first
  · exact eachOther e (mem_unknownFields.mp second).1

/-- The record is written as a tidy object and decodes from it again. -/
def Restores {α : Type} (toValue : α → Value) (decode : Table Value → Except Fault α) (x : α) :
    Prop :=
  ∃ fields, toValue x = .obj fields ∧ decode fields = .ok x ∧ (Value.obj fields).Tidy

/-- A record is restored from its known fields, which are among the given names, and the unknown
fields of the table that it was decoded from. -/
theorem restores_of_record {α : Type} {toValue : α → Value} {decode : Table Value → Except Fault α}
    {x : α} (names : List String) (distinct : names.Nodup) (within : ∀ name ∈ names, name ∈ known)
    (tidy : (Value.obj t).Tidy) (shape : toValue x = .obj (base ++ unknownFields t known))
    (among : base.names.Sublist names) (each : ∀ e ∈ base, e.2.Tidy)
    (decoded : unknownFields (base ++ unknownFields t known) known = unknownFields t known →
      decode (base ++ unknownFields t known) = .ok x) : Restores toValue decode x := by
  have inside : ∀ name ∈ base.names, name ∈ known := fun name member =>
    within name (among.subset member)
  exact ⟨_, shape, decoded (unknownFields_record inside),
    tidy_record tidy (distinct.sublist among) inside each⟩

theorem names_presentField (name : String) (v : Value) :
    (presentField name v).names.Sublist [name] := by
  cases v <;> simp [presentField, Table.names]

theorem names_optionalField (name : String) (s? : Option String) :
    (optionalField name s?).names.Sublist [name] := by
  cases s? <;> simp [optionalField, Table.names]

theorem tidy_presentField (name : String) (tidy : v.Tidy) :
    ∀ e ∈ presentField name v, e.2.Tidy := by
  intro e member
  unfold presentField at member
  split at member
  next => cases member
  next =>
    rw [List.mem_singleton.mp member]
    exact tidy

theorem tidy_optionalField (name : String) (s? : Option String) :
    ∀ e ∈ optionalField name s?, e.2.Tidy := by
  cases s? with
  | none => exact List.forall_mem_nil _
  | some s => exact List.forall_mem_singleton.mpr (.str s)

end Records

/-! ## Lists of records -/

@[simp] theorem members_list (items : List Value) : members (.list items) = .ok items := by
  cases items <;> rfl

theorem tidy_of_members {items : List Value} (tidy : v.Tidy) (ok : members v = .ok items) :
    ∀ w ∈ items, w.Tidy := by
  unfold members at ok
  split at ok
  next =>
    cases ok
    exact List.forall_mem_nil _
  next =>
    split at ok
    next =>
      cases ok
      exact Value.tidy_list_iff.mp tidy
    next =>
      cases ok
      exact List.forall_mem_map.mpr fun e _ => .str e.1
    next =>
      cases ok
      exact List.forall_mem_map.mpr fun c _ => .str _
    next => cases ok

section Lists

variable {α : Type} {decode : Table Value → Except Fault α} {toValue : α → Value} {xs : List α}

theorem exists_of_mapM_eq_ok {l : List (Table Value)} (ok : l.mapM decode = .ok xs) :
    ∀ x ∈ xs, ∃ fields ∈ l, decode fields = .ok x := by
  induction l generalizing xs with
  | nil =>
    cases ok
    exact List.forall_mem_nil _
  | cons fields l ih =>
    rw [List.mapM_cons, bind_eq_ok] at ok
    obtain ⟨y, first, ok⟩ := ok
    obtain ⟨ys, others, ok⟩ := bind_eq_ok.mp ok
    cases ok
    refine List.forall_mem_cons.mpr ⟨⟨fields, List.mem_cons_self, first⟩, fun x member => ?_⟩
    obtain ⟨later, inside, decoded⟩ := ih others x member
    exact ⟨later, List.mem_cons_of_mem _ inside, decoded⟩

/-- The records in a field of a tidy table are restored, if those of tidy objects are. -/
theorem restores_of_recordsField {t : Table Value} {name : String} (tidy : (Value.obj t).Tidy)
    (record : ∀ {fields x}, (Value.obj fields).Tidy → decode fields = .ok x →
      Restores toValue decode x)
    (ok : recordsField t name decode = .ok xs) : ∀ x ∈ xs, Restores toValue decode x := by
  obtain ⟨items, found, ok⟩ := bind_eq_ok.mp ok
  intro x member
  obtain ⟨fields, inside, decoded⟩ := exists_of_mapM_eq_ok ok x member
  obtain ⟨v, item, isObject⟩ := List.mem_filterMap.mp inside
  refine record ?_ decoded
  split at isObject
  next =>
    cases isObject
    exact tidy_of_members (tidy_fieldOr tidy name) found _ item
  next => cases isObject

/-- A list of records decodes again, if each of them does. -/
theorem recordsField_of_restores {u : Table Value} {name : String}
    (each : ∀ x ∈ xs, Restores toValue decode x) (field : fieldOr u name = .list (xs.map toValue)) :
    recordsField u name decode = .ok xs := by
  unfold recordsField
  rw [field, members_list]
  refine bind_eq_ok.mpr ⟨_, rfl, ?_⟩
  clear field
  induction xs with
  | nil => rfl
  | cons x xs ih =>
    obtain ⟨⟨fields, shape, decoded, -⟩, others⟩ := List.forall_mem_cons.mp each
    rw [List.map_cons, List.filterMap_cons, shape, List.mapM_cons, decoded]
    exact bind_eq_ok.mpr ⟨x, rfl, bind_eq_ok.mpr ⟨xs, ih others, rfl⟩⟩

theorem tidy_list_of_restores (each : ∀ x ∈ xs, Restores toValue decode x) :
    (Value.list (xs.map toValue)).Tidy := by
  refine .list (List.forall_mem_map.mpr fun x member => ?_)
  obtain ⟨fields, shape, -, tidy⟩ := each x member
  exact shape ▸ tidy

end Lists

end Wireboard
