import Wireboard.Proofs.Store.Texts
import Wireboard.Store.KeyValue

/-!
# A store in a file answers like a store in memory

Whoever files texts under texts cannot tell a store in a file from a store in memory by what it
answers, except that the file is still there when the store is opened again
(`file_refines_memory`).

The invariant is `Mirrors`: the entries that are read from the file are those that the dictionary
has, whatever is asked for.  A file that the store itself has written reads back as the entries it
was written for (`exists_file_of_entries`), and each operation goes from mirror to mirror.
-/

namespace Wireboard.Store

namespace File

/-! ## Files of entries -/

@[simp] theorem fieldsOf_put (t : Table String) (name s : String) :
    fieldsOf (t.put name s) = (fieldsOf t).put name (.str s) :=
  (Table.put_map (g := id) (fun same => same) Value.str t name s).symm

@[simp] theorem textFields_fieldsOf (t : Table String) : textFields (.obj (fieldsOf t)) = t := by
  rw [textFields, fieldsOf, List.filterMap_map]
  exact List.filterMap_some

@[simp] theorem names_fieldsOf (t : Table String) : (fieldsOf t).names = t.names := by
  simp [fieldsOf, Table.names]

/-- Entries that a file can hold: every name once, and room for all the texts. -/
structure Storable (t : Table String) : Prop where
  distinct : t.names.Nodup
  whole : ∀ e ∈ t, Text.Whole e.1 ∧ Text.Whole e.2

theorem Storable.put {t : Table String} (storable : Storable t) {name s : String}
    (wholeName : Text.Whole name) (wholeText : Text.Whole s) : Storable (t.put name s) where
  distinct := Table.nodup_names_put name s storable.distinct
  whole e member := by
    rcases Table.mem_put member with old | rfl
    · exact storable.whole e old
    · exact ⟨wholeName, wholeText⟩

theorem Storable.erase {t : Table String} (storable : Storable t) (name : String) :
    Storable (t.erase name) where
  distinct := storable.distinct.sublist (List.filter_sublist.map _)
  whole e member := storable.whole e (List.mem_filter.mp member).1

theorem Storable.durable {t : Table String} (storable : Storable t) :
    Durable (.obj (fieldsOf t)) where
  tidy := by
    refine .obj (names_fieldsOf t ▸ storable.distinct) fun e member => ?_
    obtain ⟨d, -, rfl⟩ := List.mem_map.mp member
    exact .str _
  whole := by
    refine Value.whole_obj.mpr fun e member => ?_
    obtain ⟨d, inside, rfl⟩ := List.mem_map.mp member
    exact ⟨(storable.whole d inside).1, Value.whole_str.mpr (storable.whole d inside).2⟩
  doubles := by
    have none : Value.doublesOfFields (fieldsOf t) = [] := by
      induction t with
      | nil => rfl
      | cons e rest ih => exact ih ⟨storable.distinct.of_cons, fun d later =>
          storable.whole d (List.mem_cons_of_mem e later)⟩
    rw [Value.doubles, none]
    exact List.forall_mem_nil _

/-- A file that was written for some entries has these. -/
theorem exists_file_of_entries {t : Table String} (storable : Storable t) :
    ∃ f, ofFields (fieldsOf t) = .ok f ∧ f.entries = .ok t := by
  have durable := storable.durable
  refine ⟨⟨some (fileOf (Json.indented (.obj (fieldsOf t))))⟩, ?_, ?_⟩
  · simp only [ofFields, durable.toJsonIndented, durable.unwritable?]
    rfl
  · rw [entries]
    dsimp only
    rw [durable.textOf]
    show (Json.read _ >>= fun v => pure (textFields v)) = _
    rw [durable.read]
    exact congrArg Except.ok (textFields_fieldsOf t)

section Changes

variable {f : File} {t : Table String} {key text : String}

/-- A text is put into a file that can be read, if there is room for it. -/
theorem exists_set (found : f.entries = .ok t) (storable : Storable (t.put key text)) :
    ∃ g, f.set (.str key) (.str text) = .ok g ∧ g.entries = .ok (t.put key text) := by
  obtain ⟨g, written, entries⟩ := exists_file_of_entries storable
  refine ⟨g, ?_, entries⟩
  rw [set, found]
  show ofFields ((fieldsOf t).put key (.str text)) = _
  rw [← fieldsOf_put, written]

theorem delete_eq (found : f.entries = .ok t) :
    f.delete (.str key)
      = if t.has key then ofFields (fieldsOf (t.erase key)) else .ok f := by
  rw [delete, found]
  cases present : t.has key <;>
    simp [present, Value.named?, Value.toKey, Value.key?, bind, Except.bind, pure, Except.pure]

theorem erase_of_not_has (absent : ¬t.has key = true) : t.erase key = t := by
  apply Table.erase_of_not_mem
  rw [← Table.get?_eq_none_iff, ← Option.not_isSome_iff_eq_none]
  exact absent

/-- A text is taken out of a file that can be read.  The file is written again only if the text was
there. -/
theorem exists_delete (found : f.entries = .ok t) (storable : Storable t) (key : String) :
    ∃ g, f.delete (.str key) = .ok g ∧ g.entries = .ok (t.erase key)
      ∧ (¬t.has key = true → g = f) := by
  rw [delete_eq found]
  by_cases present : t.has key = true
  · obtain ⟨g, written, entries⟩ := exists_file_of_entries (storable.erase key)
    exact ⟨g, by rw [if_pos present, written], entries, absurd present⟩
  · refine ⟨f, if_neg present, ?_, fun _ => rfl⟩
    rw [erase_of_not_has present, found]

end Changes

end File

/-! ## Operations -/

/-- What is asked of a store of texts by texts. -/
inductive Operation where
  | get (key : String)
  | set (key text : String)
  | delete (key : String)
  | reopen
deriving DecidableEq, Repr

/-- There is room in a file for what is put into the store. -/
def Operation.Whole : Operation → Prop
  | .set key text => Text.Whole key ∧ Text.Whole text
  | .get _ | .delete _ | .reopen => True

instance : (op : Operation) → Decidable op.Whole
  | .set key text => inferInstanceAs (Decidable (Text.Whole key ∧ Text.Whole text))
  | .get _ | .delete _ | .reopen => isTrue trivial

/-- The store is asked for something, and not only opened again. -/
def Operation.isRequest : Operation → Bool
  | .reopen => false
  | .get _ | .set _ _ | .delete _ => true

namespace KeyValue

/-- The store that is found when it is opened again: a file is still there, and all else is
forgotten. -/
def reopen : KeyValue → KeyValue
  | .memory _ => .memory []
  | .file f => .file f

/-- The store after a change, which stays as it was where the change fails. -/
def changedBy (s : KeyValue) (change : Except Fault KeyValue) : KeyValue :=
  match change with
  | .ok t => t
  | .error _ => s

/-- What a store answers to one operation after the other; a change is answered by null. -/
def replies (s : KeyValue) : List Operation → List (Except Fault Value)
  | [] => []
  | .get key :: rest => s.get (.str key) :: s.replies rest
  | .set key text :: rest =>
    let change := s.set (.str key) (.str text)
    change.map (fun _ => .null) :: (s.changedBy change).replies rest
  | .delete key :: rest =>
    let change := s.delete (.str key)
    change.map (fun _ => .null) :: (s.changedBy change).replies rest
  | .reopen :: rest => s.reopen.replies rest

/-- A change that succeeds is answered by null, and the store is the changed one. -/
theorem replies_of_change {s t : KeyValue} {change : Except Fault KeyValue} (ok : change = .ok t)
    (rest : List Operation) :
    change.map (fun _ => Value.null) :: (s.changedBy change).replies rest
      = .ok .null :: t.replies rest := by
  rw [ok]
  rfl

/-- A store in memory never fails where texts are filed under texts. -/
theorem exists_ok_of_mem_replies {d : Dictionary} {ops : List Operation} {r : Except Fault Value}
    (member : r ∈ (KeyValue.memory d).replies ops) : ∃ v, r = .ok v := by
  induction ops generalizing d with
  | nil => cases member
  | cons op ops ih =>
    cases op with
    | get key | set key text | delete key =>
      rcases List.mem_cons.mp member with rfl | later
      · exact ⟨_, rfl⟩
      · exact ih later
    | reopen => exact ih member

/-- The file has the entries of the dictionary. -/
structure Mirrors (f : File) (d : Dictionary) (t : Table String) : Prop where
  entries : f.entries = .ok t
  storable : File.Storable t
  same : ∀ name, d.get? (.text name) = (t.get? name).map .str

namespace Mirrors

variable {f : File} {d : Dictionary} {t : Table String}

theorem get (mirrors : Mirrors f d t) (key : String) :
    (KeyValue.file f).get (.str key) = (KeyValue.memory d).get (.str key) := by
  show f.get (.str key) = _
  rw [File.get, mirrors.entries]
  show Except.ok (((t.get? key).map Value.str).getD .null) = .ok ((d.get? (.text key)).getD .null)
  rw [mirrors.same]

theorem set (mirrors : Mirrors f d t) {key text : String} (wholeKey : Text.Whole key)
    (wholeText : Text.Whole text) :
    ∃ g, f.set (.str key) (.str text) = .ok g
      ∧ Mirrors g (d.put (.str key) (.str text)) (t.put key text) := by
  have storable := mirrors.storable.put wholeKey wholeText
  obtain ⟨g, written, entries⟩ := File.exists_set mirrors.entries storable
  refine ⟨g, written, entries, storable, fun name => ?_⟩
  rw [Dictionary.get?_put, Table.get?_put, mirrors.same]
  simp only [Value.key?, Option.some.injEq, Key.text.injEq]
  split <;> rfl

theorem delete (mirrors : Mirrors f d t) (key : String) :
    ∃ g, f.delete (.str key) = .ok g ∧ Mirrors g (d.erase (.text key)) (t.erase key) := by
  obtain ⟨g, written, entries, -⟩ := File.exists_delete mirrors.entries mirrors.storable key
  refine ⟨g, written, entries, mirrors.storable.erase key, fun name => ?_⟩
  rw [Dictionary.get?_erase, Table.get?_erase, mirrors.same]
  simp only [Key.text.injEq]
  split <;> rfl

/-- A file answers one operation after the other as the dictionary that it mirrors. -/
theorem replies (mirrors : Mirrors f d t) {ops : List Operation} (whole : ∀ op ∈ ops, op.Whole) :
    (KeyValue.file f).replies ops
      = (KeyValue.memory d).replies (ops.filter Operation.isRequest) := by
  induction ops generalizing f d t with
  | nil => rfl
  | cons op ops ih =>
    obtain ⟨first, others⟩ := List.forall_mem_cons.mp whole
    cases op with
    | get key =>
      rw [List.filter_cons_of_pos rfl, KeyValue.replies, KeyValue.replies, mirrors.get,
        ih mirrors others]
    | set key text =>
      obtain ⟨g, changed, next⟩ := mirrors.set first.1 first.2
      have change : (KeyValue.file f).set (.str key) (.str text) = .ok (.file g) :=
        congrArg (Except.map KeyValue.file) changed
      rw [List.filter_cons_of_pos rfl, KeyValue.replies, KeyValue.replies,
        replies_of_change change, ih next others]
      rfl
    | delete key =>
      obtain ⟨g, changed, next⟩ := mirrors.delete key
      have change : (KeyValue.file f).delete (.str key) = .ok (.file g) :=
        congrArg (Except.map KeyValue.file) changed
      rw [List.filter_cons_of_pos rfl, KeyValue.replies, KeyValue.replies,
        replies_of_change change, ih next others]
      rfl
    | reopen => exact ih mirrors others

end Mirrors

/-- A file that is not there mirrors the empty dictionary. -/
theorem mirrors_absent : Mirrors {} [] [] where
  entries := rfl
  storable := { distinct := List.nodup_nil, whole := List.forall_mem_nil _ }
  same _ := rfl

/-- A store in a file that is not there yet answers every row of operations as a store in memory
that is empty and is never opened again, and none of its answers is a failure. -/
theorem file_refines_memory (ops : List Operation) (whole : ∀ op ∈ ops, op.Whole) :
    (KeyValue.file {}).replies ops = (KeyValue.memory []).replies (ops.filter Operation.isRequest)
      ∧ ∀ r ∈ (KeyValue.file {}).replies ops, ∃ v, r = .ok v := by
  have same := mirrors_absent.replies whole
  refine ⟨same, fun r member => ?_⟩
  rw [same] at member
  exact exists_ok_of_mem_replies member

/-- A day with two openings of the store. -/
def diary : List Operation :=
  [.get "a", .set "a" "1\r\n", .set "\"é" "", .reopen, .get "a", .set "a" "2", .delete "b",
    .delete "\"é", .reopen, .get "a", .get "\"é"]

theorem file_refines_memory_diary :
    (∀ op ∈ diary, op.Whole)
      ∧ (KeyValue.file {}).replies diary
        = [.ok .null, .ok .null, .ok .null, .ok (.str "1\r\n"), .ok .null, .ok .null, .ok .null,
          .ok (.str "2"), .ok .null] := by
  have whole : ∀ op ∈ diary, op.Whole := by decide
  exact ⟨whole, (file_refines_memory diary whole).1⟩

end KeyValue

end Wireboard.Store
