import Wireboard.Proofs.Store.Entries

/-!
# Files that others have written

A store opens whatever file it is pointed at.  The file may be garbled, or may hold a list, or an
object with numbers among its texts.  A garbled file makes every operation fail and is left as it
is; any other file is read as the texts in the object at its top, and a change touches the one text
it is about (`KeyValue.foreign_content_safe`).

What a file holds is said without regard to the store: `content?` is the value that stands in it,
and `held?` looks up a name in this value.  For every file that can be read these are the entries
that the store works with (`get?_of_entries`).  The operations are then those on entries.
-/

namespace Wireboard.Store

namespace File

/-! ## What stands in a file -/

/-- The value that stands in a file as JSON text. -/
def content? (f : File) : Option Value := do
  let text ← (textOf (← f.bytes?)).toOption
  (Json.read text).toOption

/-- The file is there, and no value stands in it. -/
def Garbled (f : File) : Prop := f.bytes? ≠ none ∧ f.content? = none

instance (f : File) : Decidable f.Garbled := inferInstanceAs (Decidable (_ ∧ _))

/-- A value that is a text. -/
def text? : Value → Option String
  | .str s => some s
  | _ => none

/-- The text under a name in the object that stands in a file. -/
def held? (f : File) (name : String) : Option String :=
  match f.content? with
  | some (.obj fields) => (Table.get? fields name).bind text?
  | _ => none

/-! ## The entries of a file that others have written -/

variable {f : File} {t : Table String}

/-- A file is not there, or a value stands in it, or it is garbled; and the store can tell. -/
theorem entries_cases (f : File) :
    (f.content? = none ∧ ¬f.Garbled ∧ f.entries = .ok [])
      ∨ (∃ v, f.content? = some v ∧ v.Tidy ∧ ¬f.Garbled ∧ f.entries = .ok (textFields v))
      ∨ (f.Garbled ∧ ∃ fault, f.entries = .error fault) := by
  obtain ⟨bytes?⟩ := f
  cases bytes? with
  | none => exact .inl ⟨rfl, fun garbled => garbled.1 rfl, rfl⟩
  | some bytes =>
    refine .inr ?_
    simp only [Garbled, content?, entries, Option.bind_eq_bind, Option.bind_some]
    cases decoded : textOf bytes with
    | error fault => exact .inr ⟨⟨Option.some_ne_none _, rfl⟩, fault, rfl⟩
    | ok text =>
      simp only [Except.toOption, Option.bind_some, bind, Except.bind, pure, Except.pure]
      cases parsed : Json.read text with
      | error fault => exact .inr ⟨⟨Option.some_ne_none _, rfl⟩, fault, rfl⟩
      | ok v =>
        refine .inl ⟨v, rfl, Json.tidy_of_read parsed, ?_, rfl⟩
        rintro ⟨-, nothing⟩
        cases nothing

/-- The store can read a file unless it is garbled. -/
theorem garbled_iff : f.Garbled ↔ ∃ fault, f.entries = .error fault := by
  rcases f.entries_cases with ⟨-, readable, found⟩ | ⟨v, -, -, readable, found⟩ | failed
  · simp [readable, found]
  · simp [readable, found]
  · exact ⟨fun _ => failed.2, fun _ => failed.1⟩

/-- Where names are distinct, a name is found among the texts exactly if what is found under it is a
text. -/
theorem get?_textFields {fields : Table Value} (distinct : fields.names.Nodup) (name : String) :
    (textFields (.obj fields)).get? name = (fields.get? name).bind text? := by
  induction fields with
  | nil => rfl
  | cons e rest ih =>
    obtain ⟨name', v⟩ := e
    obtain ⟨new, distinct⟩ := List.nodup_cons.mp distinct
    have ih := ih distinct
    by_cases same : name' = name
    · subst same
      have absent : (textFields (.obj rest)).get? name' = none := by
        rw [ih, Table.get?_eq_none_iff.mpr new]
        rfl
      cases v with
      | str s => simp [textFields, Table.get?, text?]
      | _ => simpa [textFields, Table.get?, text?] using absent
    · cases v <;> simpa [textFields, Table.get?, same] using ih

/-- The entries of a file are the texts that it holds. -/
theorem get?_of_entries (found : f.entries = .ok t) (name : String) :
    t.get? name = f.held? name := by
  rcases f.entries_cases with ⟨empty, -, found'⟩ | ⟨v, stands, tidy, -, found'⟩ | ⟨-, _, failed⟩
  · cases found.symm.trans found'
    rw [held?, empty]
    rfl
  · cases found.symm.trans found'
    rw [held?, stands]
    cases v with
    | obj fields => exact get?_textFields (Value.tidy_obj_iff.mp tidy).1 name
    | _ => rfl
  · cases found.symm.trans failed

/-- There is room for the entries of a file in which there is room for everything. -/
theorem storable_of_entries (whole : ∀ v ∈ f.content?, v.Whole) (found : f.entries = .ok t) :
    Storable t := by
  refine ⟨nodup_names_of_entries found, ?_⟩
  rcases f.entries_cases with ⟨-, -, found'⟩ | ⟨v, stands, -, -, found'⟩ | ⟨-, _, failed⟩
  · cases found.symm.trans found'
    exact List.forall_mem_nil _
  · cases found.symm.trans found'
    intro e member
    cases v with
    | obj fields =>
      obtain ⟨⟨name, v⟩, inside, picked⟩ := List.mem_filterMap.mp member
      have room := Value.whole_obj.mp (whole _ stands) _ inside
      cases v with
      | str s =>
        cases picked
        exact ⟨room.1, Value.whole_str.mp room.2⟩
      | _ => cases picked
    | _ => cases member
  · cases found.symm.trans failed

/-- A file holds these texts and no others, and the store answers with them. -/
structure Shows (f : File) (held? : String → Option String) : Prop where
  held : ∀ name, f.held? name = held? name
  get : ∀ name, f.get (.str name) = .ok (((held? name).map .str).getD .null)

theorem shows_of_entries {held? : String → Option String} (found : f.entries = .ok t)
    (same : ∀ name, t.get? name = held? name) : f.Shows held? where
  held name := by rw [← get?_of_entries found, same]
  get name := by
    rw [get, found, ← same]
    rfl

end File

namespace KeyValue

open File

section Failures

variable {f : File} {fault : Fault} {key v : Value}

theorem get_of_error (failed : f.entries = .error fault) :
    (KeyValue.file f).get key = .error fault := by
  rw [get, File.get, failed]
  rfl

theorem set_of_error (failed : f.entries = .error fault) :
    (KeyValue.file f).set key v = .error fault := by
  rw [set, File.set, failed]
  rfl

theorem delete_of_error (failed : f.entries = .error fault) :
    (KeyValue.file f).delete key = .error fault := by
  rw [delete, File.delete, failed]
  rfl

end Failures

/-- Whatever file a store is pointed at, its operations fail if and only if the file is garbled, and
then leave it as it is.  Otherwise the store answers with the texts that the file holds; to put a
text there changes this one text, and to take it away removes it, where a file without it is not
written at all. -/
theorem foreign_content_safe (f : File) (key text : String) (whole : ∀ v ∈ f.content?, v.Whole)
    (wholeKey : Text.Whole key) (wholeText : Text.Whole text) :
    let s := KeyValue.file f
    let put := s.set (.str key) (.str text)
    let taken := s.delete (.str key)
    ((∃ fault, s.get (.str key) = .error fault) ↔ f.Garbled)
      ∧ ((∃ fault, put = .error fault) ↔ f.Garbled)
      ∧ ((∃ fault, taken = .error fault) ↔ f.Garbled)
      ∧ (f.Garbled → s.changedBy put = s ∧ s.changedBy taken = s)
      ∧ (¬f.Garbled → f.Shows f.held?
        ∧ (∃ g, put = .ok (.file g)
          ∧ g.Shows fun name => if key = name then some text else f.held? name)
        ∧ ∃ g, taken = .ok (.file g)
          ∧ (g.Shows fun name => if key = name then none else f.held? name)
          ∧ (f.held? key = none → g = f)) := by
  dsimp only
  cases found : f.entries with
  | error fault =>
    have garbled : f.Garbled := garbled_iff.mpr ⟨fault, found⟩
    rw [get_of_error found, set_of_error found, delete_of_error found]
    have failed (α : Type) :
        (∃ other, (.error fault : Except Fault α) = .error other) ↔ f.Garbled :=
      iff_of_true ⟨fault, rfl⟩ garbled
    exact ⟨failed _, failed _, failed _, fun _ => ⟨rfl, rfl⟩, absurd garbled⟩
  | ok t =>
    have readable : ¬f.Garbled := by simp [garbled_iff, found]
    have same := get?_of_entries found
    have shown := shows_of_entries found same
    have storable := storable_of_entries whole found
    obtain ⟨g, written, entries⟩ := exists_set found (storable.put wholeKey wholeText)
    obtain ⟨h, rewritten, entries', kept⟩ := exists_delete found storable key
    have get : (KeyValue.file f).get (.str key) = _ := shown.get key
    have put : (KeyValue.file f).set (.str key) (.str text) = .ok (.file g) :=
      congrArg (Except.map KeyValue.file) written
    have taken : (KeyValue.file f).delete (.str key) = .ok (.file h) :=
      congrArg (Except.map KeyValue.file) rewritten
    rw [get, put, taken]
    have done {α : Type} (a : α) : (∃ fault : Fault, Except.ok a = .error fault) ↔ f.Garbled :=
      iff_of_false (fun ⟨_, failed⟩ => nomatch failed) readable
    refine ⟨done _, done _, done _, fun garbled => absurd garbled readable, fun _ =>
      ⟨shown, ⟨g, rfl, ?_⟩, h, rfl, ?_, ?_⟩⟩
    · exact shows_of_entries entries fun name => by rw [Table.get?_put, same]
    · exact shows_of_entries entries' fun name => by rw [Table.get?_erase, same]
    · intro absent
      exact kept (by simp [Table.has, same, absent])

/-- A file with a number, a name that comes twice and a text that was put there, next to one whose
text breaks off. -/
theorem foreign_content_safe_object :
    let f : File := ⟨some (fileOf "\x7b\"a\": \"x\", \"n\": 1, \"a\": \"é\"\x7d\r\n")⟩
    let broken : File := ⟨some (fileOf "\x7b\"a\": \"x\"")⟩
    ¬f.Garbled ∧ f.held? "a" = some "é" ∧ f.held? "n" = none
      ∧ (∃ g, (KeyValue.file f).set (.str "n") (.str "1") = .ok (.file g)
        ∧ g.Shows fun name => if "n" = name then some "1" else f.held? name)
      ∧ broken.Garbled ∧ ∃ fault, (KeyValue.file broken).delete (.str "a") = .error fault := by
  intro f broken
  have readable : ¬f.Garbled := by decide +kernel
  have garbled : broken.Garbled := by decide +kernel
  have safe := foreign_content_safe f "n" "1" (by decide +kernel) (by decide) (by decide)
  have failing := foreign_content_safe broken "a" "" (by decide +kernel) (by decide) (by decide)
  exact ⟨readable, by decide +kernel, by decide +kernel, (safe.2.2.2.2 readable).2.1, garbled,
    failing.2.2.1.mpr garbled⟩

end KeyValue

end Wireboard.Store
