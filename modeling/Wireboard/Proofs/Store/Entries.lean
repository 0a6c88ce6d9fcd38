import Wireboard.Proofs.Document.Fields
import Wireboard.Proofs.Store.KeyValue

/-!
# Entries that are left alone

Whoever puts a text under a text, or takes it away, touches no other entry of the store
(`KeyValue.get_of_set`, `KeyValue.get_of_delete`), whatever the store has in it and whatever the
other entry is called.  For a store in a file this is less than obvious, since the file is written
as a whole.  What makes it true is that a file that could be written reads back as the entries that
it was written for (`File.entries_of_ofFields`): a text for which there is no room would have made
the writing fail.
-/

namespace Wireboard

/-- Only a text is filed as a text. -/
@[simp] theorem Value.key?_eq_text {v : Value} {name : String} :
    v.key? = some (.text name) ↔ v = .str name := by
  cases v with
  | float x => cases h : Binary64.quantity? x <;> simp [key?, h]
  | _ => simp [key?]

/-- What a value names depends on the one text that it is, if it is one. -/
theorem Value.named?_congr {α : Type} {v : Value} {find? find?' : String → Option α}
    (same : ∀ name, v = .str name → find? name = find?' name) :
    v.named? find? = v.named? find?' := by
  unfold named? toKey
  cases filed : v.key? with
  | none => rfl
  | some k =>
    cases k with
    | text name => exact congrArg Except.ok (same name (key?_eq_text.mp filed))
    | null | number | nan => rfl

namespace Store

/-! ## Files -/

namespace File

/-- The texts among some fields come in the order of the fields. -/
theorem names_textFields_sublist (fields : Table Value) :
    (textFields (.obj fields)).names.Sublist fields.names := by
  induction fields with
  | nil => exact .refl _
  | cons e rest ih =>
    obtain ⟨name, v⟩ := e
    cases v with
    | str s => exact ih.cons_cons name
    | _ => exact ih.cons name

/-- Whatever is in a file, no two of its entries have the same name. -/
theorem nodup_names_of_entries {f : File} {t : Table String} (found : f.entries = .ok t) :
    t.names.Nodup := by
  rw [entries] at found
  cases present : f.bytes? with
  | none =>
    rw [present] at found
    cases found
    exact List.nodup_nil
  | some bytes =>
    rw [present] at found
    obtain ⟨text, -, rest⟩ := bind_eq_ok.mp found
    obtain ⟨v, parsed, done⟩ := bind_eq_ok.mp rest
    cases done
    cases v with
    | obj fields =>
      have distinct := (Value.tidy_obj_iff.mp (Json.tidy_of_read parsed)).1
      exact distinct.sublist (names_textFields_sublist fields)
    | _ => exact List.nodup_nil

/-- A file that could be written holds the entries that it was written for. -/
theorem entries_of_ofFields {t : Table String} {f : File} (distinct : t.names.Nodup)
    (written : ofFields (fieldsOf t) = .ok f) : f.entries = .ok t := by
  have tidy : (Value.obj (fieldsOf t)).Tidy := by
    refine .obj (names_fieldsOf t ▸ distinct) fun e member => ?_
    obtain ⟨d, -, rfl⟩ := List.mem_map.mp member
    exact .str _
  obtain ⟨text, -, rest⟩ := bind_eq_ok.mp written
  split at rest
  next => cases rest
  next writable =>
    have whole := Json.whole_of_unwritable?_eq_none tidy writable
    have storable : Storable t := by
      refine ⟨distinct, fun e member => ?_⟩
      have inside := Value.whole_obj.mp whole (e.1, .str e.2) (List.mem_map_of_mem member)
      exact ⟨inside.1, Value.whole_str.mp inside.2⟩
    obtain ⟨g, written', entries⟩ := exists_file_of_entries storable
    cases written.symm.trans written'
    exact entries

theorem entries_of_set {f g : File} {name text : String}
    (done : f.set (.str name) (.str text) = .ok g) :
    ∃ t, f.entries = .ok t ∧ g.entries = .ok (t.put name text) := by
  obtain ⟨t, found, rest⟩ := bind_eq_ok.mp done
  have written : ofFields (fieldsOf (t.put name text)) = .ok g := by
    rw [fieldsOf_put]
    exact rest
  have distinct := Table.nodup_names_put name text (nodup_names_of_entries found)
  exact ⟨t, found, entries_of_ofFields distinct written⟩

theorem entries_of_delete {f g : File} {name : String} (done : f.delete (.str name) = .ok g) :
    ∃ t, f.entries = .ok t ∧ g.entries = .ok (t.erase name) := by
  obtain ⟨t, found, -⟩ := bind_eq_ok.mp done
  refine ⟨t, found, ?_⟩
  rw [delete_eq found] at done
  split at done
  next =>
    have distinct : (t.erase name).names.Nodup :=
      (nodup_names_of_entries found).sublist (List.filter_sublist.map _)
    exact entries_of_ofFields distinct done
  next absent =>
    cases done
    rw [erase_of_not_has absent, found]

/-- What a file answers depends on the one entry that is asked for. -/
theorem get_congr {f g : File} {key : Value} {t u : Table String} (found : f.entries = .ok t)
    (found' : g.entries = .ok u) (same : ∀ name, key = .str name → u.get? name = t.get? name) :
    g.get key = f.get key := by
  rw [get, get, found, found']
  show (key.named? u.get? >>= _) = key.named? t.get? >>= _
  rw [Value.named?_congr same]

end File

/-! ## Stores -/

namespace KeyValue

variable {s t : KeyValue} {name : String} {key : Value}

theorem get_memory_congr {d d' : Dictionary}
    (same : ∀ k, key.key? = some k → d'.get? k = d.get? k) :
    (memory d').get key = (memory d).get key := by
  unfold get Value.toKey
  cases filed : key.key? with
  | none => rfl
  | some k => exact congrArg (fun found? => Except.ok (Option.getD found? .null)) (same k filed)

theorem exists_file_of_map {change : Except Fault File} (done : change.map .file = .ok t) :
    ∃ g, change = .ok g ∧ t = .file g := by
  cases change with
  | error => cases done
  | ok g =>
    cases done
    exact ⟨g, rfl, rfl⟩

/-- To put a text under a text leaves all other entries as they are. -/
theorem get_of_set {text : String} (done : s.set (.str name) (.str text) = .ok t)
    (other : key ≠ .str name) : t.get key = s.get key := by
  cases s with
  | memory d =>
    cases done
    refine get_memory_congr fun k asked => ?_
    rw [Dictionary.get?_put, if_neg]
    intro same
    exact other (Value.key?_eq_text.mp (asked.trans same.symm))
  | file f =>
    obtain ⟨g, written, rfl⟩ := exists_file_of_map done
    obtain ⟨u, found, found'⟩ := File.entries_of_set written
    refine File.get_congr found found' fun name' asked => ?_
    rw [Table.get?_put, if_neg]
    rintro rfl
    exact other asked

/-- To take away what is under a text leaves all other entries as they are. -/
theorem get_of_delete (done : s.delete (.str name) = .ok t) (other : key ≠ .str name) :
    t.get key = s.get key := by
  cases s with
  | memory d =>
    cases done
    refine get_memory_congr fun k asked => ?_
    rw [Dictionary.get?_erase, if_neg]
    rintro rfl
    exact other (Value.key?_eq_text.mp asked)
  | file f =>
    obtain ⟨g, written, rfl⟩ := exists_file_of_map done
    obtain ⟨u, found, found'⟩ := File.entries_of_delete written
    refine File.get_congr found found' fun name' asked => ?_
    rw [Table.get?_erase, if_neg]
    rintro rfl
    exact other asked

end KeyValue

end Store

end Wireboard
