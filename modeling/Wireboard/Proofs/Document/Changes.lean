import Wireboard.Proofs.Document.RoundTrip

/-!
# Documents that are changed stay documents

A library changes an app when it saves it, by the time of the last change, and whoever has loaded an
app may give it another name.  Either way the app is still one that could have been loaded
(`Loaded.touch`, `Loaded.rename`): the field that was changed is known to the decoder, and it is
read by no part of the app but its own.
-/

namespace Wireboard

variable {t : Table Value}

variable {name : String}

theorem fieldOr_put_of_ne {other : String} (different : name ≠ other) (v : Value) :
    fieldOr (t.put name v) other = fieldOr t other := by
  simp [fieldOr, different]

@[simp] theorem fieldOr_put (t : Table Value) (name : String) (v : Value) :
    fieldOr (t.put name v) name = v := by
  simp [fieldOr]

/-- A known field is not among the unknown ones, so they stay as they were when it is put. -/
theorem unknownFields_put {known : List String} (isKnown : name ∈ known) (v : Value) :
    unknownFields (t.put name v) known = unknownFields t known :=
  (Table.filter_put (fun name => !known.contains name) t name v).trans (if_neg (by simpa))

namespace App

/-- The app under another name. -/
def rename (app : App) (name : String) : App := { app with name := .str name }

/-- The known fields that stay as they are when an app is saved or renamed. -/
def steadyFields : List String := knownFields.filter fun key => key != "name" && key != "updatedAt"

/-- An app is decoded from the fields of a table, so a table with the same steady fields gives the
same app but for its name and the time of its last change. -/
theorem Decoded.of_fields {u : Table Value} {app : App} (decoded : Decoded t app)
    (same : ∀ key ∈ steadyFields, fieldOr u key = fieldOr t key)
    (extra : unknownFields u knownFields = unknownFields t knownFields)
    (nameOk : textField u "name" "" = .ok name) :
    Decoded u { app with name := .str name, updatedAt := fieldOr u "updatedAt" } where
  id := by rw [textField, same "id" (by decide)]; exact decoded.id
  name := ⟨name, nameOk, rfl⟩
  version := by rw [textField, same "version" (by decide)]; exact decoded.version
  displayMode := by rw [textField, same "displayMode" (by decide)]; exact decoded.displayMode
  canvas := by rw [same "canvas" (by decide)]; exact decoded.canvas
  pages := by rw [recordsField, same "pages" (by decide)]; exact decoded.pages
  layers := by rw [recordsField, same "layers" (by decide)]; exact decoded.layers
  components := by rw [recordsField, same "uiComponents" (by decide)]; exact decoded.components
  nodes := by rw [recordsField, same "nodes" (by decide)]; exact decoded.nodes
  wires := by rw [same "connections" (by decide)]; exact decoded.wires
  createdAt := by rw [same "createdAt" (by decide)]; exact decoded.createdAt
  updatedAt := rfl
  floatingSize? := by rw [same "floatingSize" (by decide)]; exact decoded.floatingSize?
  extra := by rw [extra]; exact decoded.extra

/-- Putting a field that is not steady leaves the steady ones. -/
theorem fieldOr_put_of_steady {key : String} (changed : key ∉ steadyFields) (v : Value) :
    ∀ name ∈ steadyFields, fieldOr (t.put key v) name = fieldOr t name := by
  intro name steady
  refine fieldOr_put_of_ne ?_ v
  rintro rfl
  exact changed steady

/-! ## Apps that could have been loaded -/

variable {app : App}

theorem Loaded.exists_decoded (loaded : app.Loaded) :
    ∃ t, (Value.obj t).Tidy ∧ Decoded t app ∧ isName app.name = true := by
  obtain ⟨v, tidy, ok⟩ := loaded.exists_ofValue
  exact App.exists_decoded tidy ok

/-- An app that was decoded could have been loaded from what it is written to. -/
theorem Decoded.loaded (decoded : Decoded t app) (tidy : (Value.obj t).Tidy)
    (named : isName app.name = true) : app.Loaded := by
  obtain ⟨ok, inside⟩ := decoded.ofValue_toValue tidy named
  exact .value inside ok

/-- An app that was loaded loads from what it is written to. -/
theorem Loaded.ofValue_toValue (loaded : app.Loaded) :
    ofValue app.toValue = .ok app ∧ app.toValue.Tidy := by
  obtain ⟨t, tidy, decoded, named⟩ := loaded.exists_decoded
  exact decoded.ofValue_toValue tidy named

theorem Loaded.touch (loaded : app.Loaded) (time : String) : (app.touch time).Loaded := by
  obtain ⟨t, tidy, decoded, named⟩ := loaded.exists_decoded
  obtain ⟨name, nameOk, isText⟩ := decoded.name
  have again : textField (Table.put t "updatedAt" (.str time)) "name" "" = .ok name := by
    rw [textField, fieldOr_put_of_ne (by decide)]
    exact nameOk
  have changed : Decoded (Table.put t "updatedAt" (.str time)) (app.touch time) := by
    have put := decoded.of_fields (fieldOr_put_of_steady (by decide) (.str time))
      (unknownFields_put (by decide) (.str time)) again
    rw [fieldOr_put, ← isText] at put
    exact put
  exact changed.loaded (tidy.put "updatedAt" (.str time)) named

theorem Loaded.rename (loaded : app.Loaded) (visible : name ≠ "") : (app.rename name).Loaded := by
  obtain ⟨t, tidy, decoded, -⟩ := loaded.exists_decoded
  have nameOk : textField (Table.put t "name" (.str name)) "name" "" = .ok name := by
    rw [textField, fieldOr_put, Value.orElse, if_neg (by simpa [Value.isVacant] using visible)]
    rfl
  have changed : Decoded (Table.put t "name" (.str name)) (app.rename name) := by
    have put := decoded.of_fields (fieldOr_put_of_steady (by decide) (.str name))
      (unknownFields_put (by decide) (.str name)) nameOk
    rw [fieldOr_put_of_ne (by decide), ← decoded.updatedAt] at put
    exact put
  refine changed.loaded (tidy.put "name" (.str name)) ?_
  simpa [App.rename, isName] using visible

/-! ## What is written -/

variable {e : String × Value}

theorem mem_knownPart_touch {time : String} (member : e ∈ (app.touch time).knownPart) :
    e ∈ app.knownPart ∨ e = ("updatedAt", .str time) := by
  simp only [knownPart, List.mem_append] at member ⊢
  rcases member with (_ | updated) | _
  case inl.inr => exact .inr (List.mem_singleton.mp updated)
  all_goals simp_all [touch, floatingField]

theorem mem_knownPart_rename (member : e ∈ (app.rename name).knownPart) :
    e ∈ app.knownPart ∨ e = ("name", .str name) := by
  simp only [knownPart, List.mem_append, List.mem_cons] at member ⊢
  rcases member with ((((_ | _ | _) | _) | _) | _) | _ <;> simp_all [rename, floatingField]

/-- A change that gives a text in place of one known field writes no double that was not there. -/
theorem mem_doubles_of_field {other : App} {text : String} (extra : other.extra = app.extra)
    (known : ∀ e ∈ other.knownPart, e ∈ app.knownPart ∨ e = (name, .str text)) {x : Float}
    (inside : x ∈ other.toValue.doubles) : x ∈ app.toValue.doubles := by
  obtain ⟨e, member, within⟩ := Value.mem_doubles_obj.mp inside
  rcases List.mem_append.mp member with first | last
  · rcases known e first with old | rfl
    · exact Value.mem_doubles_obj.mpr ⟨e, List.mem_append_left _ old, within⟩
    · cases within
  · exact Value.mem_doubles_obj.mpr ⟨e, List.mem_append_right _ (extra ▸ last), within⟩

end App

end Wireboard
