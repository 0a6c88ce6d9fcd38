import Wireboard.Proofs.Document.Changes
import Wireboard.Proofs.Store.Texts
import Wireboard.Store.Library

/-!
# Apps in the files of a directory

What a directory has for an app is in one file, named by the stem of its id.  Saving writes this
file and a draft of it, and no other, so apps whose ids have different stems do not meet
(`load_after_of_stem_ne`), and an app stays as it was saved until its own file is written or taken
away (`apps_apart`).  Two ids with the same stem are one app to the directory: it takes dots and
slashes away, and `a.b` is kept in the file of `ab` (`load_of_same_stem`).
-/

namespace Wireboard.Store

/-! ## Apps that can be kept -/

/-- The app was loaded, or could have been, and it survives a file. -/
structure Keepable (app : App) : Prop where
  loaded : app.Loaded
  whole : app.toValue.Whole
  doubles : ∀ x ∈ app.toValue.doubles, Json.ReadsBack x

variable {time : String}

namespace Keepable

variable {app : App}

theorem durable (keepable : Keepable app) : Durable app.toValue :=
  ⟨keepable.loaded.ofValue_toValue.2, keepable.whole, keepable.doubles⟩

/-- A change that gives a text in place of one known field keeps an app keepable. -/
theorem of_field {other : App} (keepable : Keepable app) (loaded : other.Loaded)
    {name text : String} (wholeName : Text.Whole name) (wholeText : Text.Whole text)
    (extra : other.extra = app.extra)
    (known : ∀ e ∈ other.knownPart, e ∈ app.knownPart ∨ e = (name, .str text)) :
    Keepable other := by
  have fields : ∀ e ∈ other.knownPart ++ other.extra,
      e ∈ app.knownPart ++ app.extra ∨ e = (name, .str text) := by
    intro e member
    rcases List.mem_append.mp member with first | last
    · exact (known e first).imp_left (List.mem_append_left _)
    · exact .inl (List.mem_append_right _ (extra ▸ last))
  refine ⟨loaded, ?_, fun x inside => ?_⟩
  · rw [App.toValue_eq, Value.whole_obj]
    intro e member
    rcases fields e member with old | rfl
    · exact Value.whole_obj.mp keepable.whole e old
    · exact ⟨wholeName, Value.whole_str.mpr wholeText⟩
  · exact keepable.doubles x (App.mem_doubles_of_field extra known inside)

theorem touch (keepable : Keepable app) (whole : Text.Whole time) : Keepable (app.touch time) :=
  keepable.of_field (keepable.loaded.touch time) (by decide) whole rfl
    fun _ member => App.mem_knownPart_touch member

theorem rename (keepable : Keepable app) {name : String} (visible : name ≠ "")
    (whole : Text.Whole name) : Keepable (app.rename name) :=
  keepable.of_field (keepable.loaded.rename visible) (by decide) whole rfl
    fun _ member => App.mem_knownPart_rename member

/-- The file of an app holds the app. -/
theorem appOf (keepable : Keepable app) :
    Directory.appOf (fileOf (Json.indented app.toValue)) = .ok app := by
  have durable := keepable.durable
  refine bind_eq_ok.mpr ⟨_, durable.textOf, ?_⟩
  exact bind_eq_ok.mpr ⟨_, durable.read, keepable.loaded.ofValue_toValue.1⟩

end Keepable

namespace Directory

/-! ## Names of files -/

variable {stem : String}

theorem fileName_of_stem {id : Value} (accepted : fileStem id = .ok stem) :
    fileName id = .ok (stem ++ suffix) := by
  rw [fileName, accepted]
  rfl

theorem file_ne_file {x y : String} (different : x ≠ y) : x ++ suffix ≠ y ++ suffix :=
  fun same => different ((String.append_left_inj suffix).mp same)

/-- No app has the draft of another one for its file. -/
theorem file_ne_draft (x y : String) : x ++ suffix ≠ y ++ suffix ++ draftSuffix := by
  intro same
  have last := congrArg (·.toList.getLast?) same
  simp [suffix, draftSuffix] at last

/-! ## What is left alone -/

variable {d e : Directory} {name other : String}

/-- Loading an app looks at its file only. -/
theorem load_congr {id : Value} (isName : fileName id = .ok name) (path : e.path = d.path)
    (file : e.files.get? name = d.files.get? name) : e.load id = d.load id := by
  rw [load, load, isName]
  show (e.find? name >>= _) = (d.find? name >>= _)
  rw [find?, find?, checkLength, checkLength, path, file]

@[simp] theorem write_path (d : Directory) (name : String) (v : Value) :
    (d.write name v).2.path = d.path := by
  unfold write
  dsimp only
  split
  next => rfl
  next => split <;> rfl

/-- Writing a file leaves all others but its draft. -/
theorem get?_write (v : Value) (file : name ≠ other) (draft : name ++ draftSuffix ≠ other) :
    (d.write name v).2.files.get? other = d.files.get? other := by
  unfold write
  dsimp only
  split
  next => rfl
  next =>
    split
    next => rfl
    next => rfl
    next => exact (Table.get?_put ..).trans (if_neg draft)
    next => simp [file, draft]

/-! ## Files that can be written -/

/-- A file can have the name, and so can its draft. -/
structure LegalName (name : String) : Prop where
  noZero : name.contains (Char.ofNat 0) = false
  short : (name ++ draftSuffix).utf8ByteSize ≤ longestName

theorem LegalName.draft_ok (legal : LegalName name) (d : Directory) :
    d.checkLength (name ++ draftSuffix) = .ok () :=
  if_neg (Nat.not_lt.mpr legal.short)

theorem LegalName.find? (legal : LegalName name) (d : Directory) :
    d.find? name = .ok (d.files.get? name) := by
  have short : ¬ longestName < name.utf8ByteSize := by
    have draft := legal.short
    rw [String.utf8ByteSize_append] at draft
    omega
  rw [Directory.find?, legal.noZero, checkLength, if_neg short]
  rfl

/-- A name that was written to can be written to. -/
theorem legalName_of_write {v : Value} (ok : (d.write name v).1 = .ok ()) : LegalName name := by
  unfold write at ok
  dsimp only at ok
  split at ok
  next => cases ok
  next noZero =>
    refine ⟨Bool.not_eq_true _ ▸ noZero, Nat.not_lt.mp fun long => ?_⟩
    have refused : d.checkLength (name ++ draftSuffix)
        = .error (.file .nameTooLong (d.path ++ "/" ++ (name ++ draftSuffix))) := if_pos long
    rw [refused] at ok
    cases ok

/-- A durable value is written completely. -/
theorem write_of_durable {v : Value} (legal : LegalName name) (durable : Durable v) :
    d.write name v = (.ok (), { d with
      files := (d.files.erase (name ++ draftSuffix)).put name (fileOf (Json.indented v)) }) := by
  rw [write, legal.noZero, legal.draft_ok, durable.toJsonIndented, durable.unwritable?]
  rfl

theorem load_of_file {id : Value} (isName : fileName id = .ok name) (legal : LegalName name)
    {app : App} (keepable : Keepable app)
    (found : d.files.get? name = some (fileOf (Json.indented app.toValue))) :
    d.load id = .ok (some app) := by
  refine bind_eq_ok.mpr ⟨name, isName, bind_eq_ok.mpr ⟨_, legal.find? d, ?_⟩⟩
  rw [found]
  exact bind_eq_ok.mpr ⟨app, keepable.appOf, rfl⟩

theorem load_of_no_file {id : Value} (isName : fileName id = .ok name) (legal : LegalName name)
    (missing : d.files.get? name = none) : d.load id = .ok none := by
  refine bind_eq_ok.mpr ⟨name, isName, bind_eq_ok.mpr ⟨_, legal.find? d, ?_⟩⟩
  rw [missing]
  rfl

/-! ## Changes -/

/-- What changes a directory. -/
inductive Change where
  | save (time : String) (app : App)
  | delete (id : Value)

/-- The id of the app that is meant. -/
def Change.id : Change → Value
  | .save _ app => .str app.id
  | .delete id => id

/-- The directory after a change, whether it succeeds or not. -/
def after (d : Directory) : Change → Directory
  | .save time app => (d.save time app).2
  | .delete id =>
    match d.delete id with
    | .ok (_, e) => e
    | .error _ => d

theorem save_of_stem {app : App} (accepted : fileStem (.str app.id) = .ok stem) :
    d.save time app
      = ((d.write (stem ++ suffix) (app.touch time).toValue).1.map fun _ => app.touch time,
        (d.write (stem ++ suffix) (app.touch time).toValue).2) := by
  have isName : fileName (.str (app.touch time).id) = .ok (stem ++ suffix) :=
    fileName_of_stem accepted
  rw [save]
  dsimp only
  rw [isName]

theorem delete_of_stem {id : Value} (accepted : fileStem id = .ok stem) :
    d.delete id = (d.find? (stem ++ suffix)).map fun file? =>
      if file?.isSome then (true, { d with files := d.files.erase (stem ++ suffix) })
      else (false, d) := by
  simp only [delete, fileName_of_stem accepted, bind, Except.bind]
  cases d.find? (stem ++ suffix) with
  | error f => rfl
  | ok file? => cases file? <;> rfl

/-- A change leaves the files of all apps whose ids have other stems. -/
theorem after_of_stem_ne {change : Change} (different : fileStem change.id ≠ .ok stem) :
    (d.after change).path = d.path
      ∧ (d.after change).files.get? (stem ++ suffix) = d.files.get? (stem ++ suffix) := by
  cases change with
  | save time app =>
    cases own : fileStem (.str app.id) with
    | error f =>
      have refused : fileName (.str (app.touch time).id) = .error f := congrArg (Except.map _) own
      rw [after, save]
      dsimp only
      rw [refused]
      exact ⟨rfl, rfl⟩
    | ok x =>
      have other : x ≠ stem := fun same => different (same ▸ own)
      rw [after, save_of_stem own]
      exact ⟨write_path d _ _, get?_write _ (file_ne_file other) (file_ne_draft stem x).symm⟩
  | delete id =>
    cases own : fileStem id with
    | error f =>
      have refused : d.delete id = .error f := by rw [delete, fileName, own]; rfl
      rw [after, refused]
      exact ⟨rfl, rfl⟩
    | ok x =>
      have other : x ≠ stem := fun same => different (same ▸ own)
      rw [after, delete_of_stem own]
      cases d.find? (x ++ suffix) with
      | error f => exact ⟨rfl, rfl⟩
      | ok file? =>
        cases file? with
        | none => exact ⟨rfl, rfl⟩
        | some file => exact ⟨rfl, (Table.get?_erase ..).trans (if_neg (file_ne_file other))⟩

/-- Apps whose ids have different stems do not disturb each other. -/
theorem load_after_of_stem_ne {id : Value} (accepted : fileStem id = .ok stem) {change : Change}
    (different : fileStem change.id ≠ .ok stem) : (d.after change).load id = d.load id := by
  obtain ⟨path, file⟩ := after_of_stem_ne (d := d) different
  exact load_congr (fileName_of_stem accepted) path file

theorem load_foldl_after {id : Value} (accepted : fileStem id = .ok stem) {changes : List Change}
    (different : ∀ change ∈ changes, fileStem change.id ≠ .ok stem) :
    (changes.foldl after d).load id = d.load id := by
  induction changes generalizing d with
  | nil => rfl
  | cons change changes ih =>
    obtain ⟨first, others⟩ := List.forall_mem_cons.mp different
    rw [List.foldl_cons, ih others, load_after_of_stem_ne accepted first]

theorem save_of_keepable {app : App} (own : fileStem (.str app.id) = .ok stem)
    (legal : LegalName (stem ++ suffix)) (keepable : Keepable (app.touch time)) :
    d.save time app = (.ok (app.touch time), { d with
      files := (d.files.erase (stem ++ suffix ++ draftSuffix)).put (stem ++ suffix)
        (fileOf (Json.indented (app.touch time).toValue)) }) := by
  rw [save_of_stem own, write_of_durable legal keepable.durable]
  rfl

/-- An app that was saved is what its id gives. -/
theorem load_of_save {app saved : App} {id : Value} (own : fileStem (.str app.id) = .ok stem)
    (accepted : fileStem id = .ok stem) (keepable : Keepable app) (whole : Text.Whole time)
    (ok : (d.save time app).1 = .ok saved) :
    saved = app.touch time ∧ (d.save time app).2.load id = .ok (some saved) := by
  have touched := keepable.touch whole
  have legal : LegalName (stem ++ suffix) := by
    rw [save_of_stem own] at ok
    cases written : (d.write (stem ++ suffix) (app.touch time).toValue).1 with
    | error f =>
      rw [written] at ok
      cases ok
    | ok => exact legalName_of_write written
  rw [save_of_keepable own legal touched] at ok ⊢
  cases ok
  exact ⟨rfl, load_of_file (fileName_of_stem accepted) legal touched
    ((Table.get?_put ..).trans (if_pos rfl))⟩

/-- Two ids with the same stem are one app to the directory. -/
theorem load_of_same_stem {id other : Value} (same : fileStem other = fileStem id) :
    d.load other = d.load id := by
  rw [load, load, fileName, fileName, same]

/-- Apps keep apart by the stems of their ids.  In every directory, what an id gives is left alone
by all that is saved or deleted under ids with other stems; an app that was saved is what its id
gives, with this id, until something is saved or deleted under its own stem; and all ids with one
stem give the same. -/
theorem apps_apart (d : Directory) {id : Value} {stem : String}
    (accepted : fileStem id = .ok stem) :
    (∀ change : Change, fileStem change.id ≠ .ok stem → (d.after change).load id = d.load id)
      ∧ (∀ (time : String) (app saved : App), fileStem (.str app.id) = .ok stem → Keepable app →
          Text.Whole time → (d.save time app).1 = .ok saved →
          saved.id = app.id ∧ ∀ changes : List Change,
            (∀ change ∈ changes, fileStem change.id ≠ .ok stem) →
            (changes.foldl after (d.after (.save time app))).load id = .ok (some saved))
      ∧ ∀ other : Value, fileStem other = .ok stem → d.load other = d.load id := by
  refine ⟨fun change different => load_after_of_stem_ne accepted different, ?_, ?_⟩
  · intro time app saved own keepable whole ok
    obtain ⟨rfl, loads⟩ := load_of_save own accepted keepable whole ok
    refine ⟨rfl, fun changes different => ?_⟩
    rw [load_foldl_after accepted different]
    exact loads
  · intro other same
    exact load_of_same_stem (same.trans accepted.symm)

/-- A document with nothing in it. -/
def leaflet (id : String) : App := { id, name := .str "Leaflet" }

theorem keepable_leaflet : Keepable (leaflet "ab") where
  loaded := by
    have tidy : (Value.obj [("id", .str "ab"), ("name", .str "Leaflet"), ("uiComponents", .list []),
        ("nodes", .list []), ("connections", .list [])]).Tidy := by
      simp [Table.names, Value.Tidy.str]
    exact .value tidy (App.eq_ok_of_toOption (by decide +kernel))
  whole := by decide +kernel
  doubles := List.forall_mem_nil _

theorem apps_apart_leaflet :
    fileStem (.str "a.b") = .ok "ab"
      ∧ ([Change.save "3" (leaflet "c"), .delete (.str "c/")].foldl after
          ((Directory.mk "apps" []).after (.save "2" (leaflet "ab")))).load (.str "a.b")
        = .ok (some ((leaflet "ab").touch "2")) := by
  have accepted : fileStem (.str "a.b") = .ok "ab" := rfl
  have legal : LegalName ("ab" ++ suffix) := ⟨by rw [String.contains_char_eq]; decide, by decide⟩
  have saved : ((Directory.mk "apps" []).save "2" (leaflet "ab")).1
      = .ok ((leaflet "ab").touch "2") := by
    rw [save_of_keepable rfl legal (keepable_leaflet.touch (by decide))]
  refine ⟨accepted, ((apps_apart _ accepted).2.1 "2" (leaflet "ab") _ rfl keepable_leaflet
    (by decide) saved).2 _ ?_⟩
  have other : Except.ok "c" ≠ (Except.ok "ab" : Except Fault String) := by simp
  simp only [List.forall_mem_cons]
  exact ⟨other, other, List.forall_mem_nil _⟩

end Directory

end Wireboard.Store
