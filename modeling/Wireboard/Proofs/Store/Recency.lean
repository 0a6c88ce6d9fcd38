import Wireboard.Proofs.Json.Doubles
import Wireboard.Proofs.Store.Library
import Wireboard.Proofs.Timestamp

/-!
# The app saved last comes first

A library lists its apps by the text of the time of the last change.  Beside a library there is a
record of what was asked and answered: which app was saved under an id, and at which instant, if it
was not deleted since.  The list of the library is this record, the latest instant first
(`newest_first`), however the clock went.

The record is kept by the same steps for both libraries (`Tracks.answer`).  What differs is what
they have of it.  A shelf has the apps.  A directory has their files, and perhaps a draft of a save
that failed, which no list shows; that the files give the apps again asks for documents that were
loaded, and that a save that succeeds leaves no other file asks for ids of which nothing is taken
away.
-/

namespace Wireboard

variable {instant : Int} {time : String}

namespace Timestamp

/-- The whole milliseconds that a clock shows. -/
def instant? : Num → Option Int
  | .int n => some n
  | .float x =>
    match Binary64.decode x with
    | .finite p => some (Int.fdiv (microseconds p) 1000)
    | .notANumber | .infinite _ => none

theorem exists_instant? {clock : Num} (shown : text clock = .ok time) :
    ∃ instant, instant? clock = some instant ∧ ofMilliseconds instant = .ok time := by
  cases clock with
  | int n => exact ⟨n, rfl, shown⟩
  | float x =>
    rw [text] at shown
    rw [instant?]
    cases decoded : Binary64.decode x with
    | notANumber | infinite =>
      rw [decoded] at shown
      cases shown
    | finite p =>
      rw [decoded] at shown
      exact ⟨_, rfl, shown⟩

/-- Texts of instants are compared like the instants. -/
theorem lt_iff_of_ofMilliseconds {instant' : Int} {time' : String}
    (shown : ofMilliseconds instant = .ok time) (shown' : ofMilliseconds instant' = .ok time') :
    time < time' ↔ instant < instant' := by
  refine ⟨fun lt => ?_, ofMilliseconds_lt_ofMilliseconds shown shown'⟩
  rcases Int.lt_trichotomy instant instant' with less | same | greater
  · exact less
  · rw [same, shown'] at shown
    cases shown
    exact absurd lt (String.lt_irrefl _)
  · exact absurd lt (String.lt_asymm (ofMilliseconds_lt_ofMilliseconds shown' shown greater))

end Timestamp

namespace Store

/-! ## Records -/

/-- When the app under an id was saved last, and what was saved. -/
abbrev Record := Table (Int × App)

namespace Record

/-- The record after an app was saved when the clock showed something. -/
def enter (record : Record) (clock : Num) (app : App) : Record :=
  match Timestamp.instant? clock with
  | some instant => record.put app.id (instant, app)
  | none => record

/-- The record after an answer to a request. -/
def note (record : Record) : Request → Reply → Record
  | .save clock _, .saved (.ok app) | .rename clock _ _, .saved (.ok app) => record.enter clock app
  | .delete id, .deleted (.ok true) => record.erase id
  | _, _ => record

/-- The summary of an app on record. -/
def summary (e : String × Int × App) : Summary := Summary.ofApp e.2.2

/-- The app is on record under its own id, and it has the text of the instant when it was saved. -/
structure Stamped (e : String × Int × App) : Prop where
  own : e.2.2.id = e.1
  stamp : ∃ time, Timestamp.ofMilliseconds e.2.1 = .ok time ∧ e.2.2.updatedAt = .str time

theorem Stamped.timed {e : String × Int × App} (stamped : Stamped e) : (summary e).Timed := by
  obtain ⟨time, -, text⟩ := stamped.stamp
  exact ⟨time, text⟩

theorem Stamped.le_of_time_le {e f : String × Int × App} (first : Stamped e) (second : Stamped f)
    (le : ¬ Text.Precedes (summary f).time (summary e).time) : e.2.1 ≤ f.2.1 := by
  obtain ⟨time, shown, text⟩ := first.stamp
  obtain ⟨time', shown', text'⟩ := second.stamp
  have left : (summary e).time = time := by
    rw [Summary.time, summary, Summary.ofApp, text]
  have right : (summary f).time = time' := by
    rw [Summary.time, summary, Summary.ofApp, text']
  rw [left, right] at le
  refine Int.not_lt.mp fun later => ?_
  exact le ((Timestamp.whole_ofMilliseconds shown').precedes (Timestamp.whole_ofMilliseconds shown)
    (Timestamp.ofMilliseconds_lt_ofMilliseconds shown' shown later))

/-- The apps on record can be listed, the latest instant first. -/
theorem exists_list {record : Record} (stamped : ∀ e ∈ record, Stamped e) :
    ∃ entries : Record, entries.Perm record
      ∧ Summary.sort (record.map summary) = .ok (entries.map summary)
      ∧ entries.Pairwise fun e f => f.2.1 ≤ e.2.1 := by
  have timed : ∀ s ∈ record.map summary, s.Timed := by
    intro s member
    obtain ⟨e, inside, rfl⟩ := List.mem_map.mp member
    exact (stamped e inside).timed
  obtain ⟨out, sorted, perm, ordered⟩ := Summary.exists_sort timed
  obtain ⟨entries, rfl, same⟩ := (congrFun (congrFun (List.eq_map_comp_perm summary) _) _).mpr perm
  refine ⟨entries, same, sorted, (List.pairwise_map.mp ordered).imp_of_mem ?_⟩
  intro e f first second le
  exact (stamped f (same.mem_iff.mp second)).le_of_time_le (stamped e (same.mem_iff.mp first)) le

end Record

namespace Library

variable {σ : Type}

/-- A library and the record about it, after some requests. -/
def recorded (l : Library σ) (s : σ) (record : Record) : List Request → σ × Record
  | [] => (s, record)
  | request :: rest =>
    l.recorded (l.answer s request).2 (record.note request (l.answer s request).1) rest

/-- The library lists the apps on record, and the instants never increase along the list. -/
def NewestFirst (l : Library σ) (s : σ) (record : Record) (order : Table Bytes → Table Bytes) :
    Prop :=
  ∃ entries : Record, entries.Perm record
    ∧ l.list s order = .ok (entries.map fun e => Summary.ofApp e.2.2)
    ∧ entries.Pairwise fun e f => f.2.1 ≤ e.2.1

/-! ## Libraries that keep their record -/

/-- What a library asks of ids, of apps and of new names. -/
structure Demands where
  id : String → Prop
  app : App → Prop
  name : String → Prop

/-- A request meets the demands of a library. -/
def Demands.Meets (demands : Demands) : Request → Prop
  | .save _ app => demands.app app
  | .rename _ id name => demands.id id ∧ demands.name name
  | .load id | .delete id => demands.id id
  | .list _ => True

/-- A library and a record go together in a way that every operation keeps. -/
structure Tracks (l : Library σ) (demands : Demands) (together : σ → Record → Prop) : Prop where
  save {s : σ} {record : Record} {instant : Int} {time : String} {app : App}
    (before : together s record) (fit : demands.app app)
    (shown : Timestamp.ofMilliseconds instant = .ok time) :
    (∃ saved, (l.save s time app).1 = .ok saved
        ∧ together (l.save s time app).2 (record.put saved.id (instant, saved)))
      ∨ ∃ f, (l.save s time app).1 = .error f ∧ together (l.save s time app).2 record
  load {s : σ} {record : Record} {id name : String} {app : App} (before : together s record)
    (legal : demands.id id) (named : demands.name name)
    (found : l.load s (.str id) = .ok (some app)) : demands.app (app.rename name)
  delete {s t : σ} {record : Record} {id : String} {found : Bool} (before : together s record)
    (legal : demands.id id) (ok : l.delete s (.str id) = .ok (found, t)) :
    together t (if found then record.erase id else record)

variable {app : App}

namespace Tracks

variable {l : Library σ} {demands : Demands} {together : σ → Record → Prop}

theorem saveAt (tracks : Tracks l demands together) {s : σ} {record : Record} {request : Request}
    {clock : Num} (before : together s record) (fit : demands.app app)
    (isSave : ∀ saved, record.note request (.saved (.ok saved)) = record.enter clock saved)
    (isSilent : ∀ f, record.note request (.untimed f) = record ∧ record.note request (.saved (.error
      f)) = record) :
    together (l.saveAt s clock app).2 (record.note request (l.saveAt s clock app).1) := by
  cases shown : Timestamp.text clock with
  | error f =>
    simp only [Library.saveAt, shown, (isSilent f).1]
    exact before
  | ok time =>
    obtain ⟨instant, reads, stamp⟩ := Timestamp.exists_instant? shown
    simp only [Library.saveAt, shown]
    rcases tracks.save before fit stamp with ⟨saved, ok, next⟩ | ⟨f, failed, next⟩
    · rw [ok, isSave, Record.enter, reads]
      exact next
    · rw [failed, (isSilent f).2]
      exact next

/-- One request. -/
theorem answer (tracks : Tracks l demands together) {s : σ} {record : Record} {request : Request}
    (before : together s record) (meets : demands.Meets request) :
    together (l.answer s request).2 (record.note request (l.answer s request).1) := by
  cases request with
  | save clock app => exact tracks.saveAt before meets (fun _ => rfl) fun _ => ⟨rfl, rfl⟩
  | rename clock id name =>
    rw [Library.answer]
    cases found : l.load s (.str id) with
    | error f => exact before
    | ok app? =>
      cases app? with
      | none => exact before
      | some app =>
        exact tracks.saveAt before (tracks.load before meets.1 meets.2 found) (fun _ => rfl)
          fun _ => ⟨rfl, rfl⟩
  | load id => exact before
  | delete id =>
    rw [Library.answer]
    cases deleted : l.delete s (.str id) with
    | error f => exact before
    | ok outcome =>
      obtain ⟨found, t⟩ := outcome
      have next := tracks.delete before meets deleted
      cases found with
      | false => exact next
      | true => exact next
  | list order => exact before

/-- A row of requests. -/
theorem recorded (tracks : Tracks l demands together) {s : σ} {record : Record}
    {requests : List Request} (before : together s record)
    (meet : ∀ request ∈ requests, demands.Meets request) :
    together (l.recorded s record requests).1 (l.recorded s record requests).2 := by
  induction requests generalizing s record with
  | nil => exact before
  | cons request rest ih =>
    obtain ⟨first, others⟩ := List.forall_mem_cons.mp meet
    exact ih (tracks.answer before first) others

end Tracks

theorem stamped_put {record : Record} (stamped : ∀ e ∈ record, Record.Stamped e)
    (shown : Timestamp.ofMilliseconds instant = .ok time) :
    ∀ e ∈ record.put app.id (instant, app.touch time), Record.Stamped e := by
  intro e member
  rcases Table.mem_put member with old | rfl
  · exact stamped e old
  · exact ⟨rfl, time, shown, rfl⟩

/-! ## The shelf -/

/-- The shelf has the apps on record. -/
structure OnShelf (s : Shelf) (record : Record) : Prop where
  apps : s.apps = record.map (Prod.map id Prod.snd)
  stamped : ∀ e ∈ record, Record.Stamped e

/-- A shelf takes everything. -/
def shelfDemands : Demands := ⟨fun _ => True, fun _ => True, fun _ => True⟩

theorem shelf_tracks : Tracks shelf shelfDemands OnShelf where
  save {s record instant time app} before fit shown := by
    refine .inl ⟨app.touch time, rfl, ?_, stamped_put before.stamped shown⟩
    show s.apps.put app.id (app.touch time) = _
    rw [before.apps]
    exact Table.put_map (g := id) (fun same => same) Prod.snd record app.id
      (instant, app.touch time)
  load := fun _ _ _ _ => trivial
  delete {s t record id found} before legal ok := by
    have deleted : s.delete (.str id) = .ok (found, t) := ok
    rw [Shelf.delete_str] at deleted
    by_cases present : s.apps.has id = true
    · rw [if_pos present] at deleted
      cases deleted
      refine ⟨?_, fun e member => before.stamped e (List.mem_filter.mp member).1⟩
      show s.apps.erase id = _
      rw [before.apps]
      exact Table.erase_map (g := fun name => name) (fun same => same) Prod.snd record id
    · rw [if_neg present] at deleted
      cases deleted
      exact before

theorem OnShelf.newestFirst {s : Shelf} {record : Record} (onShelf : OnShelf s record)
    (order : Table Bytes → Table Bytes) : shelf.NewestFirst s record order := by
  obtain ⟨entries, perm, sorted, ordered⟩ := Record.exists_list onShelf.stamped
  refine ⟨entries, perm, ?_, ordered⟩
  show Summary.sort (s.apps.map fun e => Summary.ofApp e.2) = _
  rw [onShelf.apps, List.map_map]
  exact sorted

/-! ## The directory -/

/-- The app is a document that was loaded, and its doubles are numbers: it is no value of its own
kind that stands for the one which is not. -/
structure Legible (app : App) : Prop where
  loaded : app.Loaded
  numbers : ∀ x ∈ app.toValue.doubles, Binary64.decode x ≠ .notANumber

/-- The file of an app on record. -/
def recordEntry : String × Int × App → String × Bytes :=
  Prod.map (· ++ Directory.suffix) fun saved => fileOf (Json.indented saved.2.toValue)

/-- The directory has the files of the apps on record and no other files that have names of apps. -/
structure InFiles (d : Directory) (record : Record) : Prop where
  files : d.files.filter (fun e => Directory.isAppFile e.1) = record.map recordEntry
  stamped : ∀ e ∈ record, Record.Stamped e
  legible : ∀ e ∈ record, Legible e.2.2
  whole : ∀ e ∈ record, e.2.2.toValue.Whole

/-- A directory takes documents, and ids of which it takes nothing away. -/
def directoryDemands : Demands where
  id id := fileStem (.str id) = .ok id
  app app := fileStem (.str app.id) = .ok app.id ∧ Legible app
  name name := name ≠ ""

theorem Legible.of_field {other : App} (legible : Legible app) (loaded : other.Loaded)
    {name text : String} (extra : other.extra = app.extra)
    (known : ∀ e ∈ other.knownPart, e ∈ app.knownPart ∨ e = (name, .str text)) : Legible other :=
  ⟨loaded, fun x inside => legible.numbers x (App.mem_doubles_of_field extra known inside)⟩

theorem Legible.touch (legible : Legible app) (time : String) : Legible (app.touch time) :=
  legible.of_field (legible.loaded.touch time) rfl fun _ member => App.mem_knownPart_touch member

theorem Legible.rename (legible : Legible app) {name : String} (visible : name ≠ "") :
    Legible (app.rename name) :=
  legible.of_field (legible.loaded.rename visible) rfl fun _ member =>
    App.mem_knownPart_rename member

theorem Legible.keepable (legible : Legible app) (whole : app.toValue.Whole) : Keepable app :=
  ⟨legible.loaded, whole, fun x inside => Json.readsBack_of_decode_ne (legible.numbers x inside)⟩

@[simp] theorem isAppFile_append_suffix (stem : String) :
    Directory.isAppFile (stem ++ Directory.suffix) = true :=
  Mirrors.isAppFile_fileEntry (stem, Directory.leaflet "")

@[simp] theorem isAppFile_draft (stem : String) :
    Directory.isAppFile (stem ++ Directory.suffix ++ Directory.draftSuffix) = false := by
  rw [Directory.isAppFile, Bool.eq_false_iff, Ne, String.endsWith_eq_endsWith_toSlice,
    String.Slice.endsWith_string_iff, String.copy_toSlice, String.toList_append]
  rintro ⟨start, same⟩
  have last := congrArg List.getLast? same
  simp [Directory.suffix, Directory.draftSuffix] at last

/-- What writing a value can do to a directory. -/
theorem write_cases (d : Directory) (name : String) (v : Value) :
    (∃ f, d.write name v = (.error f, d))
      ∨ (∃ f file, d.write name v
          = (.error f, { d with files := d.files.put (name ++ Directory.draftSuffix) file }))
      ∨ ∃ text, v.toJsonIndented = .ok text ∧ Json.unwritable? v = none ∧ d.write name v
        = (.ok (), { d with
          files := (d.files.erase (name ++ Directory.draftSuffix)).put name (fileOf text) }) := by
  rw [Directory.write]
  split
  next => exact .inl ⟨_, rfl⟩
  next =>
    split
    next => exact .inl ⟨_, rfl⟩
    next => exact .inl ⟨_, rfl⟩
    next => exact .inr (.inl ⟨_, _, rfl⟩)
    next text _ written writable => exact .inr (.inr ⟨text, written, writable, rfl⟩)

namespace InFiles

variable {d : Directory} {record : Record} (inFiles : InFiles d record)
include inFiles

theorem get? (id : String) :
    d.files.get? (id ++ Directory.suffix)
      = (record.get? id).map fun saved => fileOf (Json.indented saved.2.toValue) := by
  rw [← Table.get?_filter (isAppFile_append_suffix id), inFiles.files]
  exact Table.get?_map Mirrors.suffix_injective _ record id

/-- A draft that was left behind changes nothing. -/
theorem draft (stem : String) (file : Bytes) :
    InFiles { d with
      files := d.files.put (stem ++ Directory.suffix ++ Directory.draftSuffix) file } record := by
  refine ⟨?_, inFiles.stamped, inFiles.legible, inFiles.whole⟩
  rw [Table.filter_put, isAppFile_draft]
  exact inFiles.files

theorem save (fit : directoryDemands.app app)
    (shown : Timestamp.ofMilliseconds instant = .ok time) :
    (∃ saved, (d.save time app).1 = .ok saved
        ∧ InFiles (d.save time app).2 (record.put saved.id (instant, saved)))
      ∨ ∃ f, (d.save time app).1 = .error f ∧ InFiles (d.save time app).2 record := by
  obtain ⟨stem, legible⟩ := fit
  rw [Directory.save_of_stem stem]
  rcases write_cases d (app.id ++ Directory.suffix) (app.touch time).toValue with
    ⟨f, write⟩ | ⟨f, file, write⟩ | ⟨text, written, writable, write⟩
  · rw [write]
    exact .inr ⟨f, rfl, inFiles⟩
  · rw [write]
    exact .inr ⟨f, rfl, inFiles.draft app.id file⟩
  · rw [write]
    have touched := legible.touch time
    have whole := Json.whole_of_unwritable?_eq_none touched.loaded.ofValue_toValue.2 writable
    have complete : text = Json.indented (app.touch time).toValue := by
      rw [(touched.keepable whole).durable.toJsonIndented] at written
      exact (Except.ok.inj written).symm
    refine .inl ⟨app.touch time, rfl, ?_, stamped_put inFiles.stamped shown, fun e member => ?_,
      fun e member => ?_⟩
    · rw [Table.filter_put, isAppFile_append_suffix, if_pos rfl, Table.filter_erase, inFiles.files,
        Table.erase_of_not_mem, complete]
      · exact Table.put_map Mirrors.suffix_injective _ record app.id (instant, app.touch time)
      · intro member
        obtain ⟨file, inside, same⟩ := List.mem_map.mp member
        obtain ⟨e, -, rfl⟩ := List.mem_map.mp inside
        exact Directory.file_ne_draft e.1 app.id same
    · rcases Table.mem_put member with old | rfl
      · exact inFiles.legible e old
      · exact touched
    · rcases Table.mem_put member with old | rfl
      · exact inFiles.whole e old
      · exact whole

theorem delete {e : Directory} {id : String} {found : Bool} (legal : directoryDemands.id id)
    (ok : d.delete (.str id) = .ok (found, e)) :
    InFiles e (if found then record.erase id else record) := by
  rw [Directory.delete_of_stem legal] at ok
  cases there : d.find? (id ++ Directory.suffix) with
  | error f =>
    rw [there] at ok
    cases ok
  | ok file? =>
    rw [there] at ok
    cases file? with
    | none =>
      cases ok
      exact inFiles
    | some file =>
      cases ok
      have within {e : String × Int × App} (member : e ∈ record.erase id) : e ∈ record :=
        (List.mem_filter.mp member).1
      refine ⟨?_, fun e member => inFiles.stamped e (within member),
        fun e member => inFiles.legible e (within member),
        fun e member => inFiles.whole e (within member)⟩
      rw [Table.filter_erase, inFiles.files]
      exact Table.erase_map Mirrors.suffix_injective _ record id

/-- What is loaded was saved. -/
theorem load {id : String} (legal : directoryDemands.id id)
    (found : d.load (.str id) = .ok (some app)) : ∃ instant, (id, instant, app) ∈ record := by
  obtain ⟨name, isName, found⟩ := bind_eq_ok.mp found
  obtain ⟨file?, there, found⟩ := bind_eq_ok.mp found
  rw [Directory.fileName_of_stem legal] at isName
  cases isName
  cases file? with
  | none => cases found
  | some file =>
    obtain ⟨other, read, same⟩ := bind_eq_ok.mp found
    cases same
    have isFile : d.files.get? (id ++ Directory.suffix) = some file := by
      rw [Directory.find?] at there
      split at there
      next => cases there
      next =>
        obtain ⟨-, -, there⟩ := bind_eq_ok.mp there
        exact Except.ok.inj there
    rw [inFiles.get?] at isFile
    obtain ⟨⟨instant, saved⟩, onRecord, rfl⟩ := Option.map_eq_some_iff.mp isFile
    have member := Table.mem_of_get? onRecord
    have again := ((inFiles.legible _ member).keepable (inFiles.whole _ member)).appOf
    rw [read] at again
    cases again
    exact ⟨instant, member⟩

end InFiles

theorem directory_tracks : Tracks directory directoryDemands InFiles where
  save before fit shown := before.save fit shown
  load before legal named found := by
    obtain ⟨instant, member⟩ := before.load legal found
    have own := (before.stamped _ member).own
    exact ⟨own ▸ legal, (before.legible _ member).rename named⟩
  delete before legal ok := before.delete legal ok

/-- Files that do not have names of apps do not count. -/
theorem list_filter (d : Directory) :
    ({ d with files := d.files.filter fun e => Directory.isAppFile e.1 } : Directory).list.1
      = d.list.1 := by
  simp only [Directory.list, List.filter_filter, Bool.and_self]
  rfl

theorem InFiles.newestFirst {d : Directory} {record : Record} (inFiles : InFiles d record)
    {order : Table Bytes → Table Bytes} (complete : ∀ files, (order files).Perm files) :
    directory.NewestFirst d record order := by
  have perm : ((order d.files).filter fun e => Directory.isAppFile e.1).Perm
      (record.map recordEntry) :=
    inFiles.files ▸ (complete d.files).filter _
  obtain ⟨found, files, same⟩ :=
    (congrFun (congrFun (List.eq_map_comp_perm recordEntry) _) _).mpr perm
  have stamped : ∀ e ∈ found, Record.Stamped e := fun e member =>
    inFiles.stamped e (same.mem_iff.mp member)
  obtain ⟨entries, inner, sorted, ordered⟩ := Record.exists_list stamped
  refine ⟨entries, inner.trans same, ?_, ordered⟩
  have apps : found.map recordEntry = (found.map (Prod.map id Prod.snd)).map fileEntry := by
    rw [List.map_map]
    rfl
  show ({ d with files := order d.files } : Directory).list.1 = _
  rw [← list_filter, Mirrors.list_of_files (files.trans apps), List.map_map]
  · exact sorted
  · intro e member
    obtain ⟨e, inside, rfl⟩ := List.mem_map.mp member
    have onRecord := same.mem_iff.mp inside
    exact ⟨(stamped e inside).own,
      (inFiles.legible e onRecord).keepable (inFiles.whole e onRecord), (stamped e inside).timed⟩

theorem legible_leaflet_ab : Legible (Directory.leaflet "ab") :=
  ⟨Directory.keepable_leaflet.loaded, List.forall_mem_nil _⟩

/-- A morning in a library whose clock is put back. -/
def morning : List Request :=
  [.save (.int 5) (Directory.leaflet "ab"), .save (.int 951782400000) (Directory.leaflet "ab"),
    .rename (.int 951782399999) "ab" "Map", .delete "cd"]

end Library

end Store

end Wireboard
