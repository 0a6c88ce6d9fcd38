import Mathlib.Data.List.Perm.Basic
import Wireboard.Proofs.Document.Summary
import Wireboard.Proofs.Store.Directory
import Wireboard.Timestamp

/-!
# A directory of apps answers like a shelf

Whoever saves, renames, loads, deletes and lists apps whose ids are names of files cannot tell a
directory from a shelf in memory (`directory_refines_shelf`).  The directory prints every app to a
file, reads it again and validates it; its files are listed in no fixed order, so lists agree up to
apps that were saved at one time.

The invariant is `Mirrors`: the directory has exactly the files of the apps on the shelf, and these
are apps that survive a file.  Each request goes from mirror to mirror (`Mirrors.answer`).
-/

namespace Wireboard

variable {time : String}

namespace Timestamp

/-! ## Texts of times -/

theorem whole_padded (width n : Nat) : Text.Whole (padded width n) :=
  .append (Json.numeric_zeros _).whole (Json.numeric_repr n).whole

theorem whole_dateText (day : Nat) : Text.Whole (dateText day) := by
  unfold dateText
  generalize splitYear _ 1 day = date
  generalize splitMonth (monthDays date.1) 1 date.2 = month
  refine .append (.append (.append (.append ?_ (by decide)) ?_) (by decide)) ?_ <;>
    exact whole_padded _ _

theorem whole_clockText (rest : Nat) : Text.Whole (clockText rest) := by
  unfold clockText
  refine .append (.append (.append (.append ?_ (by decide)) ?_) (by decide)) ?_ <;>
    exact whole_padded _ _

theorem whole_dayText (day rest : Nat) : Text.Whole (dayText day rest) := by
  unfold dayText
  refine .append (.append (.append (.append (.append ?_ (by decide)) ?_) (by decide)) ?_)
    (by decide)
  · exact whole_dateText day
  · exact whole_clockText rest
  · exact whole_padded _ _

theorem ok_of_guard {c : Prop} [Decidable c] {f : Fault} {r : Except Fault String}
    (ok : (if c then .error f else r) = .ok time) : r = .ok time := by
  by_cases refused : c
  · rw [if_pos refused] at ok
    cases ok
  · rwa [if_neg refused] at ok

theorem whole_ofMilliseconds {instant : Int} (shown : ofMilliseconds instant = .ok time) :
    Text.Whole time := by
  have day := ok_of_guard (ok_of_guard (ok_of_guard shown))
  rw [← Except.ok.inj day]
  exact whole_dayText _ _

/-- A file has room for whatever time a clock shows. -/
theorem whole_text {clock : Num} (shown : text clock = .ok time) : Text.Whole time := by
  cases clock with
  | int n => exact whole_ofMilliseconds shown
  | float x =>
    rw [text] at shown
    cases decoded : Binary64.decode x with
    | notANumber =>
      rw [decoded] at shown
      cases shown
    | infinite negative =>
      rw [decoded] at shown
      cases shown
    | finite p =>
      rw [decoded] at shown
      exact whole_ofMilliseconds shown

end Timestamp

namespace Store

/-! ## Libraries -/

/-- What a library of apps can do. -/
structure Library (σ : Type) where
  save : σ → String → App → Except Fault App × σ
  load : σ → Value → Except Fault (Option App)
  delete : σ → Value → Except Fault (Bool × σ)
  /-- The summaries, where the files come in some order. -/
  list : σ → (Table Bytes → Table Bytes) → Except Fault (List Summary)

/-- What is asked of a library. -/
inductive Request where
  | save (clock : Num) (app : App)
  /-- Load an app, give it another name and save it again. -/
  | rename (clock : Num) (id name : String)
  | load (id : String)
  | delete (id : String)
  | list (order : Table Bytes → Table Bytes)

/-- What a library answers. -/
inductive Reply where
  /-- The clock shows nothing that has a text. -/
  | untimed (f : Fault)
  | saved (outcome : Except Fault App)
  | loaded (outcome : Except Fault (Option App))
  | deleted (outcome : Except Fault Bool)
  | listed (outcome : Except Fault (List Summary))

/-- Two libraries agree, and neither has failed: the same apps, the same words, and the same
summaries in the same order but for those of one time. -/
inductive Reply.Agree : Reply → Reply → Prop
  | untimed (f : Fault) : Agree (.untimed f) (.untimed f)
  | saved (app : App) : Agree (.saved (.ok app)) (.saved (.ok app))
  | loaded (app? : Option App) : Agree (.loaded (.ok app?)) (.loaded (.ok app?))
  | deleted (found : Bool) : Agree (.deleted (.ok found)) (.deleted (.ok found))
  | listed {xs ys : List Summary} (perm : xs.Perm ys)
      (times : xs.map (·.updatedAt) = ys.map (·.updatedAt)) :
      Agree (.listed (.ok xs)) (.listed (.ok ys))

namespace Library

variable {σ : Type}

/-- The library in memory, which has no files. -/
def shelf : Library Shelf where
  save s time app := (.ok (s.save time app).1, (s.save time app).2)
  load := Shelf.load
  delete := Shelf.delete
  list s _ := s.list

/-- The library in a directory. -/
def directory : Library Directory where
  save := Directory.save
  load := Directory.load
  delete := Directory.delete
  list d order := ({ d with files := order d.files } : Directory).list.1

/-- Save an app when the clock shows something. -/
def saveAt (l : Library σ) (s : σ) (clock : Num) (app : App) : Reply × σ :=
  match Timestamp.text clock with
  | .error f => (.untimed f, s)
  | .ok time => (.saved (l.save s time app).1, (l.save s time app).2)

/-- The answer to a request, and the library after it. -/
def answer (l : Library σ) (s : σ) : Request → Reply × σ
  | .save clock app => l.saveAt s clock app
  | .rename clock id name =>
    match l.load s (.str id) with
    | .ok (some app) => l.saveAt s clock (app.rename name)
    | outcome => (.loaded outcome, s)
  | .load id => (.loaded (l.load s (.str id)), s)
  | .delete id =>
    match l.delete s (.str id) with
    | .ok (found, t) => (.deleted (.ok found), t)
    | .error f => (.deleted (.error f), s)
  | .list order => (.listed (l.list s order), s)

/-- The answers to one request after the other. -/
def replies (l : Library σ) (s : σ) : List Request → List Reply
  | [] => []
  | request :: rest => (l.answer s request).1 :: l.replies (l.answer s request).2 rest

end Library

/-! ## Requests that both libraries understand -/

/-- An id that names its file. -/
structure LegalId (id : String) : Prop where
  visible : id ≠ ""
  safe : ∀ c ∈ id.toList, isUnsafe c = false
  legal : Directory.LegalName (id ++ Directory.suffix)

variable {id : String}

theorem LegalId.fileStem (legal : LegalId id) : fileStem (.str id) = .ok id := by
  have stem : stripUnsafe id = id := by
    rw [stripUnsafe, List.filter_eq_self.mpr, String.ofList_toList]
    intro c member
    rw [legal.safe c member]
    rfl
  have text : ((Value.str id).orElse (.str "")).toPlain = .ok id := by
    rw [Value.orElse, if_neg (by simpa [Value.isVacant] using legal.visible)]
    rfl
  refine bind_eq_ok.mpr ⟨id, text, ?_⟩
  dsimp only
  rw [stem, if_neg legal.visible]
  rfl

/-- The apps are documents that were loaded, their ids name files, and no order loses a file. -/
def Request.Admissible : Request → Prop
  | .save _ app => Keepable app ∧ LegalId app.id
  | .rename _ id name => LegalId id ∧ name ≠ "" ∧ Text.Whole name
  | .load id | .delete id => LegalId id
  | .list order => ∀ files, (order files).Perm files

/-! ## The shelf -/

@[simp] theorem Shelf.load_str (s : Shelf) (id : String) :
    s.load (.str id) = .ok (s.apps.get? id) := rfl

@[simp] theorem Shelf.delete_str (s : Shelf) (id : String) :
    s.delete (.str id)
      = .ok (if s.apps.has id then (true, ⟨s.apps.erase id⟩) else (false, s)) := by
  have found : (Value.str id).named? (fun name => if s.apps.has name then some name else none)
      = .ok (if s.apps.has id then some id else none) := rfl
  rw [Shelf.delete, found]
  by_cases present : s.apps.has id = true
  · rw [if_pos present, if_pos present]
    rfl
  · rw [if_neg present, if_neg present]
    rfl

namespace Library

open Directory (suffix draftSuffix)

/-! ## A directory that mirrors a shelf -/

/-- The file of an app. -/
def fileEntry : String × App → String × Bytes :=
  Prod.map (· ++ suffix) fun app => fileOf (Json.indented app.toValue)

/-- An app is on the shelf under its own id, with a time, and it survives a file. -/
structure Kept (e : String × App) : Prop where
  own : e.2.id = e.1
  keepable : Keepable e.2
  timed : (Summary.ofApp e.2).Timed

/-- The directory has the files of the apps on the shelf and no others. -/
structure Mirrors (d : Directory) (s : Shelf) : Prop where
  files : d.files = s.apps.map fileEntry
  kept : ∀ e ∈ s.apps, Kept e

namespace Mirrors

variable {d : Directory} {s : Shelf}

theorem suffix_injective {x y : String} (same : x ++ suffix = y ++ suffix) : x = y :=
  (String.append_left_inj suffix).mp same

theorem get? (mirrors : Mirrors d s) (id : String) :
    d.files.get? (id ++ suffix)
      = (s.apps.get? id).map fun app => fileOf (Json.indented app.toValue) := by
  rw [mirrors.files]
  exact Table.get?_map suffix_injective _ s.apps id

theorem load (mirrors : Mirrors d s) (legal : LegalId id) :
    d.load (.str id) = .ok (s.apps.get? id) := by
  have isName := Directory.fileName_of_stem legal.fileStem
  have file := mirrors.get? id
  cases found : s.apps.get? id with
  | none =>
    rw [found] at file
    exact Directory.load_of_no_file isName legal.legal file
  | some app =>
    rw [found] at file
    exact Directory.load_of_file isName legal.legal
      (mirrors.kept _ (Table.mem_of_get? found)).keepable file

/-- A draft is never left behind. -/
theorem erase_draft (mirrors : Mirrors d s) (id : String) :
    d.files.erase (id ++ suffix ++ draftSuffix) = d.files := by
  refine Table.erase_of_not_mem fun member => ?_
  rw [mirrors.files] at member
  obtain ⟨file, inside, same⟩ := List.mem_map.mp member
  obtain ⟨e, -, rfl⟩ := List.mem_map.mp inside
  exact Directory.file_ne_draft e.1 id same

theorem save (mirrors : Mirrors d s) {app : App} (keepable : Keepable app) (legal : LegalId app.id)
    (whole : Text.Whole time) :
    (d.save time app).1 = .ok (app.touch time)
      ∧ Mirrors (d.save time app).2 (s.save time app).2 := by
  have touched := keepable.touch whole
  rw [Directory.save_of_keepable legal.fileStem legal.legal touched, mirrors.erase_draft]
  refine ⟨rfl, ?_, fun e member => ?_⟩
  · show d.files.put _ _ = _
    rw [mirrors.files]
    exact Table.put_map suffix_injective _ s.apps app.id (app.touch time)
  · rcases Table.mem_put member with old | rfl
    · exact mirrors.kept e old
    · exact ⟨rfl, touched, time, rfl⟩

theorem delete (mirrors : Mirrors d s) (legal : LegalId id) :
    ∃ found e t, d.delete (.str id) = .ok (found, e) ∧ s.delete (.str id) = .ok (found, t)
      ∧ Mirrors e t := by
  rw [Directory.delete_of_stem legal.fileStem, legal.legal.find?, mirrors.get?, Shelf.delete_str,
    Table.has]
  cases s.apps.get? id with
  | none => exact ⟨false, d, s, rfl, rfl, mirrors⟩
  | some app =>
    refine ⟨true, _, _, rfl, rfl, ?_, fun e member => ?_⟩
    · show d.files.erase _ = _
      rw [mirrors.files]
      exact Table.erase_map suffix_injective _ s.apps id
    · exact mirrors.kept e (List.mem_filter.mp member).1

/-! ## Lists -/

@[simp] theorem isAppFile_fileEntry (e : String × App) :
    Directory.isAppFile (fileEntry e).1 = true := by
  rw [Directory.isAppFile, String.endsWith_eq_endsWith_toSlice, String.Slice.endsWith_string_iff,
    String.copy_toSlice]
  show suffix.toList <:+ (e.1 ++ suffix).toList
  rw [String.toList_append]
  exact List.suffix_append ..

theorem summaryOf_fileEntry {e : String × App} (kept : Kept e) :
    d.summaryOf (fileEntry e).1 (fileEntry e).2 = .ok (.inl (Summary.ofApp e.2)) := by
  have app : Directory.appOf (fileEntry e).2 = .ok e.2 := kept.keepable.appOf
  rw [Directory.summaryOf, app]

theorem mapM_summaryOf {apps : Table App} (kept : ∀ e ∈ apps, Kept e) :
    (apps.map fileEntry).mapM (fun e => d.summaryOf e.1 e.2)
      = .ok (apps.map fun e => .inl (Summary.ofApp e.2)) := by
  induction apps with
  | nil => rfl
  | cons e apps ih =>
    obtain ⟨first, others⟩ := List.forall_mem_cons.mp kept
    rw [List.map_cons, List.mapM_cons, summaryOf_fileEntry first, ih others]
    rfl

/-- A directory with the files of some apps lists these apps. -/
theorem list_of_files {apps : Table App} (files : d.files = apps.map fileEntry)
    (kept : ∀ e ∈ apps, Kept e) :
    d.list.1 = Summary.sort (apps.map fun e => Summary.ofApp e.2) := by
  have all : d.files.filter (fun e => Directory.isAppFile e.1) = apps.map fileEntry := by
    rw [files]
    refine List.filter_eq_self.mpr fun file member => ?_
    obtain ⟨e, -, rfl⟩ := List.mem_map.mp member
    exact isAppFile_fileEntry e
  have parts : (apps.map fun e => Sum.inl (Summary.ofApp e.2)).filterMap
      (Sum.getLeft? (β := Notice)) = apps.map fun e => Summary.ofApp e.2 := by
    rw [List.filterMap_map]
    exact congrFun List.filterMap_eq_map apps
  rw [Directory.list]
  rw [all, mapM_summaryOf kept]
  dsimp only
  rw [parts]

/-- The files of the shelf in another order are the files of its apps in another order. -/
theorem list (mirrors : Mirrors d s) {order : Table Bytes → Table Bytes}
    (complete : ∀ files, (order files).Perm files) :
    Reply.Agree (.listed (directory.list d order)) (.listed (shelf.list s order)) := by
  have perm : (order d.files).Perm (s.apps.map fileEntry) := mirrors.files ▸ complete d.files
  obtain ⟨apps, files, same⟩ :=
    (congrFun (congrFun (List.eq_map_comp_perm fileEntry) _) _).mpr perm
  have kept : ∀ e ∈ apps, Kept e := fun e member => mirrors.kept e (same.mem_iff.mp member)
  have timed : ∀ x ∈ apps.map (fun e => Summary.ofApp e.2), x.Timed := by
    intro x member
    obtain ⟨e, inside, rfl⟩ := List.mem_map.mp member
    exact (kept e inside).timed
  obtain ⟨out, out', done, done', outPerm, times⟩ :=
    Summary.sort_of_perm (same.map fun e => Summary.ofApp e.2) timed
  have listed : directory.list d order = .ok out := (list_of_files files kept).trans done
  have shown : shelf.list s order = .ok out' := done'
  rw [listed, shown]
  exact .listed outPerm times

/-! ## Runs -/

theorem saveAt (mirrors : Mirrors d s) (clock : Num) {app : App} (keepable : Keepable app)
    (legal : LegalId app.id) :
    (directory.saveAt d clock app).1.Agree (shelf.saveAt s clock app).1
      ∧ Mirrors (directory.saveAt d clock app).2 (shelf.saveAt s clock app).2 := by
  cases shown : Timestamp.text clock with
  | error f =>
    simp only [Library.saveAt, shown]
    exact ⟨.untimed f, mirrors⟩
  | ok time =>
    obtain ⟨saved, next⟩ := mirrors.save keepable legal (Timestamp.whole_text shown)
    simp only [Library.saveAt, shown]
    refine ⟨?_, next⟩
    show Reply.Agree (.saved (d.save time app).1) _
    rw [saved]
    exact .saved (app.touch time)

/-- One request: the libraries agree, and the directory is a mirror again. -/
theorem answer (mirrors : Mirrors d s) {request : Request} (admissible : request.Admissible) :
    (directory.answer d request).1.Agree (shelf.answer s request).1
      ∧ Mirrors (directory.answer d request).2 (shelf.answer s request).2 := by
  cases request with
  | save clock app => exact mirrors.saveAt clock admissible.1 admissible.2
  | rename clock id name =>
    obtain ⟨legal, visible, whole⟩ := admissible
    have left : directory.load d (.str id) = .ok (s.apps.get? id) := mirrors.load legal
    have right : shelf.load s (.str id) = .ok (s.apps.get? id) := s.load_str id
    simp only [Library.answer, left, right]
    cases found : s.apps.get? id with
    | none => exact ⟨.loaded none, mirrors⟩
    | some app =>
      have kept := mirrors.kept _ (Table.mem_of_get? found)
      have own : app.id = id := kept.own
      exact mirrors.saveAt clock (kept.keepable.rename visible whole) (own ▸ legal)
  | load id =>
    have left : directory.load d (.str id) = .ok (s.apps.get? id) := mirrors.load admissible
    have right : shelf.load s (.str id) = .ok (s.apps.get? id) := s.load_str id
    simp only [Library.answer, left, right]
    exact ⟨.loaded _, mirrors⟩
  | delete id =>
    obtain ⟨found, e, t, deleted, erased, next⟩ := mirrors.delete admissible
    have left : directory.delete d (.str id) = .ok (found, e) := deleted
    have right : shelf.delete s (.str id) = .ok (found, t) := erased
    simp only [Library.answer, left, right]
    exact ⟨.deleted found, next⟩
  | list order => exact ⟨mirrors.list admissible, mirrors⟩

theorem replies (mirrors : Mirrors d s) {requests : List Request}
    (admissible : ∀ request ∈ requests, request.Admissible) :
    List.Forall₂ Reply.Agree (directory.replies d requests) (shelf.replies s requests) := by
  induction requests generalizing d s with
  | nil => exact .nil
  | cons request requests ih =>
    obtain ⟨first, others⟩ := List.forall_mem_cons.mp admissible
    obtain ⟨agree, next⟩ := mirrors.answer first
    exact .cons agree (ih next others)

end Mirrors

/-- A directory that is empty at first and a shelf that is empty at first agree on every row of
requests, and none of them fails but where a clock shows no time. -/
theorem directory_refines_shelf (path : String) (requests : List Request)
    (admissible : ∀ request ∈ requests, request.Admissible) :
    List.Forall₂ Reply.Agree (directory.replies ⟨path, []⟩ requests)
      (shelf.replies {} requests) := by
  have empty : Mirrors ⟨path, []⟩ {} := ⟨rfl, List.forall_mem_nil _⟩
  exact empty.replies admissible

theorem legalId_ab : LegalId "ab" where
  visible := by decide
  safe c member := by
    have plain : ("ab".toList.all fun c => !isUnsafe c) = true := by decide
    simpa using List.all_eq_true.mp plain c member
  legal := { noZero := by rw [String.contains_char_eq]; decide, short := by decide }

/-- An afternoon in a library with one app. -/
def afternoon : List Request :=
  [.rename (.int 0) "ab" "Map", .save (.int 0) (Directory.leaflet "ab"),
    .rename (.int 1) "ab" "Map", .list List.reverse, .delete "ab", .load "ab"]

theorem directory_refines_shelf_afternoon :
    (∀ request ∈ afternoon, request.Admissible)
      ∧ List.Forall₂ Reply.Agree (directory.replies ⟨"apps", []⟩ afternoon)
        (let first := (Directory.leaflet "ab").touch "1970-01-01T00:00:00.000Z"
        let second := (first.rename "Map").touch "1970-01-01T00:00:00.001Z"
        [.loaded (.ok none), .saved (.ok first), .saved (.ok second),
          .listed (.ok [Summary.ofApp second]), .deleted (.ok true), .loaded (.ok none)]) := by
  have admissible : ∀ request ∈ afternoon, request.Admissible := by
    simp only [afternoon, List.forall_mem_cons]
    exact ⟨⟨legalId_ab, by decide, by decide⟩, ⟨Directory.keepable_leaflet, legalId_ab⟩,
      ⟨legalId_ab, by decide, by decide⟩, List.reverse_perm, legalId_ab, legalId_ab,
      List.forall_mem_nil _⟩
  refine ⟨admissible, ?_⟩
  have early : Timestamp.text (.int 0) = .ok "1970-01-01T00:00:00.000Z" :=
    App.eq_ok_of_toOption (by decide +kernel)
  have late : Timestamp.text (.int 1) = .ok "1970-01-01T00:00:00.001Z" :=
    App.eq_ok_of_toOption (by decide +kernel)
  have agree := directory_refines_shelf "apps" afternoon admissible
  simp only [afternoon, replies, answer, saveAt, early, late] at agree ⊢
  exact agree

end Library

end Store

end Wireboard
