import Wireboard.Proofs.Document.Refusal
import Wireboard.Proofs.Document.Summary
import Wireboard.Proofs.Json.Nesting
import Wireboard.Store.Library

/-!
# Lists of a directory with any files

A directory is listed by loading all files that could be those of apps.  What is in a file may be
anything.  Bytes that are no text, texts that are no JSON and values that are no documents are
passed over, and so are numbers that are too long.  But three things stop the list: a document whose
pages or layers have no members, a text or a document that is nested too deeply (`Jams`), and times
of last changes that cannot be compared.

`listing_outcome` says when there is a list, and that it has one summary for each file with an app.
For a single file the outcomes are `appOf_of_jams` and `isBadValue_of_appOf`; all files together are
an induction over the entries of the directory.
-/

namespace Wireboard.Store.Directory

variable {d : Directory} {file : Bytes} {reach : Reach}

/-- The files that could be those of apps. -/
def appFiles (d : Directory) : Table Bytes := d.files.filter fun e => isAppFile e.1

/-- The summary of the app in a file, if there is one. -/
def summary? (reach : Reach) (file : Bytes) : Option Summary :=
  (appOf file reach).toOption.map Summary.ofApp

/-- One summary for each file with an app. -/
def summaries (d : Directory) (reach : Reach := {}) : List Summary :=
  d.appFiles.filterMap fun e => summary? reach e.2

/-- The file stops the list. -/
inductive Jams (reach : Reach) (file : Bytes) : Prop where
  /-- Its text is nested too deeply. -/
  | outer {text : String} {task : Descent} : textOf file = .ok text →
      Json.read text reach.reading = .error (.tooDeep task) → Jams reach file
  /-- It holds another text, which is nested too deeply. -/
  | inner {text inner : String} {task : Descent} : textOf file = .ok text →
      Json.read text reach.reading = .ok (.str inner) →
      Json.read inner reach.reading = .error (.tooDeep task) → Jams reach file
  /-- It holds a document, and the decoder does not get through it. -/
  | document {text : String} {v : Value} {t : Table Value} : textOf file = .ok text →
      Json.read text reach.reading = .ok v → App.Denotes reach v (.obj t) → App.IsDocument t →
      ¬ App.Decodable reach t → Jams reach file

/-- No file stops the list. -/
def Smooth (d : Directory) (reach : Reach := {}) : Prop := ∀ e ∈ d.appFiles, ¬ Jams reach e.2

/-! ## One file -/

theorem isBadValue_of_textOf {f : Fault} (failed : textOf file = .error f) :
    f.isBadValue = true := by
  unfold textOf at failed
  cases decoded : Text.decodeUtf8 file with
  | ok cs =>
    rw [decoded] at failed
    cases failed
  | error trouble =>
    rw [decoded] at failed
    cases failed
    rfl

theorem tidy_of_denotes {v w : Value} (tidy : v.Tidy) (denotes : App.Denotes reach v w) :
    w.Tidy := by
  cases v with
  | str text => exact Json.tidy_of_read (Json.read_of_room denotes)
  | _ =>
    cases denotes
    exact tidy

theorem appOf_of_read {text : String} {v : Value} (isText : textOf file = .ok text)
    (read : Json.read text reach.reading = .ok v) : appOf file reach = App.load v reach := by
  rw [appOf, isText]
  show (Json.read text reach.reading >>= fun v => App.load v reach) = App.load v reach
  rw [read]
  rfl

/-- A file that jams fails in its own way.  What was read is tidy, so no number in it is too long
for a text. -/
theorem appOf_of_jams (jams : Jams reach file) :
    ∃ f, appOf file reach = .error f ∧ f.isStuck = true := by
  cases jams with
  | @outer text task isText deep =>
    refine ⟨.tooDeep task, ?_, rfl⟩
    rw [appOf, isText]
    show (Json.read _ reach.reading >>= _) = _
    rw [deep]
    rfl
  | @inner text inner task isText read deep =>
    refine ⟨.tooDeep task, ?_, rfl⟩
    rw [appOf_of_read isText read, App.load, App.ofText, deep]
    rfl
  | @document text v t isText read denotes document stuck =>
    have tidy := tidy_of_denotes (Json.tidy_of_read (Json.read_of_room read)) denotes
    have hinges := App.hinges_ofValue reach document
    rw [appOf_of_read isText read, App.load_of_denotes denotes]
    cases decoded : App.ofValue (.obj t) reach with
    | ok app => exact absurd (hinges.succeeds.mp ⟨app, decoded⟩) stuck
    | error f => exact ⟨f, rfl, (hinges.fails f decoded).resolve_right fun long => long.2 tidy⟩

theorem isBadValue_of_load {v : Value} {f : Fault}
    (shallow : ∀ text task, v = .str text → Json.read text reach.reading ≠ .error (.tooDeep task))
    (smooth : ∀ t, App.Denotes reach v (.obj t) → App.IsDocument t → App.Decodable reach t)
    (failed : App.load v reach = .error f) : f.isBadValue = true := by
  rcases App.denotes_or_stops reach v with ⟨w, denotes⟩ | ⟨text, trouble, rfl, stopped⟩ |
    ⟨text, digits, rfl, stopped⟩ | ⟨text, task, isText, stopped⟩
  · rw [App.load_of_denotes denotes] at failed
    by_cases document : ∃ t, w = .obj t ∧ App.IsDocument t
    · obtain ⟨t, rfl, document⟩ := document
      obtain ⟨app, ok⟩ :=
        (App.hinges_ofValue reach document).succeeds.mpr (smooth t denotes document)
      rw [ok] at failed
      cases failed
    · obtain ⟨cause, refused⟩ := App.ofValue_of_no_document reach
        fun t isObject isDocument => document ⟨t, isObject, isDocument⟩
      rw [refused] at failed
      cases failed
      rfl
  · rw [App.load, App.ofText, stopped] at failed
    cases failed
    rfl
  · rw [App.load, App.ofText, stopped] at failed
    cases failed
    rfl
  · exact absurd stopped (shallow text task isText)

/-- Whatever else a file holds, it is passed over if it holds no app. -/
theorem isBadValue_of_appOf {f : Fault} (smooth : ¬ Jams reach file)
    (failed : appOf file reach = .error f) : f.isBadValue = true := by
  cases isText : textOf file with
  | error g =>
    rw [appOf, isText] at failed
    cases failed
    exact isBadValue_of_textOf isText
  | ok text =>
    cases read : Json.read text reach.reading with
    | error g =>
      rw [appOf, isText] at failed
      replace failed : (Json.read text reach.reading >>= _) = .error f := failed
      rw [read] at failed
      cases failed
      refine Json.isBadValue_of_read (fun task deep => ?_) read
      exact smooth (.outer isText (deep ▸ read))
    | ok v =>
      rw [appOf_of_read isText read] at failed
      refine isBadValue_of_load (fun inner task isInner deep => ?_) (fun t denotes document => ?_)
        failed
      · exact smooth (.inner isText (isInner ▸ read) deep)
      · exact Classical.byContradiction fun stuck =>
          smooth (.document isText read denotes document stuck)

theorem isBadValue_of_isStuck {f : Fault} (stuck : f.isStuck = true) : f.isBadValue = false := by
  cases f <;> first | rfl | cases stuck

theorem summaryOf_of_jams (d : Directory) (name : String) (jams : Jams reach file) :
    ∃ f, d.summaryOf name file reach = .error f ∧ f.isStuck = true := by
  obtain ⟨f, failed, stuck⟩ := appOf_of_jams jams
  refine ⟨f, ?_, stuck⟩
  rw [summaryOf, failed]
  exact if_neg (by rw [isBadValue_of_isStuck stuck]; exact Bool.false_ne_true)

theorem exists_summaryOf (d : Directory) (name : String) (smooth : ¬ Jams reach file) :
    ∃ part, d.summaryOf name file reach = .ok part ∧ part.getLeft? = summary? reach file := by
  unfold summaryOf summary?
  cases found : appOf file reach with
  | ok app => exact ⟨_, rfl, rfl⟩
  | error f => exact ⟨_, if_pos (isBadValue_of_appOf smooth found), rfl⟩

/-! ## All files -/

theorem exists_parts {entries : Table Bytes} (smooth : ∀ e ∈ entries, ¬ Jams reach e.2) :
    ∃ parts, entries.mapM (fun e => d.summaryOf e.1 e.2 reach) = .ok parts
      ∧ parts.filterMap Sum.getLeft? = entries.filterMap fun e => summary? reach e.2 := by
  induction entries with
  | nil => exact ⟨[], rfl, rfl⟩
  | cons e entries ih =>
    obtain ⟨first, others⟩ := List.forall_mem_cons.mp smooth
    obtain ⟨part, isPart, left⟩ := exists_summaryOf d e.1 first
    obtain ⟨parts, areParts, lefts⟩ := ih others
    refine ⟨part :: parts, ?_, ?_⟩
    · rw [List.mapM_cons, isPart, areParts]
      rfl
    · rw [List.filterMap_cons, List.filterMap_cons, left, lefts]

theorem mapM_of_jams {entries : Table Bytes} {e : String × Bytes} (member : e ∈ entries)
    (jams : Jams reach e.2) :
    ∃ f, entries.mapM (fun e => d.summaryOf e.1 e.2 reach) = .error f ∧ f.isStuck = true := by
  induction entries with
  | nil => cases member
  | cons first entries ih =>
    rw [List.mapM_cons]
    by_cases early : Jams reach first.2
    · obtain ⟨f, failed, stuck⟩ := summaryOf_of_jams d first.1 early
      rw [failed]
      exact ⟨f, rfl, stuck⟩
    · obtain ⟨part, isPart, -⟩ := exists_summaryOf d first.1 early
      rcases List.mem_cons.mp member with rfl | later
      · exact absurd jams early
      · obtain ⟨f, failed, stuck⟩ := ih later
        rw [isPart, failed]
        exact ⟨f, rfl, stuck⟩

theorem list_of_smooth (smooth : d.Smooth reach) :
    (d.list reach).1 = Summary.sort (d.summaries reach) reach := by
  obtain ⟨parts, areParts, lefts⟩ := exists_parts (d := d) smooth
  unfold appFiles at areParts
  unfold list
  dsimp only
  rw [areParts, summaries, ← lefts]

theorem list_of_not_smooth (rough : ¬ d.Smooth reach) :
    ∃ f, (d.list reach).1 = .error f ∧ f.isStuck = true := by
  simp only [Smooth, Classical.not_forall, Classical.not_not] at rough
  obtain ⟨e, member, jams⟩ := rough
  obtain ⟨f, failed, stuck⟩ := mapM_of_jams (d := d) member jams
  unfold appFiles at failed
  unfold list
  dsimp only
  rw [failed]
  exact ⟨f, rfl, stuck⟩

/-- A file holds an app if its text is that of one, or says such a text. -/
theorem appOf_eq_ok_iff {app : App} : appOf file reach = .ok app ↔
    ∃ text, textOf file = .ok text ∧ (App.load (.str text) reach = .ok app
      ∨ ∃ inner, Json.read text reach.reading = .ok (.str inner)
        ∧ App.load (.str inner) reach = .ok app) := by
  constructor
  · intro ok
    obtain ⟨text, isText, ok⟩ := bind_eq_ok.mp ok
    obtain ⟨v, read, ok⟩ := bind_eq_ok.mp ok
    refine ⟨text, isText, ?_⟩
    cases v with
    | str inner => exact .inr ⟨inner, read, ok⟩
    | _ =>
      refine .inl ?_
      rw [App.load_of_denotes (v := .str text) read]
      exact ok
  · rintro ⟨text, isText, ok | ⟨inner, read, ok⟩⟩
    · obtain ⟨v, read, ok⟩ := bind_eq_ok.mp ok
      refine bind_eq_ok.mpr ⟨text, isText, bind_eq_ok.mpr ⟨v, Json.ok_of_mapError read, ?_⟩⟩
      cases v with
      | str inner => cases ok
      | _ => exact ok
    · exact bind_eq_ok.mpr ⟨text, isText, bind_eq_ok.mpr ⟨_, read, ok⟩⟩

/-- Whatever the files of a directory hold, this is the outcome of a list.

A list that is given has one summary for each file with an app and no others; such a file holds the
text of a document, or a text within a text.  A list is given only if no file jams and all times of
last changes are on one scale, and it is certainly given if no file jams and any two times can be
compared.  The two come to the same unless some time is a list.  A file that jams stops the list
with its own fault: something has no members, or is nested too deeply. -/
theorem listing_outcome (reach : Reach) (d : Directory) :
    (∀ out, (d.list reach).1 = .ok out → out.Perm (d.summaries reach) ∧ d.Smooth reach
        ∧ (d.summaries reach).Pairwise Summary.OneScale)
      ∧ (∀ file app, appOf file reach = .ok app ↔ ∃ text, textOf file = .ok text
          ∧ (App.load (.str text) reach = .ok app
            ∨ ∃ inner, Json.read text reach.reading = .ok (.str inner)
              ∧ App.load (.str inner) reach = .ok app))
      ∧ (d.Smooth reach → (d.summaries reach).Pairwise (Summary.Comparable reach) →
          ∃ out, (d.list reach).1 = .ok out)
      ∧ (d.Smooth reach → (∀ s ∈ d.summaries reach, s.key.scale ≠ .list) →
          (d.summaries reach).Pairwise Summary.OneScale → ∃ out, (d.list reach).1 = .ok out)
      ∧ (¬ d.Smooth reach → ∃ f, (d.list reach).1 = .error f ∧ f.isStuck = true) := by
  have sufficient (smooth : d.Smooth reach)
      (comparable : (d.summaries reach).Pairwise (Summary.Comparable reach)) :
      ∃ out, (d.list reach).1 = .ok out := by
    rw [list_of_smooth smooth]
    exact Summary.exists_sort_of_comparable comparable
  refine ⟨fun out ok => ?_, fun file app => appOf_eq_ok_iff, sufficient,
    fun smooth single together => ?_, list_of_not_smooth⟩
  · have smooth : d.Smooth reach := by
      refine Classical.byContradiction fun rough => ?_
      obtain ⟨f, failed, -⟩ := list_of_not_smooth rough
      rw [ok] at failed
      cases failed
    rw [list_of_smooth smooth] at ok
    obtain ⟨perm, together⟩ := Summary.oneScale_of_sort ok
    exact ⟨perm, smooth, together⟩
  · refine sufficient smooth (together.imp_of_mem fun member _ same => ?_)
    exact same.comparable (single _ member)

/-- A directory with an app, a text that is no JSON, bytes that are no text, a value that is no
document, and a file of another kind. -/
def drawer : Directory where
  path := "apps"
  files := [
    ("a.json", fileOf
      "\x7b\"name\":\"A\",\"uiComponents\":[],\"nodes\":[],\"connections\":[]\x7d"),
    ("b.json", fileOf "\x7b\"name\":"), ("c.json", [0xff]), ("d.json", fileOf "5"),
    ("e.txt", fileOf "5")]

theorem smooth_of_summaryOf
    (all : ∀ e ∈ d.appFiles, (d.summaryOf e.1 e.2).toOption.isSome = true) : d.Smooth := by
  intro e member jams
  obtain ⟨f, failed, -⟩ := summaryOf_of_jams d e.1 jams
  have found := all e member
  rw [failed] at found
  cases found

theorem listing_outcome_drawer :
    drawer.Smooth ∧ ∃ out, drawer.list.1 = .ok out ∧ out.Perm drawer.summaries := by
  have smooth : drawer.Smooth := smooth_of_summaryOf (by decide +kernel)
  have one : drawer.summaries.length = 1 := by decide +kernel
  have comparable : drawer.summaries.Pairwise (Summary.Comparable {}) := by
    obtain ⟨s, only⟩ := List.length_eq_one_iff.mp one
    rw [only]
    exact List.pairwise_singleton _ _
  obtain ⟨whole, -, given, -⟩ := listing_outcome {} drawer
  obtain ⟨out, ok⟩ := given smooth comparable
  exact ⟨smooth, out, ok, (whole out ok).1⟩

end Wireboard.Store.Directory
