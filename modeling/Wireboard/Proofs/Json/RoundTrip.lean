import Wireboard.Proofs.Json.Tidy
import Wireboard.Proofs.Json.Tokens

/-!
# Reading back what was written: values

A written text, indented or on one line, reads back as the value it was written for
(`read_indented`, `read_line`).  What is asked of the value is that it is `Tidy`, the shape of what
the reader itself gives, and that each of its doubles reads back on its own.

This is proved piece by piece.  A text *reads* as a value if the reader finds the value there
whatever follows, as long as it is `Delimited`; it may leave blanks behind, since it skips blanks
after every value.  The fuel of the reader counts characters, so what has to be shown about it is
that a part of a text is shorter than the text.  The two ways to write differ in the blanks inside
of brackets only, which is what a `Spacing` says.
-/

namespace Wireboard

mutual

/-- The doubles in a value. -/
def Value.doubles : Value → List Float
  | .float x => [x]
  | .list items => doublesOfItems items
  | .obj fields => doublesOfFields fields
  | .null | .bool _ | .int _ | .nan _ | .str _ => []

/-- The doubles in the items of a list. -/
def Value.doublesOfItems : List Value → List Float
  | [] => []
  | v :: rest => v.doubles ++ doublesOfItems rest

/-- The doubles in the fields of an object. -/
def Value.doublesOfFields : List (String × Value) → List Float
  | [] => []
  | (_, v) :: rest => v.doubles ++ doublesOfFields rest

end

variable {x : Float} {items : List Value}

@[simp] theorem Value.mem_doubles_list :
    x ∈ (Value.list items).doubles ↔ ∃ v ∈ items, x ∈ v.doubles := by
  rw [doubles]
  induction items with
  | nil => simp [doublesOfItems]
  | cons v items ih => simp [doublesOfItems, ih]

@[simp] theorem Value.mem_doubles_obj {fields : Table Value} :
    x ∈ (Value.obj fields).doubles ↔ ∃ e ∈ fields, x ∈ e.2.doubles := by
  rw [doubles]
  induction fields with
  | nil => simp [doublesOfFields]
  | cons e fields ih => simp [doublesOfFields, ih]

namespace Json

/-! ## Blanks -/

variable {cs : List Char}

theorem skipSpace_append_of_ne_nil (rest : List Char) (visible : skipSpace cs ≠ []) :
    skipSpace (cs ++ rest) = skipSpace cs ++ rest := by
  rw [skipSpace, skipSpace, List.dropWhile_append, if_neg]
  simpa [skipSpace, List.isEmpty_iff] using visible

theorem skipSpace_append_of_eq_nil (rest : List Char) (blank : skipSpace cs = []) :
    skipSpace (cs ++ rest) = skipSpace rest := by
  rw [skipSpace, skipSpace, List.dropWhile_append, if_pos]
  simpa [skipSpace, List.isEmpty_iff] using blank

@[simp] theorem skipSpace_blank (cs : List Char) : skipSpace (' ' :: cs) = skipSpace cs := rfl

@[simp] theorem skipSpace_newLine (level : Nat) : skipSpace (newLine level).toList = [] := by
  simp [newLine, skipSpace, isSpace]

/-! ## Atoms -/

/-- The text reads as the value: the reader finds the value there, and leaves what follows, apart
from blanks. -/
def Reads (text : List Char) (v : Value) : Prop :=
  ∀ fuel rest, 2 * text.length ≤ fuel → Delimited rest →
    ∃ tail, readValue none fuel (skipSpace (text ++ rest)) = .ok (v, tail)
      ∧ skipSpace tail = skipSpace rest

/-- No word and no number begins with a blank, a quote or a bracket. -/
theorem ne_of_readAtom {c : Char} {rest : List Char} {r : Value × List Char}
    (ok : readAtom (c :: rest) = .ok r) :
    c ∉ [' ', '\t', '\n', '\r', '"', '[', ']', '\x7b', Char.ofNat 0xfeff] := by
  intro member
  simp only [List.mem_cons, List.not_mem_nil, or_false] at member
  rcases member with rfl | rfl | rfl | rfl | rfl | rfl | rfl | rfl | rfl <;> cases ok

theorem skipSpace_of_readAtom {r : Value × List Char} (ok : readAtom cs = .ok r) :
    skipSpace cs = cs := by
  cases cs with
  | nil => rfl
  | cons c rest =>
    have visible := ne_of_readAtom ok
    simp only [List.mem_cons, not_or] at visible
    simp [skipSpace, isSpace, visible]

theorem readValue_of_plain {c : Char} (fuel : Nat) (rest : List Char) (quote : c ≠ '"')
    (bracket : c ≠ '[') (brace : c ≠ '\x7b') :
    readValue none (fuel + 1) (c :: rest) = readAtom (c :: rest) := by
  rw [readValue]
  · rintro _ same; cases same; exact quote rfl
  · rintro _ same; cases same; exact bracket rfl
  · rintro _ same; cases same; exact brace rfl

variable {after : List Char}

/-- A text that is a word or a number, with blanks around it, reads as its value. -/
theorem reads_of_readAtom {text after : List Char} {v : Value}
    (ok : readAtom (skipSpace text) = .ok (v, after)) (blank : skipSpace after = []) :
    Reads text v := by
  intro fuel rest enough delimited
  cases stripped : skipSpace text with
  | nil =>
    rw [stripped] at ok
    cases ok
  | cons c cs =>
    have visible : skipSpace text ≠ [] := by
      rw [stripped]
      exact List.cons_ne_nil _ _
    have first := ne_of_readAtom (stripped ▸ ok)
    simp only [List.mem_cons, not_or] at first
    obtain ⟨-, -, -, -, quote, bracket, -, brace, -⟩ := first
    have some : fuel ≠ 0 := by
      rintro rfl
      have empty : text = [] := List.eq_nil_of_length_eq_zero (by omega)
      rw [empty] at visible
      exact visible rfl
    obtain ⟨fuel, rfl⟩ := Nat.exists_eq_succ_of_ne_zero some
    refine ⟨after ++ rest, ?_, skipSpace_append_of_eq_nil rest blank⟩
    rw [skipSpace_append_of_ne_nil rest visible, stripped, List.cons_append,
      readValue_of_plain fuel _ quote bracket brace, ← List.cons_append, ← stripped]
    exact readAtom_append delimited ok

/-- A double is read as a word or a number. -/
theorem readAtom_of_readValue_float {fuel : Nat}
    (ok : readValue none fuel cs = .ok (.float x, after)) :
    readAtom cs = .ok (.float x, after) := by
  cases fuel with
  | zero => cases ok
  | succ fuel =>
    unfold readValue at ok
    split at ok
    next => split at ok <;> cases ok
    next =>
      dsimp only [inside?] at ok
      split at ok
      next => cases ok
      next => split at ok <;> cases ok
    next =>
      dsimp only [inside?] at ok
      split at ok
      next => cases ok
      next => split at ok <;> cases ok
    next => exact ok

/-- The text of the double is read as this double. -/
def ReadsBack (x : Float) : Prop := read (Number.shortestText openEnds x) = .ok (.float x)

/-- A double that reads back on its own reads back wherever it stands. -/
theorem ReadsBack.reads (back : ReadsBack x) :
    Reads (Number.shortestText openEnds x).toList (.float x) := by
  obtain ⟨after, value, blank⟩ := readChars_eq_ok.mp (readChars_of_read back)
  exact reads_of_readAtom (readAtom_of_readValue_float value) blank

/-- A text in quotes reads as itself. -/
theorem reads_stringText (s : String) : Reads (stringText s).toList (.str s) := by
  intro fuel rest enough _
  have shape : (stringText s).toList = '"' :: s.toList.flatMap escape ++ ['"'] := by
    rw [stringText, String.toList_ofList]
  have some : fuel ≠ 0 := by
    rintro rfl
    rw [shape] at enough
    simp at enough
  obtain ⟨fuel, rfl⟩ := Nat.exists_eq_succ_of_ne_zero some
  refine ⟨rest, ?_, rfl⟩
  rw [shape]
  show readValue none (fuel + 1) ('"' :: (s.toList.flatMap escape ++ ['"'] ++ rest)) = _
  rw [List.append_assoc, List.singleton_append, readValue, scanString_flatMap_escape]
  simp

/-! ## Lists and objects -/

-- The reader looks for the closing bracket of an empty list before it looks for items; where it
-- finds items there is no such bracket.
theorem readValue_of_readItems {fuel : Nat} {rest tail : List Char}
    (ok : readItems none fuel (skipSpace rest) = .ok (items, tail)) :
    readValue none (fuel + 1) ('[' :: rest) = .ok (.list items, tail) := by
  rw [readValue]
  dsimp only [inside?]
  split
  next after closed =>
    rw [closed] at ok
    rcases fuel with _ | _ | fuel <;> cases ok
  next => rw [ok]

variable {fields : List (String × Value)}

theorem readValue_of_readFields {fuel : Nat} {rest tail : List Char}
    (ok : readFields none fuel (skipSpace rest) = .ok (fields, tail)) :
    readValue none (fuel + 1) ('\x7b' :: rest) = .ok (.obj (Table.ofEntries fields), tail) := by
  rw [readValue]
  dsimp only [inside?]
  split
  next after closed =>
    rw [closed] at ok
    cases fuel <;> cases ok
  next => rw [ok]

theorem readItems_of_bracket {fuel : Nat} {tail : List Char} {v : Value}
    (value : readValue none fuel cs = .ok (v, after)) (closed : skipSpace after = ']' :: tail) :
    readItems none (fuel + 1) cs = .ok ([v], tail) := by
  simp only [readItems, value, closed]

theorem readItems_of_comma {fuel : Nat} {more tail : List Char} {v : Value}
    (value : readValue none fuel cs = .ok (v, after)) (comma : skipSpace after = ',' :: more)
    (others : readItems none fuel (skipSpace more) = .ok (items, tail)) :
    readItems none (fuel + 1) cs = .ok (v :: items, tail) := by
  simp only [readItems, value, comma, others]

/-- The blanks inside of brackets: in front of what stands there, behind each comma, and in front of
the closing bracket. -/
structure Spacing where
  lead : List Char
  gap : List Char
  close : List Char
  lead_blank : skipSpace lead = []
  gap_blank : skipSpace gap = []
  close_blank : skipSpace close = []
  delimited {c : Char} (known : c ∈ delimiters) (rest : List Char) : Delimited (close ++ c :: rest)

namespace Spacing

/-- The spacing of a text on one line. -/
def oneLine : Spacing where
  lead := []
  gap := [' ']
  close := []
  lead_blank := rfl
  gap_blank := rfl
  close_blank := rfl
  delimited known rest := delimited_cons known rest

/-- The spacing of an indented text, inside of brackets that stand at a level. -/
def indented (level : Nat) : Spacing where
  lead := (newLine (level + 1)).toList
  gap := (newLine (level + 1)).toList
  close := (newLine level).toList
  lead_blank := skipSpace_newLine (level + 1)
  gap_blank := skipSpace_newLine (level + 1)
  close_blank := skipSpace_newLine level
  delimited _ _ := by
    rw [newLine, String.toList_ofList]
    exact delimited_cons (by decide) _

variable (s : Spacing)

/-- Texts with commas between them. -/
def row : List (List Char) → List Char
  | [] => []
  | [text] => text
  | text :: rest => text ++ ',' :: (s.gap ++ row rest)

theorem row_map_cons {α : Type} (f : α → List Char) (a b : α) (rest : List α) :
    s.row ((a :: b :: rest).map f) = f a ++ ',' :: (s.gap ++ s.row ((b :: rest).map f)) := by
  rw [List.map_cons, row]
  exact List.cons_ne_nil _ _

/-- What writes things one after the other, with commas between them, writes a row. -/
theorem toList_eq_row {α : Type} {s : Spacing} {join : List α → String} {text : α → List Char}
    (nil : join [] = "") (one : ∀ a, (join [a]).toList = text a)
    (more : ∀ a b rest, (join (a :: b :: rest)).toList
      = text a ++ ',' :: (s.gap ++ (join (b :: rest)).toList)) (xs : List α) :
    (join xs).toList = s.row (xs.map text) := by
  induction xs with
  | nil => rw [nil]; rfl
  | cons a xs ih =>
    cases xs with
    | nil => exact one a
    | cons b rest => rw [more, ih, s.row_map_cons]

/-- What stands inside of brackets, with the closing one. -/
def enclose (texts : List (List Char)) (closing : Char) : List Char :=
  s.lead ++ (s.row texts ++ (s.close ++ [closing]))

theorem skipSpace_enclose (texts : List (List Char)) (closing : Char) (rest : List Char) :
    skipSpace (s.enclose texts closing ++ rest)
      = skipSpace (s.row texts ++ (s.close ++ closing :: rest)) := by
  rw [enclose, List.append_assoc, skipSpace_append_of_eq_nil _ s.lead_blank]
  simp only [List.append_assoc, List.singleton_append]

theorem length_row_lt_enclose (texts : List (List Char)) (closing : Char) :
    (s.row texts).length < (s.enclose texts closing).length := by
  simp only [enclose, List.length_append, List.length_singleton]
  omega

end Spacing

section Spaced

variable (s : Spacing) (write : Value → List Char)

/-- The items of a list read back, if each of them does. -/
theorem readItems_row (nonempty : items ≠ []) (reads : ∀ v ∈ items, Reads (write v) v)
    (rest : List Char) {fuel : Nat} (enough : 2 * (s.row (items.map write)).length + 1 ≤ fuel) :
    readItems none fuel (skipSpace (s.row (items.map write) ++ (s.close ++ ']' :: rest)))
      = .ok (items, rest) := by
  induction items generalizing fuel with
  | nil => exact (nonempty rfl).elim
  | cons v items ih =>
    obtain ⟨fuel, rfl⟩ := Nat.exists_eq_succ_of_ne_zero (show fuel ≠ 0 by omega)
    obtain ⟨first, others⟩ := List.forall_mem_cons.mp reads
    cases items with
    | nil =>
      rw [List.map_cons, List.map_nil, Spacing.row] at enough ⊢
      obtain ⟨tail, ok, left⟩ := first fuel _ (by omega) (s.delimited (c := ']') (by decide) rest)
      exact readItems_of_bracket ok (left.trans (skipSpace_append_of_eq_nil _ s.close_blank))
    | cons w items =>
      rw [s.row_map_cons, List.length_append, List.length_cons, List.length_append] at enough
      rw [s.row_map_cons, List.append_assoc, List.cons_append, List.append_assoc]
      obtain ⟨tail, ok, left⟩ := first fuel _ (by omega) (delimited_cons (c := ',') (by decide) _)
      refine readItems_of_comma ok left ?_
      rw [skipSpace_append_of_eq_nil _ s.gap_blank]
      exact ih (List.cons_ne_nil _ _) others (by omega)

theorem reads_list_nil : Reads ['[', ']'] (.list []) := by
  intro fuel rest enough _
  obtain ⟨fuel, rfl⟩ := Nat.exists_eq_add_of_le' (Nat.le_trans (show 1 ≤ _ by decide) enough)
  exact ⟨rest, rfl, rfl⟩

/-- A list reads back, if each of its items does. -/
theorem reads_list (nonempty : items ≠ []) (reads : ∀ v ∈ items, Reads (write v) v) :
    Reads ('[' :: s.enclose (items.map write) ']') (.list items) := by
  intro fuel rest enough _
  have shorter := s.length_row_lt_enclose (items.map write) ']'
  rw [List.length_cons] at enough
  obtain ⟨fuel, rfl⟩ := Nat.exists_eq_add_of_le' (show 1 ≤ fuel by omega)
  have body := readItems_row s write nonempty reads rest (show _ ≤ fuel by omega)
  rw [← Spacing.skipSpace_enclose] at body
  exact ⟨rest, readValue_of_readItems body, rfl⟩

/-- The text of a field, given that of its value. -/
def fieldText (name : String) (text : List Char) : List Char :=
  '"' :: (name.toList.flatMap escape ++ '"' :: ':' :: ' ' :: text)

section Fields

variable {fuel : Nat} {rest afterName afterColon afterValue tail name : List Char} {v : Value}

theorem readFields_of_brace (isName : scanString ('"' :: rest) 0 rest = .ok (name, afterName))
    (colon : skipSpace afterName = ':' :: afterColon)
    (value : readValue none fuel (skipSpace afterColon) = .ok (v, afterValue))
    (closed : skipSpace afterValue = '\x7d' :: tail) :
    readFields none (fuel + 1) ('"' :: rest) = .ok ([(String.ofList name, v)], tail) := by
  simp only [readFields, isName, colon, value, closed]

theorem readFields_of_comma {more : List Char}
    (isName : scanString ('"' :: rest) 0 rest = .ok (name, afterName))
    (colon : skipSpace afterName = ':' :: afterColon)
    (value : readValue none fuel (skipSpace afterColon) = .ok (v, afterValue))
    (comma : skipSpace afterValue = ',' :: more)
    (others : readFields none fuel (skipSpace more) = .ok (fields, tail)) :
    readFields none (fuel + 1) ('"' :: rest) = .ok ((String.ofList name, v) :: fields, tail) := by
  simp only [readFields, isName, colon, value, comma, others]

end Fields

theorem skipSpace_fieldText (name : String) (text rest : List Char) :
    skipSpace (fieldText name text ++ rest)
      = '"' :: (name.toList.flatMap escape ++ '"' :: ':' :: ' ' :: (text ++ rest)) := by
  simp [fieldText, skipSpace, isSpace]

theorem length_le_fieldText (name : String) (text : List Char) :
    text.length ≤ (fieldText name text).length := by
  simp [fieldText]
  omega

/-- The fields of an object read back, if each of their values does. -/
theorem readFields_row (nonempty : fields ≠ []) (reads : ∀ e ∈ fields, Reads (write e.2) e.2)
    (rest : List Char) {fuel : Nat}
    (enough : 2 * (s.row (fields.map fun e => fieldText e.1 (write e.2))).length + 1 ≤ fuel) :
    readFields none fuel (skipSpace (s.row (fields.map fun e => fieldText e.1 (write e.2))
      ++ (s.close ++ '\x7d' :: rest))) = .ok (fields, rest) := by
  induction fields generalizing fuel with
  | nil => exact (nonempty rfl).elim
  | cons d fields ih =>
    obtain ⟨fuel, rfl⟩ := Nat.exists_eq_succ_of_ne_zero (show fuel ≠ 0 by omega)
    obtain ⟨first, others⟩ := List.forall_mem_cons.mp reads
    have shorter := length_le_fieldText d.1 (write d.2)
    cases fields with
    | nil =>
      rw [List.map_cons, List.map_nil, Spacing.row] at enough ⊢
      obtain ⟨tail, ok, left⟩ :=
        first fuel _ (by omega) (s.delimited (c := '\x7d') (by decide) rest)
      rw [← skipSpace_blank] at ok
      rw [skipSpace_fieldText, readFields_of_brace (scanString_flatMap_escape _ _ _) rfl ok
        (left.trans (skipSpace_append_of_eq_nil _ s.close_blank)), String.ofList_toList]
    | cons e fields =>
      rw [s.row_map_cons, List.length_append, List.length_cons, List.length_append] at enough
      rw [s.row_map_cons, List.append_assoc, List.cons_append, List.append_assoc,
        skipSpace_fieldText]
      obtain ⟨tail, ok, left⟩ := first fuel _ (by omega) (delimited_cons (c := ',') (by decide) _)
      have more := ih (List.cons_ne_nil _ _) others (show _ ≤ fuel by omega)
      rw [← skipSpace_append_of_eq_nil _ s.gap_blank] at more
      rw [← skipSpace_blank] at ok
      rw [readFields_of_comma (scanString_flatMap_escape _ _ _) rfl ok left more,
        String.ofList_toList]

theorem reads_obj_nil : Reads ['\x7b', '\x7d'] (.obj []) := by
  intro fuel rest enough _
  obtain ⟨fuel, rfl⟩ := Nat.exists_eq_add_of_le' (Nat.le_trans (show 1 ≤ _ by decide) enough)
  exact ⟨rest, rfl, rfl⟩

/-- An object with every name once reads back, if each of its values does. -/
theorem reads_obj {fields : Table Value} (nonempty : fields ≠ []) (distinct : fields.names.Nodup)
    (reads : ∀ e ∈ fields, Reads (write e.2) e.2) :
    Reads ('\x7b' :: s.enclose (fields.map fun e => fieldText e.1 (write e.2)) '\x7d')
      (.obj fields) := by
  intro fuel rest enough _
  have shorter := s.length_row_lt_enclose (fields.map fun e => fieldText e.1 (write e.2)) '\x7d'
  rw [List.length_cons] at enough
  obtain ⟨fuel, rfl⟩ := Nat.exists_eq_add_of_le' (show 1 ≤ fuel by omega)
  have body := readFields_row s write nonempty reads rest (show _ ≤ fuel by omega)
  rw [← Spacing.skipSpace_enclose] at body
  have whole := readValue_of_readFields body
  rw [Table.ofEntries_of_nodup distinct] at whole
  exact ⟨rest, whole, rfl⟩

end Spaced

/-! ## Indented texts -/

theorem toList_blockItems (level : Nat) (items : List Value) :
    (blockItems (level + 1) items).toList
      = (Spacing.indented level).row (items.map fun v => (block (level + 1) v).toList) :=
  Spacing.toList_eq_row rfl (fun _ => by rw [blockItems])
    (fun _ _ _ => by simp [blockItems, Spacing.indented]) items

theorem toList_block_list (level : Nat) (nonempty : items ≠ []) :
    (block level (.list items)).toList = '[' :: (Spacing.indented level).enclose
      (items.map fun v => (block (level + 1) v).toList) ']' := by
  rw [block, Spacing.enclose, ← toList_blockItems]
  · simp [Spacing.indented]
  · exact nonempty

theorem toList_blockFields (level : Nat) (fields : List (String × Value)) :
    (blockFields (level + 1) fields).toList = (Spacing.indented level).row
      (fields.map fun e => fieldText e.1 (block (level + 1) e.2).toList) :=
  Spacing.toList_eq_row rfl (fun _ => by simp [blockFields, fieldText, stringText])
    (fun _ _ _ => by simp [blockFields, Spacing.indented, fieldText, stringText]) fields

theorem toList_block_obj (level : Nat) (nonempty : fields ≠ []) :
    (block level (.obj fields)).toList = '\x7b' :: (Spacing.indented level).enclose
      (fields.map fun e => fieldText e.1 (block (level + 1) e.2).toList) '\x7d' := by
  rw [block, Spacing.enclose, ← toList_blockFields]
  · simp [Spacing.indented]
  · exact nonempty

/-! ## Texts on one line -/

theorem toList_lineItems (items : List Value) :
    (lineItems items).toList = Spacing.oneLine.row (items.map fun v => (line v).toList) :=
  Spacing.toList_eq_row rfl (fun _ => by rw [lineItems])
    (fun _ _ _ => by simp [lineItems, Spacing.oneLine]) items

theorem toList_line_list (items : List Value) :
    (line (.list items)).toList
      = '[' :: Spacing.oneLine.enclose (items.map fun v => (line v).toList) ']' := by
  rw [line, Spacing.enclose, ← toList_lineItems]
  simp [Spacing.oneLine]

theorem toList_lineFields (fields : List (String × Value)) :
    (lineFields fields).toList
      = Spacing.oneLine.row (fields.map fun e => fieldText e.1 (line e.2).toList) :=
  Spacing.toList_eq_row rfl (fun _ => by simp [lineFields, fieldText, stringText])
    (fun _ _ _ => by simp [lineFields, Spacing.oneLine, fieldText, stringText]) fields

theorem toList_line_obj (fields : List (String × Value)) :
    (line (.obj fields)).toList = '\x7b' :: Spacing.oneLine.enclose
      (fields.map fun e => fieldText e.1 (line e.2).toList) '\x7d' := by
  rw [line, Spacing.enclose, ← toList_lineFields]
  simp [Spacing.oneLine]

/-! ## Whole values -/

theorem block_of_not_nested (level : Nat) {v : Value} (plain : isNested v = false) :
    block level v = atomText v := by
  cases v with
  | list | obj => cases plain
  | _ => simp [block]

theorem line_of_not_nested {v : Value} (plain : isNested v = false) : line v = atomText v := by
  cases v with
  | list | obj => cases plain
  | _ => simp [line]

/-- The text of a tidy value that is no list and no object reads as it. -/
theorem reads_atomText {v : Value} (tidy : v.Tidy) (plain : isNested v = false)
    (doubles : ∀ x ∈ v.doubles, ReadsBack x) : Reads (atomText v).toList v := by
  cases tidy with
  | null => exact reads_of_readAtom rfl rfl
  | bool b => cases b <;> exact reads_of_readAtom rfl rfl
  | int short =>
    have number := readAtom_intText short
    rw [← skipSpace_of_readAtom number] at number
    exact reads_of_readAtom number rfl
  | float x => exact (doubles x (by simp [Value.doubles])).reads
  | nan => exact reads_of_readAtom rfl rfl
  | str s => exact reads_stringText s
  | list | obj => cases plain

/-- Induction on a tidy value that takes all that has no parts together. -/
@[elab_as_elim]
theorem tidy_induction {motive : (v : Value) → v.Tidy → Prop}
    (atom : ∀ {v} (tidy : v.Tidy), isNested v = false → motive v tidy)
    (list : ∀ {items} (each : ∀ v ∈ items, v.Tidy),
      (∀ v member, motive v (each v member)) → motive (.list items) (.list each))
    (obj : ∀ {fields : Table Value} (distinct : fields.names.Nodup) (each : ∀ e ∈ fields, e.2.Tidy),
      (∀ e member, motive e.2 (each e member)) → motive (.obj fields) (.obj distinct each))
    {v : Value} (tidy : v.Tidy) : motive v tidy := by
  induction tidy with
  | null => exact atom .null rfl
  | bool b => exact atom (.bool b) rfl
  | int short => exact atom (.int short) rfl
  | float x => exact atom (.float x) rfl
  | nan => exact atom .nan rfl
  | str s => exact atom (.str s) rfl
  | list each ih => exact list each ih
  | obj distinct each ih => exact obj distinct each ih

/-- The first character of the text of a value is no byte order mark. -/
theorem Reads.head?_ne {text : List Char} {v : Value} (reads : Reads text v) :
    text.head? ≠ some (Char.ofNat 0xfeff) := by
  intro mark
  obtain ⟨rest, rfl⟩ := List.head?_eq_some_iff.mp mark
  obtain ⟨tail, ok, -⟩ := reads _ [] (Nat.le_succ _) (.inl rfl)
  rw [List.append_nil] at ok
  cases ok

/-- A text that reads as a value wherever it stands reads as it on its own. -/
theorem Reads.read {text : String} {v : Value} (reads : Reads text.toList v) :
    Json.read text = .ok v := by
  obtain ⟨tail, ok, left⟩ := reads (2 * text.toList.length + 2) [] (by omega) (.inl rfl)
  rw [List.append_nil] at ok
  have chars : readChars text.toList = .ok v := readChars_eq_ok.mpr ⟨tail, ok, left⟩
  rw [Json.read, readText, if_neg reads.head?_ne, chars]
  rfl

section Tidy

variable {v : Value} (tidy : v.Tidy) (doubles : ∀ x ∈ v.doubles, ReadsBack x)
include tidy doubles

/-- The indented text of a tidy value reads as it, if those of its doubles do. -/
theorem reads_block (level : Nat) : Reads (block level v).toList v := by
  induction tidy using tidy_induction generalizing level with
  | atom tidy plain =>
    rw [block_of_not_nested level plain]
    exact reads_atomText tidy plain doubles
  | @list items _ ih =>
    by_cases empty : items = []
    · rw [empty, block]
      exact reads_list_nil
    · rw [toList_block_list level empty]
      refine reads_list _ _ empty fun v member => ih v member (fun x inside => ?_) (level + 1)
      exact doubles x (Value.mem_doubles_list.mpr ⟨v, member, inside⟩)
  | @obj fields distinct _ ih =>
    by_cases empty : fields = []
    · rw [empty, block]
      exact reads_obj_nil
    · rw [toList_block_obj level empty]
      refine reads_obj _ (fun v => (block (level + 1) v).toList) empty distinct fun e member =>
        ih e member (fun x inside => ?_) (level + 1)
      exact doubles x (Value.mem_doubles_obj.mpr ⟨e, member, inside⟩)

/-- The text of a tidy value on one line reads as it, if those of its doubles do. -/
theorem reads_line : Reads (line v).toList v := by
  induction tidy using tidy_induction with
  | atom tidy plain =>
    rw [line_of_not_nested plain]
    exact reads_atomText tidy plain doubles
  | @list items _ ih =>
    rw [toList_line_list]
    by_cases empty : items = []
    · rw [empty]
      exact reads_list_nil
    · exact reads_list _ _ empty fun v member =>
        ih v member fun x inside => doubles x (Value.mem_doubles_list.mpr ⟨v, member, inside⟩)
  | @obj fields distinct _ ih =>
    rw [toList_line_obj]
    by_cases empty : fields = []
    · rw [empty]
      exact reads_obj_nil
    · exact reads_obj _ (fun v => (line v).toList) empty distinct fun e member =>
        ih e member fun x inside => doubles x (Value.mem_doubles_obj.mpr ⟨e, member, inside⟩)

/-- The indented text of a tidy value reads back as it, if those of its doubles do. -/
theorem read_indented : read (indented v) = .ok v :=
  Reads.read (reads_block tidy doubles 0)

/-- The text of a tidy value on one line reads back as it, if those of its doubles do. -/
theorem read_line : read (line v) = .ok v :=
  Reads.read (reads_line tidy doubles)

end Tidy

end Json

end Wireboard
