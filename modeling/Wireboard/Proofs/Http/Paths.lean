import Wireboard.Http.Path
import Wireboard.Proofs.Number.Reading

/-!
# Ways along a path

A path is cut at its points, and each piece is taken apart from its end: a bracket, digits, another
bracket, and before it a name.  So a piece is an indexed key in one way only, whatever brackets its
name may have.

What a path leads to is said here without the code that follows it.  A piece names something in a
value or nothing (`Names`); a way goes from piece to piece, and once a piece names nothing it has
come to null and stays there (`Leads`).  That is what following a path gives (`walk_eq_ok_iff`), but
for one trap: at a list a piece is taken for a position if all its characters are digits in the
widest sense, and some of these write no number, such as the superscripts.  There the way ends with
a failure (`Trips`).
-/

namespace Wireboard.Http

open Text

/-! ## Indexed keys -/

/-- The piece is a name on one line with decimal digits behind it in brackets.  One line break may
follow. -/
structure IsIndexed (cs name digits : List Char) : Prop where
  named : name ≠ []
  oneLine : '\n' ∉ name
  counted : digits ≠ []
  decimal : digits.all isDecimal = true
  shape : cs = name ++ '[' :: digits ++ [']'] ∨ cs = name ++ '[' :: digits ++ [']'] ++ ['\n']

/-- The part of an indexed key after its name, seen from the end. -/
theorem reverse_indexed (name digits : List Char) :
    (name ++ '[' :: digits ++ [']']).reverse = ']' :: (digits.reverse ++ '[' :: name.reverse) := by
  simp

variable {name digits : List Char}

theorem indexed?_of_isIndexed {cs : List Char} (indexed : IsIndexed cs name digits) :
    indexed? cs = some (name, digits) := by
  obtain ⟨named, oneLine, counted, decimal, shape⟩ := indexed
  have body : (if cs.getLast? = some '\n' then cs.dropLast else cs)
      = name ++ '[' :: digits ++ [']'] := by
    rcases shape with rfl | rfl
    · rw [List.getLast?_concat, if_neg (by decide)]
    · rw [List.getLast?_concat, if_pos rfl, List.dropLast_concat]
  have decimals : ∀ c ∈ digits.reverse, isDecimal c = true := fun c member =>
    List.all_eq_true.mp decimal c (List.mem_reverse.mp member)
  have bracket : ¬ isDecimal '[' = true := by decide
  have taken : (digits.reverse ++ '[' :: name.reverse).takeWhile isDecimal = digits.reverse := by
    rw [List.takeWhile_append_of_pos decimals, List.takeWhile_cons_of_neg bracket, List.append_nil]
  have dropped : (digits.reverse ++ '[' :: name.reverse).dropWhile isDecimal
      = '[' :: name.reverse := by
    rw [List.dropWhile_append_of_pos decimals, List.dropWhile_cons_of_neg bracket]
  unfold indexed?
  rw [body]
  dsimp only
  rw [reverse_indexed]
  simp only [taken, dropped]
  simp [named, oneLine, counted]

theorem isIndexed_of_indexed? {cs : List Char} (found : indexed? cs = some (name, digits)) :
    IsIndexed cs name digits := by
  unfold indexed? at found
  dsimp only at found
  generalize bodyEq : (if cs.getLast? = some '\n' then cs.dropLast else cs) = body at found
  split at found
  next rest backward =>
    split at found
    next name' dropped =>
      split at found
      next => cases found
      next full =>
        cases found
        simp only [Bool.or_eq_true, not_or, List.isEmpty_iff, List.contains_iff_mem] at full
        have whole :
            body = name'.reverse ++ '[' :: (rest.takeWhile isDecimal).reverse ++ [']'] := by
          have split := List.takeWhile_append_dropWhile (p := isDecimal) (l := rest)
          rw [dropped] at split
          rw [← List.reverse_inj, backward, reverse_indexed, List.reverse_reverse,
            List.reverse_reverse, split]
        refine ⟨fun none => full.1.2 (List.reverse_eq_nil_iff.mp none),
          fun member => full.2 (List.mem_reverse.mp member), full.1.1, ?_, ?_⟩
        · rw [List.all_reverse]
          exact List.all_takeWhile
        · split at bodyEq
          next broken =>
            obtain ⟨front, rfl⟩ := List.getLast?_eq_some_iff.mp broken
            rw [List.dropLast_concat] at bodyEq
            exact .inr (by rw [bodyEq, whole])
          next => exact .inl (bodyEq.trans whole)
    next => cases found
  next => cases found

theorem ofPiece_of_isIndexed {cs : List Char} (indexed : IsIndexed cs name digits) :
    PathStep.ofPiece cs = .indexed name digits := by
  rw [PathStep.ofPiece, indexed?_of_isIndexed indexed]

theorem ofPiece_of_plain {cs : List Char} (plain : ∀ name digits, ¬ IsIndexed cs name digits) :
    PathStep.ofPiece cs = .key cs := by
  have none : indexed? cs = none :=
    Option.eq_none_iff_forall_ne_some.mpr fun found eq => plain _ _ (isIndexed_of_indexed? eq)
  rw [PathStep.ofPiece, none]

/-- An indexed key has a bracket. -/
theorem not_isIndexed {cs : List Char} (free : ']' ∉ cs) (name digits : List Char) :
    ¬ IsIndexed cs name digits := by
  rintro ⟨-, -, -, -, rfl | rfl⟩ <;> simp at free

/-! ## Positions -/

/-- The number that decimal digits write. -/
def position (digits : List Char) : Nat := Number.ofDigits (digits.map digitValue)

theorem positionOf_of_decimals {cs : List Char} (some : cs ≠ [])
    (decimals : cs.all isDecimal = true) (few : cs.length ≤ Number.digitLimit) :
    positionOf cs = .ok (position cs) := by
  rw [positionOf, Number.readInt_of_decimals some decimals, if_neg (Nat.not_lt.mpr few)]
  rfl

theorem positionOf_of_others {cs : List Char} (digits : cs.all isDigit = true)
    (other : cs.all isDecimal = false) :
    positionOf cs = .error (.notAnInt (String.ofList cs)) := by
  rw [positionOf, Number.readInt_of_others digits other]

@[simp] theorem itemAt_natCast (items : List Value) (n : Nat) :
    itemAt items n = (items[n]?).getD .null := by
  rw [itemAt, Int.toNat_natCast, List.getD_eq_getElem?_getD]

/-! ## Pieces -/

/-- What a piece of a path names in a value. -/
inductive Names : Value → List Char → Value → Prop where
  | field {fields : Table Value} {cs : List Char} {x : Value} :
      (∀ name digits, ¬ IsIndexed cs name digits) →
      fields.get? (String.ofList cs) = some x → Names (.obj fields) cs x
  | item {items : List Value} {cs : List Char} {x : Value} :
      cs ≠ [] → cs.all isDecimal = true → items[position cs]? = some x → Names (.list items) cs x
  | itemUnder {fields : Table Value} {cs name digits : List Char} {items : List Value} {x : Value} :
      IsIndexed cs name digits → fields.get? (String.ofList name) = some (.list items) →
      items[position digits]? = some x → Names (.obj fields) cs x

/-- The piece is taken for a position in a list, but its digits write no number. -/
structure Trips (v : Value) (cs : List Char) : Prop where
  list : ∃ items, v = .list items
  some : cs ≠ []
  digits : cs.all isDigit = true
  other : cs.all isDecimal = false

/-- The digits in a piece are few enough to be read. -/
structure IsBrief (cs : List Char) : Prop where
  whole : cs.all isDigit = true → cs.length ≤ Number.digitLimit
  index : ∀ name digits, IsIndexed cs name digits → digits.length ≤ Number.digitLimit

section

variable {v x w : Value} {cs : List Char}

theorem plain_of_digits (digits : cs.all isDigit = true) (name index : List Char) :
    ¬ IsIndexed cs name index :=
  not_isIndexed (fun member => absurd (List.all_eq_true.mp digits _ member) (by decide)) name index

theorem digits_of_decimals (decimals : cs.all isDecimal = true) : cs.all isDigit = true :=
  List.all_eq_true.mpr fun c member => isDigit_of_isDecimal (List.all_eq_true.mp decimals c member)

theorem isDigits_iff : isDigits cs = true ↔ cs ≠ [] ∧ cs.all isDigit = true := by
  simp [isDigits]

theorem take_of_names (brief : IsBrief cs) (names : Names v cs x) :
    (PathStep.ofPiece cs).take v = .ok x := by
  cases names with
  | field plain found =>
    rw [ofPiece_of_plain plain, PathStep.take, found]
    rfl
  | item some decimals found =>
    have digits := digits_of_decimals decimals
    rw [ofPiece_of_plain (plain_of_digits digits), PathStep.take,
      if_pos (isDigits_iff.mpr ⟨some, digits⟩),
      positionOf_of_decimals some decimals (brief.whole digits), Except.map, itemAt_natCast, found]
    rfl
  | itemUnder indexed under found =>
    rw [ofPiece_of_isIndexed indexed, PathStep.take,
      positionOf_of_decimals indexed.counted indexed.decimal (brief.index _ _ indexed)]
    dsimp only [Value.field?, bind, Except.bind]
    rw [under]
    dsimp only
    rw [itemAt_natCast, found]
    rfl

theorem take_of_trips (trips : Trips v cs) :
    (PathStep.ofPiece cs).take v = .error (.notAnInt (String.ofList cs)) := by
  obtain ⟨⟨items, rfl⟩, some, digits, other⟩ := trips
  rw [ofPiece_of_plain (plain_of_digits digits), PathStep.take,
    if_pos (isDigits_iff.mpr ⟨some, digits⟩), positionOf_of_others digits other]
  rfl

theorem exists_of_field? {name : String} (found : v.field? name = some x) :
    ∃ fields, v = .obj fields ∧ Table.get? fields name = some x := by
  cases v with
  | obj fields => exact ⟨fields, rfl, found⟩
  | null | bool | int | float | nan | str | list => cases found

/-- A piece that names nothing leads to null. -/
theorem take_of_not_names (brief : IsBrief cs) (nothing : ∀ x, ¬ Names v cs x)
    (safe : ¬ Trips v cs) : (PathStep.ofPiece cs).take v = .ok .null := by
  by_cases indexed : ∃ name digits, IsIndexed cs name digits
  · obtain ⟨name, digits, indexed⟩ := indexed
    rw [ofPiece_of_isIndexed indexed, PathStep.take,
      positionOf_of_decimals indexed.counted indexed.decimal (brief.index _ _ indexed)]
    dsimp only [bind, Except.bind]
    split
    next items under =>
      obtain ⟨fields, rfl, under⟩ := exists_of_field? under
      cases found : items[position digits]? with
      | none => rw [itemAt_natCast, found]; rfl
      | some x => exact absurd (.itemUnder indexed under found) (nothing x)
    next => rfl
  · have plain : ∀ name digits, ¬ IsIndexed cs name digits := fun name digits is =>
      indexed ⟨name, digits, is⟩
    rw [ofPiece_of_plain plain]
    cases v with
    | obj fields =>
      cases found : Table.get? fields (String.ofList cs) with
      | none => rw [PathStep.take, found]; rfl
      | some x => exact absurd (.field plain found) (nothing x)
    | list items =>
      rw [PathStep.take]
      split
      next digital =>
        obtain ⟨some, digits⟩ := isDigits_iff.mp digital
        cases decimals : cs.all isDecimal with
        | false => exact absurd ⟨⟨items, rfl⟩, some, digits, decimals⟩ safe
        | true =>
          rw [positionOf_of_decimals some decimals (brief.whole digits), Except.map,
            itemAt_natCast]
          cases found : items[position cs]? with
          | none => rfl
          | some x => exact absurd (.item some decimals found) (nothing x)
      next => rfl
    | null | bool | int | float | nan | str => rfl

/-- A piece names something in a value, or it trips there, or it names nothing. -/
theorem names_or_trips (v : Value) (cs : List Char) :
    (∃ x, Names v cs x) ∨ Trips v cs ∨ ((∀ x, ¬ Names v cs x) ∧ ¬ Trips v cs) := by
  by_cases names : ∃ x, Names v cs x
  · exact .inl names
  · by_cases trips : Trips v cs
    · exact .inr (.inl trips)
    · exact .inr (.inr ⟨not_exists.mp names, trips⟩)

/-! ## Ways -/

theorem Names.ne_null (names : Names v cs x) : v ≠ .null := by
  rintro rfl
  cases names

theorem Trips.ne_null (trips : Trips v cs) : v ≠ .null := by
  obtain ⟨⟨items, rfl⟩, -, -, -⟩ := trips
  exact Value.noConfusion

@[simp] theorem walk_null (steps : List PathStep) : walk .null steps = .ok .null := by
  cases steps with
  | nil => rfl
  | cons s steps => rw [walk, if_pos rfl]

theorem walk_of_names (brief : IsBrief cs) (names : Names v cs x) (steps : List PathStep) :
    walk v (PathStep.ofPiece cs :: steps) = walk x steps := by
  rw [walk, if_neg names.ne_null, take_of_names brief names]

theorem walk_of_trips (trips : Trips v cs) (steps : List PathStep) :
    walk v (PathStep.ofPiece cs :: steps) = .error (.notAnInt (String.ofList cs)) := by
  rw [walk, if_neg trips.ne_null, take_of_trips trips]

theorem walk_of_not_names (brief : IsBrief cs) (nothing : ∀ x, ¬ Names v cs x)
    (safe : ¬ Trips v cs) (steps : List PathStep) :
    walk v (PathStep.ofPiece cs :: steps) = .ok .null := by
  rw [walk, take_of_not_names brief nothing safe]
  split
  · rfl
  · exact walk_null steps

/-- What a row of pieces leads to from a value. -/
inductive Leads : Value → List (List Char) → Value → Prop where
  | arrived (v : Value) : Leads v [] v
  | onward {v x w : Value} {cs : List Char} {rest : List (List Char)} :
      Names v cs x → Leads x rest w → Leads v (cs :: rest) w
  | astray {v : Value} {cs : List Char} {rest : List (List Char)} :
      (∀ x, ¬ Names v cs x) → ¬ Trips v cs → Leads v (cs :: rest) .null

variable {pieces : List (List Char)}

/-- Beyond some pieces the way goes on from where they lead. -/
theorem walk_append_of_leads {before : List (List Char)} (leads : Leads v before w)
    (brief : ∀ cs ∈ before, IsBrief cs) (after : List (List Char)) :
    walk v ((before ++ after).map PathStep.ofPiece) = walk w (after.map PathStep.ofPiece) := by
  induction leads with
  | arrived => rfl
  | onward names _ ih =>
    obtain ⟨here, later⟩ := List.forall_mem_cons.mp brief
    rw [List.cons_append, List.map_cons, walk_of_names here names, ih later]
  | astray nothing safe =>
    obtain ⟨here, -⟩ := List.forall_mem_cons.mp brief
    rw [List.cons_append, List.map_cons, walk_of_not_names here nothing safe, walk_null]

/-- To follow the pieces is to go the way they lead. -/
theorem walk_eq_ok_iff (brief : ∀ cs ∈ pieces, IsBrief cs) :
    walk v (pieces.map PathStep.ofPiece) = .ok w ↔ Leads v pieces w := by
  refine ⟨fun ok => ?_, fun leads => ?_⟩
  · induction pieces generalizing v with
    | nil =>
      cases ok
      exact .arrived _
    | cons cs pieces ih =>
      obtain ⟨here, later⟩ := List.forall_mem_cons.mp brief
      rw [List.map_cons] at ok
      rcases names_or_trips v cs with ⟨x, names⟩ | trips | ⟨nothing, safe⟩
      · rw [walk_of_names here names] at ok
        exact .onward names (ih later ok)
      · rw [walk_of_trips trips] at ok
        cases ok
      · rw [walk_of_not_names here nothing safe] at ok
        cases ok
        exact .astray nothing safe
  · have arrives := walk_append_of_leads leads brief []
    rwa [List.append_nil] at arrives

/-- The way ends with a failure where a piece trips at what those before it lead to, and only
there. -/
theorem walk_eq_error_iff {f : Fault} (brief : ∀ cs ∈ pieces, IsBrief cs) :
    walk v (pieces.map PathStep.ofPiece) = .error f ↔
      ∃ before cs after u, pieces = before ++ cs :: after ∧ Leads v before u ∧ Trips u cs ∧
        f = .notAnInt (String.ofList cs) := by
  constructor
  · intro error
    induction pieces generalizing v with
    | nil => cases error
    | cons cs pieces ih =>
      obtain ⟨here, later⟩ := List.forall_mem_cons.mp brief
      rw [List.map_cons] at error
      rcases names_or_trips v cs with ⟨x, names⟩ | trips | ⟨nothing, safe⟩
      · rw [walk_of_names here names] at error
        obtain ⟨before, cs', after, u, rfl, leads, trips, rfl⟩ := ih later error
        exact ⟨cs :: before, cs', after, u, rfl, .onward names leads, trips, rfl⟩
      · rw [walk_of_trips trips] at error
        cases error
        exact ⟨[], cs, pieces, v, rfl, .arrived v, trips, rfl⟩
      · rw [walk_of_not_names here nothing safe] at error
        cases error
  · rintro ⟨before, cs, after, u, rfl, leads, trips, rfl⟩
    rw [walk_append_of_leads leads fun _ member => brief _ (List.mem_append_left _ member)]
    exact walk_of_trips trips _

/-! ## Short paths -/

theorem isBrief_of_length_le (few : cs.length ≤ Number.digitLimit) : IsBrief cs := by
  refine ⟨fun _ => few, fun name digits indexed => ?_⟩
  rcases indexed.shape with rfl | rfl <;> simp at few <;> omega

theorem isBrief_of_short {path : String} (short : path.length ≤ 4000) :
    ∀ cs ∈ splitAt '.' path.toList, IsBrief cs := by
  intro cs member
  refine isBrief_of_length_le ?_
  calc cs.length
      ≤ path.toList.length := (infix_of_mem_splitAt member).length_le
    _ ≤ 4000 := by rwa [String.length_toList]
    _ ≤ Number.digitLimit := by decide

/-- A path of at most 4000 characters can be followed in any value: it leads to what its pieces name
one after the other, and to null where a piece names nothing.  The only failure is that at a list a
piece consists of digits with which no number is written.  In particular there is none where all
digits of the path are decimal digits. -/
theorem follow_outcome {path : String} (short : path.length ≤ 4000) (v : Value) :
    (∀ w, follow v path = .ok w ↔ Leads v (splitAt '.' path.toList) w) ∧
    (∀ f, follow v path = .error f ↔
      ∃ before cs after u, splitAt '.' path.toList = before ++ cs :: after ∧ Leads v before u ∧
        Trips u cs ∧ f = .notAnInt (String.ofList cs)) ∧
    ((∀ c ∈ path.toList, isDigit c = true → isDecimal c = true) → ∃ w, follow v path = .ok w) := by
  have brief := isBrief_of_short short
  refine ⟨fun w => walk_eq_ok_iff brief, fun f => walk_eq_error_iff brief, fun decimal => ?_⟩
  cases outcome : follow v path with
  | ok w => exact ⟨w, rfl⟩
  | error f =>
    obtain ⟨before, cs, after, u, split, -, trips, -⟩ := (walk_eq_error_iff brief).mp outcome
    have member : cs ∈ splitAt '.' path.toList := by simp [split]
    have inside := (infix_of_mem_splitAt member).subset
    have decimals : cs.all isDecimal = true := List.all_eq_true.mpr fun c there =>
      decimal c (inside there) (List.all_eq_true.mp trips.digits c there)
    rw [trips.other] at decimals
    cases decimals

end

/-- At a list a superscript is a trap, and a digit of another script is not. -/
theorem follow_outcome_superscript : "²".length ≤ 4000 ∧
    follow (.list [.int 1, .int 2]) "²" = .error (.notAnInt "²") ∧
    follow (.list [.int 1, .int 2]) "١" = .ok (.int 2) := by
  have trips : Trips (.list [.int 1, .int 2]) ['²'] :=
    ⟨⟨_, rfl⟩, by decide, by decide, by decide⟩
  have names : Names (.list [.int 1, .int 2]) ['١'] (.int 2) := .item (by decide) (by decide) rfl
  refine ⟨by decide, ((follow_outcome (by decide) _).2.1 _).mpr ?_,
    ((follow_outcome (by decide) _).1 _).mpr ?_⟩
  · exact ⟨[], ['²'], [], _, by decide, .arrived _, trips, by decide⟩
  · exact .onward names (.arrived _)

/-! ## Selectors -/

/-- A step into a value. -/
inductive Selector where
  /-- The field of an object, or the position of a list. -/
  | key (name : List Char)
  /-- The position of the list in a field of an object. -/
  | item (name : List Char) (index : Nat)

namespace Selector

/-- The step as it is written in a path. -/
def text : Selector → List Char
  | .key name => name
  | .item name index => name ++ '[' :: Nat.toDigits 10 index ++ [']']

/-- What the step selects, null if that is not there. -/
def select (v : Value) : Selector → Value
  | .key name =>
    match v with
    | .obj fields => (Table.get? fields (String.ofList name)).getD .null
    | .list items =>
      if !name.isEmpty && name.all Char.isDigit then
        items.getD (Nat.ofDigitChars 10 name 0) .null
      else .null
    | _ => .null
  | .item name index =>
    match v with
    | .obj fields =>
      match Table.get? fields (String.ofList name) with
      | some (.list items) => items.getD index .null
      | _ => .null
    | _ => .null

/-- What the steps select, one in what the other has selected. -/
def navigate (v : Value) (steps : List Selector) : Value := steps.foldl select v

/-- The marks of a path, and the line break. -/
def marks : List Char := ['.', '[', ']', '\n']

/-- The step can be written in a path and read back.  A key has none of the marks of a path and no
digits of other scripts; a key with an index has neither points nor line breaks. -/
def isWritable : Selector → Bool
  | .key name =>
    decide (name.length ≤ Number.digitLimit) &&
      name.all fun c => !marks.contains c && (!isDigit c || c.isDigit)
  | .item name index =>
    !name.isEmpty && (name.all fun c => c != '.' && c != '\n') &&
      decide ((Nat.toDigits 10 index).length ≤ Number.digitLimit)

theorem isWritable_key_iff : (key name).isWritable = true ↔
    name.length ≤ Number.digitLimit ∧ (∀ c ∈ name, c ∉ marks) ∧
      ∀ c ∈ name, isDigit c = true → c.isDigit = true := by
  simp only [isWritable, Bool.and_eq_true, decide_eq_true_eq, List.all_eq_true, Bool.not_eq_true',
    Bool.or_eq_true, ← forall₂_and, List.contains_eq_mem, ← Bool.not_eq_true, ← imp_iff_not_or]

theorem isWritable_item_iff {index : Nat} :
    (item name index).isWritable = true ↔ name ≠ [] ∧ '.' ∉ name ∧ '\n' ∉ name ∧
      (Nat.toDigits 10 index).length ≤ Number.digitLimit := by
  have unmarked : (name.all fun c => c != '.' && c != '\n') = true ↔ '.' ∉ name ∧ '\n' ∉ name := by
    simp only [List.all_eq_true, Bool.and_eq_true, bne_iff_ne, forall₂_and]
    exact and_congr ⟨fun other member => other _ member rfl, fun free c member same =>
      free (same ▸ member)⟩ ⟨fun other member => other _ member rfl, fun free c member same =>
      free (same ▸ member)⟩
  rw [isWritable, Bool.and_eq_true, Bool.and_eq_true, unmarked, decide_eq_true_eq]
  simp [and_assoc]

theorem isDigit_of_mem_toDigits {n : Nat} {c : Char} (member : c ∈ Nat.toDigits 10 n) :
    c.isDigit = true :=
  Nat.isDigit_of_mem_toDigits (by decide) (by decide) member

theorem point_notMem_text {s : Selector} (writable : s.isWritable = true) : '.' ∉ s.text := by
  cases s with
  | key name =>
    obtain ⟨-, unmarked, -⟩ := isWritable_key_iff.mp writable
    exact fun member => unmarked '.' member (by decide)
  | item name index =>
    obtain ⟨-, free, -, -⟩ := isWritable_item_iff.mp writable
    have digits : '.' ∉ Nat.toDigits 10 index := fun member =>
      absurd (isDigit_of_mem_toDigits member) (by decide)
    simp [text, free, digits]

theorem isDigits_eq (ascii : ∀ c ∈ name, isDigit c = true → c.isDigit = true) :
    isDigits name = (!name.isEmpty && name.all Char.isDigit) := by
  have same : name.all isDigit = name.all Char.isDigit := by
    rw [Bool.eq_iff_iff, List.all_eq_true, List.all_eq_true]
    exact ⟨fun digits c member => ascii c member (digits c member), fun digits c member =>
      isDigit_of_isDecimal (isDecimal_of_isDigit (digits c member))⟩
  rw [isDigits, same]

theorem positionOf_of_isDigit (some : digits ≠ []) (ascii : ∀ c ∈ digits, c.isDigit = true)
    (few : digits.length ≤ Number.digitLimit) :
    positionOf digits = .ok (Nat.ofDigitChars 10 digits 0 : Nat) := by
  rw [positionOf, Number.readInt_of_isDigit some ascii few]

theorem isIndexed_text (named : name ≠ []) (oneLine : '\n' ∉ name) (index : Nat) :
    IsIndexed (text (.item name index)) name (Nat.toDigits 10 index) where
  named := named
  oneLine := oneLine
  counted := Nat.toDigits_ne_nil
  decimal := List.all_eq_true.mpr fun _ member =>
    isDecimal_of_isDigit (isDigit_of_mem_toDigits member)
  shape := .inl rfl

/-- One step is taken as it selects. -/
theorem take_text {s : Selector} (writable : s.isWritable = true) (v : Value) :
    (PathStep.ofPiece s.text).take v = .ok (s.select v) := by
  cases s with
  | key name =>
    obtain ⟨few, unmarked, ascii⟩ := isWritable_key_iff.mp writable
    rw [text, ofPiece_of_plain (not_isIndexed fun member => unmarked ']' member (by decide))]
    cases v with
    | list items =>
      rw [PathStep.take, select, isDigits_eq ascii]
      split
      next digital =>
        obtain ⟨some, digits⟩ := Bool.and_eq_true_iff.mp digital
        rw [positionOf_of_isDigit (by simpa using some) (List.all_eq_true.mp digits) few,
          Except.map, itemAt, Int.toNat_natCast]
      next => rfl
    | obj fields => rfl
    | null | bool | int | float | nan | str => rfl
  | item name index =>
    obtain ⟨named, -, oneLine, few⟩ := isWritable_item_iff.mp writable
    rw [ofPiece_of_isIndexed (isIndexed_text named oneLine index), PathStep.take,
      positionOf_of_isDigit Nat.toDigits_ne_nil (fun _ => isDigit_of_mem_toDigits) few,
      Nat.ofDigitChars_ten_toDigits]
    dsimp only [bind, Except.bind, itemAt]
    rw [Int.toNat_natCast]
    cases v with
    | obj fields =>
      rw [select, Value.field?]
      cases Table.get? fields (String.ofList name) with
      | none => rfl
      | some x => cases x <;> rfl
    | null | bool | int | float | nan | str | list => rfl

@[simp] theorem select_null (s : Selector) : s.select .null = .null := by
  cases s <;> rfl

@[simp] theorem navigate_null (steps : List Selector) : navigate .null steps = .null := by
  induction steps with
  | nil => rfl
  | cons s steps ih => rw [navigate, List.foldl_cons, select_null]; exact ih

theorem walk_texts {steps : List Selector} (writable : ∀ s ∈ steps, s.isWritable = true)
    (v : Value) : walk v (steps.map fun s => PathStep.ofPiece s.text) = .ok (navigate v steps) := by
  induction steps generalizing v with
  | nil => rfl
  | cons s steps ih =>
    obtain ⟨here, later⟩ := List.forall_mem_cons.mp writable
    rw [List.map_cons, walk, take_text here v]
    split
    next null => rw [null, navigate_null]
    next => exact ih later (s.select v)

/-- A path that joins steps leads to what the steps select. -/
theorem follow_eq_navigate {steps : List Selector} (some : steps ≠ [])
    (writable : ∀ s ∈ steps, s.isWritable = true) (v : Value) :
    follow v (String.ofList (['.'].intercalate (steps.map text))) = .ok (navigate v steps) := by
  have pieces : splitAt '.' (['.'].intercalate (steps.map text)) = steps.map text := by
    refine splitAt_intercalate (by simpa using some) fun piece member => ?_
    obtain ⟨s, listed, rfl⟩ := List.mem_map.mp member
    exact point_notMem_text (writable s listed)
  rw [follow, pathSteps, String.toList_ofList, pieces, List.map_map]
  exact walk_texts writable v

/-- Data with a bracket in a name. -/
def archive : Value :=
  .obj [("data", .obj [("rows[0]", .list [.int 7, .obj [("name", .str "x")]])])]

theorem follow_eq_navigate_archive :
    follow archive "data.rows[0][1].name" = .ok (.str "x") ∧
    follow archive "data.rows[0][2].name" = .ok .null := by
  have found := @follow_eq_navigate
    [.key "data".toList, .item "rows[0]".toList 1, .key "name".toList]
    (by simp) (List.all_eq_true.mp (by decide +kernel)) archive
  have missed := @follow_eq_navigate
    [.key "data".toList, .item "rows[0]".toList 2, .key "name".toList]
    (by simp) (List.all_eq_true.mp (by decide +kernel)) archive
  exact ⟨found, missed⟩

end Selector

end Wireboard.Http
