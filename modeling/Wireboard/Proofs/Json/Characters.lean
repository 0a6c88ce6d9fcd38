import Mathlib.Data.List.TakeWhile
import Wireboard.Proofs.Json.RoundTrip

/-!
# The characters of written texts

A file has no room for half of a surrogate pair, and it does not keep a carriage return.  In the
text of a value the first can only come from a text in the value, and the second cannot be there at
all, since it is written as an escape (`allFit_block`).  So a value without halves in its texts is
written completely (`unwritable?_eq_none`).
-/

namespace Wireboard

mutual

/-- The texts in a value, the names of fields among them. -/
def Value.texts : Value → List String
  | .str s => [s]
  | .list items => textsOfItems items
  | .obj fields => textsOfFields fields
  | .null | .bool _ | .int _ | .float _ | .nan _ => []

/-- The texts in the items of a list. -/
def Value.textsOfItems : List Value → List String
  | [] => []
  | v :: rest => v.texts ++ textsOfItems rest

/-- The texts in the fields of an object. -/
def Value.textsOfFields : List (String × Value) → List String
  | [] => []
  | (name, v) :: rest => name :: v.texts ++ textsOfFields rest

end

theorem Value.textsOfItems_eq (items : List Value) : textsOfItems items = items.flatMap texts := by
  induction items with
  | nil => rfl
  | cons v items ih => rw [textsOfItems, ih, List.flatMap_cons]

theorem Value.textsOfFields_eq (fields : List (String × Value)) :
    textsOfFields fields = fields.flatMap fun e => e.1 :: e.2.texts := by
  induction fields with
  | nil => rfl
  | cons e fields ih => rw [textsOfFields, ih, List.flatMap_cons]

/-- A file has room for the text: no half of a pair is in it, and none of the private characters
from U+10F000 to U+10F7FF either, which stand for halves. -/
def Text.Whole (s : String) : Prop := ∀ c ∈ s.toList, isStandIn c = false

instance (s : String) : Decidable (Text.Whole s) := List.decidableBAll _ _

variable {s : String}

/-- Without stand-ins the order of texts is that of their characters. -/
theorem Text.Whole.precedes {t : String} (first : Whole s) (second : Whole t) (lt : s < t) :
    Precedes s t := by
  have plain {u : String} (whole : Whole u) : codes u = u.toList.map Char.toNat :=
    List.map_congr_left fun c member => codeOf_of_not_isStandIn (whole c member)
  rw [Precedes, plain first, plain second]
  exact List.map_lt (fun _ _ less => less) (String.lt_iff.mp lt)

theorem Text.Whole.append {t : String} (first : Whole s) (second : Whole t) : Whole (s ++ t) := by
  rw [Whole, String.toList_append]
  exact List.forall_mem_append.mpr ⟨first, second⟩

/-- A file has room for the texts in the value. -/
def Value.Whole (v : Value) : Prop := ∀ s ∈ v.texts, Text.Whole s

instance (v : Value) : Decidable v.Whole := List.decidableBAll _ _

@[simp] theorem Value.whole_str : (Value.str s).Whole ↔ Text.Whole s := by
  simp [Whole, texts]

@[simp] theorem Value.whole_list {items : List Value} :
    (Value.list items).Whole ↔ ∀ v ∈ items, v.Whole := by
  simp only [Whole, texts, textsOfItems_eq, List.mem_flatMap]
  exact ⟨fun all v member s inside => all s ⟨v, member, inside⟩,
    fun all s ⟨v, member, inside⟩ => all v member s inside⟩

@[simp] theorem Value.whole_obj {fields : Table Value} :
    (Value.obj fields).Whole ↔ ∀ e ∈ fields, Text.Whole e.1 ∧ e.2.Whole := by
  simp only [Whole, texts, textsOfFields_eq, List.mem_flatMap, List.mem_cons]
  constructor
  · exact fun all e member => ⟨all e.1 ⟨e, member, .inl rfl⟩,
      fun s inside => all s ⟨e, member, .inr inside⟩⟩
  · rintro all s ⟨e, member, rfl | inside⟩
    · exact (all e member).1
    · exact (all e member).2 s inside

namespace Json

/-- The character stands in a file and comes back from it. -/
def Fits (c : Char) : Prop := Text.isStandIn c = false ∧ c ≠ '\r'

instance (c : Char) : Decidable (Fits c) := inferInstanceAs (Decidable (_ ∧ _))

variable {c : Char}

theorem fits_of_ascii (ascii : c.toNat < 128) (line : c ≠ '\r') : Fits c := by
  have low : c.toNat < Text.firstStandIn := Nat.lt_trans ascii (by decide)
  exact ⟨by rw [Text.isStandIn, decide_eq_false (Nat.not_le.mpr low), Bool.false_and], line⟩

/-! ## Numbers -/

/-- The character stands in numbers. -/
def isNumeric (c : Char) : Bool := c.isDigit || ['+', '-', '.', 'e'].contains c

theorem fits_of_isNumeric (numeric : isNumeric c = true) : Fits c := by
  rw [isNumeric, Bool.or_eq_true] at numeric
  rcases numeric with digit | sign
  · simp only [Char.isDigit, Bool.and_eq_true, decide_eq_true_eq] at digit
    have high : c.toNat ≤ 57 := digit.2
    have low : 48 ≤ c.toNat := digit.1
    refine fits_of_ascii (by omega) ?_
    rintro rfl
    exact absurd low (by decide)
  · simp only [List.contains_eq_mem, List.mem_cons, List.not_mem_nil, or_false,
      decide_eq_true_eq] at sign
    rcases sign with rfl | rfl | rfl | rfl <;> exact fits_of_ascii (by decide) (by decide)

/-- All characters of the text stand in numbers. -/
def Numeric (s : String) : Prop := ∀ c ∈ s.toList, isNumeric c = true

instance (s : String) : Decidable (Numeric s) := List.decidableBAll _ _

theorem Numeric.append {t : String} (first : Numeric s) (second : Numeric t) :
    Numeric (s ++ t) := by
  rw [Numeric, String.toList_append]
  exact List.forall_mem_append.mpr ⟨first, second⟩

theorem Numeric.whole (numeric : Numeric s) : Text.Whole s :=
  fun c member => (fits_of_isNumeric (numeric c member)).1

variable {cs : List Char}

theorem Numeric.part (numeric : Numeric s) (within : cs ⊆ s.toList) :
    Numeric (String.ofList cs) := by
  intro c member
  rw [String.toList_ofList] at member
  exact numeric c (within member)

theorem numeric_repr (n : Nat) : Numeric (Nat.repr n) := by
  intro c member
  rw [Nat.toList_repr] at member
  rw [isNumeric, Number.isDigit_of_mem_toDigits c member, Bool.true_or]

theorem numeric_intText (n : Int) : Numeric (Number.intText n) := by
  cases n with
  | ofNat m => exact numeric_repr m
  | negSucc m => exact .append (by decide) (numeric_repr (m + 1))

theorem numeric_zeros (n : Nat) : Numeric (Number.zeros n) := by
  intro c member
  rw [Number.zeros, String.toList_ofList, List.mem_replicate] at member
  rw [member.2]
  decide

theorem numeric_exponentText (e : Int) : Numeric (Number.exponentText e) := by
  refine .append ?_ ?_
  · split <;> decide
  · split
    · exact .append (by decide) (numeric_repr _)
    · exact numeric_repr _

theorem numeric_layOut (style : Number.Style) (d : Shortest.Decimal) :
    Numeric (Number.layOut style d) := by
  have digits := numeric_repr d.digits
  simp only [Number.layOut]
  split
  · refine .append (.append (digits.part (List.take_subset _ _)) ?_) (numeric_exponentText _)
    split
    · decide
    · exact .append (by decide) (digits.part (List.drop_subset _ _))
  · split
    · refine .append (.append digits (numeric_zeros _)) ?_
      split <;> decide
    · split
      · exact .append (.append (digits.part (List.take_subset _ _)) (by decide))
          (digits.part (List.drop_subset _ _))
      · exact .append (.append (by decide) (numeric_zeros _)) digits

/-! ## Atoms -/

/-- All characters stand in a file and come back. -/
def AllFit (cs : List Char) : Prop := ∀ c ∈ cs, Fits c

instance (cs : List Char) : Decidable (AllFit cs) := List.decidableBAll _ _

theorem AllFit.append {ds : List Char} (first : AllFit cs) (second : AllFit ds) :
    AllFit (cs ++ ds) := by
  intro c member
  exact (List.mem_append.mp member).elim (first c) (second c)

theorem AllFit.cons (first : Fits c) (others : AllFit cs) : AllFit (c :: cs) :=
  List.forall_mem_cons.mpr ⟨first, others⟩

theorem Numeric.allFit (numeric : Numeric s) : AllFit s.toList :=
  fun c member => fits_of_isNumeric (numeric c member)

theorem allFit_signText (fits : AllFit s.toList) (negative : Bool) :
    AllFit (Number.signText negative s).toList := by
  cases negative with
  | false => exact fits
  | true =>
    rw [Number.signText, if_pos rfl, String.toList_append]
    exact .cons (by decide) fits

theorem allFit_shortestText (x : Float) : AllFit (Number.shortestText openEnds x).toList := by
  unfold Number.shortestText
  split
  · decide
  · exact allFit_signText (by decide) _
  · split
    · exact allFit_signText (by decide) _
    · exact allFit_signText (numeric_layOut _ _).allFit _

theorem allFit_hexDigits : ∀ n < 32, AllFit (Text.hexDigits 4 n) := by
  decide

-- A carriage return has an escape of its own, so the character that stands as it is is none.
theorem allFit_escape (whole : Text.isStandIn c = false) : AllFit (escape c) := by
  unfold escape
  split
  next => decide
  next =>
  split
  next => decide
  next =>
  split
  next => decide
  next =>
  split
  next => decide
  next line =>
  split
  next => decide
  next =>
  split
  next => decide
  next =>
  split
  next => decide
  next =>
  split
  next control => exact .cons (by decide) (.cons (by decide) (allFit_hexDigits _ control))
  next => exact .cons ⟨whole, line⟩ (List.forall_mem_nil _)

theorem allFit_flatMap_escape (whole : Text.Whole s) : AllFit (s.toList.flatMap escape) := by
  intro c member
  obtain ⟨d, inside, within⟩ := List.mem_flatMap.mp member
  exact allFit_escape (whole d inside) c within

theorem allFit_stringText (whole : Text.Whole s) : AllFit (stringText s).toList := by
  rw [stringText, String.toList_ofList]
  exact .append (.cons (by decide) (allFit_flatMap_escape whole)) (by decide)

variable {v : Value}

theorem allFit_atomText (whole : v.Whole) : AllFit (atomText v).toList := by
  cases v with
  | null => decide
  | nan origin => exact (by decide : AllFit openEnds.notANumber.toList)
  | list items | obj fields => exact List.forall_mem_nil _
  | bool b => cases b <;> decide
  | int n => exact (numeric_intText n).allFit
  | float x => exact allFit_shortestText x
  | str s => exact allFit_stringText (Value.whole_str.mp whole)

/-! ## Values -/

theorem allFit_newLine (level : Nat) : AllFit (newLine level).toList := by
  rw [newLine, String.toList_ofList]
  refine .cons (by decide) fun c member => ?_
  rw [(List.mem_replicate.mp member).2]
  decide

variable {texts : List (List Char)}

theorem allFit_row {s : Spacing} (gap : AllFit s.gap) (each : ∀ text ∈ texts, AllFit text) :
    AllFit (s.row texts) := by
  fun_induction Spacing.row s texts with
  | case1 => exact List.forall_mem_nil _
  | case2 text => exact each text List.mem_cons_self
  | case3 text rest _ ih =>
    obtain ⟨first, others⟩ := List.forall_mem_cons.mp each
    exact .append first (.cons (by decide) (.append gap (ih others)))

theorem allFit_enclose (level : Nat) {closing : Char} (each : ∀ text ∈ texts, AllFit text)
    (last : Fits closing) : AllFit ((Spacing.indented level).enclose texts closing) :=
  .append (allFit_newLine _) (.append (allFit_row (allFit_newLine _) each)
    (.append (allFit_newLine _) (.cons last (List.forall_mem_nil _))))

variable {text : List Char}

theorem allFit_fieldText {name : String} (whole : Text.Whole name) (fits : AllFit text) :
    AllFit (fieldText name text) :=
  .cons (by decide) (.append (allFit_flatMap_escape whole)
    (.cons (by decide) (.cons (by decide) (.cons (by decide) fits))))

/-- Every character of an indented text comes back from a file, if there is room for the texts in
the value. -/
theorem allFit_block (tidy : v.Tidy) (whole : v.Whole) (level : Nat) :
    AllFit (block level v).toList := by
  induction tidy using tidy_induction generalizing level with
  | atom _ plain =>
    rw [block_of_not_nested level plain]
    exact allFit_atomText whole
  | @list items _ ih =>
    by_cases empty : items = []
    · rw [empty, block]
      decide
    · rw [toList_block_list level empty]
      refine .cons (by decide) (allFit_enclose level ?_ (by decide))
      rw [List.forall_mem_map]
      exact fun v member => ih v member (Value.whole_list.mp whole v member) (level + 1)
  | @obj fields _ _ ih =>
    by_cases empty : fields = []
    · rw [empty, block]
      decide
    · rw [toList_block_obj level empty]
      refine .cons (by decide) (allFit_enclose level ?_ (by decide))
      rw [List.forall_mem_map]
      intro e member
      obtain ⟨name, inside⟩ := Value.whole_obj.mp whole e member
      exact allFit_fieldText name (ih e member inside (level + 1))

/-! ## Pieces -/

theorem flatMap_itemPieces {level : Nat} {items : List Value} (nonempty : items ≠ [])
    (makes : ∀ v ∈ items, (pieces level v).flatMap String.toList = (block level v).toList)
    (lead : String) :
    (itemPieces level lead items).flatMap String.toList
      = lead.toList ++ (blockItems level items).toList := by
  induction items generalizing lead with
  | nil => exact (nonempty rfl).elim
  | cons v items ih =>
    obtain ⟨first, others⟩ := List.forall_mem_cons.mp makes
    have own : (if isNested v then lead :: pieces level v else [lead ++ atomText v]).flatMap
        String.toList = lead.toList ++ (block level v).toList := by
      split
      next => rw [List.flatMap_cons, first]
      next plain =>
        rw [block_of_not_nested level (Bool.not_eq_true _ ▸ plain)]
        simp
    rw [itemPieces, List.flatMap_append, own]
    cases items with
    | nil => simp [itemPieces, blockItems]
    | cons w items =>
      have text : blockItems level (v :: w :: items)
          = block level v ++ "," ++ newLine level ++ blockItems level (w :: items) := by
        rw [blockItems]
        exact List.cons_ne_nil _ _
      rw [ih (List.cons_ne_nil _ _) others, text]
      simp

theorem flatMap_fieldPieces {level : Nat} {fields : List (String × Value)}
    (makes : ∀ e ∈ fields, (pieces level e.2).flatMap String.toList = (block level e.2).toList) :
    (fieldPieces level fields).flatMap String.toList = (blockFields level fields).toList := by
  induction fields with
  | nil => rfl
  | cons e fields ih =>
    obtain ⟨first, others⟩ := List.forall_mem_cons.mp makes
    cases fields with
    | nil => simp [fieldPieces, blockFields, first]
    | cons d fields =>
      rw [fieldPieces, blockFields]
      · simp [first, ih others]
      · exact List.cons_ne_nil _ _
      · exact List.cons_ne_nil _ _

/-- The pieces of a text make up the text. -/
theorem flatMap_pieces (tidy : v.Tidy) (level : Nat) :
    (pieces level v).flatMap String.toList = (block level v).toList := by
  induction tidy using tidy_induction generalizing level with
  | @atom v _ plain =>
    cases v with
    | list | obj => cases plain
    | _ => simp [pieces, block]
  | @list items _ ih =>
    by_cases empty : items = []
    · rw [empty, pieces, block]
      rfl
    · rw [pieces, block, List.flatMap_append,
        flatMap_itemPieces empty fun v member => ih v member (level + 1)]
      · simp
      · exact empty
      · exact empty
  | @obj fields _ _ ih =>
    by_cases empty : fields = []
    · rw [empty, pieces, block]
      rfl
    · have made := flatMap_fieldPieces fun e member => ih e member (level + 1)
      rw [pieces, block]
      · simp [made]
      · exact empty
      · exact empty

/-- A value is written completely, if there is room for its texts. -/
theorem unwritable?_eq_none (tidy : v.Tidy) (whole : v.Whole) : unwritable? v = none := by
  have fits : ∀ piece ∈ pieces 0 v, (Text.Medium.utf8.trouble? piece.toList).isNone = true := by
    intro piece member
    rw [Option.isNone_iff_eq_none, Text.Medium.trouble?_eq_none_iff]
    intro c inside
    have within : c ∈ (block 0 v).toList := by
      rw [← flatMap_pieces tidy]
      exact List.mem_flatMap.mpr ⟨piece, member, inside⟩
    rw [Text.Medium.holds, (allFit_block tidy whole 0 c within).1, Bool.not_false]
  simp only [unwritable?, List.dropWhile_eq_nil_iff.mpr fits]

/-! ## Texts that were written -/

theorem mem_escape (half : Text.isStandIn c = true) : c ∈ escape c := by
  have high : Text.firstStandIn ≤ c.toNat := by
    rw [Text.isStandIn, Bool.and_eq_true, decide_eq_true_eq] at half
    exact half.1
  have other {d : Char} (low : d.toNat < Text.firstStandIn) : c ≠ d := by
    rintro rfl
    omega
  have large : 32 ≤ Text.firstStandIn := by decide
  rw [escape, if_neg (other (by decide)), if_neg (other (by decide)), if_neg (other (by decide)),
    if_neg (other (by decide)), if_neg (other (by decide)), if_neg (by omega), if_neg (by omega),
    if_neg (by omega)]
  exact List.mem_singleton.mpr rfl

/-- No half of a surrogate pair stands among the characters. -/
def Clear (cs : List Char) : Prop := ∀ c ∈ cs, Text.isStandIn c = false

theorem Clear.of_subset {ds : List Char} (clear : Clear ds) (within : cs ⊆ ds) : Clear cs :=
  fun c member => clear c (within member)

theorem whole_of_clear (clear : Clear (s.toList.flatMap escape)) : Text.Whole s := by
  intro c member
  refine Bool.eq_false_iff.mpr fun half => ?_
  have written := clear c (List.mem_flatMap.mpr ⟨c, member, mem_escape half⟩)
  rw [half] at written
  cases written

theorem subset_row {s : Spacing} (member : text ∈ texts) : text ⊆ s.row texts := by
  fun_induction Spacing.row s texts with
  | case1 => cases member
  | case2 only =>
    cases List.mem_singleton.mp member
    exact List.Subset.refl _
  | case3 first rest _ ih =>
    rcases List.mem_cons.mp member with rfl | later
    · exact List.subset_append_left ..
    · refine List.Subset.trans (ih later) ?_
      exact List.subset_append_of_subset_right _ (List.subset_cons_of_subset _
        (List.subset_append_right ..))

theorem subset_enclose {s : Spacing} {closing : Char} (member : text ∈ texts) :
    text ⊆ s.enclose texts closing := by
  refine List.Subset.trans (subset_row (s := s) member) ?_
  exact List.subset_append_of_subset_right _ (List.subset_append_left ..)

/-- Where no half was written there was none in the value. -/
theorem whole_of_clear_block (tidy : v.Tidy) (level : Nat) (clear : Clear (block level v).toList) :
    v.Whole := by
  induction tidy using tidy_induction generalizing level with
  | @atom v _ plain =>
    rw [block_of_not_nested level plain] at clear
    cases v with
    | list | obj => cases plain
    | str s =>
      rw [atomText, stringText, String.toList_ofList] at clear
      refine Value.whole_str.mpr (whole_of_clear (clear.of_subset ?_))
      exact List.subset_append_of_subset_left _ (List.subset_cons_self _ _)
    | _ => exact List.forall_mem_nil _
  | @list items _ ih =>
    refine Value.whole_list.mpr fun v member => ?_
    rw [toList_block_list level (List.ne_nil_of_mem member)] at clear
    refine ih v member (level + 1) (clear.of_subset ?_)
    refine List.subset_cons_of_subset _ (subset_enclose ?_)
    exact List.mem_map.mpr ⟨v, member, rfl⟩
  | @obj fields _ _ ih =>
    refine Value.whole_obj.mpr fun e member => ?_
    rw [toList_block_obj level (List.ne_nil_of_mem member)] at clear
    have field : Clear (fieldText e.1 (block (level + 1) e.2).toList) := by
      refine clear.of_subset (List.subset_cons_of_subset _ (subset_enclose ?_))
      exact List.mem_map.mpr ⟨e, member, rfl⟩
    refine ⟨whole_of_clear (field.of_subset ?_), ih e member (level + 1) (field.of_subset ?_)⟩
    · exact List.subset_cons_of_subset _ (List.subset_append_left ..)
    · refine List.subset_cons_of_subset _ (List.subset_append_of_subset_right _ ?_)
      exact List.subset_cons_of_subset _ (List.subset_cons_of_subset _ (List.subset_cons_self _ _))

theorem trouble?_of_unwritable?_eq_none (done : unwritable? v = none) :
    ∀ piece ∈ pieces 0 v, Text.Medium.utf8.trouble? piece.toList = none := by
  rw [unwritable?] at done
  cases rest : (pieces 0 v).dropWhile fun piece =>
      (Text.Medium.utf8.trouble? piece.toList).isNone with
  | nil =>
    intro piece member
    exact Option.isNone_iff_eq_none.mp (List.dropWhile_eq_nil_iff.mp rest piece member)
  | cons piece others =>
    rw [rest] at done
    have fine : Text.Medium.utf8.trouble? piece.toList = none := Option.map_eq_none_iff.mp done
    have stuck := List.head?_dropWhile_not (fun piece : String =>
      (Text.Medium.utf8.trouble? piece.toList).isNone) (pieces 0 v)
    rw [rest, List.head?_cons] at stuck
    simp [fine] at stuck

/-- A value that was written completely has no half of a surrogate pair in its texts. -/
theorem whole_of_unwritable?_eq_none (tidy : v.Tidy) (done : unwritable? v = none) : v.Whole := by
  refine whole_of_clear_block tidy 0 fun c member => ?_
  rw [← flatMap_pieces tidy] at member
  obtain ⟨piece, inside, within⟩ := List.mem_flatMap.mp member
  have held := (Text.Medium.trouble?_eq_none_iff _ _).mp
    (trouble?_of_unwritable?_eq_none done piece inside) c within
  simpa [Text.Medium.holds] using held

end Json

end Wireboard
