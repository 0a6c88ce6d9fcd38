import Wireboard.Proofs.Number.Places
import Wireboard.Proofs.Table
import Wireboard.Value.Operators

/-!
# Comparisons of values

Equality and order of values are decided apart from one another: equality knows null, lists and
objects, and order only texts and what can be taken for a number.  They agree all the same.

* Wherever two values can be ordered, all six signs compare one thing on each side, in one linear
  order (`ComparesAs`): the code points of two texts, or the places of two numbers on the line
  (`comparesAs_texts`, `comparesAs_numbers`).  That exactly one of less, equal and greater holds is
  then a matter of that order alone (`ComparesAs.trichotomy`).
* Equality does not depend on the order of the two values (`looseEquals_comm`).  For lists and
  objects this goes down to the values in them.  Two objects are compared from the side of the
  first: each of its fields must be in the second, and there must be as many.  So the other
  direction holds by counting, and only where every name is in an object once (`WellNamed`).
-/

namespace Wireboard

namespace Value

/-- Every object in the value has every name once. -/
inductive WellNamed : Value → Prop where
  | null : WellNamed .null
  | bool (b : Bool) : WellNamed (.bool b)
  | int (n : Int) : WellNamed (.int n)
  | float (x : Float) : WellNamed (.float x)
  | nan (origin : Origin) : WellNamed (.nan origin)
  | str (s : String) : WellNamed (.str s)
  | list {items : List Value} : (∀ v ∈ items, WellNamed v) → WellNamed (.list items)
  | obj {fields : Table Value} :
      fields.names.Nodup → (∀ e ∈ fields, WellNamed e.2) → WellNamed (.obj fields)

variable {a b : Value}

/-! ## Equality inside of lists and objects -/

theorem sameNan_comm (a b : Value) : sameNan a b = sameNan b a := by
  cases a <;> cases b <;> simp [sameNan, Bool.beq_comm]

theorem sameItems_comm {xs ys : List Value}
    (each : ∀ x ∈ xs, ∀ y ∈ ys, x.same y = y.same x) : sameItems xs ys = sameItems ys xs := by
  induction xs generalizing ys with
  | nil => cases ys <;> simp [sameItems]
  | cons x xs ih =>
    cases ys with
    | nil => simp [sameItems]
    | cons y ys =>
      have first := each x List.mem_cons_self y List.mem_cons_self
      have rest := ih fun x later y later' =>
        each x (List.mem_cons_of_mem _ later) y (List.mem_cons_of_mem _ later')
      rw [sameItems, sameItems, sameNan_comm, first, rest]

theorem sameFields_iff {t u : Table Value} :
    sameFields t u = true ↔ ∀ e ∈ t, ∃ w, u.get? e.1 = some w ∧ e.2.alike w = true := by
  induction t with
  | nil => simp [sameFields]
  | cons e t ih =>
    obtain ⟨k, v⟩ := e
    rw [sameFields, Bool.and_eq_true, ih, List.forall_mem_cons]
    refine and_congr_left' ?_
    cases u.get? k with
    | none => simp
    | some w => simp [alike]

/-- Where there are as many names on both sides, the names of one side are those of the other. -/
theorem sameFields_symm {t u : Table Value} (distinct : t.names.Nodup)
    (distinct' : u.names.Nodup) (length : t.length = u.length)
    (each : ∀ e ∈ t, ∀ e' ∈ u, e.2.same e'.2 = e'.2.same e.2) (same : sameFields t u = true) :
    sameFields u t = true := by
  rw [sameFields_iff] at same ⊢
  have inside : t.names ⊆ u.names := by
    intro name listed
    obtain ⟨e, member, rfl⟩ := List.mem_map.mp listed
    obtain ⟨w, found, -⟩ := same e member
    exact List.mem_map.mpr ⟨(e.1, w), Table.mem_of_get? found, rfl⟩
  have perm : t.names.Perm u.names := by
    refine (List.subperm_of_subset distinct inside).perm_of_length_le ?_
    simp [Table.names, length]
  intro e' member'
  obtain ⟨e, member, name⟩ := List.mem_map.mp (perm.mem_iff.mpr (List.mem_map_of_mem member'))
  have there : t.get? e'.1 = some e.2 := Table.get?_of_mem distinct (name ▸ member)
  obtain ⟨w, found, equal⟩ := same e member
  have here : u.get? e.1 = some e'.2 := Table.get?_of_mem distinct' (by rw [name]; exact member')
  cases found.symm.trans here
  refine ⟨e.2, there, ?_⟩
  rwa [alike, sameNan_comm, ← each e member e' member']

/-! ## Numbers among values -/

@[simp] theorem not_same_notANumber (n : Num) : (Num.float Binary64.notANumber).same n = false := by
  have none : (Num.float Binary64.notANumber).quantity? = none := by decide +kernel
  rw [Num.same, none]

theorem same_of_asNum? {x : Num} (number : a.asNum? = some x) :
    a.same b = b.asNum?.any x.same := by
  have sameNum (x : Num) : same.sameNum x b = b.asNum?.any x.same := by
    rw [same.sameNum]
    cases b.asNum? <;> rfl
  cases a with
  | bool | int | float =>
    cases number
    rw [← sameNum]
    cases b <;> rw [same]
  | nan =>
    cases number
    have never : b.asNum?.any (Num.float Binary64.notANumber).same = false := by
      cases b.asNum? with
      | none => rfl
      | some y => exact not_same_notANumber y
    rw [never]
    cases b <;> simp [same]
  | null | str | list | obj => cases number

theorem same_comm_of_asNum? {x : Num} (number : a.asNum? = some x) : a.same b = b.same a := by
  rw [same_of_asNum? number]
  cases other : b.asNum? with
  | some y =>
    rw [same_of_asNum? other, number]
    exact Num.same_comm x y
  | none => cases a <;> cases number <;> cases b <;> cases other <;> simp [same]

/-- Equality has no direction. -/
theorem same_comm (ha : a.WellNamed) (hb : b.WellNamed) : a.same b = b.same a := by
  induction ha generalizing b with
  | bool | int | float | nan => exact same_comm_of_asNum? rfl
  | null =>
    cases b with
    | bool | int | float | nan => exact (same_comm_of_asNum? rfl).symm
    | null | str | list | obj => simp [same]
  | str s =>
    cases b with
    | bool | int | float | nan => exact (same_comm_of_asNum? rfl).symm
    | str t => simp [same, Bool.beq_comm]
    | null | list | obj => simp [same]
  | list each ih =>
    cases b with
    | bool | int | float | nan => exact (same_comm_of_asNum? rfl).symm
    | list items =>
      cases hb with
      | list each' =>
        rw [same, same]
        exact sameItems_comm fun v member w member' => ih v member (each' w member')
    | null | str | obj => simp [same]
  | obj distinct each ih =>
    cases b with
    | bool | int | float | nan => exact (same_comm_of_asNum? rfl).symm
    | obj fields =>
      cases hb with
      | obj distinct' each' =>
        rw [same, same, Bool.eq_iff_iff, Bool.and_eq_true, Bool.and_eq_true, beq_iff_eq, beq_iff_eq]
        constructor
        · rintro ⟨length, fits⟩
          exact ⟨length.symm, sameFields_symm distinct distinct' length
            (fun e member e' member' => ih e member (each' e' member')) fits⟩
        · rintro ⟨length, fits⟩
          exact ⟨length.symm, sameFields_symm distinct' distinct length
            (fun e member e' member' => (ih e' member' (each' e member)).symm) fits⟩
    | null | str | list => simp [same]

/-! ## Equality of texts and numbers -/

/-- Both values are texts. -/
def AreTexts (a b : Value) : Prop := ∃ s t, a = .str s ∧ b = .str t

theorem AreTexts.symm (texts : AreTexts a b) : AreTexts b a := by
  obtain ⟨s, t, rfl, rfl⟩ := texts
  exact ⟨t, s, rfl, rfl⟩

theorem looseEquals_of_scalars (left : a.isScalar = true) (right : b.isScalar = true)
    (other : ¬ AreTexts a b) :
    looseEquals a b = a.toNum?.any fun x => b.toNum?.any x.same := by
  unfold looseEquals
  split
  next => cases left
  next => cases left
  next => cases right
  next => exact absurd ⟨_, _, rfl, rfl⟩ other
  next =>
    rw [left, right]
    cases a.toNum? <;> cases b.toNum? <;> rfl

/-- Where one of the values is null, a list or an object, numbers and texts are not taken for one
another. -/
theorem looseEquals_of_not_scalars (other : (a.isScalar && b.isScalar) = false) :
    looseEquals a b = a.same b := by
  cases a <;> cases b <;> simp_all [looseEquals, isScalar, same, same.sameNum, asNum?]

theorem looseEquals_comm (ha : a.WellNamed) (hb : b.WellNamed) :
    looseEquals a b = looseEquals b a := by
  by_cases texts : AreTexts a b
  · obtain ⟨s, t, rfl, rfl⟩ := texts
    exact Bool.beq_comm
  · cases scalars : a.isScalar && b.isScalar with
    | false =>
      have swapped : (b.isScalar && a.isScalar) = false := by rw [Bool.and_comm, scalars]
      rw [looseEquals_of_not_scalars scalars, looseEquals_of_not_scalars swapped, same_comm ha hb]
    | true =>
      obtain ⟨left, right⟩ := Bool.and_eq_true_iff.mp scalars
      have texts' : ¬ AreTexts b a := fun swapped => texts swapped.symm
      rw [looseEquals_of_scalars left right texts, looseEquals_of_scalars right left texts']
      cases a.toNum? with
      | none => cases b.toNum? <;> rfl
      | some x =>
        cases b.toNum? with
        | none => rfl
        | some y => exact Num.same_comm x y

/-! ## Order -/

/-- All signs compare the values as they compare two places in a linear order. -/
structure ComparesAs {α : Type} [LinearOrder α] (a b : Value) (l r : α) : Prop where
  eq : compareBy "==" a b = decide (l = r)
  ne : compareBy "!=" a b = decide (l ≠ r)
  gt : compareBy ">" a b = decide (l > r)
  lt : compareBy "<" a b = decide (l < r)
  ge : compareBy ">=" a b = decide (l ≥ r)
  le : compareBy "<=" a b = decide (l ≤ r)

/-- Exactly one of the three ways to compare comes out, and to be at most is to be less or equal. -/
theorem ComparesAs.trichotomy {α : Type} [LinearOrder α] {l r : α} (as : a.ComparesAs b l r) :
    [compareBy "<" a b, compareBy "==" a b, compareBy ">" a b].count true = 1 ∧
      compareBy "<=" a b = (compareBy "<" a b || compareBy "==" a b) := by
  rw [as.lt, as.eq, as.gt, as.le]
  rcases lt_trichotomy l r with less | rfl | more
  · simp [less, less.ne, less.le, less.not_gt]
  · simp
  · simp [more, more.ne', more.not_gt, more.not_ge]

theorem comparesAs_texts (s t : String) :
    (str s).ComparesAs (str t) (Text.codes s) (Text.codes t) := by
  have precedes {s t : String} : Text.Precedes s t ↔ Text.codes s < Text.codes t := Iff.rfl
  have least {s t : String} :
      (!decide (Text.Precedes t s)) = decide (Text.codes s ≤ Text.codes t) :=
    decide_not.symm.trans (decide_eq_decide.mpr ((not_congr precedes).trans not_lt))
  exact {
    eq := decide_eq_decide.mpr Text.codes_inj.symm
    ne := decide_not.symm.trans (decide_eq_decide.mpr (not_congr Text.codes_inj.symm))
    gt := decide_eq_decide.mpr precedes
    lt := decide_eq_decide.mpr precedes
    ge := least
    le := least }

/-- A value that can be taken for a number has a place on the line. -/
theorem exists_place?_of_toNum? {v : Value} {x : Num} (number : v.toNum? = some x) :
    ∃ p, x.place? = some p := by
  have place {y : Float} (number : y.isNaN ≠ true) : ∃ p, (Num.float y).place? = some p :=
    Option.ne_none_iff_exists'.mp fun none => number (Num.place?_float_eq_none_iff.mp none)
  cases v with
  | bool | int =>
    cases number
    exact ⟨_, rfl⟩
  | float y =>
    rw [toNum?] at number
    split at number
    next => cases number
    next some =>
      cases number
      exact place some
  | str s =>
    rw [toNum?, readNum?] at number
    split at number
    next =>
      cases number
      exact ⟨_, rfl⟩
    next =>
      split at number
      next =>
        cases number
        exact ⟨_, rfl⟩
      next =>
        split at number
        next y _ =>
          split at number
          next => cases number
          next some =>
            cases number
            exact place some
        next => cases number
  | null | nan | list | obj => cases number

section

variable {x y : Num} (left : a.toNum? = some x) (right : b.toNum? = some y)
  (other : ¬ AreTexts a b)

include left right other

theorem before?_of_numbers : before? a b = some (x.lt y) := by
  unfold before?
  split
  next => exact absurd ⟨_, _, rfl, rfl⟩ other
  next => rw [left, right]

theorem beforeOrAt?_of_numbers : beforeOrAt? a b = some (x.le y) := by
  unfold beforeOrAt?
  split
  next => exact absurd ⟨_, _, rfl, rfl⟩ other
  next => rw [left, right]

theorem looseEquals_of_numbers : looseEquals a b = x.same y := by
  have scalar {v : Value} {n : Num} (number : v.toNum? = some n) : v.isScalar = true := by
    cases v <;> first | rfl | cases number
  rw [looseEquals_of_scalars (scalar left) (scalar right) other, left, right]
  rfl

end

theorem comparesAs_numbers {x y : Num} {p q : WithBot (WithTop ℚ)} (left : a.toNum? = some x)
    (right : b.toNum? = some y) (other : ¬ AreTexts a b) (atLeft : x.place? = some p)
    (atRight : y.place? = some q) : a.ComparesAs b p q := by
  have other' : ¬ AreTexts b a := fun texts => other texts.symm
  have equal : looseEquals a b = decide (p = q) := by
    rw [looseEquals_of_numbers left right other, Num.same_eq atLeft atRight]
  refine ⟨equal, ?_, ?_, ?_, ?_, ?_⟩
  · show (!looseEquals a b) = _
    rw [equal, ← decide_not]
  · show (before? b a).getD false = _
    rw [before?_of_numbers right left other', Option.getD_some, Num.lt_eq atRight atLeft]
  · show (before? a b).getD false = _
    rw [before?_of_numbers left right other, Option.getD_some, Num.lt_eq atLeft atRight]
  · show (beforeOrAt? b a).getD false = _
    rw [beforeOrAt?_of_numbers right left other', Option.getD_some, Num.le_eq atRight atLeft]
  · show (beforeOrAt? a b).getD false = _
    rw [beforeOrAt?_of_numbers left right other, Option.getD_some, Num.le_eq atLeft atRight]

/-- Values that can be ordered are compared in one linear order by all signs. -/
theorem exists_comparesAs (ordered : AreTexts a b ∨ (a.toNum?.isSome ∧ b.toNum?.isSome)) :
    ∃ (α : Type) (_ : LinearOrder α) (l r : α), a.ComparesAs b l r := by
  by_cases texts : AreTexts a b
  · obtain ⟨s, t, rfl, rfl⟩ := texts
    exact ⟨List Nat, inferInstance, _, _, comparesAs_texts s t⟩
  · obtain ⟨left, right⟩ := ordered.resolve_left texts
    obtain ⟨x, left⟩ := Option.isSome_iff_exists.mp left
    obtain ⟨y, right⟩ := Option.isSome_iff_exists.mp right
    obtain ⟨p, atLeft⟩ := exists_place?_of_toNum? left
    obtain ⟨q, atRight⟩ := exists_place?_of_toNum? right
    exact ⟨_, inferInstance, p, q, comparesAs_numbers left right texts atLeft atRight⟩

/-- The signs of comparison agree with one another.  Equality has no direction, and what is not
equal is unequal; greater is less from the other side, and so is at least.  Of two texts, and of two
values that can be taken for numbers, exactly one is true: that the first is less, that both are
equal, or that the first is greater; and at most is less or equal.  Numbers are compared by their
exact places, whole ones and doubles alike, and whatever can be taken for a number has one. -/
theorem comparisons_cohere (ha : a.WellNamed) (hb : b.WellNamed) :
    compareBy "==" a b = compareBy "==" b a ∧
    compareBy "!=" a b = !compareBy "==" a b ∧
    compareBy ">" a b = compareBy "<" b a ∧
    compareBy ">=" a b = compareBy "<=" b a ∧
    ((AreTexts a b ∨ (a.toNum?.isSome ∧ b.toNum?.isSome)) →
      [compareBy "<" a b, compareBy "==" a b, compareBy ">" a b].count true = 1 ∧
      compareBy "<=" a b = (compareBy "<" a b || compareBy "==" a b)) ∧
    (∀ x y, a.toNum? = some x → b.toNum? = some y → ¬ AreTexts a b →
      ∃ p q, x.place? = some p ∧ y.place? = some q ∧ a.ComparesAs b p q) := by
  refine ⟨looseEquals_comm ha hb, rfl, rfl, rfl, fun ordered => ?_, fun x y left right other => ?_⟩
  · obtain ⟨α, order, l, r, as⟩ := exists_comparesAs ordered
    exact as.trichotomy
  · obtain ⟨p, atLeft⟩ := exists_place?_of_toNum? left
    obtain ⟨q, atRight⟩ := exists_place?_of_toNum? right
    exact ⟨p, q, atLeft, atRight, comparesAs_numbers left right other atLeft atRight⟩

/-- A list under one name, and no number under another. -/
def parcel : Value := .obj [("a", .list [.int 1, .null]), ("b", .nan .written)]

/-- The same the other way round, with a truth value in place of a number. -/
def parcelBack : Value := .obj [("b", .nan .written), ("a", .list [.bool true, .null])]

/-- The first power of two from which on not every whole number is a double. -/
def edge : Value := .float (Binary64.nearest false 9007199254740992 1)

theorem comparisons_cohere_parcel :
    (compareBy "==" parcel parcelBack = true ∧ compareBy "==" parcelBack parcel = true) ∧
    (compareBy "<" edge (.str " 9007199254740993\n") = true ∧
      [true, compareBy "==" edge (.str " 9007199254740993\n"),
        compareBy ">" edge (.str " 9007199254740993\n")].count true = 1) := by
  have named : parcel.WellNamed := by
    refine .obj (by decide) (List.forall_mem_cons.mpr ⟨.list ?_, List.forall_mem_singleton.mpr ?_⟩)
    · exact List.forall_mem_cons.mpr ⟨.int 1, List.forall_mem_singleton.mpr .null⟩
    · exact .nan .written
  have named' : parcelBack.WellNamed := by
    refine .obj (by decide)
      (List.forall_mem_cons.mpr ⟨.nan .written, List.forall_mem_singleton.mpr (.list ?_)⟩)
    exact List.forall_mem_cons.mpr ⟨.bool true, List.forall_mem_singleton.mpr .null⟩
  have same : compareBy "==" parcel parcelBack = true := by decide +kernel
  have less : compareBy "<" edge (.str " 9007199254740993\n") = true := by decide +kernel
  have numbers : edge.toNum?.isSome ∧ (Value.str " 9007199254740993\n").toNum?.isSome := by
    decide +kernel
  have one := (comparisons_cohere (.float _) (.str _)).2.2.2.2.1 (.inr numbers)
  refine ⟨⟨same, (comparisons_cohere named named').1.symm.trans same⟩, less, ?_⟩
  exact less ▸ one.1

end Value

end Wireboard
