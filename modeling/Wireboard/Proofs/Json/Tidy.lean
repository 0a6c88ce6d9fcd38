import Wireboard.Json.Printer
import Wireboard.Json.Reader
import Wireboard.Proofs.Table

/-!
# What a reader can give

Not every value has a text that reads back.  A whole number may have too many digits, an object may
have one name twice, and a double that is no number may come from elsewhere than a text.  A value is
`Tidy` if there is nothing of this in it.

Whatever the reader gives is tidy (`tidy_of_read`, `tidy_of_readBytes`): a whole number is refused
where it has too many digits, and an object is put together name by name.  A tidy value has a text.
-/

namespace Wireboard

/-- What a reader can give: whole numbers of few enough digits, the one double of all texts that is
no number, and objects with every name once. -/
inductive Value.Tidy : Value → Prop where
  | null : Tidy .null
  | bool (b : Bool) : Tidy (.bool b)
  | int {n : Int} : Number.hasText n = true → Tidy (.int n)
  | float (x : Float) : Tidy (.float x)
  | nan : Tidy (.nan .written)
  | str (s : String) : Tidy (.str s)
  | list {items : List Value} : (∀ v ∈ items, Tidy v) → Tidy (.list items)
  | obj {fields : Table Value} : fields.names.Nodup → (∀ e ∈ fields, Tidy e.2) → Tidy (.obj fields)

variable {items : List Value} {v : Value}

namespace Value

@[simp] theorem tidy_list_iff : (Value.list items).Tidy ↔ ∀ v ∈ items, v.Tidy := by
  constructor
  · rintro (_ | _ | _ | _ | _ | _ | each | _)
    exact each
  · exact .list

@[simp] theorem tidy_obj_iff {fields : Table Value} :
    (Value.obj fields).Tidy ↔ fields.names.Nodup ∧ ∀ e ∈ fields, e.2.Tidy := by
  constructor
  · rintro (_ | _ | _ | _ | _ | _ | _ | ⟨distinct, each⟩)
    exact ⟨distinct, each⟩
  · rintro ⟨distinct, each⟩
    exact .obj distinct each

theorem tidy_obj_nil : (Value.obj []).Tidy := .obj List.nodup_nil (List.forall_mem_nil _)

-- The limit is a power with exponent 4300, so it is kept a variable where there is anything to
-- compute.
theorem lt_pow10_of_lt_1000 {n limit : Nat} (small : n < 1000) (long : 3 ≤ limit) :
    n < pow10 limit :=
  Nat.lt_of_lt_of_le (show n < 10 ^ 3 from small) (Nat.pow_le_pow_right (by decide) long)

theorem tidy_int_of_lt_1000 {n : Int} (small : n.natAbs < 1000) : (Value.int n).Tidy :=
  .int (decide_eq_true (lt_pow10_of_lt_1000 small (by decide)))

@[simp] theorem hasTextItems_iff : hasTextItems items = true ↔ ∀ v ∈ items, v.hasText = true := by
  induction items with
  | nil => simp [hasTextItems]
  | cons v items ih => simp [hasTextItems, ih]

@[simp] theorem hasTextFields_iff {fields : List (String × Value)} :
    hasTextFields fields = true ↔ ∀ e ∈ fields, e.2.hasText = true := by
  induction fields with
  | nil => simp [hasTextFields]
  | cons e fields ih => simp [hasTextFields, ih]

/-- A tidy value has a text. -/
theorem Tidy.hasText (tidy : v.Tidy) : v.hasText = true := by
  induction tidy with
  | int short => simpa [Value.hasText] using short
  | list _ ih => simpa [Value.hasText] using hasTextItems_iff.mpr ih
  | obj _ _ ih => simpa [Value.hasText] using hasTextFields_iff.mpr ih
  | null | bool | float | nan | str => simp [Value.hasText]

end Value

namespace Json

/-! ## Numbers -/

variable {ds : List Nat}

theorem foldl_digits_lt (small : ∀ d ∈ ds, d < 10) (n : Nat) :
    ds.foldl (fun n d => 10 * n + d) n < (n + 1) * pow10 ds.length := by
  induction ds generalizing n with
  | nil => simp
  | cons d ds ih =>
    obtain ⟨first, others⟩ := List.forall_mem_cons.mp small
    calc ds.foldl (fun n d => 10 * n + d) (10 * n + d)
        < (10 * n + d + 1) * pow10 ds.length := ih others (10 * n + d)
      _ ≤ ((n + 1) * 10) * pow10 ds.length := Nat.mul_le_mul_right _ (by omega)
      _ = (n + 1) * pow10 (ds.length + 1) := by rw [Nat.mul_assoc, Nat.mul_comm 10]; rfl

theorem digit_lt_of_digitRun {cs : List Char} {d : Nat} (member : d ∈ (digitRun cs).1) :
    d < 10 := by
  obtain ⟨c, taken, rfl⟩ := List.mem_map.mp member
  have digit : isAsciiDigit c = true := List.all_eq_true.mp List.all_takeWhile c taken
  simp only [isAsciiDigit, Char.le_def, Bool.and_eq_true, decide_eq_true_eq] at digit
  have upper : c.toNat ≤ 57 := digit.2
  omega

theorem digit_lt_of_wholePart {cs : List Char} {found : List Nat × List Char}
    (whole : wholePart cs = some found) : ∀ d ∈ found.1, d < 10 := by
  intro d member
  unfold wholePart at whole
  split at whole
  next =>
    cases whole
    rw [List.mem_singleton.mp member]
    decide
  next =>
    split at whole
    next =>
      cases whole
      exact digit_lt_of_digitRun member
    next => cases whole
  next => cases whole

theorem ofDigits_lt_pow10 {limit : Nat} (small : ∀ d ∈ ds, d < 10) (few : ds.length ≤ limit) :
    Number.ofDigits ds < pow10 limit := by
  have bound : Number.ofDigits ds < pow10 ds.length := by
    rw [← Nat.one_mul (pow10 _)]
    exact foldl_digits_lt small 0
  exact Nat.lt_of_lt_of_le bound (Nat.pow_le_pow_right (by decide) few)

theorem hasText_ofDigits (small : ∀ d ∈ ds, d < 10) (few : ds.length ≤ Number.digitLimit)
    (negative : Bool) :
    Number.hasText (if negative then -(Number.ofDigits ds : Int) else Number.ofDigits ds)
      = true := by
  have size : Int.natAbs (if negative then -(Number.ofDigits ds : Int) else Number.ofDigits ds)
      = Number.ofDigits ds := by
    cases negative <;> simp
  rw [Number.hasText, decide_eq_true_eq, size]
  exact ofDigits_lt_pow10 small few

theorem tidy_of_readNumber {cs tail : List Char} (ok : readNumber cs = .ok (v, tail)) : v.Tidy := by
  unfold readNumber at ok
  dsimp only at ok
  split at ok
  next => cases ok
  next whole after found =>
    split at ok
    next =>
      split at ok
      next => cases ok
      next short =>
        cases ok
        exact .int (hasText_ofDigits (digit_lt_of_wholePart found) (Nat.not_lt.mp short) _)
    next =>
      cases ok
      exact .float _

/-! ## Values -/

/-- A property that what is read has if its parts have it: words, numbers and texts have it, and
lists and objects whose values do. -/
structure Hereditary (P : Value → Prop) : Prop where
  constant : ∀ e ∈ constants, P e.2
  number {cs tail : List Char} {v : Value} : readNumber cs = .ok (v, tail) → P v
  str (s : String) : P (.str s)
  list {items : List Value} : (∀ v ∈ items, P v) → P (.list items)
  obj {fields : List (String × Value)} :
    (∀ e ∈ fields, P e.2) → P (.obj (Table.ofEntries fields))

/-- With so much fuel the three readers give nothing without the property. -/
structure Readers (P : Value → Prop) (fuel : Nat) : Prop where
  value {cs tail : List Char} {v : Value} : readValue none fuel cs = .ok (v, tail) → P v
  items {cs tail : List Char} {items : List Value} :
    readItems none fuel cs = .ok (items, tail) → ∀ v ∈ items, P v
  fields {cs tail : List Char} {fields : List (String × Value)} :
    readFields none fuel cs = .ok (fields, tail) → ∀ e ∈ fields, P e.2

namespace Hereditary

variable {P : Value → Prop} {fuel : Nat} {cs tail : List Char}

theorem of_readAtom (hereditary : Hereditary P) (ok : readAtom cs = .ok (v, tail)) : P v := by
  unfold readAtom at ok
  split at ok
  next found word =>
    cases ok
    obtain ⟨e, member, found⟩ := List.exists_of_findSome?_eq_some word
    obtain ⟨rest, -, same⟩ := Option.map_eq_some_iff.mp found
    cases same
    exact hereditary.constant e member
  next => exact hereditary.number ok

theorem of_readValue (hereditary : Hereditary P) (readers : Readers P fuel)
    (ok : readValue none (fuel + 1) cs = .ok (v, tail)) : P v := by
  unfold readValue at ok
  split at ok
  next =>
    split at ok
    next =>
      cases ok
      exact hereditary.str _
    next => cases ok
  next =>
    dsimp only [inside?] at ok
    split at ok
    next =>
      cases ok
      exact hereditary.list (List.forall_mem_nil _)
    next =>
      split at ok
      next inside =>
        cases ok
        exact hereditary.list (readers.items inside)
      next => cases ok
  next =>
    dsimp only [inside?] at ok
    split at ok
    next =>
      cases ok
      exact hereditary.obj (List.forall_mem_nil _)
    next =>
      split at ok
      next inside =>
        cases ok
        exact hereditary.obj (readers.fields inside)
      next => cases ok
  next => exact hereditary.of_readAtom ok

end Hereditary

namespace Readers

variable {P : Value → Prop} {fuel : Nat} {cs tail : List Char}

theorem items_succ (readers : Readers P fuel)
    (ok : readItems none (fuel + 1) cs = .ok (items, tail)) : ∀ v ∈ items, P v := by
  unfold readItems at ok
  split at ok
  next => cases ok
  next first =>
    split at ok
    next =>
      cases ok
      exact List.forall_mem_singleton.mpr (readers.value first)
    next =>
      split at ok
      next others =>
        cases ok
        exact List.forall_mem_cons.mpr ⟨readers.value first, readers.items others⟩
      next => cases ok
    next => cases ok

theorem fields_succ (readers : Readers P fuel) {fields : List (String × Value)}
    (ok : readFields none (fuel + 1) cs = .ok (fields, tail)) : ∀ e ∈ fields, P e.2 := by
  unfold readFields at ok
  -- a quote, the name up to its closing quote, a colon, and only then a value
  split at ok
  next =>
    split at ok
    next => cases ok
    next =>
      split at ok
      next =>
        split at ok
        next => cases ok
        next first =>
          split at ok
          next =>
            cases ok
            exact List.forall_mem_singleton.mpr (readers.value first)
          next =>
            split at ok
            next others =>
              cases ok
              exact List.forall_mem_cons.mpr ⟨readers.value first, readers.fields others⟩
            next => cases ok
          next => cases ok
      next => cases ok
  next => cases ok

end Readers

-- The readers call each other with less fuel, so it is one induction for all three.
theorem Hereditary.readers {P : Value → Prop} (hereditary : Hereditary P) (fuel : Nat) :
    Readers P fuel := by
  induction fuel with
  | zero => refine ⟨fun ok => ?_, fun ok => ?_, fun ok => ?_⟩ <;> cases ok
  | succ fuel readers =>
    exact ⟨hereditary.of_readValue readers, readers.items_succ, readers.fields_succ⟩

/-! ## Texts -/

theorem readChars_eq_ok {cs : List Char} :
    readChars cs = .ok v ↔ ∃ after,
      readValue none (2 * cs.length + 2) (skipSpace cs) = .ok (v, after)
        ∧ skipSpace after = [] := by
  unfold readChars
  cases readValue none (2 * cs.length + 2) (skipSpace cs) with
  | error h => simp
  | ok r =>
    obtain ⟨w, after⟩ := r
    constructor
    · intro ok
      dsimp only at ok
      split at ok
      next blank =>
        cases ok
        exact ⟨after, rfl, blank⟩
      next => cases ok
    · rintro ⟨_, same, blank⟩
      cases same
      dsimp only
      rw [blank]

theorem ok_of_mapError {α ε ε' : Type} {f : ε → ε'} {r : Except ε α} {a : α}
    (ok : r.mapError f = .ok a) : r = .ok a := by
  cases r with
  | error e => cases ok
  | ok b =>
    cases ok
    rfl

variable {text : String}

theorem readChars_of_read (ok : read text = .ok v) : readChars text.toList = .ok v := by
  have inside := ok_of_mapError ok
  unfold readText at inside
  split at inside
  next => cases inside
  next => exact inside

theorem Hereditary.of_readChars {P : Value → Prop} (hereditary : Hereditary P) {cs : List Char}
    (ok : readChars cs = .ok v) : P v := by
  obtain ⟨after, found, -⟩ := readChars_eq_ok.mp ok
  exact (hereditary.readers _).value found

theorem Hereditary.of_read {P : Value → Prop} (hereditary : Hereditary P) (ok : read text = .ok v) :
    P v :=
  hereditary.of_readChars (readChars_of_read ok)

theorem tidy_of_constants : ∀ e ∈ constants, e.2.Tidy := by
  intro e member
  simp only [constants, List.mem_cons, List.not_mem_nil, or_false] at member
  rcases member with rfl | rfl | rfl | rfl | rfl | rfl
  · exact .null
  · exact .bool true
  · exact .bool false
  · exact .nan
  · exact .float _
  · exact .float _

theorem hereditary_tidy : Hereditary Value.Tidy where
  constant := tidy_of_constants
  number := tidy_of_readNumber
  str := .str
  list := .list
  obj tidy := .obj (Table.nodup_names_ofEntries _) fun e member =>
    tidy e (Table.mem_of_mem_ofEntries member)

theorem tidy_of_readChars {cs : List Char} (ok : readChars cs = .ok v) : v.Tidy :=
  hereditary_tidy.of_readChars ok

theorem tidy_of_read (ok : read text = .ok v) : v.Tidy :=
  hereditary_tidy.of_read ok

theorem tidy_of_readBytes {bytes : List UInt8} (ok : readBytes bytes = .ok v) : v.Tidy := by
  unfold readBytes at ok
  cases decoded : (Text.decodeDetected bytes).mapError Fault.bytes with
  | error f =>
    rw [decoded] at ok
    cases ok
  | ok cs =>
    rw [decoded] at ok
    exact tidy_of_readChars (ok_of_mapError ok)

end Json

end Wireboard
