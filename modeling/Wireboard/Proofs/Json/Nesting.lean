import Wireboard.Json.Reader

/-!
# Reading with a limit

Lists and objects may be nested only so deep if there is a limit, and the reader stops where they
are nested deeper.  This is all that a limit does: a text is read to the same value as without a
limit, or it is refused for the same reason, or it is nested too deeply (`Json.read_cases`).  And
without a limit no text is nested too deeply (`Json.read_ne_tooDeep`).

The reader for values and those for items and fields call each other, so there is one induction for
all three.
-/

namespace Wireboard.Json

/-- The first outcome is the second one, unless it is that something is nested too deeply. -/
def Curtails {α : Type} (x y : Except Halt α) : Prop := x = y ∨ ∃ task, x = .error (.tooDeep task)

/-- What holds of the second outcome, and wherever something is nested too deeply, holds of the
first one. -/
@[elab_as_elim]
theorem Curtails.elim {α : Type} {x y : Except Halt α} {motive : Except Halt α → Prop}
    (curtails : Curtails x y) (same : motive y)
    (deep : ∀ task, motive (.error (.tooDeep task))) : motive x := by
  rcases curtails with rfl | ⟨task, rfl⟩
  · exact same
  · exact deep task

/-- With so much fuel, a limit makes no other difference to the three readers. -/
structure Curtailed (fuel : Nat) : Prop where
  value : ∀ room cs, Curtails (readValue room fuel cs) (readValue none fuel cs)
  items : ∀ room cs, Curtails (readItems room fuel cs) (readItems none fuel cs)
  fields : ∀ room cs, Curtails (readFields room fuel cs) (readFields none fuel cs)

namespace Curtailed

variable {fuel : Nat}

theorem value_succ (curtailed : Curtailed fuel) (room : Option Nat) (cs : List Char) :
    Curtails (readValue room (fuel + 1) cs) (readValue none (fuel + 1) cs) := by
  unfold readValue
  split
  next => exact .inl rfl
  next rest =>
    cases room? : inside? room with
    | none => exact .inr ⟨_, rfl⟩
    | some inner =>
      dsimp only [inside?]
      split
      next => exact .inl rfl
      next =>
        exact (curtailed.items inner (skipSpace rest)).elim (.inl rfl) fun task => .inr ⟨task, rfl⟩
  next rest =>
    cases room? : inside? room with
    | none => exact .inr ⟨_, rfl⟩
    | some inner =>
      dsimp only [inside?]
      split
      next => exact .inl rfl
      next =>
        exact (curtailed.fields inner (skipSpace rest)).elim (.inl rfl) fun task => .inr ⟨task, rfl⟩
  next => exact .inl rfl

theorem items_succ (curtailed : Curtailed fuel) (room : Option Nat) (cs : List Char) :
    Curtails (readItems room (fuel + 1) cs) (readItems none (fuel + 1) cs) := by
  unfold readItems
  refine (curtailed.value room cs).elim ?_ fun task => .inr ⟨task, rfl⟩
  split
  next => exact .inl rfl
  next =>
    split
    next => exact .inl rfl
    next rest _ =>
      exact (curtailed.items room (skipSpace rest)).elim (.inl rfl) fun task => .inr ⟨task, rfl⟩
    next => exact .inl rfl

theorem fields_succ (curtailed : Curtailed fuel) (room : Option Nat) (cs : List Char) :
    Curtails (readFields room (fuel + 1) cs) (readFields none (fuel + 1) cs) := by
  unfold readFields
  split
  next =>
    split
    next => exact .inl rfl
    next =>
      split
      next afterColon _ =>
        refine (curtailed.value room (skipSpace afterColon)).elim ?_ fun task => .inr ⟨task, rfl⟩
        split
        next => exact .inl rfl
        next =>
          split
          next => exact .inl rfl
          next more _ =>
            refine (curtailed.fields room (skipSpace more)).elim (.inl rfl) fun task => ?_
            exact .inr ⟨task, rfl⟩
          next => exact .inl rfl
      next => exact .inl rfl
  next => exact .inl rfl

end Curtailed

theorem curtailed (fuel : Nat) : Curtailed fuel := by
  induction fuel with
  | zero => exact ⟨fun _ _ => .inl rfl, fun _ _ => .inl rfl, fun _ _ => .inl rfl⟩
  | succ fuel ih => exact ⟨ih.value_succ, ih.items_succ, ih.fields_succ⟩

theorem curtails_readChars (room : Option Nat) (cs : List Char) :
    Curtails (readChars cs room) (readChars cs) := by
  unfold readChars
  exact ((curtailed _).value room (skipSpace cs)).elim (.inl rfl) fun task => .inr ⟨task, rfl⟩

/-- A limit makes no other difference than that a text may be nested too deeply. -/
theorem read_cases (room : Option Nat) (text : String) :
    read text room = read text ∨ ∃ task, read text room = .error (.tooDeep task) := by
  unfold read readText
  dsimp only
  split
  next => exact .inl rfl
  next =>
    exact (curtails_readChars room text.toList).elim (.inl rfl) fun task => .inr ⟨task, rfl⟩

/-- What is read with a limit is read without one. -/
theorem read_of_room {room : Option Nat} {text : String} {v : Value}
    (ok : read text room = .ok v) : read text = .ok v := by
  rcases read_cases room text with same | ⟨task, deep⟩
  · rw [← same, ok]
  · rw [deep] at ok
    cases ok

/-! ## Without a limit -/

theorem scanString_ne_tooDeep (opening cs : List Char) (skip : Nat) (task : Descent) :
    scanString opening skip cs ≠ .error (.tooDeep task) := by
  fun_induction scanString opening skip cs with grind

theorem readAtom_ne_tooDeep (cs : List Char) (task : Descent) :
    readAtom cs ≠ .error (.tooDeep task) := by
  unfold readAtom readNumber
  grind

/-- With so much fuel, nothing is nested too deeply for the three readers. -/
theorem unlimited_ne_tooDeep (fuel : Nat) :
    (∀ cs task, readValue none fuel cs ≠ .error (.tooDeep task)) ∧
    (∀ cs task, readItems none fuel cs ≠ .error (.tooDeep task)) ∧
    ∀ cs task, readFields none fuel cs ≠ .error (.tooDeep task) := by
  induction fuel with
  | zero => simp [readValue, readItems, readFields]
  | succ fuel ih =>
    obtain ⟨values, items, fields⟩ := ih
    refine ⟨fun cs task => ?_, fun cs task => ?_, fun cs task => ?_⟩
    · unfold readValue
      dsimp only [inside?]
      grind [scanString_ne_tooDeep, readAtom_ne_tooDeep]
    · unfold readItems
      grind
    · unfold readFields
      split
      next =>
        split
        next => grind [scanString_ne_tooDeep]
        next => split <;> grind
      next => grind

theorem readText_ne_tooDeep (cs : List Char) (task : Descent) :
    readText cs ≠ .error (.tooDeep task) := by
  unfold readText readChars
  split
  next => exact nofun
  next =>
    split
    next h stopped =>
      intro deep
      cases deep
      exact (unlimited_ne_tooDeep _).1 _ _ stopped
    next => split <;> exact nofun

theorem read_ne_tooDeep (text : String) (task : Descent) :
    read text ≠ .error (.tooDeep task) := by
  intro deep
  unfold read at deep
  cases found : readText text.toList with
  | ok v =>
    simp only [found] at deep
    cases deep
  | error halt =>
    simp only [found] at deep
    cases halt with
    | tooDeep task => exact absurd found (readText_ne_tooDeep _ _)
    | _ => cases deep

/-- A text that is not nested too deeply fails to be read only because of what it is. -/
theorem isBadValue_of_read {text : String} {room : Option Nat} {f : Fault}
    (shallow : ∀ task, f ≠ .tooDeep task) (failed : read text room = .error f) :
    f.isBadValue = true := by
  unfold read at failed
  cases found : readText text.toList room with
  | ok v =>
    simp only [found] at failed
    cases failed
  | error halt =>
    simp only [found] at failed
    cases failed
    cases halt with
    | tooDeep task => exact absurd rfl (shallow task)
    | _ => rfl

example : (read "[[], [[7]]]" (some 2)).toOption = none ∧
    (read "[[], [[7]]]" (some 3)).toOption = some (.list [.list [], .list [.list [.int 7]]]) := by
  decide +kernel

end Wireboard.Json
