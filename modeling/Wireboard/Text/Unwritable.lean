import Wireboard.Text.Quoted

/-!
# Texts that cannot be written

Headers have room for ASCII only, and files and bodies for every character but not for half of a
surrogate pair.  A text with anything else in it is refused, with the place of the first run of
characters that find no room.
-/

namespace Wireboard.Text

/-- Where texts are written to. -/
inductive Medium where
  | ascii
  | utf8
deriving DecidableEq, Repr

def Medium.name : Medium → String
  | .ascii => "ascii"
  | .utf8 => "utf-8"

def Medium.holds : Medium → Char → Bool
  | .ascii, c => decide (c.toNat < 128)
  | .utf8, c => !isStandIn c

/-- Why a medium has no room. -/
def Medium.reason : Medium → String
  | .ascii => "ordinal not in range(128)"
  | .utf8 => "surrogates not allowed"

/-- Characters that found no room: their position, how many they are, the first one. -/
structure CharTrouble where
  medium : Medium
  position : Nat
  size : Nat
  first : Char
deriving DecidableEq, Repr

/-- The message for characters that found no room. -/
def CharTrouble.message (t : CharTrouble) : String :=
  let what :=
    if t.size = 1 then
      let shown := String.ofList (escapedCode (codeOf t.first))
      s!"character '{shown}' in position {t.position}"
    else s!"characters in position {t.position}-{t.position + t.size - 1}"
  s!"'{t.medium.name}' codec can't encode {what}: {t.medium.reason}"

/-- The first characters of a text for which a medium has no room. -/
def Medium.trouble? (m : Medium) (cs : List Char) : Option CharTrouble :=
  match cs.dropWhile m.holds with
  | [] => none
  | c :: rest =>
    let others := rest.takeWhile fun c => !m.holds c
    some ⟨m, (cs.takeWhile m.holds).length, others.length + 1, c⟩

/-- A text is refused exactly if it has a character for which there is no room. -/
@[simp] theorem Medium.trouble?_eq_none_iff (m : Medium) (cs : List Char) :
    m.trouble? cs = none ↔ ∀ c ∈ cs, m.holds c = true := by
  induction cs with
  | nil => simp [trouble?]
  | cons c rest ih =>
    by_cases h : m.holds c = true
    · have step : m.trouble? (c :: rest) = none ↔ m.trouble? rest = none := by
        simp only [trouble?, List.dropWhile_cons_of_pos h]
        cases rest.dropWhile m.holds <;> simp
      simp [step, ih, h]
    · simp [trouble?, h]

end Wireboard.Text
