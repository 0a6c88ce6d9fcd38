/-!
# Surrogates

The code points from D800 to DFFF are halves of pairs and no characters, yet a text may have one of
them alone.  Such a half is kept as a stand-in, one of the private characters from U+10F000 to
U+10F7FF, and it is written and compared by the code point that it stands for.  The price is that
these characters have no other use: wherever texts are asked to be free of stand-ins, they are
excluded along with the halves.
-/

namespace Wireboard.Text

/-- The character that stands for what cannot be read. -/
def replacement : Char := Char.ofNat 0xfffd

/-- The code point is half of a pair. -/
def isSurrogate (code : Nat) : Bool := decide (0xd800 ≤ code) && decide (code < 0xe000)

/-- The first code point of the private characters that stand for halves. -/
def firstStandIn : Nat := 0x10f000

/-- The character stands for half of a pair. -/
def isStandIn (c : Char) : Bool :=
  decide (firstStandIn ≤ c.toNat) && decide (c.toNat < firstStandIn + 0x800)

def charOf (code : Nat) : Char :=
  if isSurrogate code then Char.ofNat (code - 0xd800 + firstStandIn)
  else if 0x10ffff < code then replacement
  else Char.ofNat code

def codeOf (c : Char) : Nat :=
  if isStandIn c then c.toNat - firstStandIn + 0xd800 else c.toNat

/-- The code points of a text, by which texts are compared. -/
def codes (s : String) : List Nat := s.toList.map codeOf

/-- The first text comes before the second. -/
def Precedes (s t : String) : Prop := List.Lex (· < ·) (codes s) (codes t)

instance (s t : String) : Decidable (Precedes s t) :=
  inferInstanceAs (Decidable (List.Lex (· < ·) (codes s) (codes t)))

/-- The number of the character of a valid code point. -/
theorem toNat_ofNat_of_valid {n : Nat} (h : n.isValidChar) : (Char.ofNat n).toNat = n := by
  rw [Char.ofNat, dif_pos h]
  rfl

theorem codeOf_of_not_isStandIn {c : Char} (plain : isStandIn c = false) : codeOf c = c.toNat := by
  rw [codeOf, plain]
  rfl

theorem isStandIn_iff {c : Char} :
    isStandIn c = true ↔ firstStandIn ≤ c.toNat ∧ c.toNat < firstStandIn + 0x800 := by
  rw [isStandIn, Bool.and_eq_true, decide_eq_true_iff, decide_eq_true_iff]

/-- No character has the code point of half a pair, so a stand-in has that code point alone. -/
@[simp] theorem codeOf_inj {c d : Char} : codeOf c = codeOf d ↔ c = d := by
  refine ⟨fun same => Char.toNat_inj.mp ?_, congrArg codeOf⟩
  have valid : c.toNat < 0xd800 ∨ 0xdfff < c.toNat ∧ c.toNat < 0x110000 := c.valid
  have valid' : d.toNat < 0xd800 ∨ 0xdfff < d.toNat ∧ d.toNat < 0x110000 := d.valid
  have first : firstStandIn = 0x10f000 := rfl
  unfold codeOf at same
  split at same <;> split at same <;> simp_all only [isStandIn_iff] <;> omega

@[simp] theorem codes_inj {s t : String} : codes s = codes t ↔ s = t := by
  refine ⟨fun same => String.toList_inj.mp ?_, congrArg codes⟩
  exact (List.map_inj_right fun _ _ => codeOf_inj.mp).mp same

variable {s t u : String}

theorem Precedes.asymm (first : Precedes s t) : ¬ Precedes t s := List.lt_asymm first

theorem not_precedes_trans (first : ¬ Precedes t s) (second : ¬ Precedes u t) : ¬ Precedes u s :=
  List.not_lt.mpr (List.le_trans (List.not_lt.mp first) (List.not_lt.mp second))

theorem eq_of_not_precedes (first : ¬ Precedes s t) (second : ¬ Precedes t s) : s = t :=
  codes_inj.mp (List.le_antisymm (List.not_lt.mp second) (List.not_lt.mp first))

end Wireboard.Text
