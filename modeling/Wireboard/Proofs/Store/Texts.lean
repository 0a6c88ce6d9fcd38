import Wireboard.Proofs.Json.Characters
import Wireboard.Store.Texts
import Wireboard.Value.Coerce

/-!
# Texts survive files

A text that is written into a file is read back as it was, if it has no carriage return
(`textOf_fileOf`).  The bytes themselves always read back: the bytes of a character are one step
of the reader, which is seen by the number of bytes that the character takes.  What is lost of a
text with carriage returns is lost on the side of the lines.

A value is `Durable` if it is tidy, a file has room for its texts and its doubles read back.  Such a
value is written completely, and what was written reads back as it.
-/

namespace Wireboard

namespace Text

/-! ## Bytes -/

theorem toNat_ofNat_byte {n : Nat} (small : n < 256) : (UInt8.ofNat n).toNat = n :=
  UInt8.toNat_ofNat_of_lt' small

@[simp] theorem isContinuation_ofNat (n : Nat) :
    isContinuation (UInt8.ofNat (n % 64 + 128)) = true := by
  rw [isContinuation, toNat_ofNat_byte (by omega)]
  simp
  omega

@[simp] theorem low6_ofNat (n : Nat) : low6 (UInt8.ofNat (n % 64 + 128)) = n % 64 := by
  rw [low6, toNat_ofNat_byte (by omega)]
  omega

@[simp] theorem charOf_toNat (c : Char) : charOf c.toNat = c := by
  have valid : c.toNat < 0xd800 ∨ 0xdfff < c.toNat ∧ c.toNat < 0x110000 := c.valid
  have whole : isSurrogate c.toNat = false := by
    simp [isSurrogate]
    omega
  rw [charOf, whole, if_neg Bool.false_ne_true, if_neg (by omega), Char.ofNat_toNat]

/-- The second byte of a character of three bytes or more may follow the first one. -/
theorem mayFollow_ofNat {first n : Nat} (small : first < 256)
    (low₃ : first = 0xe0 → 0x20 ≤ n % 64) (high₃ : first = 0xed → n % 64 < 0x20)
    (low₄ : first = 0xf0 → 0x10 ≤ n % 64) (high₄ : first = 0xf4 → n % 64 < 0x10) :
    mayFollow (UInt8.ofNat first) (UInt8.ofNat (n % 64 + 128)) = true := by
  rw [mayFollow, isContinuation_ofNat, Bool.true_and, toNat_ofNat_byte small,
    toNat_ofNat_byte (show n % 64 + 128 < 256 by omega)]
  split <;> simp <;> omega

/-- The bytes of a character are one step of the reader. -/
theorem stepUtf8_utf8EncodeChar (c : Char) :
    ∃ first others, String.utf8EncodeChar c = first :: others
      ∧ ∀ rest, stepUtf8 first (others ++ rest) = .char c (others.length + 1) := by
  have valid : c.toNat < 0xd800 ∨ 0xdfff < c.toNat ∧ c.toNat < 0x110000 := c.valid
  have plain := Char.ofNat_toNat c
  have back := charOf_toNat c
  simp only [String.utf8EncodeChar, Char.toNat_val]
  generalize c.toNat = v at valid plain back ⊢
  split
  next one =>
    refine ⟨_, _, rfl, fun rest => ?_⟩
    simp only [stepUtf8, toNat_ofNat_byte (show v < 256 by omega)]
    rw [if_pos (by omega), plain]
    rfl
  next more =>
  split
  next two =>
    refine ⟨_, _, rfl, fun rest => ?_⟩
    have follows := mayFollow_ofNat (n := v) (show v / 64 % 32 + 192 < 256 by omega)
      (by omega) (by omega) (by omega) (by omega)
    have code : (v / 64 % 32 + 192) % 32 * 64 + v % 64 = v := by omega
    simp only [stepUtf8, List.cons_append, follows, low6_ofNat,
      toNat_ofNat_byte (show v / 64 % 32 + 192 < 256 by omega)]
    rw [if_neg (by omega), if_neg (by omega), if_neg (by decide), if_pos (by omega), code, back]
    rfl
  next more =>
  split
  next three =>
    refine ⟨_, _, rfl, fun rest => ?_⟩
    have follows := mayFollow_ofNat (n := v / 64) (show v / 4096 % 16 + 224 < 256 by omega)
      (by omega) (by omega) (by omega) (by omega)
    have code : (v / 4096 % 16 + 224) % 16 * 4096 + v / 64 % 64 * 64 + v % 64 = v := by omega
    simp only [stepUtf8, List.cons_append, follows, isContinuation_ofNat, low6_ofNat,
      toNat_ofNat_byte (show v / 4096 % 16 + 224 < 256 by omega)]
    rw [if_neg (by omega), if_neg (by omega), if_neg (by decide), if_neg (by omega),
      if_neg (by decide), if_pos (by omega), code, back]
    rfl
  next four =>
    refine ⟨_, _, rfl, fun rest => ?_⟩
    have follows := mayFollow_ofNat (n := v / 4096) (show v / 262144 % 8 + 240 < 256 by omega)
      (by omega) (by omega) (by omega) (by omega)
    have code : (v / 262144 % 8 + 240) % 8 * 262144
        + (v / 4096 % 64 * 4096 + v / 64 % 64 * 64 + v % 64) = v := by omega
    simp only [stepUtf8, List.cons_append, follows, isContinuation_ofNat, low6_ofNat,
      toNat_ofNat_byte (show v / 262144 % 8 + 240 < 256 by omega)]
    rw [if_neg (by omega), if_neg (by omega), if_neg (by decide), if_neg (by omega),
      if_neg (by decide), if_neg (by omega), if_neg (by decide), code, back]
    rfl

/-! ## Rows of bytes -/

theorem decodeFrom_skip (encoding : Encoding) (step : UInt8 → List UInt8 → Step) (position : Nat)
    (others rest : List UInt8) :
    decodeFrom encoding step position others.length (others ++ rest)
      = decodeFrom encoding step (position + others.length) 0 rest := by
  induction others generalizing position with
  | nil => rfl
  | cons b others ih =>
    rw [List.length_cons, List.cons_append, decodeFrom, ih]
    congr 1
    omega

/-- The bytes of a row of characters read back. -/
theorem decodeFrom_flatMap_utf8EncodeChar (cs : List Char) (position : Nat) :
    decodeFrom .utf8 stepUtf8 position 0 (cs.flatMap String.utf8EncodeChar) = .ok cs := by
  induction cs generalizing position with
  | nil => rfl
  | cons c cs ih =>
    obtain ⟨first, others, bytes, step⟩ := stepUtf8_utf8EncodeChar c
    rw [List.flatMap_cons, bytes, List.cons_append, decodeFrom, step]
    dsimp only
    rw [Nat.add_sub_cancel, decodeFrom_skip, ih]

theorem toList_loop_eq (bytes : ByteArray) (i : Nat) (row : List UInt8) :
    ByteArray.toList.loop bytes i row = row.reverse ++ bytes.data.toList.drop i := by
  induction i, row using ByteArray.toList.loop.induct bytes with
  | case1 i row inside ih =>
    have short : i < bytes.data.toList.length := by simpa using inside
    have byte : bytes.get! i = bytes.data.toList[i] := by
      simp only [ByteArray.get!, Array.getElem_toList]
      exact getElem!_pos bytes.data i (by simpa using inside)
    rw [ByteArray.toList.loop, if_pos inside, ih, List.drop_eq_getElem_cons short, byte]
    simp
  | case2 i row outside =>
    have done : bytes.data.toList.length ≤ i := by simpa using outside
    rw [ByteArray.toList.loop, if_neg outside, List.drop_eq_nil_of_le done, List.append_nil]

/-! ## Lines -/

theorem unifyLines_of_not_mem {cs : List Char} (plain : '\r' ∉ cs) : unifyLines cs = cs := by
  induction cs with
  | nil => rfl
  | cons c cs ih =>
    simp only [List.mem_cons, not_or] at plain
    rw [unifyLines, ih plain.2]
    · rintro rest same
      cases same
      exact fun _ => plain.1 rfl
    · rintro same
      exact plain.1 same.symm

end Text

namespace Store

theorem fileOf_eq (text : String) : fileOf text = text.toList.flatMap String.utf8EncodeChar := by
  have bytes : text.toUTF8 = text.toList.utf8Encode := String.utf8Encode_toList.symm
  rw [fileOf, ByteArray.toList, Text.toList_loop_eq, bytes, List.utf8Encode,
    List.toList_data_toByteArray]
  rfl

/-- A text without carriage returns is read back from its file. -/
theorem textOf_fileOf {text : String} (plain : '\r' ∉ text.toList) :
    textOf (fileOf text) = .ok text := by
  rw [textOf, Text.decodeUtf8, fileOf_eq, Text.decodeFrom_flatMap_utf8EncodeChar]
  show Except.ok (String.ofList (Text.unifyLines text.toList)) = _
  rw [Text.unifyLines_of_not_mem plain, String.ofList_toList]

/-! ## Values -/

/-- The value survives a file. -/
structure Durable (v : Value) : Prop where
  tidy : v.Tidy
  whole : v.Whole
  doubles : ∀ x ∈ v.doubles, Json.ReadsBack x

namespace Durable

variable {v : Value}

theorem toJsonIndented (durable : Durable v) : v.toJsonIndented = .ok (Json.indented v) :=
  if_pos durable.tidy.hasText

theorem unwritable? (durable : Durable v) : Json.unwritable? v = none :=
  Json.unwritable?_eq_none durable.tidy durable.whole

theorem textOf (durable : Durable v) : textOf (fileOf (Json.indented v)) = .ok (Json.indented v) :=
  textOf_fileOf fun member =>
    (Json.allFit_block durable.tidy durable.whole 0 '\r' member).2 rfl

theorem read (durable : Durable v) : Json.read (Json.indented v) = .ok v :=
  Json.read_indented durable.tidy durable.doubles

end Durable

end Store

end Wireboard
