import Wireboard.Http.Url
import Wireboard.Proofs.Text.Pieces

/-!
# What stands around a host

An address is a host in an envelope (`Envelope`): a scheme before it, perhaps a user, perhaps a
port, and what is asked of the host.  The guard takes the envelope off before it looks at the host.
Here it is shown that the host which it finds is the one that was put in, for hosts that stand by
themselves (`Envelope.isBlocked_text_iff`) and for those in brackets
(`Envelope.isBlocked_bracketed_iff`).

The scheme may be in letters of any size, and the user is any text that does not end the part with
the host.  Such a user may well make the address one that cannot be taken apart, and then it is not
asked for that reason (`Envelope.IsUnreadable`).
-/

namespace Wireboard

namespace Http

open Text

/-- The marks that end the part with the host. -/
def isEndMark (c : Char) : Bool := c == '/' || c == '?' || c == '#'

/-- What is left when an address is tidied. -/
def isKept (c : Char) : Bool := c != '\t' && c != '\r' && c != '\n'

variable {c : Char}

theorem isSchemeChar_of_isAlpha (letter : c.isAlpha = true) : isSchemeChar c = true := by
  rcases Bool.or_eq_true_iff.mp letter with upper | lower
  · have range : 'A' ≤ c ∧ c ≤ 'Z' := of_decide_eq_true upper
    simp [isSchemeChar, range]
  · have range : 'a' ≤ c ∧ c ≤ 'z' :=
      (Bool.and_eq_true_iff.mp lower).imp of_decide_eq_true of_decide_eq_true
    simp [isSchemeChar, range]

/-! ## The characters of a host -/

/-- The text has letters, digits and the marks that belong to a host. -/
def IsHostText (host : List Char) : Prop :=
  ∀ c ∈ host, c.isAlphanum = true ∨ c ∈ ['.', ':', '[', ']']

namespace IsHostText

variable {host : List Char}

theorem notMem (text : IsHostText host)
    (mark : ¬ (c.isAlphanum = true ∨ c ∈ ['.', ':', '[', ']'])) : c ∉ host :=
  fun member => mark (text c member)

theorem toNat_of_mem (text : IsHostText host) (member : c ∈ host) :
    46 ≤ c.toNat ∧ c.toNat ≤ 126 := by
  rcases text c member with plain | mark
  · have within := toNat_of_isAlphanum plain
    omega
  · have all : ∀ c ∈ ['.', ':', '[', ']'], 46 ≤ c.toNat ∧ c.toNat ≤ 126 := by simp
    exact all c mark

end IsHostText

theorem isKept_of_le_toNat (visible : 33 ≤ c.toNat) : isKept c = true := by
  have apart {d : Char} (control : d.toNat < 33) : c ≠ d := by
    rintro rfl
    omega
  simp [isKept, apart (d := '\t') (by decide), apart (d := '\r') (by decide),
    apart (d := '\n') (by decide)]

/-- The disguised marks are far beyond the characters of a host. -/
theorem lt_of_mem_disguisedMarks {n : Nat} (disguised : n ∈ disguisedMarks) : 126 < n := by
  have far : ∀ mark ∈ disguisedMarks, 126 < mark := by decide
  exact far n disguised

/-! ## Envelopes -/

/-- What stands around the host of an address. -/
structure Envelope where
  scheme : List Char
  user? : Option (List Char) := none
  port? : Option (List Char) := none
  rest : List Char := []
  web : lowerAscii scheme = "http".toList ∨ lowerAscii scheme = "https".toList
  user : user?.all (·.all (!isEndMark ·)) = true
  port : port?.all (·.all Char.isDigit) = true
  starts : rest.head?.all isEndMark = true

namespace Envelope

/-- The user, as far as there is one. -/
def userText (e : Envelope) : List Char := e.user?.getD []

/-- The port after a colon. -/
def portText (e : Envelope) : List Char := e.port?.elim [] (':' :: ·)

/-- The part with the host: the user before an `@`, the host and the port. -/
def authority (e : Envelope) (host : List Char) : List Char :=
  e.user?.elim [] (· ++ ['@']) ++ (host ++ e.portText)

/-- The address as it is written. -/
def text (e : Envelope) (host : List Char) : String :=
  String.ofList (e.scheme ++ ':' :: '/' :: '/' :: (e.authority host ++ e.rest))

/-- The user keeps the address from being taken apart: by a disguised mark, or by a bracket where
the host has none. -/
def IsUnreadable (e : Envelope) (bracketed : Bool) : Prop :=
  ∃ c ∈ e.userText, c.toNat ∈ disguisedMarks ∨ (bracketed = false ∧ c ∈ ['[', ']'])

variable (e : Envelope) {host : List Char}

theorem isAlpha_of_mem_scheme (member : c ∈ e.scheme) : c.isAlpha = true := by
  refine isAlpha_of_mem_lowerAscii ?_ member
  rcases e.web with eq | eq <;> rw [eq] <;> decide

theorem exists_scheme_eq_cons : ∃ c cs, e.scheme = c :: cs := by
  refine List.exists_cons_of_ne_nil fun none => ?_
  have web := e.web
  rw [none] at web
  exact absurd web (by decide)

theorem mem_portText (member : c ∈ e.portText) : c.isDigit = true ∨ c = ':' := by
  have digits := e.port
  rw [portText] at member
  cases given : e.port? with
  | none => simp [given] at member
  | some p =>
    simp only [given, Option.elim_some, List.mem_cons, Option.all_some, List.all_eq_true]
      at member digits
    exact member.elim .inr fun digit => .inl (digits c digit)

theorem isEndMark_of_mem_userText (member : c ∈ e.userText) : isEndMark c = false := by
  have inside := e.user
  rw [userText] at member
  cases given : e.user? with
  | none => simp [given] at member
  | some u =>
    simp only [given, Option.getD_some, Option.all_some, List.all_eq_true, Bool.not_eq_true']
      at member inside
    exact inside c member

/-- A character of the part with the host is one of the user, of the host, or has its own place. -/
theorem mem_authority :
    c ∈ e.authority host ↔
      c ∈ e.userText ∨ (e.user?.isSome = true ∧ c = '@') ∨ c ∈ host ∨ c ∈ e.portText := by
  rw [authority, userText]
  cases e.user? <;> simp

/-- Where a character has no place of its own, it comes from the user or from the host. -/
theorem mem_authority_iff (mark : ¬ (c.isDigit = true ∨ c ∈ ['@', ':'])) :
    c ∈ e.authority host ↔ c ∈ e.userText ∨ c ∈ host := by
  have port : c ∉ e.portText := fun member =>
    mark ((e.mem_portText member).imp_right fun colon => by simp [colon])
  have apart : c ≠ '@' := fun same => mark (.inr (by simp [same]))
  rw [mem_authority]
  simp [port, apart]

/-! ## Taking the envelope off -/

/-- The envelope of the tidied address. -/
def tidied (e : Envelope) : Envelope where
  scheme := e.scheme
  user? := e.user?.map (·.filter isKept)
  port? := e.port?
  rest := e.rest.filter isKept
  web := e.web
  user := by
    have inside := e.user
    cases given : e.user? with
    | none => rfl
    | some u =>
      rw [given] at inside
      simp only [Option.all_some, List.all_eq_true, Option.map_some] at inside ⊢
      exact fun c member => inside c (List.mem_filter.mp member).1
  port := e.port
  starts := by
    have starts := e.starts
    cases given : e.rest with
    | nil => rfl
    | cons c rest =>
      rw [given] at starts
      have mark : isEndMark c = true := starts
      have kept : isKept c = true := by
        simp only [isEndMark, Bool.or_eq_true, beq_iff_eq] at mark
        rcases mark with (rfl | rfl) | rfl <;> decide
      rw [List.filter_cons_of_pos kept]
      exact mark

@[simp] theorem userText_tidied : e.tidied.userText = e.userText.filter isKept := by
  show (e.user?.map (·.filter isKept)).getD [] = (e.user?.getD []).filter isKept
  cases e.user? <;> rfl

/-- Neither brackets nor disguised marks go when the address is tidied. -/
@[simp] theorem isUnreadable_tidied_iff {bracketed : Bool} :
    e.tidied.IsUnreadable bracketed ↔ e.IsUnreadable bracketed := by
  have kept {c : Char} (mark : c.toNat ∈ disguisedMarks ∨ (bracketed = false ∧ c ∈ ['[', ']'])) :
      isKept c = true := by
    refine isKept_of_le_toNat ?_
    rcases mark with disguised | ⟨-, bracket⟩
    · have := lt_of_mem_disguisedMarks disguised
      omega
    · have visible : ∀ c ∈ ['[', ']'], 33 ≤ c.toNat := by simp
      exact visible c bracket
  simp only [IsUnreadable, userText_tidied, List.mem_filter]
  constructor
  · rintro ⟨c, ⟨member, -⟩, mark⟩
    exact ⟨c, member, mark⟩
  · rintro ⟨c, member, mark⟩
    exact ⟨c, ⟨member, kept mark⟩, mark⟩

theorem tidy_text (fits : IsHostText host) :
    tidy (e.text host).toList = (e.tidied.text host).toList := by
  have scheme : e.scheme.filter isKept = e.scheme := by
    refine List.filter_eq_self.mpr fun c member => isKept_of_le_toNat ?_
    have within := toNat_of_isAlphanum (c := c)
      (by simp [Char.isAlphanum, e.isAlpha_of_mem_scheme member])
    omega
  have inner : host.filter isKept = host := by
    refine List.filter_eq_self.mpr fun c member => isKept_of_le_toNat ?_
    have within := fits.toNat_of_mem member
    omega
  have port : e.portText.filter isKept = e.portText := by
    refine List.filter_eq_self.mpr fun c member => isKept_of_le_toNat ?_
    rcases e.mem_portText member with digit | rfl
    · have within := toNat_of_isDigit digit
      omega
    · decide
  have user : (e.user?.elim [] (· ++ ['@'])).filter isKept
      = (e.user?.map (·.filter isKept)).elim [] (· ++ ['@']) := by
    cases e.user? with
    | none => rfl
    | some u =>
      rw [Option.elim_some, List.filter_append]
      rfl
  -- the scheme begins with a letter, so nothing goes before it
  have front : (e.text host).toList.dropWhile (fun c => decide (c.toNat ≤ 32))
      = (e.text host).toList := by
    obtain ⟨c, cs, given⟩ := e.exists_scheme_eq_cons
    have within := toNat_of_isAlphanum (c := c)
      (by simp [Char.isAlphanum, e.isAlpha_of_mem_scheme (given ▸ List.mem_cons_self)])
    rw [text, String.toList_ofList, given, List.cons_append]
    exact List.dropWhile_cons_of_neg (by simpa using Nat.lt_of_lt_of_le (by decide) within.1)
  have marks : ([':', '/', '/'] : List Char).filter isKept = [':', '/', '/'] := by decide
  rw [tidy, front, text, text, String.toList_ofList, String.toList_ofList]
  show List.filter isKept (e.scheme ++ ([':', '/', '/'] ++ (e.authority host ++ e.rest))) = _
  rw [List.filter_append, List.filter_append, List.filter_append, scheme, marks, authority,
    List.filter_append, List.filter_append, user, inner, port]
  rfl

theorem splitScheme_text :
    splitScheme (e.text host).toList
      = (lowerAscii e.scheme, '/' :: '/' :: (e.authority host ++ e.rest)) := by
  have free : ':' ∉ e.scheme := fun member => absurd (e.isAlpha_of_mem_scheme member) (by decide)
  have letters : e.scheme.all isSchemeChar = true := List.all_eq_true.mpr fun c member =>
    isSchemeChar_of_isAlpha (e.isAlpha_of_mem_scheme member)
  obtain ⟨c, cs, given⟩ := e.exists_scheme_eq_cons
  have letter : c.isAlpha = true := e.isAlpha_of_mem_scheme (given ▸ List.mem_cons_self)
  rw [text, String.toList_ofList, splitScheme, beforeFirst_append free, afterFirst_append free,
    letters, given]
  simp [letter, isSchemeChar_of_isAlpha letter]

theorem authority_text (fits : IsHostText host) :
    Http.authority ('/' :: '/' :: (e.authority host ++ e.rest)) = e.authority host := by
  have ends {c : Char} : (c != '/' && c != '?' && c != '#') = !isEndMark c := by
    simp [isEndMark, bne]
  have inside : ∀ c ∈ e.authority host, (c != '/' && c != '?' && c != '#') = true := by
    intro c member
    rw [ends, Bool.not_eq_true']
    refine Bool.eq_false_iff.mpr fun mark => ?_
    have other : ¬ (c.isDigit = true ∨ c ∈ ['@', ':']) ∧
        ¬ (c.isAlphanum = true ∨ c ∈ ['.', ':', '[', ']']) := by
      simp only [isEndMark, Bool.or_eq_true, beq_iff_eq] at mark
      rcases mark with (rfl | rfl) | rfl <;> decide
    rcases (e.mem_authority_iff other.1).mp member with user | inner
    · exact Bool.eq_false_iff.mp (e.isEndMark_of_mem_userText user) mark
    · exact fits.notMem other.2 inner
  -- whatever stands in the rest, an `@` among it, comes after the mark that it begins with
  have after : e.rest.takeWhile (fun c => c != '/' && c != '?' && c != '#') = [] := by
    have starts := e.starts
    cases given : e.rest with
    | nil => rfl
    | cons c rest =>
      rw [given] at starts
      refine List.takeWhile_cons_of_neg ?_
      rw [ends]
      simpa using starts
  show List.takeWhile _ (e.authority host ++ e.rest) = _
  rw [List.takeWhile_append_of_pos inside, after, List.append_nil]

/-- The guard looks at nothing but the part with the host. -/
theorem isBlocked_text (fits : IsHostText host) :
    isBlocked (e.text host) = (!isSound (e.tidied.authority host)
      || (hostOf (e.tidied.authority host)).isEmpty
      || isOwnHost (hostOf (e.tidied.authority host))) := by
  have web : (String.ofList (lowerAscii e.tidied.scheme) == "http"
      || String.ofList (lowerAscii e.tidied.scheme) == "https") = true := by
    rcases e.tidied.web with eq | eq <;> rw [eq] <;> decide
  rw [isBlocked, e.tidy_text fits, splitScheme_text]
  dsimp only
  rw [e.tidied.authority_text fits, web, Bool.not_true, Bool.or_false]

theorem afterLast_authority (free : '@' ∉ host) :
    afterLast '@' (e.authority host) = host ++ e.portText := by
  have free' : '@' ∉ host ++ e.portText := by
    intro member
    rcases List.mem_append.mp member with inner | port
    · exact free inner
    · exact absurd (e.mem_portText port) (by decide)
  rw [authority]
  cases e.user? with
  | none => exact afterLast_of_notMem free'
  | some u =>
    rw [Option.elim_some, List.append_assoc, List.singleton_append]
    exact afterLast_append free'

/-- Nothing that the host or the port brings is disguised. -/
theorem all_authority_iff (fits : IsHostText host) :
    ((e.authority host).all fun c => !disguisedMarks.contains c.toNat) = true ↔
      ∀ c ∈ e.userText, c.toNat ∉ disguisedMarks := by
  simp only [List.all_eq_true, Bool.not_eq_true', List.contains_eq_mem, decide_eq_false_iff_not]
  constructor
  · exact fun plain c member => plain c (e.mem_authority.mpr (.inl member))
  · intro plain c member disguised
    have far := lt_of_mem_disguisedMarks disguised
    have other : ¬ (c.isDigit = true ∨ c ∈ ['@', ':']) := by
      rintro (digit | mark)
      · have within := toNat_of_isDigit digit
        omega
      · have near : ∀ c ∈ ['@', ':'], ¬ 126 < c.toNat := by simp
        exact near c mark far
    rcases (e.mem_authority_iff other).mp member with user | inner
    · exact plain c user disguised
    · have within := fits.toNat_of_mem inner
      omega

/-! ## Hosts that stand by themselves -/

section Plain

variable (plain : ∀ c ∈ host, c.isAlphanum = true ∨ c = '.')
include plain

theorem isHostText_of_plain : IsHostText host := fun c member =>
  (plain c member).imp_right fun point => by simp [point]

theorem notMem_of_plain (mark : ¬ (c.isAlphanum = true ∨ c = '.')) : c ∉ host :=
  fun member => mark (plain c member)

theorem writtenHost_authority : writtenHost (e.authority host) = host := by
  have colon : ':' ∉ host := notMem_of_plain plain (by decide)
  have opens : (host ++ e.portText).contains '[' = false := by
    refine Bool.eq_false_iff.mpr fun member => ?_
    rcases List.mem_append.mp (List.contains_iff_mem.mp member) with inner | port
    · exact absurd (plain _ inner) (by decide)
    · exact absurd (e.mem_portText port) (by decide)
  rw [writtenHost, e.afterLast_authority (notMem_of_plain plain (by decide)), opens,
    if_neg (by decide), portText]
  cases e.port? with
  | none =>
    rw [Option.elim_none, List.append_nil]
    exact beforeFirst_of_notMem colon
  | some p => exact beforeFirst_append colon

/-- A host without colons does not belong in brackets, unless it looks like an address of a later
version. -/
theorem isBracketed_of_plain (head : host.head? ≠ some 'v') : isBracketed host = false := by
  have percent : beforeFirst '%' host = host :=
    beforeFirst_of_notMem (notMem_of_plain plain (by decide))
  have parts : splitAt ':' host = [host] :=
    splitAt_of_notMem (notMem_of_plain plain (by decide))
  have groups : groups? host = none := by
    rw [groups?, parts]
    exact if_pos (by simp)
  rw [isBracketed, if_neg head, isIPv6, percent, groups, Bool.and_false]

theorem isSound_authority_iff (head : host.head? ≠ some 'v') :
    isSound (e.authority host) = true ↔ ¬ e.IsUnreadable false := by
  have bracket {c : Char} (mark : c ∈ ['[', ']']) : c ∈ e.authority host ↔ c ∈ e.userText := by
    have other : ∀ c ∈ ['[', ']'], ¬ (c.isDigit = true ∨ c ∈ ['@', ':']) ∧
        ¬ (c.isAlphanum = true ∨ c = '.') := by simp
    rw [e.mem_authority_iff (other c mark).1, or_iff_left (notMem_of_plain plain (other c mark).2)]
  -- with brackets in the user the host would have to be one that belongs in them
  have closed (opens closes alone : Bool) :
      (opens == closes && (!opens || (alone && false))) = (!opens && !closes) := by
    cases opens <;> cases closes <;> simp
  have free : (!(e.authority host).contains '[' && !(e.authority host).contains ']') = true ↔
      ∀ c ∈ ['[', ']'], c ∉ e.userText := by
    simp [bracket]
  rw [isSound, e.writtenHost_authority plain, isBracketed_of_plain plain head, closed,
    Bool.and_eq_true, free, e.all_authority_iff (isHostText_of_plain plain)]
  constructor
  · rintro ⟨free, plain⟩ ⟨c, member, disguised | ⟨-, mark⟩⟩
    · exact plain c member disguised
    · exact free c mark member
  · intro readable
    exact ⟨fun c mark member => readable ⟨c, member, .inr ⟨rfl, mark⟩⟩,
      fun c member disguised => readable ⟨c, member, .inl disguised⟩⟩

/-- The guard decides by the host, where the address can be taken apart. -/
theorem isBlocked_text_iff (nonempty : host ≠ []) (head : host.head? ≠ some 'v') :
    isBlocked (e.text host) = true ↔
      isOwnHost (lowerAscii host) = true ∨ e.IsUnreadable false := by
  have found : (lowerAscii host).isEmpty = false := by simpa [lowerAscii] using nonempty
  rw [e.isBlocked_text (isHostText_of_plain plain), hostOf, e.tidied.writtenHost_authority plain,
    found, Bool.or_false, Bool.or_eq_true, Bool.not_eq_true', ← Bool.not_eq_true,
    e.tidied.isSound_authority_iff plain head, not_not, isUnreadable_tidied_iff, or_comm]

end Plain

/-! ## Hosts in brackets -/

section Bracketed

variable {inner : List Char}
  (plain : ∀ c ∈ inner, c.isAlphanum = true ∨ c = '.' ∨ c = ':')
include plain

theorem isHostText_of_bracketed : IsHostText ('[' :: (inner ++ [']'])) := by
  intro c member
  simp only [List.mem_cons, List.mem_append, List.not_mem_nil, or_false] at member
  rcases member with rfl | member | rfl
  · exact .inr (by decide)
  · exact (plain c member).imp_right fun mark => by rcases mark with rfl | rfl <;> decide
  · exact .inr (by decide)

theorem afterLast_bracketed :
    afterLast '@' (e.authority ('[' :: (inner ++ [']'])))
      = '[' :: (inner ++ ']' :: e.portText) := by
  rw [e.afterLast_authority ((isHostText_of_bracketed plain).notMem (by decide))]
  simp

/-- Between the brackets stands the host, and after them the port. -/
theorem cut_bracketed :
    beforeFirst ']' (afterFirst '[' ('[' :: (inner ++ ']' :: e.portText))) = inner ∧
    afterFirst ']' (afterFirst '[' ('[' :: (inner ++ ']' :: e.portText))) = e.portText := by
  have free : ']' ∉ inner := fun member => absurd (plain _ member) (by decide)
  have opened : afterFirst '[' ([] ++ '[' :: (inner ++ ']' :: e.portText))
      = inner ++ ']' :: e.portText := afterFirst_append List.not_mem_nil
  rw [List.nil_append] at opened
  rw [opened]
  exact ⟨beforeFirst_append free, afterFirst_append free⟩

theorem writtenHost_bracketed :
    writtenHost (e.authority ('[' :: (inner ++ [']']))) = inner := by
  rw [writtenHost, e.afterLast_bracketed plain, (e.cut_bracketed plain).1]
  exact if_pos (by simp)

theorem bracketsStandAlone_bracketed :
    bracketsStandAlone (e.authority ('[' :: (inner ++ [']']))) = true := by
  have port : (e.portText.isEmpty || e.portText.head? == some ':') = true := by
    rw [portText]
    cases e.port? <;> simp
  rw [bracketsStandAlone, e.afterLast_bracketed plain, (e.cut_bracketed plain).2, port]
  simp

theorem isSound_bracketed_iff (proper : isBracketed inner = true) :
    isSound (e.authority ('[' :: (inner ++ [']']))) = true ↔ ¬ e.IsUnreadable true := by
  have opens : (e.authority ('[' :: (inner ++ [']']))).contains '[' = true :=
    List.contains_iff_mem.mpr ((e.mem_authority_iff (by decide)).mpr (.inr (by simp)))
  have closes : (e.authority ('[' :: (inner ++ [']']))).contains ']' = true :=
    List.contains_iff_mem.mpr ((e.mem_authority_iff (by decide)).mpr (.inr (by simp)))
  rw [isSound, opens, closes, e.bracketsStandAlone_bracketed plain, e.writtenHost_bracketed plain,
    proper, Bool.and_eq_true, e.all_authority_iff (isHostText_of_bracketed plain)]
  simp [IsUnreadable]

/-- The guard decides by what stands in the brackets, where the address can be taken apart. -/
theorem isBlocked_bracketed_iff (proper : isBracketed inner = true) :
    isBlocked (e.text ('[' :: (inner ++ [']']))) = true ↔
      isOwnHost (lowerAscii inner) = true ∨ e.IsUnreadable true := by
  have found : (lowerAscii inner).isEmpty = false := by
    cases inner with
    | nil => exact absurd proper (by decide)
    | cons => rfl
  rw [e.isBlocked_text (isHostText_of_bracketed plain), hostOf,
    e.tidied.writtenHost_bracketed plain, found, Bool.or_false, Bool.or_eq_true, Bool.not_eq_true',
    ← Bool.not_eq_true, e.tidied.isSound_bracketed_iff plain proper, not_not,
    isUnreadable_tidied_iff, or_comm]

end Bracketed

end Envelope

end Http

end Wireboard
