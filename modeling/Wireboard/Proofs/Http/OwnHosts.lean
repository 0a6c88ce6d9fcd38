import Wireboard.Proofs.Http.Addresses

/-!
# The own machine under its many names

A host has more than one spelling.  The guard compares texts, so each spelling has to be looked at
by itself: the name in letters of any size, the four numbers, both also with a point at their end,
and the address of the own machine in version six, where zeros may be written out, left out, or
written as numbers of version four (`Loopback`).

The guard takes only some of them for what they are (`SpelledHost.IsMissed`).  It compares the name
and the range of `172` with nothing after them, and it knows no address of version six at all.
-/

namespace Wireboard

namespace Http

open Text

/-! ## The own machine in version six -/

/-- A spelling of the own machine in version six: an address of which no digit is other than zero,
but for a one at the very end. -/
structure Loopback where
  front : List Char
  zeros : front.all ['0', ':', '.'].contains = true
  proper : isIPv6 (front ++ ['1']) = true

namespace Loopback

def text (l : Loopback) : List Char := l.front ++ ['1']

variable (l : Loopback)

theorem mem_front {c : Char} (member : c ∈ l.front) : c ∈ ['0', ':', '.'] :=
  List.contains_iff_mem.mp (List.all_eq_true.mp l.zeros c member)

theorem mem_text {c : Char} (member : c ∈ l.text) : c ∈ ['0', ':', '.', '1'] :=
  (List.mem_append.mp member).elim (fun front => List.mem_append_left ['1'] (l.mem_front front))
    (List.mem_append_right ['0', ':', '.'])

/-- Every address of version six has a colon. -/
theorem colon_mem_front : ':' ∈ l.front := by
  by_contra missing
  have free : ':' ∉ l.front ++ ['1'] := by simpa using missing
  have percent : '%' ∉ l.front ++ ['1'] := fun member => absurd (l.mem_text member) (by decide)
  have groups : groups? (l.front ++ ['1']) = none := by
    rw [groups?, splitAt_of_notMem free]
    rfl
  have proper := l.proper
  rw [isIPv6, beforeFirst_of_notMem percent, groups, Bool.and_false] at proper
  cases proper

@[simp] theorem isBracketed_text : isBracketed l.text = true := by
  have head : l.text.head? ≠ some 'v' := fun eq =>
    absurd (l.mem_text (List.mem_of_head? eq)) (by decide)
  rw [isBracketed, if_neg head]
  exact l.proper

/-- Nothing that the guard looks for is in it: it has a colon, does not begin with a one, and has no
digits but zeros and ones. -/
@[simp] theorem isOwnHost_text : isOwnHost (lowerAscii l.text) = false := by
  have small : ∀ c ∈ ['0', ':', '.', '1'], c.toNat < 65 := by simp
  have low : lowerAscii l.text = l.text :=
    lowerAscii_of_toNat_lt fun c member => small c (l.mem_text member)
  have named : ownHosts.contains (String.ofList l.text) = false := by
    have plain : ownHosts.all (fun s => !s.toList.contains ':') = true := by decide
    refine Bool.eq_false_iff.mpr fun listed => ?_
    have free := List.all_eq_true.mp plain _ (List.contains_iff_mem.mp listed)
    simp [text, l.colon_mem_front] at free
  have begins : (ownPrefixes.any fun p => p.toList.isPrefixOf l.text) = false := by
    obtain ⟨c, cs, eq⟩ := List.exists_cons_of_ne_nil (List.ne_nil_of_mem l.colon_mem_front)
    have other : c ≠ '1' := by
      rintro rfl
      exact absurd (l.mem_front (eq ▸ List.mem_cons_self)) (by decide)
    simp [ownPrefixes, text, eq, List.isPrefixOf, other.symm]
  have range : isOwnRange l.text = false := by
    unfold isOwnRange
    split
    next first second _ _ pieces =>
      have piece : first ∈ splitAt '.' l.text := pieces ▸ List.mem_cons_self
      have other : (first == "172".toList) = false := by
        refine beq_eq_false_iff_ne.mpr fun same => ?_
        have seven : '7' ∈ first := by
          rw [same]
          decide
        exact absurd (l.mem_text ((infix_of_mem_splitAt piece).subset seven)) (by decide)
      rw [other, Bool.false_and]
    next => rfl
  rw [isOwnHost, low, named, begins, range]
  rfl

end Loopback

/-! ## Hosts with a point at their end -/

theorem IPv4.isOwnHost_pointed_iff (h : IPv4) : isOwnHost (h.text ++ ['.']) = true ↔
    h.first = 10 ∨ (h.first = 192 ∧ h.second = 168) ∨ h.first = 127 := by
  have named : ownHosts.contains (String.ofList (h.text ++ ['.'])) = false := by
    have plain : ownHosts.all (fun s => s.toList.getLast? != some '.') = true := by decide
    refine Bool.eq_false_iff.mpr fun listed => ?_
    have other := List.all_eq_true.mp plain _ (List.contains_iff_mem.mp listed)
    simp at other
  have pieces : splitAt '.' (h.text ++ ['.'])
      = [octet h.first, octet h.second, octet h.third, octet h.fourth, []] := by
    simp only [text, List.append_assoc, List.cons_append]
    rw [splitAt_append (point_notMem_octet _), splitAt_append (point_notMem_octet _),
      splitAt_append (point_notMem_octet _), splitAt_append (point_notMem_octet _)]
    rfl
  have range : isOwnRange (h.text ++ ['.']) = false := by
    rw [isOwnRange, pieces]
  rw [isOwnHost, named, range, Bool.false_or, Bool.or_false, h.prefix_ownPrefixes_iff]

/-- With a point at the end, numbers are known by their beginning alone. -/
theorem IPv4.isOwn_and_iff (h : IPv4) : h.IsOwn ∧ ¬ h.IsKnownWhole ↔
    h.first = 10 ∨ (h.first = 192 ∧ h.second = 168) ∨ h.first = 127 := by
  have zero : h = ⟨0, 0, 0, 0⟩ → h.first = 0 := fun eq => by rw [eq]
  unfold IsOwn IsKnownWhole
  constructor
  · tauto
  · intro known
    refine ⟨by tauto, ?_⟩
    rintro (eq | eq)
    · rw [eq] at known
      exact absurd known (by simp)
    · rw [zero eq] at known
      exact absurd known (by simp)

/-! ## Spellings of hosts -/

/-- A host in one of its spellings: the name of the own machine in letters of any size, four
numbers, or the own machine in version six.  The first two may have a point at their end. -/
inductive SpelledHost where
  | name (letters : List Char) (pointed : Bool) (same : lowerAscii letters = "localhost".toList)
  | numeric (address : IPv4) (pointed : Bool)
  | loopback (spelling : Loopback)

namespace SpelledHost

def text : SpelledHost → List Char
  | name letters pointed _ => letters ++ if pointed then ['.'] else []
  | numeric address pointed => address.text ++ if pointed then ['.'] else []
  | loopback spelling => '[' :: (spelling.text ++ [']'])

/-- The host stands in brackets. -/
def isBracketed : SpelledHost → Bool
  | loopback _ => true
  | _ => false

/-- The host is the own machine or lies in the own network. -/
def IsInternal : SpelledHost → Prop
  | numeric address _ => address.IsOwn
  | _ => True

/-- The guard does not know the host by this spelling. -/
def IsMissed : SpelledHost → Prop
  | name _ pointed _ => pointed = true
  | numeric address pointed => pointed = true ∧ address.IsKnownWhole
  | loopback _ => True

variable {host : SpelledHost} (bare : host.isBracketed = false)
include bare

/-- Without brackets, a host has letters, digits and points, but not the letter that announces an
address of a later version. -/
theorem plain_text : ∀ c ∈ host.text, (c.isAlphanum = true ∨ c = '.') ∧ c ≠ 'v' := by
  have point (pointed : Bool) : ∀ c ∈ if pointed then ['.'] else [],
      (c.isAlphanum = true ∨ c = '.') ∧ c ≠ 'v' := by
    cases pointed
    · exact List.forall_mem_nil _
    · exact List.forall_mem_singleton.mpr (by decide)
  cases host with
  | name letters pointed same =>
    refine List.forall_mem_append.mpr ⟨fun c member => ?_, point pointed⟩
    have lowered : lowerLetter c ∈ "localhost".toList := same ▸ List.mem_map_of_mem member
    have letter : c.isAlpha = true := isAlpha_of_mem_lowerAscii (by rw [same]; decide) member
    refine ⟨.inl (by simp [Char.isAlphanum, letter]), ?_⟩
    rintro rfl
    exact absurd lowered (by decide)
  | numeric address pointed =>
    refine List.forall_mem_append.mpr
      ⟨fun c member => ⟨address.plain_text c member, ?_⟩, point pointed⟩
    rintro rfl
    exact absurd (IPv4.isDigit_of_mem_text member) (by decide)
  | loopback => cases bare

theorem text_ne_nil : host.text ≠ [] := by
  cases host with
  | name letters pointed same =>
    refine List.append_ne_nil_of_left_ne_nil ?_ _
    rintro rfl
    cases same
  | numeric address => exact List.append_ne_nil_of_left_ne_nil address.text_ne_nil _
  | loopback => cases bare

theorem isOwnHost_text_iff :
    isOwnHost (lowerAscii host.text) = true ↔ host.IsInternal ∧ ¬ host.IsMissed := by
  cases host with
  | name letters pointed same =>
    have lowered : lowerAscii (letters ++ if pointed then ['.'] else [])
        = "localhost".toList ++ if pointed then ['.'] else [] := by
      rw [← same, lowerAscii, List.map_append]
      cases pointed <;> rfl
    rw [text, lowered]
    show _ ↔ True ∧ ¬ pointed = true
    cases pointed <;> decide +kernel
  | numeric address pointed =>
    cases pointed with
    | false =>
      have bare : text (.numeric address false) = address.text := List.append_nil _
      rw [bare, address.lowerAscii_text, address.isOwnHost_text_iff]
      simp [IsInternal, IsMissed]
    | true =>
      have lowered : lowerAscii (address.text ++ ['.']) = address.text ++ ['.'] := by
        rw [lowerAscii, List.map_append, ← lowerAscii, address.lowerAscii_text]
        rfl
      show isOwnHost (lowerAscii (address.text ++ ['.'])) = true ↔ _
      rw [lowered, address.isOwnHost_pointed_iff, ← address.isOwn_and_iff]
      simp [IsInternal, IsMissed]
  | loopback => cases bare

end SpelledHost

/-- An address of the own machine or network is refused by the guard if it is spelled in a way that
the guard knows, and else only if its user keeps it from being taken apart.  The ways that it does
not know are the name with a point at its end, the numbers from `172` on with such a point, those of
`0.0.0.0` likewise, and every address of the own machine in version six. -/
theorem Envelope.refused_iff_known (e : Envelope) (host : SpelledHost) :
    isBlocked (e.text host.text) = true ↔
      (host.IsInternal ∧ ¬ host.IsMissed) ∨ e.IsUnreadable host.isBracketed := by
  cases bracketed : host.isBracketed with
  | false =>
    have plain := SpelledHost.plain_text bracketed
    have head : host.text.head? ≠ some 'v' := fun eq => (plain 'v' (List.mem_of_head? eq)).2 rfl
    rw [e.isBlocked_text_iff (fun c member => (plain c member).1)
      (SpelledHost.text_ne_nil bracketed) head, SpelledHost.isOwnHost_text_iff bracketed]
  | true =>
    cases host with
    | loopback spelling =>
      have plain : ∀ c ∈ ['0', ':', '.', '1'], c.isAlphanum = true ∨ c = '.' ∨ c = ':' := by simp
      refine (e.isBlocked_bracketed_iff (fun c member => plain c (spelling.mem_text member))
        spelling.isBracketed_text).trans ?_
      rw [spelling.isOwnHost_text]
      simp [SpelledHost.IsMissed]
    | name | numeric => cases bracketed

/-- An address with nothing around its host but a scheme and a path. -/
def plainEnvelope : Envelope where
  scheme := "http".toList
  rest := ['/']
  web := by decide
  user := by decide
  port := by decide
  starts := by decide

/-- Three spellings that are missed, and one that is known. -/
theorem Envelope.refused_iff_known_plain :
    isBlocked "http://[::1]/" = false ∧ isBlocked "http://localhost./" = false ∧
    isBlocked "http://172.16.0.1./" = false ∧ isBlocked "http://LocalHost/" = true := by
  have readable (bracketed : Bool) : ¬ plainEnvelope.IsUnreadable bracketed := by
    rintro ⟨c, member, -⟩
    cases member
  have missed (host : SpelledHost) (missed : host.IsMissed) :
      isBlocked (plainEnvelope.text host.text) = false := by
    refine Bool.eq_false_iff.mpr fun blocked => ?_
    exact ((plainEnvelope.refused_iff_known host).mp blocked).elim (·.2 missed) (readable _)
  refine ⟨missed (.loopback ⟨"::".toList, by decide, by decide⟩) trivial,
    missed (.name "localhost".toList true rfl) rfl, ?_, ?_⟩
  · have text : "http://172.16.0.1./"
        = plainEnvelope.text (SpelledHost.numeric ⟨172, 16, 0, 1⟩ true).text := by decide +kernel
    rw [text]
    exact missed _ ⟨rfl, .inl rfl⟩
  · refine (plainEnvelope.refused_iff_known (.name "LocalHost".toList false (by decide))).mpr ?_
    exact .inl ⟨trivial, Bool.false_ne_true⟩

end Http

end Wireboard
