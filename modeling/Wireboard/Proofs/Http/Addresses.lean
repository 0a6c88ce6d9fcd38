import Wireboard.Proofs.Http.Envelopes
import Wireboard.Proofs.Http.Outcomes
import Wireboard.Rehearsal.Stage

/-!
# Numeric addresses at the guard

The guard of the direct proxy sees a text.  It finds the host by cutting the text at marks, and then
compares texts: beginnings, and the number between the first two points.  Which hosts are the own
ones is however a matter of four numbers.  Here the two are brought together, for every address with
a host of version four (`Address`): the host that the guard finds is the one that was written
(`Envelope.isBlocked_text_iff`), whatever stands before and after it, and its texts are compared as
the numbers are (`IPv4.isOwnHost_text_iff`).
-/

namespace Wireboard

namespace Http

open Text

/-! ## Hosts of version four -/

/-- A number of an address, written in decimal without needless zeros. -/
def octet (n : Fin 256) : List Char := Nat.toDigits 10 n

/-- A host given by four numbers. -/
structure IPv4 where
  first : Fin 256
  second : Fin 256
  third : Fin 256
  fourth : Fin 256
deriving DecidableEq

/-- The four numbers with points between them. -/
def IPv4.text (h : IPv4) : List Char :=
  octet h.first ++ '.' :: (octet h.second ++ '.' :: (octet h.third ++ '.' :: octet h.fourth))

/-- The host is the own machine or lies in the own network. -/
def IPv4.IsOwn (h : IPv4) : Prop :=
  h.first = 10 ∨ h.first = 127 ∨ (h.first = 192 ∧ h.second = 168) ∨
    (h.first = 172 ∧ 16 ≤ h.second ∧ h.second ≤ 31) ∨ h = ⟨0, 0, 0, 0⟩

/-- If the guard knows the numbers, then as a whole and not by how they begin. -/
def IPv4.IsKnownWhole (h : IPv4) : Prop := h.first = 172 ∨ h = ⟨0, 0, 0, 0⟩

theorem isDigit_of_mem_octet {n : Fin 256} {c : Char} (member : c ∈ octet n) : c.isDigit = true :=
  Nat.isDigit_of_mem_toDigits (by decide) (by decide) member

theorem point_notMem_octet (n : Fin 256) : '.' ∉ octet n :=
  fun member => absurd (isDigit_of_mem_octet member) (by decide)

@[simp] theorem readInt_octet (n : Fin 256) : Number.readInt (octet n) = .value n := by
  have few : (Nat.toDigits 10 n).length ≤ 3 :=
    (Nat.length_toDigits_le_iff (by decide) (by decide)).mpr (Nat.lt_trans n.isLt (by decide))
  exact Number.readInt_toDigits (Nat.le_trans few (by decide))

@[simp] theorem octet_inj {m n : Fin 256} : octet m = octet n ↔ m = n := by
  refine ⟨fun same => ?_, fun same => same ▸ rfl⟩
  have read : Number.IntReading.value m = .value n := by
    rw [← readInt_octet, ← readInt_octet, same]
  simpa [Fin.ext_iff] using read

namespace IPv4

variable {h h' : IPv4}

@[simp] theorem splitAt_text (h : IPv4) :
    splitAt '.' h.text = [octet h.first, octet h.second, octet h.third, octet h.fourth] := by
  rw [text, splitAt_append (point_notMem_octet _), splitAt_append (point_notMem_octet _),
    splitAt_append (point_notMem_octet _), splitAt_of_notMem (point_notMem_octet _)]

/-- The host consists of digits and points. -/
theorem isDigit_of_mem_text {c : Char} (member : c ∈ h.text) : c.isDigit = true ∨ c = '.' := by
  have digit {n : Fin 256} (member : c ∈ octet n) : c.isDigit = true := isDigit_of_mem_octet member
  simp only [text, List.mem_append, List.mem_cons] at member
  tauto

theorem plain_text (h : IPv4) : ∀ c ∈ h.text, c.isAlphanum = true ∨ c = '.' := fun _ member =>
  (isDigit_of_mem_text member).imp_left fun digit => by simp [Char.isAlphanum, digit]

theorem text_ne_nil (h : IPv4) : h.text ≠ [] := by simp [text]

theorem head?_text (h : IPv4) : h.text.head? ≠ some 'v' := fun head =>
  absurd (isDigit_of_mem_text (List.mem_of_head? head)) (by decide)

/-- Numbers have no letters that could be small or large. -/
@[simp] theorem lowerAscii_text (h : IPv4) : lowerAscii h.text = h.text := by
  refine lowerAscii_of_toNat_lt fun c member => ?_
  rcases isDigit_of_mem_text member with digit | rfl
  · have within := toNat_of_isDigit digit
    omega
  · decide

@[simp] theorem text_inj : h.text = h'.text ↔ h = h' := by
  refine ⟨fun same => ?_, fun same => same ▸ rfl⟩
  have pieces := congrArg (splitAt '.') same
  simp only [splitAt_text, List.cons.injEq, octet_inj] at pieces
  cases h
  cases h'
  simp_all

/-- The hosts that are named in full. -/
theorem mem_ownHosts_iff (h : IPv4) :
    ownHosts.contains (String.ofList h.text) = true ↔ h = ⟨127, 0, 0, 1⟩ ∨ h = ⟨0, 0, 0, 0⟩ := by
  have same (h' : IPv4) : String.ofList h.text = String.ofList h'.text ↔ h = h' := by
    rw [String.ofList_inj, text_inj]
  have named : String.ofList h.text ≠ "localhost" := by
    intro eq
    have point : '.' ∈ (String.ofList h.text).toList := by simp [text]
    rw [eq] at point
    exact absurd point (by decide)
  have loop : "127.0.0.1" = String.ofList (text ⟨127, 0, 0, 1⟩) := by decide +kernel
  have any : "0.0.0.0" = String.ofList (text ⟨0, 0, 0, 0⟩) := by decide +kernel
  simp only [ownHosts, List.contains_iff_mem, List.mem_cons, List.not_mem_nil, or_false, named,
    false_or]
  rw [loop, any, same, same]

/-- The hosts that are named by their beginning, whatever follows. -/
theorem prefix_ownPrefixes_iff (h : IPv4) (tail : List Char) :
    (ownPrefixes.any fun p => p.toList.isPrefixOf (h.text ++ tail)) = true ↔
      h.first = 10 ∨ (h.first = 192 ∧ h.second = 168) ∨ h.first = 127 := by
  have ten : "10.".toList = octet 10 ++ '.' :: [] := by decide +kernel
  have own : "192.168.".toList = octet 192 ++ '.' :: (octet 168 ++ '.' :: []) := by decide +kernel
  have loop : "127.".toList = octet 127 ++ '.' :: [] := by decide +kernel
  simp only [ownPrefixes, List.any_cons, List.any_nil, Bool.or_false, Bool.or_eq_true,
    List.isPrefixOf_iff_prefix, ten, own, loop, text, List.append_assoc, List.cons_append,
    cut_prefix_iff (point_notMem_octet _) (point_notMem_octet _), octet_inj, List.nil_prefix,
    and_true]
  simp only [eq_comm]

/-- The hosts that are named by a range. -/
theorem isOwnRange_text_iff (h : IPv4) :
    isOwnRange h.text = true ↔ h.first = 172 ∧ 16 ≤ h.second ∧ h.second ≤ 31 := by
  have first : "172".toList = octet 172 := by decide +kernel
  unfold isOwnRange
  rw [splitAt_text]
  dsimp only
  rw [readInt_octet, first]
  simp only [Bool.and_eq_true, beq_iff_eq, octet_inj, decide_eq_true_eq, Fin.le_def]
  norm_cast

/-- The texts of hosts are compared as their numbers are. -/
theorem isOwnHost_text_iff (h : IPv4) : isOwnHost h.text = true ↔ h.IsOwn := by
  have named := h.prefix_ownPrefixes_iff []
  rw [List.append_nil] at named
  simp only [isOwnHost, Bool.or_eq_true, mem_ownHosts_iff, named, isOwnRange_text_iff, IsOwn]
  constructor
  -- `127.0.0.1` is named twice, in full and by its beginning
  · rintro (((rfl | any) | ten | own | loop) | range)
    · exact .inr (.inl rfl)
    · exact .inr (.inr (.inr (.inr any)))
    · exact .inl ten
    · exact .inr (.inr (.inl own))
    · exact .inr (.inl loop)
    · exact .inr (.inr (.inr (.inl range)))
  · rintro (ten | loop | own | range | any)
    · exact .inl (.inr (.inl ten))
    · exact .inl (.inr (.inr (.inr loop)))
    · exact .inl (.inr (.inr (.inl own)))
    · exact .inr range
    · exact .inl (.inl (.inr any))

end IPv4

/-! ## Addresses with such hosts -/

/-- The direct proxy refuses what the guard does. -/
theorem prepareDirect_eq_refuse {client : Client} {r : Request} {u : String}
    (url : r.url = .str u) (some : u ≠ "") (blocked : isBlocked u = true) :
    prepareDirect client r = refuse 403 "Internal network requests are not allowed" := by
  have present : (Value.str u).isVacant = false := by simpa [Value.isVacant] using some
  unfold prepareDirect
  rw [url, isBlockedValue, blocked, present]
  rfl

/-- What names the user may consist of. -/
def isUserChar (c : Char) : Bool := c.isAlphanum || c == ':'

theorem toNat_of_isUserChar {c : Char} (plain : isUserChar c = true) : c.toNat ≤ 122 := by
  rcases Bool.or_eq_true_iff.mp plain with plain | colon
  · exact (toNat_of_isAlphanum plain).2
  · rw [beq_iff_eq.mp colon]
    decide

theorem isEndMark_of_isUserChar {c : Char} (plain : isUserChar c = true) : isEndMark c = false := by
  refine Bool.eq_false_iff.mpr fun mark => ?_
  simp only [isEndMark, Bool.or_eq_true, beq_iff_eq] at mark
  rcases mark with (rfl | rfl) | rfl <;> exact absurd plain (by decide)

/-- A character that shows: neither a blank nor a control. -/
def isVisible (c : Char) : Bool := decide (33 ≤ c.toNat) && decide (c.toNat ≤ 126)

/-- An address with a host of version four: a scheme in letters of any size, perhaps a user, the
host, perhaps a port, and what is asked of the host. -/
structure Address where
  scheme : List Char
  user? : Option (List Char) := none
  host : IPv4
  port? : Option (List Char) := none
  rest : List Char := []
  web : lowerAscii scheme = "http".toList ∨ lowerAscii scheme = "https".toList
  user : user?.all (·.all isUserChar) = true
  port : port?.all (·.all Char.isDigit) = true
  starts : rest.head?.all isEndMark = true
  shows : rest.all isVisible = true

namespace Address

/-- The host, and the port after a colon. -/
def place (a : Address) : List Char := a.host.text ++ a.port?.elim [] (':' :: ·)

/-- The part with the host: the user before an `@`, and the place. -/
def authority (a : Address) : List Char := a.user?.elim [] (· ++ ['@']) ++ a.place

/-- The address as it is written. -/
def text (a : Address) : String :=
  String.ofList (a.scheme ++ ':' :: '/' :: '/' :: (a.authority ++ a.rest))

variable (a : Address)

/-- What stands around the host. -/
def envelope : Envelope where
  scheme := a.scheme
  user? := a.user?
  port? := a.port?
  rest := a.rest
  web := a.web
  user := by
    have plain := a.user
    cases given : a.user? with
    | none => rfl
    | some u =>
      rw [given] at plain
      refine List.all_eq_true.mpr fun c member => ?_
      rw [isEndMark_of_isUserChar (List.all_eq_true.mp plain c member), Bool.not_false]
  port := a.port
  starts := a.starts

/-- The user has nothing that keeps the address from being taken apart. -/
theorem not_isUnreadable : ¬ a.envelope.IsUnreadable false := by
  rintro ⟨c, member, mark⟩
  have member : c ∈ a.user?.getD [] := member
  have plain : isUserChar c = true := by
    have plain := a.user
    cases given : a.user? with
    | none => simp [given] at member
    | some u =>
      rw [given] at plain member
      exact List.all_eq_true.mp plain c member
  rcases mark with disguised | ⟨-, bracket⟩
  · have far := lt_of_mem_disguisedMarks disguised
    have within := toNat_of_isUserChar plain
    omega
  · simp only [List.mem_cons, List.not_mem_nil, or_false] at bracket
    rcases bracket with rfl | rfl <;> exact absurd plain (by decide)

/-- The guard decides by the host. -/
theorem isBlocked_text_iff : isBlocked a.text = true ↔ a.host.IsOwn := by
  have text : a.text = a.envelope.text a.host.text := by
    simp [Address.text, Address.authority, place, Envelope.text, Envelope.authority,
      Envelope.portText, envelope]
  rw [text, a.envelope.isBlocked_text_iff a.host.plain_text a.host.text_ne_nil a.host.head?_text,
    a.host.lowerAscii_text, a.host.isOwnHost_text_iff, or_iff_left a.not_isUnreadable]

theorem text_ne_empty : a.text ≠ "" := by
  intro empty
  have none : a.text.toList = [] := by rw [empty]; rfl
  rw [text, String.toList_ofList] at none
  simp at none

/-- An address with a host of version four is refused by the guard exactly if the host is the own
machine or lies in the own network.  The direct proxy refuses a request to it then with the status
403, whatever else it is given, and nothing leaves for the net. -/
theorem refused_iff_own : (isBlocked a.text = true ↔ a.host.IsOwn) ∧
    ∀ (client : Client) (r : Request) (limit : Value), r.url = .str a.text →
      isBlocked a.text = true → (Proxy.direct limit).prepare client r
        = .error (.proxy 403 "Internal network requests are not allowed") ∧
      ∀ (stage : Rehearsal.Stage) (incoming : List Incoming),
        stage.overNet (.direct limit) incoming r
          = (.error (.proxy 403 "Internal network requests are not allowed"), [], stage) := by
  refine ⟨a.isBlocked_text_iff, fun client r limit url blocked => ?_⟩
  have refused (client : Client) : (Proxy.direct limit).prepare client r
      = .error (.proxy 403 "Internal network requests are not allowed") :=
    prepareDirect_eq_refuse url a.text_ne_empty blocked
  refine ⟨refused client, fun stage incoming => ?_⟩
  rw [Rehearsal.Stage.overNet, refused]

end Address

/-- An address in the own network, between parts that look like other addresses. -/
def decoy : Address where
  scheme := "HttpS".toList
  user? := some "8:8".toList
  host := ⟨172, 16, 0, 9⟩
  port? := some "8080".toList
  rest := "/@1.1.1.1:80".toList
  web := by decide
  user := by decide
  port := by decide
  starts := by decide
  shows := by decide

theorem Address.refused_iff_own_decoy : decoy.text = "HttpS://8:8@172.16.0.9:8080/@1.1.1.1:80" ∧
    isBlocked decoy.text = true ∧
    ∀ (stage : Rehearsal.Stage) (incoming : List Incoming),
      stage.overNet (.direct (.int 10)) incoming { url := .str decoy.text }
        = (.error (.proxy 403 "Internal network requests are not allowed"), [], stage) := by
  obtain ⟨decides, refuses⟩ := decoy.refused_iff_own
  have blocked : isBlocked decoy.text = true := decides.mpr (.inr (.inr (.inr (.inl (by decide)))))
  exact ⟨by decide +kernel, blocked, (refuses Rehearsal.client _ _ rfl blocked).2⟩

end Http

end Wireboard
