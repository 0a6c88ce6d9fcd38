import Wireboard.Engine.Execute
import Wireboard.Http.Proxy
import Wireboard.Proofs.Document.Refusal
import Wireboard.Proofs.Json.Characters
import Wireboard.Proofs.Json.Doubles
import Wireboard.Proofs.Json.Nesting

/-!
# What requests carry

A node that makes a request takes the text at its body pin for JSON if it can, and a direct proxy
writes the value out again: lists and objects as JSON, and everything else in the form in which
values are shown.  The two forms agree for whole numbers and for finite doubles.  They do not for
truth values, for texts, and for doubles that are not finite; and null and the empty text are not
sent at all.  So what a request carries says what the text has said exactly if the text is no JSON,
or says a list, an object or a finite number (`conveys_contentOf_iff`).

* `contentOf` is what is made of a text, and `content_of_prepareDirect` says that the requests that
  leave carry it.
* `succeeds_prepareDirect_iff` says which requests leave.

What is needed of the client for that is `Client.Conforms`: it sends the content that it is given,
and it sends it if it takes the address and there is room for the headers and the content.
-/

namespace Wireboard

/-! ## Capital letters

The proxy turns the method of a request into capital letters that the node has turned into capital
letters before.  This makes no `GET` of anything else. -/

namespace Text

/-- The characters other than capital letters that have one of `GET` in their capital form. -/
def lowerGet : List Nat := [0x67, 0x65, 0x74, 0x1e97, 0xfb05, 0xfb06]

theorem toNat_ofNat_eq {n t : Nat} (nonzero : t ≠ 0) (eq : (Char.ofNat n).toNat = t) : n = t := by
  by_cases valid : n.isValidChar
  · rw [← eq, toNat_ofNat_of_valid valid]
  · rw [Char.ofNat, dif_neg valid] at eq
    exact absurd eq.symm nonzero

theorem upperChar_cases (c : Char) :
    (∃ r ∈ caseRuns, r.has c.toNat = true ∧
      upperChar c = [Char.ofNat ((c.toNat : Int) + r.distance).toNat])
    ∨ (∃ e ∈ caseExpansions, e.1 = c.toNat ∧ upperChar c = e.2.map Char.ofNat)
    ∨ upperChar c = [c] := by
  unfold upperChar
  split
  next r found =>
    have inside := List.find?_some found
    exact .inl ⟨r, List.mem_of_find?_eq_some found, inside, rfl⟩
  next =>
    split
    next e found =>
      have same := List.find?_some found
      exact .inr (.inl ⟨e, List.mem_of_find?_eq_some found, beq_iff_eq.mp same, rfl⟩)
    next => exact .inr (.inr rfl)

theorem upperChar_ne_nil (c : Char) : upperChar c ≠ [] := by
  have some : ∀ e ∈ caseExpansions, e.2 ≠ [] := by decide
  rcases upperChar_cases c with ⟨r, -, -, eq⟩ | ⟨e, member, -, eq⟩ | eq <;> rw [eq]
  · exact List.cons_ne_nil _ _
  · exact fun none => some e member (List.map_eq_nil_iff.mp none)
  · exact List.cons_ne_nil _ _

theorem upper_ne_empty {s : String} (some : s ≠ "") : upper s ≠ "" := by
  intro none
  have chars : s.toList.flatMap upperChar = [] := by
    rw [← String.toList_ofList (l := s.toList.flatMap upperChar), ← upper, none]
    rfl
  obtain ⟨c, cs, eq⟩ := List.exists_cons_of_ne_nil (mt String.toList_eq_nil_iff.mp some)
  rw [eq, List.flatMap_cons] at chars
  exact upperChar_ne_nil c (List.append_eq_nil_iff.mp chars).1

/-- The letter that a run turns into a given one. -/
def CaseRun.origin (r : CaseRun) (t : Nat) : Nat := ((t : Int) - r.distance).toNat

/-- If a run turns a letter into another one, it has the origin of this one. -/
theorem CaseRun.origin_eq {r : CaseRun} {c x : Char} {t : Nat} (nonzero : t ≠ 0)
    (x_eq : x = Char.ofNat ((c.toNat : Int) + r.distance).toNat) (t_eq : x.toNat = t) :
    r.origin t = c.toNat := by
  rw [x_eq] at t_eq
  have := toNat_ofNat_eq nonzero t_eq
  rw [origin]
  omega

/-- No capital form has one of the letters in it. -/
theorem not_mem_lowerGet {c x : Char} (member : x ∈ upperChar c) : x.toNat ∉ lowerGet := by
  have runs : (caseRuns.all fun r => lowerGet.all fun t => !r.has (r.origin t)) = true := by
    decide +kernel
  have expansions : (caseExpansions.all fun e => e.2.all fun n =>
      !lowerGet.contains (Char.ofNat n).toNat) = true := by decide +kernel
  have small : (lowerGet.all fun t => t != 0 && (upperChar (Char.ofNat t) != [Char.ofNat t]))
      = true := by decide +kernel
  intro lower
  have self := Bool.and_eq_true_iff.mp (List.all_eq_true.mp small _ lower)
  rcases upperChar_cases c with ⟨r, known, has, eq⟩ | ⟨e, known, -, eq⟩ | eq
  · rw [eq] at member
    have origin := CaseRun.origin_eq (bne_iff_ne.mp self.1) (List.mem_singleton.mp member) rfl
    have avoids := List.all_eq_true.mp (List.all_eq_true.mp runs r known) _ lower
    rw [origin, has] at avoids
    cases avoids
  · rw [eq] at member
    obtain ⟨n, inside, rfl⟩ := List.mem_map.mp member
    have avoids := List.all_eq_true.mp (List.all_eq_true.mp expansions e known) n inside
    rw [List.contains_eq_mem, decide_eq_true lower] at avoids
    cases avoids
  · rw [eq] at member
    obtain rfl := List.mem_singleton.mp member
    rw [Char.ofNat_toNat, eq] at self
    exact bne_iff_ne.mp self.2 rfl

/-- Whatever has one of `GET` in its capital form is this letter or one of the others. -/
theorem mem_lowerGet_or_eq {c x : Char} (member : x ∈ upperChar c)
    (get : x ∈ ['G', 'E', 'T']) : c.toNat ∈ lowerGet ∨ c = x := by
  have runs : (caseRuns.all fun r => ['G', 'E', 'T'].all fun t =>
      !r.has (r.origin t.toNat) || lowerGet.contains (r.origin t.toNat)) = true := by
    decide +kernel
  have expansions : (caseExpansions.all fun e => e.2.all fun n =>
      !(['G', 'E', 'T'].contains (Char.ofNat n)) || lowerGet.contains e.1) = true := by
    decide +kernel
  have nonzero : x.toNat ≠ 0 := by
    simp only [List.mem_cons, List.not_mem_nil, or_false] at get
    rcases get with rfl | rfl | rfl <;> decide
  rcases upperChar_cases c with ⟨r, known, has, eq⟩ | ⟨e, known, same, eq⟩ | eq
  · rw [eq] at member
    have origin := CaseRun.origin_eq nonzero (List.mem_singleton.mp member) rfl
    have lower := List.all_eq_true.mp (List.all_eq_true.mp runs r known) x get
    rw [origin, has] at lower
    exact .inl (by simpa using lower)
  · rw [eq] at member
    obtain ⟨n, inside, rfl⟩ := List.mem_map.mp member
    have lower := List.all_eq_true.mp (List.all_eq_true.mp expansions e known) n inside
    rw [List.contains_eq_mem, decide_eq_true get, same] at lower
    exact .inl (by simpa using lower)
  · rw [eq] at member
    exact .inr (List.mem_singleton.mp member).symm

/-- What becomes `GET` when its capital form is taken again was `GET` before. -/
theorem upper_eq_get_of_upper {s : String} (again : upper (upper s) = "GET") : upper s = "GET" := by
  have chars : (s.toList.flatMap upperChar).flatMap upperChar = ['G', 'E', 'T'] := by
    have eq := congrArg String.toList again
    rw [upper, String.toList_ofList, upper, String.toList_ofList] at eq
    exact eq
  have fixed : ∀ x ∈ s.toList.flatMap upperChar, upperChar x = [x] := by
    intro x member
    obtain ⟨y, rest, eq⟩ := List.exists_cons_of_ne_nil (upperChar_ne_nil x)
    have inside : y ∈ upperChar x := eq ▸ List.mem_cons_self
    have get : y ∈ ['G', 'E', 'T'] := chars ▸ List.mem_flatMap.mpr ⟨x, member, inside⟩
    obtain ⟨c, -, from_c⟩ := List.mem_flatMap.mp member
    obtain rfl := (mem_lowerGet_or_eq inside get).resolve_left (not_mem_lowerGet from_c)
    have three : (['G', 'E', 'T'].all fun t => upperChar t == [t]) = true := by decide +kernel
    exact eq_of_beq (List.all_eq_true.mp three x get)
  have same : ∀ l : List Char, (∀ x ∈ l, upperChar x = [x]) → l.flatMap upperChar = l := by
    intro l each
    rw [List.flatMap_congr each, List.flatMap_singleton']
  rw [same _ fixed] at chars
  rw [upper, chars]

end Text

/-! ## What a node describes -/

theorem Node.plain_propertyOr_ne_empty (n : Node) (key : String) {other : Value}
    (some : other ≠ .str "") : (n.propertyOr key other).plain ≠ "" := by
  rw [Ne, Value.plain_eq_empty_iff]
  unfold propertyOr
  split
  next => exact some
  next =>
    split
    next => exact some
    next visible => simpa using visible
  next visible => exact fun empty => visible "" empty

theorem Reach.toPlain_eq_ok {reach : Reach} {v : Value} {s : String}
    (ok : reach.toPlain v = .ok s) : v.plain = s := by
  unfold Reach.toPlain Value.toPlain at ok
  split at ok
  next =>
    split at ok
    next => exact Except.ok.inj ok
    next => cases ok
  next => cases ok

/-- The parts of the requests that nodes describe. -/
theorem Board.requestOf_eq_ok {b : Board} {n : Node} {url body : Value} {r : Http.Request}
    (ok : b.requestOf n url body = .ok r) : ∃ address method fields content path, method ≠ "" ∧
      bodyFor b.reach (Text.upper method) body = .ok content ∧
      r = {
        url := .str address
        method := .str (Text.upper method)
        headers := .obj fields
        body := content
        path := .str path } := by
  unfold requestOf at ok
  obtain ⟨method, named, ok⟩ := bind_eq_ok.mp ok
  obtain ⟨address, -, ok⟩ := bind_eq_ok.mp ok
  obtain ⟨headers, -, ok⟩ := bind_eq_ok.mp ok
  obtain ⟨content, given, ok⟩ := bind_eq_ok.mp ok
  obtain ⟨path, -, ok⟩ := bind_eq_ok.mp ok
  cases ok
  refine ⟨address, method, _, content, path, ?_, given, rfl⟩
  rw [← Reach.toPlain_eq_ok named]
  exact n.plain_propertyOr_ne_empty "method" (by decide)

/-- The body that a text stands for is what the text says if it is JSON, however little room there
was for reading it. -/
theorem Board.bodyOf_cases {reach : Reach} {text : String} {v : Value}
    (ok : bodyOf reach (.str text) = .ok v) :
    Json.read text = .ok v ∨ (∃ f, Json.read text = .error f) ∧ v = .str text := by
  unfold bodyOf Reach.readOr at ok
  dsimp only at ok
  split at ok
  next w read =>
    cases ok
    exact .inl (Json.read_of_room read)
  next f failed =>
    split at ok
    next bad =>
      cases ok
      rcases Json.read_cases reach.reading text with same | ⟨task, deep⟩
      · exact .inr ⟨⟨f, same ▸ failed⟩, rfl⟩
      · cases failed.symm.trans deep
        cases bad
    next => cases ok

/-! ## Texts that are read from longer ones

A JSON string has its quotes, so what it says is shorter than it: no text says itself. -/

namespace Json

theorem length_lt_of_scanString {opening cs xs tail : List Char} {skip : Nat}
    (ok : scanString opening skip cs = .ok (xs, tail)) : xs.length < cs.length := by
  fun_induction scanString opening skip cs generalizing xs tail with
  | case1 => cases ok
  | case2 skip c rest ih => exact Nat.lt_succ_of_lt (ih ok)
  | case3 c rest => cases ok; exact Nat.zero_lt_succ _
  | case4 => cases ok
  | case5 c rest x size stepped ys tail reached ih =>
    cases ok
    exact Nat.succ_lt_succ (ih reached)
  | case6 => cases ok

theorem readNumber_ne_str (cs : List Char) (s : String) (tail : List Char) :
    readNumber cs ≠ .ok (.str s, tail) := by
  intro ok
  unfold readNumber at ok
  dsimp only at ok
  split at ok
  next => cases ok
  next =>
    split at ok
    next =>
      split at ok
      next => cases ok
      next => cases ok
    next => cases ok

theorem readAtom_ne_str (cs : List Char) (s : String) (tail : List Char) :
    readAtom cs ≠ .ok (.str s, tail) := by
  intro ok
  unfold readAtom at ok
  split at ok
  next found first =>
    cases ok
    obtain ⟨e, known, same⟩ := List.exists_of_findSome?_eq_some first
    obtain ⟨rest, -, same⟩ := Option.map_eq_some_iff.mp same
    have word : e.2 = .str s := congrArg Prod.fst same
    simp only [constants, List.mem_cons, List.not_mem_nil, or_false] at known
    rcases known with rfl | rfl | rfl | rfl | rfl | rfl <;> cases word
  next => exact readNumber_ne_str cs s tail ok

theorem length_lt_of_readValue {fuel : Nat} {cs tail : List Char} {s : String}
    (ok : readValue none fuel cs = .ok (.str s, tail)) : s.length < cs.length := by
  cases fuel with
  | zero =>
    rw [readValue] at ok
    cases ok
  | succ fuel =>
    unfold readValue at ok
    split at ok
    next rest =>
      split at ok
      next xs tail reached =>
        cases ok
        rw [String.length_ofList]
        exact Nat.lt_succ_of_lt (length_lt_of_scanString reached)
      next => cases ok
    next =>
      dsimp only [inside?] at ok
      split at ok
      next => cases ok
      next => split at ok <;> cases ok
    next =>
      dsimp only [inside?] at ok
      split at ok
      next => cases ok
      next => split at ok <;> cases ok
    next => exact absurd ok (readAtom_ne_str _ _ _)

theorem length_lt_of_read {text s : String} (ok : read text = .ok (.str s)) :
    s.length < text.length := by
  have short : (skipSpace text.toList).length ≤ text.length :=
    text.length_toList ▸ (List.dropWhile_sublist _).length_le
  obtain ⟨after, reached, -⟩ := readChars_eq_ok.mp (readChars_of_read ok)
  exact Nat.lt_of_lt_of_le (length_lt_of_readValue reached) short

end Json

/-! ## What can be written -/

/-- There is room for the text. -/
def Text.Medium.Takes (m : Text.Medium) (s : String) : Prop := s.toList.all m.holds = true

instance (m : Text.Medium) (s : String) : Decidable (m.Takes s) :=
  inferInstanceAs (Decidable (s.toList.all m.holds = true))

namespace Http

open Text

/-- The content, if it is a text, is one for which there is room. -/
def Content.IsWritable : Content → Prop
  | .text s => Medium.utf8.Takes s
  | .none | .json _ => True

/-- A header is a text, and there is room for it and its name. -/
def IsHeader (e : String × Value) : Prop :=
  Medium.ascii.Takes e.1 ∧ ∃ s, e.2 = .str s ∧ Medium.ascii.Takes s

/-- What is relied on of a client, which goes by some addresses. -/
structure Client.Conforms (client : Client) (goesBy : String → Prop) : Prop where
  /-- The content is sent as it is given. -/
  content : ∀ {method url headers c o}, client.send method url headers c = .ok o → o.content = c
  /-- Whether a content other than JSON is sent depends on the address, the headers and on whether
  it can be written. -/
  takes : ∀ {method url headers c}, (∀ v, c ≠ .json v) →
    (Succeeds (client.send method url headers c) ↔
      goesBy url ∧ (∀ e ∈ headers, IsHeader e) ∧ c.IsWritable)

@[simp] theorem isHeader_withType {headers : Table Value} :
    (∀ e ∈ withType headers, IsHeader e) ↔ ∀ e ∈ headers, IsHeader e := by
  unfold withType
  split
  next => exact Iff.rfl
  next none =>
    have fresh : "Content-Type" ∉ headers.names := by
      intro member
      obtain ⟨e, known, name⟩ := List.mem_map.mp member
      refine none (List.any_eq_true.mpr ⟨e, known, ?_⟩)
      rw [name]
      decide +kernel
    have type : IsHeader ("Content-Type", .str "application/json") :=
      ⟨by decide +kernel, _, rfl, by decide +kernel⟩
    rw [Table.put_of_not_mem _ fresh, List.forall_mem_append, List.forall_mem_singleton]
    exact and_iff_left type

/-! ## What is made of a text -/

/-- What a request carries for a text: of what the text says, a list or an object as JSON and any
other value in the form in which it is shown; nothing for null and for the empty text; and the text
itself if it is no JSON. -/
def contentOf (text : String) : Content :=
  match Json.read text with
  | .ok v =>
    if v = .null ∨ v = .str "" then .none
    else .text (if isStructured v then Json.line v else v.plain)
  | .error _ => .text text

/-- What a request carries says what a text says: the same value as JSON, or the text letter by
letter if it is no JSON. -/
def Content.Conveys (c : Content) (text : String) : Prop :=
  match Json.read text with
  | .ok v => ∃ t, c = .text t ∧ Json.read t = .ok v
  | .error _ => c = .text text

/-- The values that are sent as their JSON: lists, objects and finite numbers. -/
def isSentAsJson : Value → Bool
  | .list _ | .obj _ | .int _ => true
  | .float x =>
    match Binary64.decode x with
    | .finite _ => true
    | .infinite _ | .notANumber => false
  | .null | .bool _ | .nan _ | .str _ => false

theorem contentOf_of_isSentAsJson {text : String} {v : Value} (ok : Json.read text = .ok v)
    (sent : isSentAsJson v = true) : contentOf text = .text (Json.line v) := by
  unfold contentOf
  rw [ok]
  cases v with
  | list items => rfl
  | obj fields => rfl
  | int n => rfl
  | float x =>
    -- The words for the infinite ones are all in which the two forms differ.
    have finite : Number.floatText x = Number.shortestText Json.openEnds x := by
      unfold Number.floatText Number.shortestText
      rw [isSentAsJson] at sent
      cases decoded : Binary64.decode x with
      | finite p => rfl
      | infinite | notANumber => simp [decoded] at sent
    exact congrArg Content.text finite
  | null | bool | nan | str => cases sent

/-- No other value is read from its shown form. -/
theorem read_plain_ne {v : Value} (other : isSentAsJson v = false) : Json.read v.plain ≠ .ok v := by
  have fails {word : String} (none : (Json.read word).toOption = none) :
      Json.read word ≠ .ok v := by
    intro ok
    rw [ok] at none
    cases none
  cases v with
  | null => exact fails rfl
  | bool b => cases b <;> exact fails rfl
  | nan origin => exact fails (show (Json.read "nan").toOption = none from rfl)
  | str s => exact fun ok => Nat.lt_irrefl _ (Json.length_lt_of_read ok)
  | float x =>
    cases decoded : Binary64.decode x with
    | notANumber =>
      have text : (Value.float x).plain = "nan" := by
        simp [Value.plain, Value.shown, Number.floatText, Number.shortestText, decoded,
          Number.valueEnds]
      rw [text]
      exact fails rfl
    | infinite negative =>
      have text : (Value.float x).plain = Number.signText negative "inf" := by
        simp [Value.plain, Value.shown, Number.floatText, Number.shortestText, decoded,
          Number.valueEnds]
      rw [text]
      cases negative <;> exact fails rfl
    | finite p => simp [isSentAsJson, decoded] at other
  | int | list | obj => cases other

/-- What is sent for a text says what the text says exactly if the text is no JSON, or says a list,
an object or a finite number. -/
theorem conveys_contentOf_iff {text : String} :
    (contentOf text).Conveys text ↔ ∀ v, Json.read text = .ok v → isSentAsJson v = true := by
  unfold Content.Conveys
  cases read : Json.read text with
  | error f =>
    refine iff_of_true ?_ fun v ok => by cases ok
    unfold contentOf
    rw [read]
  | ok v =>
    constructor
    · rintro ⟨t, sent, same⟩ w ⟨⟩
      by_contra other
      have plain := Bool.eq_false_iff.mpr other
      have loose : isStructured v = false := by cases v <;> first | rfl | cases plain
      unfold contentOf at sent
      rw [read] at sent
      dsimp only at sent
      rw [loose] at sent
      split at sent
      next => cases sent
      next =>
        cases sent
        exact read_plain_ne plain same
    · intro sent
      exact ⟨_, contentOf_of_isSentAsJson read (sent v rfl), Json.read_line_of_read read⟩

/-! ## Which requests leave -/

/-- A request that neither a direct proxy nor its client has anything against: its address may be
asked, the client goes by it, and there is room for its headers. -/
structure Request.IsAdmissible (r : Request) (goesBy : String → Prop) : Prop where
  address : ∃ u, r.url = .str u ∧ isBlocked u = false ∧ goesBy u
  headers : ∃ headers, mergedHeaders r = .ok headers ∧ ∀ e ∈ headers, IsHeader e

/-- A list or an object that a text tells can be written again. -/
def Rewrites (reach : Reach) (text : String) : Prop :=
  ∀ v, Json.read text = .ok v → isStructured v = true → reach.writes v = true

section

variable {client : Client} {r : Request} {u method : String} {goesBy : String → Prop}

theorem not_succeeds_prepareDirect (url : r.url = .str u) (blocked : isBlocked u = true) :
    ¬ Succeeds (prepareDirect client r) := by
  unfold prepareDirect
  rw [url, isBlockedValue, blocked]
  split
  next => exact not_succeeds_error _
  next => exact not_succeeds_error _

theorem prepareDirect_eq_bind (url : r.url = .str u) (free : isBlocked u = false)
    (named : effectiveMethod r = .ok method) :
    prepareDirect client r = (do
      let headers ← mergedHeaders r
      let content ← carried client.reach r method
      client.send method u (sentHeaders r method headers) content) := by
  have some : ¬ (Value.str u).isVacant = true := by
    intro vacant
    rw [beq_iff_eq.mp vacant] at free
    exact absurd free (by decide +kernel)
  have plain : (Value.str u).plain = u := rfl
  unfold prepareDirect
  rw [url, isBlockedValue, named, free, plain]
  dsimp only
  rw [if_neg some]
  rfl

@[simp] theorem isHeader_sentHeaders {headers : Table Value} :
    (∀ e ∈ sentHeaders r method headers, IsHeader e) ↔ ∀ e ∈ headers, IsHeader e := by
  unfold sentHeaders
  split
  next => exact isHeader_withType
  next => exact Iff.rfl

theorem carried_ne_json {reach : Reach} {c : Content} (carries : carried reach r method = .ok c)
    (v : Value) : c ≠ .json v := by
  unfold carried at carries
  split at carries
  next =>
    rw [map_eq_pure_bind] at carries
    obtain ⟨text, -, ok⟩ := bind_eq_ok.mp carries
    cases ok
    exact nofun
  next =>
    cases carries
    exact nofun

/-! ## Requests of nodes -/

theorem isFlat_of_not_isStructured {v : Value} (loose : isStructured v = false) :
    v.isFlat = true := by
  cases v <;> first | rfl | cases loose

/-- What is told by a text is carried in the form that `contentOf` says, if it can be written. -/
theorem carried_of_told {reach : Reach} {v : Value} (body : r.body = v) (tidy : v.Tidy)
    (posts : method ≠ "GET") (full : v ≠ .null ∧ v ≠ .str "") :
    carried reach r method = if isStructured v = true → reach.writes v = true
      then .ok (.text (if isStructured v then Json.line v else v.plain))
      else .error (.tooDeep .writing) := by
  have sent : hasBody r method = true := by simp [hasBody, body, full, posts]
  rw [carried, if_pos sent, body, bodyText]
  cases loose : isStructured v with
  | false =>
    rw [if_neg Bool.false_ne_true, Reach.toPlain,
      if_pos (reach.shows_flat v (isFlat_of_not_isStructured loose)), Value.toPlain, tidy.hasText]
    rfl
  | true =>
    rw [if_pos rfl, Reach.toJson, Value.toJson, tidy.hasText]
    cases reach.writes v <;> rfl

/-- A text at the body pin becomes what `contentOf` says, unless the request is a `GET`. -/
theorem carried_bodyOf {reach reach' : Reach} {text : String} (some : text ≠ "")
    (posts : method ≠ "GET") (body : Board.bodyOf reach' (.str text) = .ok r.body) :
    (Rewrites reach text → carried reach r method = .ok (contentOf text)) ∧
      (Succeeds (carried reach r method) → Rewrites reach text) := by
  unfold contentOf
  rcases Board.bodyOf_cases body with read | ⟨⟨f, failed⟩, same⟩
  · have only (told : isStructured r.body = true → reach.writes r.body = true) :
        Rewrites reach text := by
      intro v found
      cases read.symm.trans found
      exact told
    rw [read]
    dsimp only
    by_cases empty : r.body = .null ∨ r.body = .str ""
    · have silent : ¬ hasBody r method = true := by
        rcases empty with same | same <;> simp [hasBody, same]
      rw [carried, if_neg silent, if_pos empty]
      refine ⟨fun _ => rfl, fun _ => only fun structured => ?_⟩
      rcases empty with same | same <;> rw [same] at structured <;> cases structured
    · rw [carried_of_told rfl (Json.tidy_of_read read) posts (not_or.mp empty), if_neg empty]
      refine ⟨fun rewrites => if_pos (rewrites _ read), fun succeeds => only ?_⟩
      by_contra deep
      rw [if_neg deep] at succeeds
      exact not_succeeds_error _ succeeds
  · have loose : isStructured (Value.str text) = true → reach.writes (.str text) = true := nofun
    have full : Value.str text ≠ .null ∧ Value.str text ≠ .str "" := by simpa using some
    rw [failed, carried_of_told same (.str text) posts full, if_pos loose]
    refine ⟨fun _ => rfl, fun _ v found => ?_⟩
    cases failed.symm.trans found

variable {b : Board} {n : Node} {url : Value} {text : String}
  (described : b.requestOf n url (.str text) = .ok r) (some : text ≠ "")
  (posts : r.method ≠ .str "GET")
include described some posts

/-- What the proxy makes of the parts of a request with a text at its body pin. -/
theorem parts_of_requestOf (reach : Reach) :
    ∃ u method, r.url = .str u ∧ effectiveMethod r = .ok method
      ∧ (Rewrites reach text → carried reach r method = .ok (contentOf text))
      ∧ (Succeeds (carried reach r method) → Rewrites reach text) := by
  obtain ⟨u, named, fields, content, path, visible, given, rfl⟩ := Board.requestOf_eq_ok described
  have posted : Text.upper named ≠ "GET" := fun get => posts (congrArg Value.str get)
  refine ⟨u, Text.upper (Text.upper named), rfl, ?_, ?_⟩
  · have vacant : ¬ (Value.str (Text.upper named)).isVacant = true := by
      simpa [Value.isVacant] using upper_ne_empty visible
    rw [effectiveMethod, Value.orElse, if_neg vacant]
  · have truthy : (Value.str text).isTruthy = true := by simpa [Value.isTruthy] using some
    rw [Board.bodyFor, if_pos (by simp [truthy, posted])] at given
    exact carried_bodyOf some (fun get => posted (upper_eq_get_of_upper get)) given

/-- A request with a text at its body pin leaves exactly if its address may be asked, the client
goes by it, there is room for its headers and for what it carries, and this can be written. -/
theorem succeeds_prepareDirect_iff (conforms : client.Conforms goesBy) :
    Succeeds (prepareDirect client r) ↔
      r.IsAdmissible goesBy ∧ (contentOf text).IsWritable ∧ Rewrites client.reach text := by
  obtain ⟨u, method, address, named, carries, only⟩ :=
    parts_of_requestOf described some posts client.reach
  cases blocked : isBlocked u with
  | true =>
    refine iff_of_false (not_succeeds_prepareDirect address blocked) ?_
    rintro ⟨⟨⟨w, same, free, -⟩, -⟩, -⟩
    cases address.symm.trans same
    rw [blocked] at free
    cases free
  | false =>
    rw [prepareDirect_eq_bind address blocked named]
    constructor
    · rintro ⟨o, ok⟩
      obtain ⟨headers, merged, ok⟩ := bind_eq_ok.mp ok
      obtain ⟨c, carried, ok⟩ := bind_eq_ok.mp ok
      have rewrites := only ⟨c, carried⟩
      obtain ⟨known, room, writable⟩ := (conforms.takes (carried_ne_json carried)).mp ⟨o, ok⟩
      cases carried.symm.trans (carries rewrites)
      exact ⟨⟨⟨u, address, blocked, known⟩, headers, merged, isHeader_sentHeaders.mp room⟩,
        writable, rewrites⟩
    · rintro ⟨⟨⟨w, same, -, known⟩, headers, merged, room⟩, writable, rewrites⟩
      cases address.symm.trans same
      have carried := carries rewrites
      obtain ⟨o, ok⟩ := (conforms.takes (carried_ne_json carried)).mpr
        ⟨known, isHeader_sentHeaders.mpr room, writable⟩
      exact ⟨o, bind_eq_ok.mpr ⟨headers, merged, bind_eq_ok.mpr ⟨_, carried, ok⟩⟩⟩

theorem content_of_prepareDirect (conforms : client.Conforms goesBy) {o : Outgoing}
    (ok : prepareDirect client r = .ok o) : o.content = contentOf text := by
  obtain ⟨u, method, address, named, carries, only⟩ :=
    parts_of_requestOf described some posts client.reach
  cases blocked : isBlocked u with
  | true => exact absurd ⟨o, ok⟩ (not_succeeds_prepareDirect address blocked)
  | false =>
    rw [prepareDirect_eq_bind address blocked named] at ok
    obtain ⟨headers, -, ok⟩ := bind_eq_ok.mp ok
    obtain ⟨c, carried, ok⟩ := bind_eq_ok.mp ok
    rw [conforms.content ok]
    exact Except.ok.inj (carried.symm.trans (carries (only ⟨c, carried⟩)))

end

end Http

end Wireboard
