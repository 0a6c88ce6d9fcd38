import Wireboard.Proofs.Http.Content
import Wireboard.Proofs.Http.Paths

/-!
# How requests end

A request that a proxy cannot make should end with a failure that the proxy reports as its own, with
a status and some words.  Whatever comes over the wire is covered: no answer in time, no connection,
and a response of any status that declares what it is not.  But between the wire and the app there
is more to be done, and there a failure of another sort may come up:

* a body with a whole number of too many digits, or one that is nested too deeply, has no text;
* the client may have something against the request, may find a body nested too deeply to be read as
  JSON, or may have no text for it;
* a path into the data may have a piece of digits that writes no position, because the digits are
  too many or because they are digits such as the superscripts, with which no number is written;
* the service may report a status that is a double but not finite, or a reason without a text.

`Proxy.reports_iff` says that there is nothing else, for requests whose parts are of the kinds they
should be and for any client that does not itself fail as a proxy does (`Client.IsPlain`).
-/

namespace Wireboard

namespace Http

open Text

/-! ## Paths -/

/-- Digits write a position if they are decimal and not too many. -/
theorem succeeds_positionOf_iff {cs : List Char} (digits : isDigits cs = true) :
    Succeeds (positionOf cs) ↔ cs.all isDecimal = true ∧ cs.length ≤ Number.digitLimit := by
  obtain ⟨some, all⟩ := isDigits_iff.mp digits
  cases decimals : cs.all isDecimal with
  | false =>
    rw [positionOf_of_others all decimals]
    exact iff_of_false (not_succeeds_error _) fun h => by cases h.1
  | true =>
    by_cases few : cs.length ≤ Number.digitLimit
    · rw [positionOf_of_decimals some decimals few]
      exact iff_of_true (succeeds_ok _) ⟨rfl, few⟩
    · rw [positionOf, Number.readInt_of_decimals some decimals, if_pos (Nat.not_le.mp few)]
      exact iff_of_false (not_succeeds_error _) fun h => few h.2

/-- A piece of a path is no trap at a value: where it has digits for a position, they write one. -/
def IsSafePiece (w : Value) (cs : List Char) : Prop :=
  match indexed? cs with
  | some (_, digits) => digits.length ≤ Number.digitLimit
  | none => ∀ items, w = .list items → isDigits cs = true →
      cs.all isDecimal = true ∧ cs.length ≤ Number.digitLimit

theorem succeeds_take_iff {w : Value} {cs : List Char} :
    Succeeds ((PathStep.ofPiece cs).take w) ↔ IsSafePiece w cs := by
  unfold PathStep.ofPiece IsSafePiece
  cases indexed : indexed? cs with
  | some found =>
    obtain ⟨name, digits⟩ := found
    have is := isIndexed_of_indexed? indexed
    have digital : isDigits digits = true :=
      isDigits_iff.mpr ⟨is.counted, digits_of_decimals is.decimal⟩
    refine (succeeds_bind_iff (C := True) fun position => iff_true_intro ?_).trans ?_
    · split <;> exact succeeds_ok _
    · rw [succeeds_positionOf_iff digital]
      simp [is.decimal]
  | none =>
    cases w with
    | list items =>
      dsimp only [PathStep.take]
      split
      next digital =>
        have mapped : Succeeds ((positionOf cs).map (itemAt items)) ↔ Succeeds (positionOf cs) := by
          cases positionOf cs with
          | ok n => exact iff_of_true (succeeds_ok _) (succeeds_ok _)
          | error f => exact iff_of_false (not_succeeds_error _) (not_succeeds_error _)
        rw [mapped, succeeds_positionOf_iff digital]
        exact ⟨fun safe _ _ _ => safe, fun safe => safe items rfl digital⟩
      next other => exact iff_of_true (succeeds_ok _) fun _ _ digital => absurd digital other
    | _ => exact iff_of_true (succeeds_ok _) fun _ absurd => by cases absurd

/-- A way along the pieces of a path ends unless one of them is a trap at the value that was
reached. -/
theorem succeeds_walk_iff {v : Value} {pieces : List (List Char)} :
    Succeeds (walk v (pieces.map PathStep.ofPiece)) ↔
      ∀ before cs after w, pieces = before ++ cs :: after →
        walk v (before.map PathStep.ofPiece) = .ok w → w ≠ .null → IsSafePiece w cs := by
  induction pieces generalizing v with
  | nil =>
    refine iff_of_true (succeeds_ok v) fun before cs after w split => ?_
    cases before <;> cases split
  | cons piece pieces ih =>
    by_cases null : v = .null
    · subst null
      refine iff_of_true ⟨.null, by simp⟩ fun before cs after w _ reached some => ?_
      have stays : walk .null (before.map PathStep.ofPiece) = .ok .null := by
        cases before <;> simp
      exact absurd (Except.ok.inj (reached.symm.trans stays)) some
    · rw [List.map_cons, walk, if_neg null]
      have first : Succeeds ((PathStep.ofPiece piece).take v) ↔ IsSafePiece v piece :=
        succeeds_take_iff
      cases taken : (PathStep.ofPiece piece).take v with
      | error f =>
        rw [taken] at first
        refine iff_of_false (not_succeeds_error _) fun safe => not_succeeds_error f (first.mpr ?_)
        exact safe [] piece pieces v rfl rfl null
      | ok u =>
        rw [taken] at first
        refine ih.trans ⟨fun safe before cs after w split reached some => ?_,
          fun safe before cs after w split reached some => ?_⟩
        · cases before with
          | nil =>
            cases split
            cases reached
            exact first.mp (succeeds_ok u)
          | cons piece' before =>
            cases split
            rw [List.map_cons, walk, if_neg null, taken] at reached
            exact safe before cs after w rfl reached some
        · refine safe (piece :: before) cs after w (by rw [split]; rfl) ?_ some
          rw [List.map_cons, walk, if_neg null, taken]
          exact reached

/-- The path leads somewhere in the data, if it is only to null. -/
def IsSafePath (data : Value) (path : String) : Prop :=
  path = "" ∨ isStructured data = false ∨
    ∀ before cs after w, splitAt '.' path.toList = before ++ cs :: after →
      walk data (before.map PathStep.ofPiece) = .ok w → w ≠ .null → IsSafePiece w cs

theorem succeeds_selected_iff {data : Value} {path : String} :
    Succeeds (selected (.str path) data) ↔ IsSafePath data path := by
  unfold selected IsSafePath
  by_cases empty : path = ""
  · rw [if_pos (by simp [Value.isVacant, empty])]
    exact iff_of_true (succeeds_ok data) (.inl empty)
  · cases structured : isStructured data with
    | false =>
      rw [if_pos (by simp)]
      exact iff_of_true (succeeds_ok data) (.inr (.inl rfl))
    | true =>
      rw [if_neg (by simp [Value.isVacant, empty])]
      refine succeeds_walk_iff.trans ?_
      simp [empty]

/-! ## Failures that a proxy reports -/

end Http

/-- The failure is one that a proxy reports as its own. -/
def Fault.IsReported : Fault → Prop
  | .proxy _ _ => True
  | _ => False

namespace Http

open Text Fault

section

variable {α β : Type} {P : Fault → Prop} {x : Except Fault α}

theorem failsOnly_bind_iff {f : α → Except Fault β} {C : Prop} (others : FailsOnly (¬ P ·) x)
    (next : ∀ a, FailsOnly P (f a) ↔ C) : FailsOnly P (x >>= f) ↔ Succeeds x ∧ C := by
  cases x with
  | ok a => exact (next a).trans (and_iff_right (succeeds_ok a)).symm
  | error e =>
    refine iff_of_false (fun only => others e rfl (only e rfl)) fun h => ?_
    exact not_succeeds_error e h.1

theorem failsOnly_error {f : Fault} (h : P f) : FailsOnly P (.error f : Except Fault α) := by
  intro g failed
  cases failed
  exact h

theorem failsOnly_refuse (status : Int) (text : String) :
    FailsOnly IsReported (refuse status text : Except Fault α) :=
  failsOnly_error trivial

end

/-- The client does not fail as a proxy does. -/
structure Client.IsPlain (client : Client) : Prop where
  send : ∀ method url headers c, FailsOnly (¬ IsReported ·) (client.send method url headers c)
  json : ∀ body, FailsOnly (¬ IsReported ·) (client.json body)
  text : ∀ headers body, FailsOnly (¬ IsReported ·) (client.text headers body)

theorem failsOnly_toPlain (reach : Reach) (v : Value) :
    FailsOnly (¬ IsReported ·) (reach.toPlain v) := by
  refine (Hinges.toPlain reach v).fails.mono ?_
  rintro f (stuck | ⟨rfl, -⟩)
  · cases f <;> first | exact id | cases stuck
  · exact id

theorem failsOnly_bodyText (reach : Reach) (v : Value) :
    FailsOnly (¬ IsReported ·) (bodyText reach v) := by
  unfold bodyText
  split
  next =>
    unfold Reach.toJson Value.toJson
    split
    next =>
      split
      next => exact failsOnly_ok _
      next => exact failsOnly_error id
    next => exact failsOnly_error id
  next => exact failsOnly_toPlain reach v

theorem failsOnly_carried (reach : Reach) (r : Request) (method : String) :
    FailsOnly (¬ IsReported ·) (carried reach r method) := by
  unfold carried
  split
  next =>
    rw [map_eq_pure_bind]
    exact (failsOnly_bodyText reach r.body).bind fun _ => failsOnly_ok _
  next => exact failsOnly_ok _

theorem failsOnly_positionOf (cs : List Char) : FailsOnly (¬ IsReported ·) (positionOf cs) := by
  unfold positionOf
  split
  next => exact failsOnly_ok _
  all_goals exact failsOnly_error id

theorem failsOnly_take (v : Value) (s : PathStep) : FailsOnly (¬ IsReported ·) (s.take v) := by
  unfold PathStep.take
  split
  next =>
    refine (failsOnly_positionOf _).bind fun position => ?_
    split <;> exact failsOnly_ok _
  next name =>
    split
    next => exact failsOnly_ok _
    next =>
      split
      next =>
        refine FailsOnly.bind (f := fun n => .ok (itemAt _ n)) (failsOnly_positionOf name) ?_
        exact fun _ => failsOnly_ok _
      next => exact failsOnly_ok _
    next => exact failsOnly_ok _

theorem failsOnly_walk (v : Value) (steps : List PathStep) :
    FailsOnly (¬ IsReported ·) (walk v steps) := by
  induction steps generalizing v with
  | nil => exact failsOnly_ok v
  | cons s steps ih =>
    unfold walk
    split
    next => exact failsOnly_ok _
    next =>
      cases taken : s.take v with
      | ok w => exact ih w
      | error f => exact failsOnly_error (failsOnly_take v s f taken)

theorem failsOnly_selected (path data : Value) :
    FailsOnly (¬ IsReported ·) (selected path data) := by
  unfold selected
  split
  next => exact failsOnly_ok _
  next =>
    split
    next => exact failsOnly_walk _ _
    next => exact failsOnly_error id

theorem failsOnly_general (limit : Value) : FailsOnly (¬ IsReported ·) limit.general := by
  unfold Value.general Value.writtenBy
  split
  next => exact failsOnly_error id
  next =>
    split
    next n _ =>
      refine FailsOnly.bind (f := fun x => .ok (Number.generalText 6 x)) (r := n.toFloat) ?_
        fun _ => failsOnly_ok _
      unfold Num.toFloat
      split
      next => exact failsOnly_ok _
      next =>
        split
        next => exact failsOnly_ok _
        next => exact failsOnly_error id
    next => exact failsOnly_error id

/-! ## The direct proxy -/

/-- The parts of a request are of the kinds that they should be. -/
structure Request.IsTyped (r : Request) : Prop where
  url : ∃ u, r.url = .str u
  method : ∃ m, r.method = .str m
  headers : ∃ fields : Table Value, r.headers = .obj fields ∧ ∀ e ∈ fields, ∃ s, e.2 = .str s
  path : ∃ path, r.path = .str path

/-- A direct proxy can send the request: its body, if it has one, has a text, and the client has
nothing against it. -/
structure Request.IsSendable (r : Request) (client : Client) : Prop where
  body : ∀ method, effectiveMethod r = .ok method → hasBody r method = true →
    Succeeds (bodyText client.reach r.body)
  taken : ∀ u method headers content, r.url = .str u → effectiveMethod r = .ok method →
    mergedHeaders r = .ok headers → carried client.reach r method = .ok content →
    Succeeds (client.send method u (sentHeaders r method headers) content)

section

variable {client : Client} {r : Request} {u method : String}

theorem succeeds_carried_iff {reach : Reach} : Succeeds (carried reach r method) ↔
    (hasBody r method = true → Succeeds (bodyText reach r.body)) := by
  unfold carried
  by_cases sent : hasBody r method = true
  · rw [if_pos sent, map_eq_pure_bind]
    refine (succeeds_bind_iff (C := True) fun _ => iff_true_intro (succeeds_ok _)).trans ?_
    simp [sent]
  · rw [if_neg sent]
    exact iff_of_true (succeeds_ok _) fun absurd => (sent absurd).elim

theorem prepareDirect_of_blocked (url : r.url = .str u) (blocked : isBlocked u = true) :
    FailsOnly IsReported (prepareDirect client r) := by
  unfold prepareDirect
  rw [url, isBlockedValue, blocked]
  split
  next => exact failsOnly_refuse _ _
  next => exact failsOnly_refuse _ _

/-- A request to an address that may be asked leaves if it can be sent, and fails in no way that
would be reported. -/
theorem prepareDirect_of_free (plain : client.IsPlain) (typed : r.IsTyped) (url : r.url = .str u)
    (free : isBlocked u = false) :
    FailsOnly (¬ IsReported ·) (prepareDirect client r) ∧
      (Succeeds (prepareDirect client r) ↔ r.IsSendable client) := by
  obtain ⟨m, called⟩ := typed.method
  obtain ⟨fields, given, -⟩ := typed.headers
  obtain ⟨method, named⟩ : ∃ method, effectiveMethod r = .ok method := by
    unfold effectiveMethod Value.orElse
    rw [called]
    cases (Value.str m).isVacant <;> exact ⟨_, rfl⟩
  obtain ⟨headers, merged⟩ : ∃ headers, mergedHeaders r = .ok headers := by
    unfold mergedHeaders
    rw [given]
    exact ⟨_, rfl⟩
  have prepared : prepareDirect client r = carried client.reach r method >>=
      client.send method u (sentHeaders r method headers) := by
    rw [prepareDirect_eq_bind url free named, merged]
    rfl
  rw [prepared]
  refine ⟨(failsOnly_carried _ r method).bind fun c => plain.send _ _ _ c, ?_⟩
  constructor
  · rintro ⟨o, ok⟩
    obtain ⟨c, carries, sent⟩ := bind_eq_ok.mp ok
    refine ⟨fun method' named' => ?_, fun u' method' headers' c' url' named' merged' carries' => ?_⟩
    · cases named.symm.trans named'
      exact succeeds_carried_iff.mp ⟨c, carries⟩
    · cases url.symm.trans url'
      cases named.symm.trans named'
      cases merged.symm.trans merged'
      cases carries.symm.trans carries'
      exact ⟨o, sent⟩
  · rintro ⟨body, taken⟩
    obtain ⟨c, carries⟩ := succeeds_carried_iff.mpr (body method named)
    obtain ⟨o, sent⟩ := taken u method headers c url named merged carries
    exact ⟨o, bind_eq_ok.mpr ⟨c, carries, sent⟩⟩

end

/-- The client can read a response for a request.  If it is JSON, the path leads somewhere in it; if
it is declared to be and is not, this is because of what it is; and if there is no JSON, there is a
text. -/
structure Client.Reads (client : Client) (r : Request) (headers : Table String)
    (body : List UInt8) : Prop where
  json : declaresJson (client.header headers "content-type") = true → ∀ v,
    client.json body = .ok v → ∀ path, r.path = .str path → IsSafePath v path
  other : declaresJson (client.header headers "content-type") = true → ∀ f,
    client.json body = .error f → f.isBadValue = true ∧ Succeeds (client.text headers body)
  text : declaresJson (client.header headers "content-type") = false →
    Succeeds (client.text headers body)

/-- What has come of a request is no trap for a direct proxy: a limit that has passed has a text,
and a response can be read. -/
def Request.Takes (r : Request) (client : Client) (limit : Value) : Incoming → Prop
  | .timeout _ => Succeeds limit.general
  | .unreachable _ => True
  | .response _ headers body => client.Reads r headers body

section

variable {client : Client} {r : Request} {headers : Table String} {body : List UInt8}

theorem failsOnly_text (plain : client.IsPlain) :
    FailsOnly (¬ IsReported ·) ((client.text headers body).map Value.str) := by
  cases found : client.text headers body with
  | ok s => exact failsOnly_ok _
  | error f => exact failsOnly_error (plain.text headers body f found)

theorem failsOnly_bodyData (plain : client.IsPlain) :
    FailsOnly (¬ IsReported ·) (bodyData client r headers body).1 := by
  unfold bodyData
  dsimp only
  split
  next =>
    split
    next => exact failsOnly_ok _
    next f failed =>
      split
      next => exact failsOnly_text plain
      next => exact failsOnly_error (plain.json body f failed)
  next => exact failsOnly_text plain

theorem succeeds_selected_text_iff {path : Value} :
    Succeeds ((client.text headers body).map Value.str >>= selected path) ↔
      Succeeds (client.text headers body) := by
  cases client.text headers body with
  | ok s => exact iff_of_true ⟨.str s, if_pos (by simp [isStructured])⟩ (succeeds_ok s)
  | error f => exact iff_of_false (not_succeeds_error _) (not_succeeds_error f)

theorem succeeds_selected_bodyData_iff {path : String} (given : r.path = .str path) :
    Succeeds ((bodyData client r headers body).1 >>= selected r.path) ↔
      client.Reads r headers body := by
  unfold bodyData
  dsimp only
  cases declared : declaresJson (client.header headers "content-type") with
  | false =>
    rw [if_neg Bool.false_ne_true, succeeds_selected_text_iff]
    constructor
    · exact fun text => ⟨fun json => by simp_all, fun json => by simp_all, fun _ => text⟩
    · exact fun reads => reads.text declared
  | true =>
    rw [if_pos rfl]
    cases read : client.json body with
    | ok v =>
      show Succeeds (selected r.path v) ↔ _
      rw [given, succeeds_selected_iff]
      constructor
      · refine fun safe => ⟨fun _ w same path' given' => ?_, fun _ f failed => ?_, fun json => ?_⟩
        · cases read.symm.trans same
          cases given.symm.trans given'
          exact safe
        · cases read.symm.trans failed
        · cases declared.symm.trans json
      · exact fun reads => reads.json declared v read path given
    | error f =>
      dsimp only
      cases bad : f.isBadValue with
      | false =>
        refine iff_of_false (not_succeeds_error _) fun reads => ?_
        cases bad.symm.trans (reads.other declared f read).1
      | true =>
        rw [if_pos rfl, succeeds_selected_text_iff]
        constructor
        · refine fun text => ⟨fun _ v same => ?_, fun _ g same => ?_, fun json => ?_⟩
          · cases read.symm.trans same
          · cases read.symm.trans same
            exact ⟨bad, text⟩
          · cases declared.symm.trans json
        · exact fun reads => (reads.other declared f read).2

theorem concludeDirect_reports_iff (plain : client.IsPlain) (typed : r.IsTyped) (limit : Value)
    (i : Incoming) :
    FailsOnly IsReported (concludeDirect client limit r i).1 ↔ r.Takes client limit i := by
  cases i with
  | timeout text =>
    refine (failsOnly_bind_iff (failsOnly_general limit) fun _ => ?_).trans (and_iff_left trivial)
    exact iff_true_intro (failsOnly_refuse _ _)
  | unreachable text => exact iff_true_intro (failsOnly_refuse _ _)
  | response status headers body =>
    obtain ⟨path, given⟩ := typed.path
    have others : FailsOnly (¬ IsReported ·)
        ((bodyData client r headers body).1 >>= selected r.path) :=
      (failsOnly_bodyData plain).bind fun data => failsOnly_selected r.path data
    refine Iff.trans ?_ (succeeds_selected_bodyData_iff given)
    show FailsOnly IsReported ((bodyData client r headers body).1 >>= fun data =>
      selected r.path data >>= fun _ => _) ↔ _
    rw [← bind_assoc]
    exact (failsOnly_bind_iff others fun _ => iff_true_intro (failsOnly_ok _)).trans
      (and_iff_left trivial)

end

/-! ## The forwarding proxy -/

/-- A double that is not finite. -/
def isUnbounded : Value → Bool
  | .float x =>
    match Binary64.decode x with
    | .finite _ => false
    | .infinite _ | .notANumber => true
  | .nan _ => true
  | _ => false

theorem succeeds_statusOf_iff {v : Value} : Succeeds (statusOf v) ↔ isUnbounded v = false := by
  cases v with
  | float x =>
    unfold statusOf Num.truncate isUnbounded
    dsimp only
    cases Binary64.decode x with
    | finite parts => exact iff_of_true (succeeds_ok _) rfl
    | infinite negative => exact iff_of_false (not_succeeds_error _) fun h => by cases h
    | notANumber => exact iff_of_false (not_succeeds_error _) fun h => by cases h
  | nan origin => exact iff_of_false (not_succeeds_error _) fun h => by cases h
  | _ => exact iff_of_true (succeeds_ok _) rfl

theorem failsOnly_statusOf (v : Value) : FailsOnly (¬ IsReported ·) (statusOf v) := by
  cases v with
  | float x =>
    unfold statusOf Num.truncate
    dsimp only
    cases Binary64.decode x with
    | finite parts => exact failsOnly_ok _
    | infinite negative => exact failsOnly_error id
    | notANumber => exact failsOnly_error id
  | nan origin => exact failsOnly_error id
  | _ => exact failsOnly_ok _

/-- A forwarding proxy can hand the request to its service: the client has nothing against it. -/
def Service.Forwards (s : Service) (client : Client) (r : Request) : Prop :=
  ∀ payload, r.payload = .ok payload →
    Succeeds (client.send "POST" s.endpoint s.headers (.json payload))

theorem prepareForwarded_of_typed {client : Client} (plain : client.IsPlain) {r : Request}
    (typed : r.IsTyped) (s : Service) :
    FailsOnly (¬ IsReported ·) (prepareForwarded client s r) ∧
      (Succeeds (prepareForwarded client s r) ↔ s.Forwards client r) := by
  obtain ⟨fields, headers, -⟩ := typed.headers
  obtain ⟨payload, paid⟩ : ∃ payload, r.payload = .ok payload := by
    unfold Request.payload headerEntries
    rw [headers]
    exact ⟨_, rfl⟩
  unfold prepareForwarded Service.Forwards
  rw [paid]
  refine ⟨plain.send _ _ _ _, fun succeeds payload' same => ?_, fun forwards => forwards _ rfl⟩
  cases same
  exact succeeds

/-- What has come of a request is no trap for a forwarding proxy: the body of a response is JSON, or
is not because of what it is.  What a service says about a failure has a text; and a status that it
reports is no double without an end, and the reason has a text. -/
def Incoming.IsBounded (client : Client) : Incoming → Prop
  | .response status _ body =>
    (∀ f, client.json body = .error f → f.isBadValue = true) ∧
    (400 ≤ status → ∀ v, client.json body = .ok v →
      client.reach.Renders ((v.field? "error").getD .null)) ∧
    (status < 400 → ∀ fields : Table Value, client.json body = .ok (.obj fields) →
      isUnbounded ((fields.get? "status").getD .null) = false ∧
        client.reach.Renders ((fields.get? "statusText").getD .null))
  | .timeout _ | .unreachable _ => True

theorem ofTable_reports_iff {reach : Reach} {fields : Table Value} :
    FailsOnly IsReported (Response.ofTable fields reach) ↔
      isUnbounded ((fields.get? "status").getD .null) = false ∧
        reach.Renders ((fields.get? "statusText").getD .null) := by
  unfold Response.ofTable
  refine (failsOnly_bind_iff (failsOnly_statusOf _) fun status => failsOnly_bind_iff
    (failsOnly_toPlain reach _) fun text => iff_true_intro (failsOnly_ok _)).trans ?_
  rw [succeeds_statusOf_iff, (Hinges.toPlain reach _).succeeds, Reach.renders_orElse_iff, and_true]

theorem concludeForwarded_reports_iff {client : Client} (plain : client.IsPlain) (i : Incoming) :
    FailsOnly IsReported (concludeForwarded client i) ↔ i.IsBounded client := by
  cases i with
  | timeout text | unreachable text => exact iff_true_intro (failsOnly_refuse _ _)
  | response status headers body =>
    unfold concludeForwarded Incoming.IsBounded
    dsimp only
    cases read : client.json body with
    | error f =>
      dsimp only
      cases bad : f.isBadValue with
      | true =>
        refine iff_of_true (failsOnly_refuse _ _) ⟨?_, nofun, nofun⟩
        rintro _ ⟨⟩
        exact bad
      | false =>
        refine iff_of_false (fun only => plain.json body f read (only f rfl)) fun bounded => ?_
        cases bad.symm.trans (bounded.1 f rfl)
    | ok v =>
      dsimp only
      by_cases high : 400 ≤ status
      · rw [if_pos high]
        refine (failsOnly_bind_iff (failsOnly_toPlain _ _) fun _ =>
          iff_true_intro (failsOnly_refuse _ _)).trans ?_
        rw [(Hinges.toPlain client.reach _).succeeds, Reach.renders_orElse_iff, and_true]
        refine ⟨fun renders => ⟨nofun, fun _ w same => ?_, fun low => ?_⟩,
          fun bounded => bounded.2.1 high v rfl⟩
        · cases same
          exact renders
        · exact absurd high (Nat.not_le.mpr low)
      · rw [if_neg high]
        cases v with
        | obj fields =>
          refine ofTable_reports_iff.trans ⟨fun both => ⟨nofun, fun bad => absurd bad high, ?_⟩,
            fun bounded => bounded.2.2 (Nat.lt_of_not_le high) fields rfl⟩
          rintro - fields' same
          cases same
          exact both
        | _ => exact iff_of_true (failsOnly_refuse _ _) ⟨nofun, fun bad => absurd bad high, nofun⟩

/-! ## Either -/

/-- What a request comes to, if this is what comes of what is sent for it. -/
def Proxy.outcome (p : Proxy) (client : Client) (r : Request) (i : Incoming) :
    Except Fault Response := do
  let _ ← p.prepare client r
  (p.conclude client r i).1

/-- The proxy can cope with a request and with what comes of it.  For a direct proxy it is enough
that the address may not be asked. -/
def Proxy.Copes (p : Proxy) (client : Client) (r : Request) (i : Incoming) : Prop :=
  match p with
  | .direct limit =>
    (∃ u, r.url = .str u ∧ isBlocked u = true) ∨ r.IsSendable client ∧ r.Takes client limit i
  | .forwarding s => s.Forwards client r ∧ i.IsBounded client

/-- A request whose parts are of the right kinds comes to a response or to a failure that the proxy
reports as its own, exactly if the proxy can cope with it.  The client may be any that does not
itself fail as a proxy does. -/
theorem Proxy.reports_iff {client : Client} (plain : client.IsPlain) {p : Proxy} {r : Request}
    (typed : r.IsTyped) (i : Incoming) :
    FailsOnly IsReported (p.outcome client r i) ↔ p.Copes client r i := by
  cases p with
  | forwarding s =>
    obtain ⟨others, leaves⟩ := prepareForwarded_of_typed plain typed s
    exact (failsOnly_bind_iff others fun _ => concludeForwarded_reports_iff plain i).trans
      (and_congr_left' leaves)
  | direct limit =>
    obtain ⟨u, url⟩ := typed.url
    cases blocked : isBlocked u with
    | true =>
      refine iff_of_true ?_ (.inl ⟨u, url, blocked⟩)
      cases prepared : prepareDirect client r with
      | ok o => exact absurd ⟨o, prepared⟩ (not_succeeds_prepareDirect url blocked)
      | error f =>
        have reported := prepareDirect_of_blocked url blocked f prepared
        unfold Proxy.outcome Proxy.prepare
        dsimp only
        rw [prepared]
        exact failsOnly_error reported
    | false =>
      obtain ⟨others, leaves⟩ := prepareDirect_of_free plain typed url blocked
      have free : ¬ ∃ v, r.url = .str v ∧ isBlocked v = true := by
        rintro ⟨v, same, blocked'⟩
        cases url.symm.trans same
        cases blocked.symm.trans blocked'
      refine (failsOnly_bind_iff others fun _ =>
        concludeDirect_reports_iff plain typed limit i).trans ?_
      exact (and_congr_left' leaves).trans (or_iff_right free).symm

/-- A client that has nothing against any request, and for which every response is a list of one
number. -/
def listClient : Client where
  send method url _ content := .ok { method, url, headers := [], content }
  header _ _ := "application/json"
  json _ := .ok (.list [.int 7])
  text _ _ := .ok "[7]"
  phrase _ := "OK"

theorem listClient_isPlain : listClient.IsPlain :=
  ⟨fun _ _ _ _ => failsOnly_ok _, fun _ => failsOnly_ok _, fun _ _ => failsOnly_ok _⟩

/-- A request for a part of some data. -/
def partRequest (path : String) : Request :=
  { url := .str "https://api.example.com/v1", path := .str path }

/-- A response that is the JSON of a list of one number. -/
def listResponse : Incoming :=
  .response 200 [("content-type", "application/json")] [0x5b, 0x37, 0x5d]

/-- The digit two as a superscript writes no position, and the failure is not reported. -/
theorem Proxy.reports_iff_superscript : ¬ FailsOnly IsReported
    ((Proxy.direct (.int 10)).outcome listClient (partRequest "²") listResponse) := by
  have typed : (partRequest "²").IsTyped :=
    ⟨⟨_, rfl⟩, ⟨_, rfl⟩, ⟨[], rfl, List.forall_mem_nil _⟩, ⟨_, rfl⟩⟩
  rw [Proxy.reports_iff listClient_isPlain typed]
  rintro (⟨u, same, blocked⟩ | ⟨-, reads⟩)
  · cases same
    exact absurd blocked (by decide +kernel)
  · rcases reads.json (by decide +kernel) _ rfl "²" rfl with empty | flat | safe
    · exact absurd empty (by decide)
    · cases flat
    · have piece := safe [] ['²'] [] (.list [.int 7]) (by decide) rfl (by decide)
      exact absurd (piece [.int 7] rfl (by decide)).1 (by decide)

end Http

end Wireboard
