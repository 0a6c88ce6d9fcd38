import Wireboard.Proofs.Engine.Operations
import Wireboard.Proofs.Json.Nesting

/-!
# A request leads to one branch

A node that makes requests to the net has two outputs to go on at: `exec` if there is a response,
and `execError` if there is none.  Whatever it is given to make its request of, a text that is no
JSON among the headers included, the request is made, once; and whatever is answered, the node goes
on at one of the two outputs, once, with what came of the request at its other outputs.

There is more to this than two branches.  A failure in the preparation would lead to neither, and
one after the answer might lead to both.  So the preparation succeeds on all values that can be
written and are not nested too deeply (`Board.succeeds_requestOf`), and from the answer on nothing
fails (`Course.Settles`).
-/

namespace Wireboard

variable {σ : Type} {b : Board} {env : Surroundings σ}

/-! ## The preparation -/

/-- The text of headers; the empty one stands for an object without any. -/
def Reach.headersText (text : String) : String := if text = "" then "\x7b\x7d" else text

/-- A request can be made of the value.  It can be shown and written, and so can its fields; and a
text is not nested too deeply to be read, nor are the fields of what it tells to be written. -/
structure Reach.Covers (reach : Reach) (v : Value) : Prop where
  hasText : v.hasText = true
  shows : reach.shows v = true
  writes : reach.writes v = true
  fields : ∀ fields, v = .obj fields → ∀ e ∈ fields, reach.writes e.2 = true
  reads : ∀ text, v = .str text →
    Json.read (headersText text) reach.reading = Json.read (headersText text)
  told : ∀ text fields, v = .str text → Json.read (headersText text) = .ok (.obj fields) →
    ∀ e ∈ fields, reach.writes e.2 = true

/-- The properties that a request is made of will do. -/
def Node.Describes (n : Node) (reach : Reach) : Prop :=
  ∀ key ∈ ["method", "url", "headers", "jsonPath"], reach.Covers (n.property key)

variable {reach : Reach} {v : Value}

namespace Reach

/-- Without a limit a request can be made of whatever can be written. -/
theorem covers_unlimited (text : v.hasText = true) : ({} : Reach).Covers v :=
  ⟨text, rfl, rfl, fun _ _ _ _ => rfl, fun _ _ => rfl, fun _ _ _ _ _ _ => rfl⟩

theorem covers_null (reach : Reach) : reach.Covers .null where
  hasText := rfl
  shows := reach.shows_flat _ rfl
  writes := reach.writes_flat _ rfl
  fields _ other := by cases other
  reads _ other := by cases other
  told _ _ other := by cases other

theorem Covers.succeeds_toText (covers : reach.Covers v) : Succeeds (reach.toText v) := by
  rw [Reach.toText, if_pos covers.writes]
  exact Wireboard.succeeds_toText covers.hasText

theorem Covers.succeeds_toPlain (covers : reach.Covers v) : Succeeds (reach.toPlain v) := by
  rw [Reach.toPlain, if_pos covers.shows]
  exact succeeds_toPlain_iff.mpr covers.hasText

/-- A text that is read as without a limit tells something, or else the other value counts. -/
theorem readOr_of_eq {text : String} (other : Value)
    (same : Json.read text reach.reading = Json.read text) :
    reach.readOr text other = .ok ((Json.read text).toOption.getD other) := by
  rw [readOr, same]
  cases read : Json.read text with
  | ok v => rfl
  | error f =>
    refine if_pos (Json.isBadValue_of_read (fun task deep => ?_) read)
    exact Json.read_ne_tooDeep text task (deep ▸ read)

end Reach

namespace Board

/-- Headers are made of an object, of the text of one, or there are none. -/
theorem succeeds_headersOf (covers : reach.Covers v) : Succeeds (headersOf reach v) := by
  have fields {fields : List (String × Value)} (text : (Value.obj fields).hasText = true)
      (writes : ∀ e ∈ fields, reach.writes e.2 = true) :
      Succeeds ((fields : Table Value).mapM fun e => (reach.toText e.2).map (Prod.mk e.1)) := by
    refine succeeds_mapM_iff.mpr fun e member => ?_
    obtain ⟨written, ok⟩ := succeeds_toText (Value.hasTextFields_iff.mp text e member)
    exact ⟨(e.1, written), by rw [Reach.toText, if_pos (writes e member), ok]; rfl⟩
  cases v with
  | obj fs => exact fields covers.hasText (covers.fields fs rfl)
  | str said =>
    have read := Reach.readOr_of_eq .null (covers.reads said rfl)
    unfold Reach.headersText at read
    unfold headersOf
    dsimp only
    rw [read]
    cases told : Json.read (if said = "" then "\x7b\x7d" else said) with
    | error f => exact succeeds_ok []
    | ok w =>
      cases w with
      | obj fs => exact fields (Json.tidy_of_read told).hasText (covers.told said fs rfl told)
      | _ => exact succeeds_ok []
  | _ => exact succeeds_ok []

theorem succeeds_bodyOf (covers : reach.Covers v) (some : v.isTruthy = true) :
    Succeeds (bodyOf reach v) := by
  cases v with
  | str text =>
    have same := covers.reads text rfl
    have full : text ≠ "" := by simpa [Value.isTruthy] using some
    rw [Reach.headersText, if_neg full] at same
    exact ⟨_, Reach.readOr_of_eq _ same⟩
  | _ => exact succeeds_ok _

/-- A request is made of any values that will do. -/
theorem succeeds_requestOf {n : Node} {url body : Value} (describes : n.Describes b.reach)
    (address : b.reach.Covers url) (content : b.reach.Covers body) :
    Succeeds (b.requestOf n url body) := by
  have known (key : String) (member : key ∈ ["method", "url", "headers", "jsonPath"]) :
      b.reach.Covers (n.property key) := describes key member
  have shown (s : String) : Succeeds (b.reach.toPlain (.str s)) :=
    (Hinges.toPlain b.reach _).succeeds.mpr (b.reach.renders_str s)
  obtain ⟨method, named⟩ : Succeeds (b.reach.toPlain (n.propertyOr "method" (.str "GET"))) := by
    rcases n.propertyOr_cases "method" (.str "GET") with same | same <;> rw [same]
    · exact (known "method" (by decide)).succeeds_toPlain
    · exact shown "GET"
  obtain ⟨place, addressed⟩ :
      Succeeds (b.reach.toText ((url.orElse (n.property "url")).orElse (.str ""))) := by
    rcases Value.orElse_cases (url.orElse (n.property "url")) (.str "") with same | same <;>
      rw [same]
    · rcases Value.orElse_cases url (n.property "url") with same | same <;> rw [same]
      · exact address.succeeds_toText
      · exact (known "url" (by decide)).succeeds_toText
    · rw [Reach.toText, if_pos (b.reach.writes_flat _ rfl)]
      exact succeeds_toText rfl
  obtain ⟨headers, headed⟩ := succeeds_headersOf (known "headers" (by decide))
  obtain ⟨path, pathed⟩ :
      Succeeds (b.reach.toPlain ((n.property "jsonPath").orElse (.str ""))) := by
    rcases Value.orElse_cases (n.property "jsonPath") (.str "") with same | same <;> rw [same]
    · exact (known "jsonPath" (by decide)).succeeds_toPlain
    · exact shown ""
  obtain ⟨carried, given⟩ : Succeeds (bodyFor b.reach (Text.upper method) body) := by
    unfold bodyFor
    split
    next sent => exact succeeds_bodyOf content (Bool.and_eq_true_iff.mp sent).1
    next => exact succeeds_ok _
  exact ⟨_, bind_eq_ok.mpr ⟨method, named, bind_eq_ok.mpr ⟨place, addressed, bind_eq_ok.mpr
    ⟨headers, headed, bind_eq_ok.mpr ⟨carried, given, bind_eq_ok.mpr ⟨path, pathed, rfl⟩⟩⟩⟩⟩⟩

/-- A request that gets something carries nothing. -/
theorem body_of_requestOf {n : Node} {url body : Value} {r : Http.Request}
    (ok : b.requestOf n url body = .ok r) (gets : r.method = .str "GET") : r.body = .null := by
  unfold requestOf at ok
  obtain ⟨method, -, ok⟩ := bind_eq_ok.mp ok
  obtain ⟨address, -, ok⟩ := bind_eq_ok.mp ok
  obtain ⟨headers, -, ok⟩ := bind_eq_ok.mp ok
  obtain ⟨carried, given, ok⟩ := bind_eq_ok.mp ok
  obtain ⟨path, -, ok⟩ := bind_eq_ok.mp ok
  cases ok
  have upper : Text.upper method = "GET" := by simpa using gets
  rw [bodyFor, upper, if_neg (by simp)] at given
  cases given
  rfl

end Board

namespace Course

variable {course : Course b env} {answer : Nat → (r : Request) → Except Fault r.Reply}
  {s : Strand} {next : Continuation} {p k l a : Nat} {id : String} {n : Node} {r : Http.Request}

/-- A node with this answer goes on at this output, and its other outputs give what the answer
says. -/
def GoesOnWith (course : Course b env) (id : String) (f : Nat) (pin : String) :
    Except Fault Http.Response → Prop
  | .ok response => pin = "exec" ∧ course.Reads f id "data" response.data ∧
      course.Reads f id "status" response.status
  | .error _ => pin = "execError" ∧ course.Reads f id "data" .null ∧
      course.Reads f id "status" (.int 0)

section

variable (describes : n.Describes b.reach) (supplied : course.SuppliedWith b.reach.Covers s p)
  (orders : course.OrdersEnd Job.NoPart s p) (completes : course.Completes answer s p)
  (found : b.circuit.node? id = some n) (named : NodeKind.ofName? n.kind = some .httpRequest)
include found named

/-- What a node gives that has kept the data and the status of a response. -/
theorem Keeps.reads_response {memos : List Memo} {data status : Value}
    (keeps : course.Keeps Job.NoPart s p n.id memos k l)
    (kept : ∀ before : Scratch,
      memos.foldl Scratch.keep before = { before with result := data, status })
    {code : Int} (whole : status = .int code) :
    course.Reads l id "data" data ∧ course.Reads l id "status" status := by
  constructor
  · refine keeps.reads found named rfl rfl fun w before scratch => ?_
    simp only [Board.report, scratch, kept]
    rfl
  · refine keeps.reads found named rfl rfl fun w before scratch => ?_
    simp only [Board.report, scratch, kept, if_true, whole]
    refine congrArg Except.ok (Value.orElse_eq fun vacant => ?_)
    simpa [Value.isVacant] using vacant

include orders

/-- A response is kept, and then the wires of `exec` are run. -/
theorem leadsTo_exec {response : Http.Response} {c : Context}
    (proper : Request.Proper (.http r) (.ok response)) :
    course.LeadsTo Job.NoPart Deed.Matters s next p k c (do
        Attempt.remember n.id (.result response.data)
        Attempt.remember n.id (.status response.status)
        let status ← Attempt.ofExcept response.status.toPlain
        let statusText ← Attempt.ofExcept response.statusText.toPlain
        let line := s!"HTTP {status} {statusText}"
        b.log .info (String.ofList (Text.stripEnd line.toList))
        Attempt.fire n.id "exec") n.id
      fun ds pin f _ => ds = [] ∧ course.GoesOnWith id f pin (.ok response) ∧
        ∃ memos, course.Keeps Job.NoPart s p n.id memos k f := by
  obtain ⟨⟨code, whole, short⟩, text, plain⟩ := proper
  have written : response.status.toPlain = .ok response.status.plain := by
    rw [whole]
    simp [Value.toPlain, Value.hasText, short]
  have written' : response.statusText.toPlain = .ok response.statusText.plain := by
    rw [plain]
    rfl
  refine leadsTo_settles_bind n.id (settles_remember _) fun l₁ _ _ kept₁ => ?_
  refine leadsTo_settles_bind n.id (settles_remember _) fun l₂ _ _ kept₂ => ?_
  refine leadsTo_settles_bind n.id (settles_ofExcept (P := fun _ => True) written trivial)
    fun l₃ _ _ kept₃ => ?_
  refine leadsTo_settles_bind n.id (settles_ofExcept (P := fun _ => True) written' trivial)
    fun l₄ _ _ kept₄ => ?_
  refine leadsTo_settles_bind n.id (settles_log orders .info _ not_false)
    fun l₅ _ _ kept₅ => ?_
  have kept := (((kept₁.trans kept₂).trans kept₃).trans kept₄).trans kept₅
  obtain ⟨data, status⟩ := kept.reads_response found named (fun _ => rfl) whole
  exact leadsTo_fire ⟨rfl, ⟨rfl, data, status⟩, _, kept⟩

/-- A failure is written into the log, nothing is kept, and then the wires of `execError` are
run. -/
theorem leadsTo_execError {fault : Fault} {c : Context} :
    course.LeadsTo Job.NoPart Deed.Matters s next p k c (do
        b.log .error s!"HTTP Error: {fault.message}"
        Attempt.remember n.id (.result .null)
        Attempt.remember n.id (.status (.int 0))
        Attempt.fire n.id "execError") n.id
      fun ds pin f _ => ds = [] ∧ course.GoesOnWith id f pin (.error fault) ∧
        ∃ memos, course.Keeps Job.NoPart s p n.id memos k f := by
  have entry : ¬ (Deed.act (.journal .error (.str s!"HTTP Error: {fault.message}"))).Matters :=
    Deed.not_matters_journal (by decide +kernel)
  refine leadsTo_settles_bind n.id (settles_log orders .error _ entry) fun l₁ _ _ kept₁ => ?_
  refine leadsTo_settles_bind n.id (settles_remember _) fun l₂ _ _ kept₂ => ?_
  refine leadsTo_settles_bind n.id (settles_remember _) fun l₃ _ _ kept₃ => ?_
  have kept := (kept₁.trans kept₂).trans kept₃
  obtain ⟨data, status⟩ := kept.reads_response found named (fun _ => rfl) rfl
  exact leadsTo_fire ⟨rfl, ⟨rfl, data, status⟩, _, kept⟩

include describes supplied completes

/-- A node that makes requests leads to one of its branches. -/
theorem leadsTo_runHttp :
    course.LeadsTo Job.NoPart Deed.Matters s next p k s.context (b.runHttp n) n.id
      fun ds pin f _ => ∃ url body l m r a, course.Finds n.id "url" k url l ∧
        course.Finds n.id "body" l body m ∧ b.requestOf n url body = .ok r ∧
        ds = [(a, .ask (.http r))] ∧ course.GoesOnWith id f pin (answer a (.http r)) ∧
        ∃ memos, course.Settled s p n.id memos f := by
  have null := b.reach.covers_null
  refine leadsTo_bind (performs_of_goes (supplied.goes_resolve null n.id "url")) ?_ ?_
  · rintro _ l _ url - ⟨rfl, rfl, _, ⟨⟩, address, asked⟩
    refine leadsTo_bind (performs_of_goes (supplied.goes_resolve null n.id "body")) ?_ ?_
    · rintro _ m _ body - ⟨rfl, rfl, _, ⟨⟩, content, asked'⟩
      obtain ⟨request, ok⟩ := Board.succeeds_requestOf describes address content
      refine leadsTo_settles_bind n.id (settles_ofExcept (P := (· = request)) ok rfl) ?_
      rintro _ r rfl -
      refine leadsTo_settles_bind n.id (settles_log orders .info _ not_false) ?_
      rintro a _ - -
      -- nothing that matters was done before the request, and nothing fails after it
      refine leadsTo_bind (completes.performs_capture (.http r)) ?_ ?_
      · rintro _ l₂ _ _ - ⟨⟨rfl, rfl, proper, current⟩, ⟨⟩⟩
        refine leadsTo_bind (performs_of_goes (goes_isStale n.id current)) ?_ ?_
        · rintro _ l₃ _ _ - ⟨rfl, ⟨rfl, kept⟩, ⟨⟩⟩
          cases said : answer a (.http r) with
          | ok response =>
            rw [said] at proper
            refine leadsTo_mono (leadsTo_exec orders found named proper) ?_
            rintro _ pin f c ⟨rfl, goesOn, memos, kept'⟩
            exact ⟨url, body, l, m, r, a, asked, asked', ok, rfl, said ▸ goesOn, _, l₂, current,
              kept.trans kept'⟩
          | error fault =>
            refine leadsTo_mono (leadsTo_execError orders found named) ?_
            rintro _ pin f c ⟨rfl, goesOn, memos, kept'⟩
            exact ⟨url, body, l, m, r, a, asked, asked', ok, rfl, said ▸ goesOn, _, l₂, current,
              kept.trans kept'⟩
        · rintro _ _ _ _ ⟨-, -, ⟨⟩⟩
      · rintro _ _ _ _ ⟨-, ⟨⟩⟩
    · rintro _ _ _ _ ⟨-, -, _, ⟨⟩, -⟩
  · rintro _ _ _ _ ⟨-, -, _, ⟨⟩, -⟩

end

end Course

/-- A node that makes a request whose headers are no JSON. -/
def fetchNode : Node :=
  { id := "fetch", kind := "httpRequest", properties := [("headers", .str "no JSON")] }

def fetchApp : App where
  id := "fetch"
  name := .str "fetch"
  nodes := [{ id := "start", kind := "onAppStart" },
    { id := "address", kind := "stringLiteral",
      properties := [("value", .str "https://api.example.com/x")] },
    fetchNode]
  wires := [.link "start" "exec" "fetch" "exec", .link "address" "value" "fetch" "url"]

def fetchBoard : Board := fetchApp.board

/-- There is nothing at any address, which is a response too. -/
def fetchReply : (r : Request) → Except Fault r.Reply
  | .http _ => .ok { status := .int 404, statusText := .str "Not Found", data := .str "none" }
  | _ => .error .timedOut

def fetchRun : Run fetchBoard (.prompt fetchReply) := .ofStart _ _ ()

/-- The same request, and wires that lead on from both outputs of its node. -/
def hushApp : App :=
  { fetchApp with
    nodes := fetchApp.nodes ++ [{ id := "tell", kind := "log" }, { id := "warn", kind := "log" }]
    wires := fetchApp.wires
      ++ [.link "fetch" "exec" "tell" "exec", .link "fetch" "execError" "warn" "exec"] }

/-- A listener to the log that stops the app when it hears of the response. -/
def hush (c : Callback) : Option Reaction :=
  if c = .log .info (.str "HTTP 404 Not Found") then some { orders := [.stop] } else none

def hushRun : Run hushApp.board (.prompt fetchReply hush) := .ofStart _ _ ()

end Wireboard
