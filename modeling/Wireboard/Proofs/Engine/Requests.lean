import Wireboard.Proofs.Engine.Storage
import Wireboard.Proofs.Http.Content

/-!
# Requests to the net

A node makes a request of what two of its pins have given, one for the address and one for the body,
and a proxy sends it.  `Proofs.Http.Content` says what a direct proxy makes of one request; here it
is seen where it comes from and that it leaves.

* Nobody but such a node asks the net (`Run.Requests`, `Run.exists_requests`), and a node that is
  executed and has its values does ask (`Run.Composes.exists_requests`), if nobody who reads the log
  orders anything meanwhile.
* What the net is asked leaves with the same move (`Run.Sends`, `Run.sends_iff`).
* The stage of a rehearsal may have a direct proxy (`Rehearsal.Stage.surroundings_sendsDirectly`),
  with a client that conforms (`Rehearsal.client_conforms`).

So a text at the body pin reaches the net as `Http.contentOf` says
(`Run.request_bodies_on_the_wire`).  It is not what the text says for every text: a truth value
arrives as a word that is no JSON.
-/

namespace Wireboard

variable {σ : Type} {b : Board} {env : Surroundings σ} {s t : Strand}

/-! ## The script of a node -/

/-- The script that asks for the value of an input pin, if there is anything to ask, and goes on
with it. -/
def Board.asking (b : Board) (node pin : String) (goesOn : Continuation) :
    Code :=
  match b.source? node pin with
  | none => goesOn (.ok .null)
  | some ref => .call (.pull ref.node ref.pin) goesOn

/-- The entry that a node writes into the log before it makes a request. -/
def Http.Request.entry (r : Http.Request) : Value :=
  .str s!"HTTP {r.method.plain} → {r.url.plain}"

/-- The script writes into the log that it is going to make a request, and makes it as soon as the
listener is done, if this one orders nothing. -/
def Http.Request.Announced (r : Http.Request) (script : Code) : Prop :=
  ∃ (told : Option Reaction → Code)
    (next : Except Fault Http.Response → Code),
    script = .act (.journal .info r.entry) (fun _ => .act (.callback (.log .info r.entry)) told) ∧
    told none = .wait (.http r) next ∧ ∀ result, told (some ⟨[], result⟩) = .wait (.http r) next ∨
      ∃ trouble, told (some ⟨[], result⟩) = .act (.notice trouble) fun _ => .wait (.http r) next

/-- The parts of the script before and after the request. -/
theorem Board.runHttp_eq (n : Node) :
    ∃ rest : Http.Request → Except Fault Http.Response → Attempt Unit, b.runHttp n = (do
      let url ← b.resolve n.id "url"
      let body ← b.resolve n.id "body"
      let r ← Attempt.ofExcept (b.requestOf n url body)
      Attempt.log b.appId .info r.entry
      let outcome ← Attempt.capture (Attempt.wait (.http r))
      rest r outcome) :=
  ⟨_, rfl⟩

theorem Board.body_execute_eq {id : String} (pin? : Option String) {n : Node}
    (found : b.circuit.node? id = some n) (kind : n.kind = "httpRequest") :
    ∃ (notice : Notice) (caught : Except Fault Unit → Script (Except Fault Unit))
      (last : Except Fault Unit → Code), (b.body (.execute id pin?)).run
        = .act (.notice notice) fun _ => .bind (.bind (b.runHttp n).run caught) last := by
  have named : NodeKind.ofName? n.kind = some .httpRequest := by
    rw [kind]
    decide
  simp only [Board.body, Board.execute, found, named, Board.perform, Board.run?]
  exact ⟨_, _, _, rfl⟩

/-- A node that makes requests asks its two pins, writes into the log and makes the request. -/
theorem Board.body_execute_http {id : String} (pin? : Option String) {n : Node}
    (found : b.circuit.node? id = some n) (kind : n.kind = "httpRequest") :
    ∃ (notice : Notice) (first : Continuation) (second : Value → Continuation),
      (b.body (.execute id pin?)).run
        = .act (.notice notice) (fun _ => b.asking n.id "url" first) ∧
      (∀ url, first (.ok url) = b.asking n.id "body" (second url)) ∧
      ∀ url body r, b.requestOf n url body = .ok r → r.Announced (second url (.ok body)) := by
  obtain ⟨notice, caught, last, script⟩ := Board.body_execute_eq pin? found kind
  obtain ⟨rest, eq⟩ := b.runHttp_eq n
  -- The node's own script stands inside of what is done when it fails and what is done at the end.
  let within (x : Script (Except Fault Unit)) : Code :=
    .bind (.bind x caught) last
  have asks (node pin : String) (f : Value → Attempt Unit) :
      within (b.resolve node pin >>= f).run
        = b.asking node pin fun x => within (ExceptT.bindCont f x) := by
    rw [Board.resolve_eq, asking]
    cases b.source? node pin <;> rfl
  rw [eq] at script
  refine ⟨notice, _, fun url x => within (ExceptT.bindCont _ x),
    script.trans (congrArg (Script.act _) (funext fun _ => asks _ _ _)), fun url => asks _ _ _, ?_⟩
  intro url body r described
  show r.Announced (within (Attempt.ofExcept (b.requestOf n url body) >>= _).run)
  rw [described]
  refine ⟨_, _, rfl, rfl, fun result => ?_⟩
  cases result with
  | ok v => exact .inl rfl
  | error f => exact .inr ⟨_, rfl⟩

@[simp] theorem Machine.perform_callback_fst (b : Board) (env : Surroundings σ) (m : Machine σ)
    (c : Context) (cb : Callback) :
    (perform b env m c (.callback cb)).1 = (env.react m.outside cb).1 := by
  simp only [perform]
  split
  next told => rw [told]
  next told => rw [told]

/-- To ask the net adds to the history what came of it. -/
theorem Machine.history_request (env : Surroundings σ) (m : Machine σ) (s : Strand)
    (r : Http.Request) (next : Except Fault Http.Response → Code) :
    (m.request env s (.http r) next).history
      = (env.ask m.outside (.http r)).2.1.reverse ++ m.history := by
  simp only [request, patienceFor, ask, witnessAll_eq]
  split
  next asked => rw [← (Prod.mk.inj asked).2]
  next asked => rw [← (Prod.mk.inj asked).2]

/-- Where a condition holds, requests to the net leave as a direct proxy prepares them with its
client. -/
def Surroundings.SendsDirectly (env : Surroundings σ) (client : Http.Client) (direct : σ → Prop) :
    Prop :=
  ∀ s r o, direct s → (.sent o ∈ (env.ask s (.http r)).2.1 ↔ Http.prepareDirect client r = .ok o)

/-! ## Requests in a run -/

namespace Run

variable (run : Run b env)

/-- A node for requests was executed, and at that time it has the values for its pins and knows the
request. -/
structure Composes (k : Nat) (n : Node) (url body : Value) (r : Http.Request) : Prop where
  kind : n.kind = "httpRequest"
  described : b.requestOf n url body = .ok r
  executed : ∃ p s id pin? next j, b.circuit.node? id = some n ∧
    run.Calls p s (.execute id pin?) next ∧ run.Finds n.id "url" (p + 2) url j ∧
    run.Finds n.id "body" j body k

/-- Whoever reads the entry in the log that the request is going to be made, one move after that
time, orders nothing. -/
def Unhindered (k : Nat) (r : Http.Request) : Prop :=
  ∀ reaction, (env.react (run.state (k + 1)).outside (.log .info r.entry)).1 = some reaction →
    reaction.orders = []

/-- At that time a node makes a request of what its pins have given. -/
def Requests (k : Nat) (n : Node) (url body : Value) (r : Http.Request) : Prop :=
  ∃ t next record, (run.state k).running? = some t ∧ t.code = .wait (.http r) next ∧
    b.Requesting n url body r record ∧ run.Records t.id t.stack.length record k

/-- By the move at that time, a request leaves for the net. -/
def Sends (k : Nat) (o : Http.Outgoing) : Prop :=
  ∃ news, (run.state (k + 1)).history = news ++ (run.state k).history ∧ .sent o ∈ news

variable {run} {k p : Nat} {n : Node} {url body v : Value} {r : Http.Request}
  {record : List (Job × Except Fault Value)}

/-- Whatever is asked of the net is a request that a node makes of what its pins have given. -/
theorem exists_requests (running : (run.state k).running? = some t)
    {next : Except Fault Http.Response → Code}
    (code : t.code = .wait (.http r) next) : ∃ n url body, run.Requests k n url body r := by
  obtain ⟨β, booked⟩ := exists_booked running
  obtain ⟨n, url, body, requesting⟩ := booked.follows.asks code
  have records := booked.books.top
  rw [← booked.height_eq] at records
  exact ⟨n, url, body, t, next, _, running, code, requesting, records⟩

/-- A strand that asks for the value of a pin goes on with it, and has it on record. -/
theorem running_of_finds {node pin : String} {goesOn : Continuation}
    (finds : run.Finds node pin p v k) (running : (run.state p).running? = some t)
    (code : t.code = b.asking node pin goesOn)
    (records : run.Records t.id t.stack.length record p) :
    ∃ c record', (run.state k).running? = some { t with context := c, code := goesOn (.ok v) } ∧
      b.Gives node pin v record record' ∧ run.Records t.id t.stack.length record' k := by
  unfold Board.asking at code
  unfold Board.Gives
  cases finds with
  | unwired source =>
    rw [source] at code ⊢
    have goes : t.code = goesOn (.ok .null) := code
    refine ⟨t.context, record, ?_, ⟨rfl, rfl⟩, records⟩
    rw [running, ← goes]
  | @wired ref u next q d v source calls returns =>
    rw [source] at code ⊢
    cases running.symm.trans calls.running
    cases code.symm.trans calls.code
    have goes := (returns.yields calls).2
    have told := records.told calls returns
    exact ⟨d, _, goes, rfl, told⟩

/-- An act leaves the records of its strand as they are. -/
theorem Records.after_act {i height : Nat} {a : Act}
    {next : a.Reply → Code} (records : run.Records i height record k)
    (running : (run.state k).running? = some t) (code : t.code = .act a next)
    (above : height ≤ t.stack.length) : run.Records i height record (k + 1) := by
  refine records.later fun u runs => ?_
  cases runs.1.symm.trans (run.running_after_act running code)
  exact above

/-- What is announced is done, if nobody orders anything else. -/
theorem requests_of_announced (running : (run.state k).running? = some t)
    (announced : r.Announced t.code) (requesting : b.Requesting n url body r record)
    (records : run.Records t.id t.stack.length record k) (unhindered : run.Unhindered k r) :
    ∃ l, k < l ∧ l ≤ k + 3 ∧ run.Requests l n url body r := by
  obtain ⟨told, next, code, silent, heard⟩ := announced
  have telling := run.running_after_act running code
  have reacting := run.running_after_act telling rfl
  have reacted := (records.after_act running code (Nat.le_refl _)).after_act telling rfl
    (Nat.le_refl _)
  rw [Machine.perform_callback_fst] at reacting
  cases reaction : (env.react (run.state (k + 1)).outside (.log .info r.entry)).1 with
  | none =>
    rw [reaction, silent] at reacting
    exact ⟨k + 2, by omega, by omega, _, next, record, reacting, rfl, requesting, reacted⟩
  | some x =>
    obtain ⟨orders, result⟩ := x
    cases unhindered _ reaction
    rw [reaction] at reacting
    rcases heard result with asks | ⟨trouble, complains⟩
    · rw [asks] at reacting
      exact ⟨k + 2, by omega, by omega, _, next, record, reacting, rfl, requesting, reacted⟩
    · rw [complains] at reacting
      exact ⟨k + 3, by omega, by omega, _, next, record, run.running_after_act reacting rfl, rfl,
        requesting, reacted.after_act reacting rfl (Nat.le_refl _)⟩

/-- A node that is executed, and has the values for its pins, makes its request. -/
theorem Composes.exists_requests (composes : run.Composes k n url body r)
    (unhindered : run.Unhindered k r) :
    ∃ l, k < l ∧ l ≤ k + 3 ∧ run.Requests l n url body r := by
  obtain ⟨kind, described, p, s, id, pin?, next, j, found, calls, first, second⟩ := composes
  obtain ⟨notice, goesOn, goesOn', script, asks, announced⟩ :=
    Board.body_execute_http pin? found kind
  have holds : b.Holds n .httpRequest := ⟨⟨id, found⟩, by rw [kind]; decide⟩
  have begun := run.running_after_act calls.running_after script
  obtain ⟨c, between, running, gives, records⟩ := running_of_finds first begun rfl .nil
  obtain ⟨c', given, running', gives', records'⟩ :=
    running_of_finds second running (asks url) records
  exact requests_of_announced running' (announced url body r described)
    ⟨holds, described, between, given, [], gives, gives', rfl, List.forall_mem_nil _⟩ records'
    unhindered

theorem sends_iff (running : (run.state k).running? = some t)
    {next : Except Fault Http.Response → Code}
    (code : t.code = .wait (.http r) next) {o : Http.Outgoing} :
    run.Sends k o ↔ .sent o ∈ (env.ask (run.state k).outside (.http r)).2.1 := by
  have history := Machine.history_request env (run.state k) t r next
  have moved : run.state (k + 1) = (run.state k).request env t (.http r) next := by
    rw [(run.move k).eq_stepStrand running, Machine.stepStrand, code]
  rw [← moved] at history
  unfold Sends
  rw [history]
  constructor
  · rintro ⟨news, eq, member⟩
    rw [← List.append_cancel_right eq] at member
    exact List.mem_reverse.mp member
  · exact fun member => ⟨_, rfl, List.mem_reverse.mpr member⟩

/-- Requests and their bodies, where the net is reached by a direct proxy.  Whatever is asked of the
net, a node asks, with what its pins have given; and a node that is executed, and has the values for
its pins, does ask, if nobody orders anything else meanwhile.  If the body is a text with anything
in it and the method is not `GET`, then a request leaves exactly if its address may be asked, the
client goes by it, there is room for its headers and for what it carries, and this can be written.
It is what `contentOf` makes of the text; and it says what the text says exactly if the text is no
JSON, or says a list, an object or a finite number. -/
theorem request_bodies_on_the_wire (run : Run b env) {client : Http.Client}
    {goesBy : String → Prop} (conforms : client.Conforms goesBy) {direct : σ → Prop}
    (connected : env.SendsDirectly client direct) :
    (∀ k t r next, (run.state k).running? = some t → t.code = .wait (.http r) next →
      ∃ n url body, run.Requests k n url body r) ∧
    (∀ k n url body r, run.Composes k n url body r → run.Unhindered k r →
      ∃ l, k < l ∧ l ≤ k + 3 ∧ run.Requests l n url body r) ∧
    ∀ k n url text r, run.Requests k n url (.str text) r → direct (run.state k).outside →
      text ≠ "" → r.method ≠ .str "GET" →
      ((∃ o, run.Sends k o) ↔ r.IsAdmissible goesBy ∧ (Http.contentOf text).IsWritable ∧
        Http.Rewrites client.reach text) ∧
      ∀ o, run.Sends k o → o.content = Http.contentOf text ∧
        (o.content.Conveys text ↔ ∀ v, Json.read text = .ok v → Http.isSentAsJson v = true) := by
  refine ⟨fun k t r next running code => exists_requests running code,
    fun k n url body r composes unhindered => composes.exists_requests unhindered, ?_⟩
  rintro k n url text r ⟨t, next, record, running, code, requesting, -⟩ here some posts
  have sends (o : Http.Outgoing) : run.Sends k o ↔ Http.prepareDirect client r = .ok o :=
    (sends_iff running code).trans (connected _ r o here)
  constructor
  · rw [← Http.succeeds_prepareDirect_iff requesting.described some posts conforms]
    exact exists_congr sends
  · intro o sent
    have content :=
      Http.content_of_prepareDirect requesting.described some posts conforms ((sends o).mp sent)
    rw [content]
    exact ⟨rfl, Http.conveys_contentOf_iff⟩

end Run

/-! ## A truth value on its way -/

namespace Rehearsal

open Http Text

theorem written_eq_ok_iff {medium : Medium} {s t : String} :
    written medium s = .ok t ↔ s = t ∧ medium.Takes s := by
  unfold written Medium.Takes
  rw [List.all_eq_true, ← Medium.trouble?_eq_none_iff]
  cases medium.trouble? s.toList <;> simp

theorem succeeds_written_iff {medium : Medium} {s : String} :
    Succeeds (written medium s) ↔ medium.Takes s := by
  simp [Succeeds, written_eq_ok_iff]

theorem succeeds_headerTexts_iff {headers : Table Value} :
    Succeeds (headerTexts headers) ↔ ∀ e ∈ headers, IsHeader e := by
  unfold headerTexts
  refine succeeds_mapM_iff.trans (forall₂_congr fun e _ => ?_)
  refine (succeeds_bind_iff (C := ∃ s, e.2 = .str s ∧ Medium.ascii.Takes s) fun name => ?_).trans
    (and_congr_left' succeeds_written_iff)
  split
  next s text =>
    refine (succeeds_bind_iff (C := True) fun _ => iff_true_intro (succeeds_ok _)).trans ?_
    simp [text, succeeds_written_iff]
  next v text =>
    refine iff_of_false (not_succeeds_error _) ?_
    rintro ⟨s, same, -⟩
    exact text s same

theorem isHeader_withAgent {headers : Table Value} :
    (∀ e ∈ withAgent headers, IsHeader e) ↔ ∀ e ∈ headers, IsHeader e := by
  unfold withAgent
  split
  next => exact Iff.rfl
  next =>
    rw [List.forall_mem_cons]
    exact and_iff_right ⟨by decide +kernel, _, rfl, by decide +kernel⟩

theorem succeeds_checked_iff {c : Content} (plain : ∀ v, c ≠ .json v) :
    Succeeds (checked c) ↔ c.IsWritable := by
  cases c with
  | none => exact iff_of_true (succeeds_ok _) trivial
  | json v => exact absurd rfl (plain v)
  | text s =>
    rw [Content.IsWritable, ← succeeds_written_iff, checked]
    cases written .utf8 s with
    | ok t => exact iff_of_true (succeeds_ok _) (succeeds_ok _)
    | error f => exact iff_of_false (not_succeeds_error _) (not_succeeds_error _)

/-- The client of a rehearsal goes by any address. -/
theorem client_conforms : client.Conforms fun _ => True where
  content ok := by
    obtain ⟨texts, -, ok⟩ := bind_eq_ok.mp ok
    obtain ⟨-, -, ok⟩ := bind_eq_ok.mp ok
    cases ok
    rfl
  takes plain := by
    rw [true_and, ← isHeader_withAgent, ← succeeds_headerTexts_iff, ← succeeds_checked_iff plain]
    exact succeeds_bind_iff fun _ => (succeeds_bind_iff fun _ =>
      iff_true_intro (succeeds_ok _)).trans (and_iff_left trivial)

namespace Stage

/-- The net is reached by a direct proxy. -/
def isDirect (s : Stage) : Bool :=
  match s.proxy with
  | .net (.direct _) _ => true
  | .net (.forwarding _) _ | .lines _ _ _ => false

/-- On a stage, requests leave as a direct proxy prepares them. -/
theorem surroundings_sendsDirectly :
    surroundings.SendsDirectly client fun s => s.isDirect = true := by
  intro s r o direct
  obtain ⟨limit, incoming, proxy⟩ : ∃ limit incoming, s.proxy = .net (.direct limit) incoming := by
    unfold isDirect at direct
    split at direct
    next limit incoming proxy => exact ⟨limit, incoming, proxy⟩
    all_goals cases direct
  simp only [surroundings, ask, isWatched, number, isHeld, failureOf?, serve, overNet, proxy,
    Http.Proxy.prepare]
  cases prepared : Http.prepareDirect client r with
  | error f => simp
  | ok o' => simp [eq_comm]

end Stage

end Rehearsal

/-- A drawing in which the word `true` is posted. -/
def posterApp : App where
  id := "poster"
  name := .str "poster"
  nodes := [{ id := "start", kind := "onAppStart" },
    { id := "send", kind := "httpRequest",
      properties := [("method", .str "POST"), ("url", .str "https://api.example.com/x")] },
    { id := "word", kind := "stringLiteral", properties := [("value", .str "true")] }]
  wires := [.link "start" "exec" "send" "exec", .link "word" "value" "send" "body"]

def posterBoard : Board := posterApp.board

def posterRun : Run posterBoard Rehearsal.Stage.surroundings :=
  .ofStart _ _ { proxy := .net (.direct .null) [] }

/-- The request of the drawing. -/
def posterRequest : Http.Request where
  url := .str "https://api.example.com/x"
  method := .str "POST"
  body := .bool true

theorem posterRequest_isAdmissible : posterRequest.IsAdmissible fun _ => True where
  address := ⟨_, rfl, by decide +kernel, trivial⟩
  headers := ⟨[("User-Agent", .str Http.userAgent)], rfl,
    List.forall_mem_singleton.mpr ⟨by decide +kernel, _, rfl, by decide +kernel⟩⟩

theorem posterRun_composes : ∃ n, posterRun.Composes 16 n .null (.str "true") posterRequest := by
  obtain ⟨n, found, kind, described, unwired, wired⟩ : ∃ n,
      posterBoard.circuit.node? "send" = some n ∧ n.kind = "httpRequest" ∧
      posterBoard.requestOf n .null (.str "true") = .ok posterRequest ∧
      posterBoard.source? n.id "url" = none ∧
      posterBoard.source? n.id "body" = some ⟨"word", "value"⟩ :=
    ⟨_, rfl, rfl, by decide +kernel, rfl, rfl⟩
  have begins : posterRun.BeginsOn 2 10 (.execute "send" (some "exec")) := by decide +kernel
  have fulfils : posterRun.Fulfils 3 12 (.pull "word" "value") 15 (.ok (.str "true")) := by
    decide +kernel
  obtain ⟨s, next, executes⟩ := begins.exists_calls
  obtain ⟨t, goesOn, pulls⟩ := fulfils.1.exists_calls
  obtain ⟨d, returns⟩ := fulfils.exists_returns pulls
  exact ⟨n, kind, described, 10, s, _, _, next, 12, found, executes, .unwired unwired,
    .wired wired pulls returns⟩

/-- The word `true`, which is JSON, arrives as another word, which is none. -/
theorem Run.request_bodies_on_the_wire_posterRun : ∃ k n o,
    posterRun.Requests k n .null (.str "true") posterRequest ∧ posterRun.Sends k o ∧
      o.content = .text "True" ∧ ¬ o.content.Conveys "true" := by
  obtain ⟨-, asks, bodies⟩ := request_bodies_on_the_wire posterRun Rehearsal.client_conforms
    Rehearsal.Stage.surroundings_sendsDirectly
  obtain ⟨n, composes⟩ := posterRun_composes
  have unhindered : posterRun.Unhindered 16 posterRequest := by
    have calm : ((Rehearsal.Stage.surroundings.react (posterRun.state 17).outside
        (.log .info posterRequest.entry)).1.all (·.orders.isEmpty)) = true := by decide +kernel
    intro reaction reacts
    rw [reacts] at calm
    exact List.isEmpty_iff.mp calm
  obtain ⟨k, after, before, requests⟩ := asks 16 n _ _ _ composes unhindered
  have direct : ∀ l < 20, (posterRun.state l).outside.isDirect = true := by decide +kernel
  have content : Http.contentOf "true" = .text "True" := by decide +kernel
  have writable : (Http.contentOf "true").IsWritable := by
    rw [content]
    exact (by decide +kernel : Text.Medium.utf8.Takes "True")
  obtain ⟨leaves, carries⟩ :=
    bodies k n _ "true" _ requests (direct k (by omega)) (by decide) (by decide)
  obtain ⟨o, sends⟩ :=
    leaves.mpr ⟨posterRequest_isAdmissible, writable, fun _ _ _ => rfl⟩
  obtain ⟨same, conveys⟩ := carries o sends
  refine ⟨k, n, o, requests, sends, same.trans content, ?_⟩
  rw [conveys]
  intro sent
  exact absurd (sent (.bool true) rfl) (by decide)

end Wireboard
