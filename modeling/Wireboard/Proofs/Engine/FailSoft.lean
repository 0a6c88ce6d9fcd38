import Wireboard.Proofs.Engine.Operations

/-!
# Nodes that fail softly

The clipboard, the position, the battery, notifications and the store are outside of the app, and
any of them may fail.  A node that asks for one of them goes on all the same: it keeps what it was
told, or a default, and then runs the wires of `exec`.

The failures do not all take one way.  A request may fail, or the permission to make it, or the
text of what was told: the second is caught together with the first, and the third is caught by
nobody.  So `Value.IsCoordinate` and `Value.IsLevel` say which answers have a text, and the
operations are followed one by one (`Course.FailsSoft`).
-/

namespace Wireboard

variable {σ : Type} {b : Board} {env : Surroundings σ}

/-- The texts of the settings and properties that these nodes read can be written. -/
structure Board.Writes (b : Board) (n : Node) : Prop where
  start : b.config.storagePrefix.hasText = true
  key : (n.property "key").hasText = true
  other : b.config.notificationTitle.hasText = true
  title : (n.property "title").hasText = true

theorem Board.Writes.exists_storageKey {n : Node} (writes : b.Writes n) :
    ∃ key, b.config.storageKey (n.property "key") = .ok key := by
  obtain ⟨start, started⟩ := succeeds_toPlain_iff.mpr writes.start
  have text : ((n.property "key").orElse (.str "myKey")).hasText = true := by
    rw [Value.hasText_orElse]
    exact writes.key
  obtain ⟨name, named⟩ := succeeds_toPlain_iff.mpr text
  exact ⟨start ++ name, by rw [Config.storageKey, Config.keyText, started, named]; rfl⟩

theorem Value.isCoordinate_zero : (Value.int 0).IsCoordinate :=
  .inr ⟨0, rfl, by decide +kernel⟩

/-- A node that has a position gives it. -/
theorem Board.report_getLocation {w : View} {n : Node} {pin : String}
    (latitude : (w.scratch n.id).latitude.IsCoordinate)
    (longitude : (w.scratch n.id).longitude.IsCoordinate) :
    b.report w n pin .getLocation = .ok
      (if pin = "lon" then (w.scratch n.id).longitude else (w.scratch n.id).latitude) := by
  have coordinate : (if pin = "lon" then (w.scratch n.id).longitude
      else (w.scratch n.id).latitude).IsCoordinate := by
    split
    · exact longitude
    · exact latitude
  simp only [report]
  rcases coordinate with ⟨x, eq⟩ | ⟨i, eq, -⟩
  · rw [eq]
    rfl
  · rw [eq]
    rfl

/-- What a node keeps of an answer about the battery. -/
def Battery.memos : Except Fault Battery → List Memo
  | .ok found => [.level (found.level.percent.toOption.getD 0), .charging !found.charging.isVacant]
  | .error _ => [.level 0, .charging false]

/-- These deeds are requests, and no pin shows their answers. -/
def Deed.AreSilent (ds : List (Nat × Deed)) : Prop :=
  ∀ e ∈ ds, ∃ r : Request, e.2 = .ask r ∧ ∀ reply pin, r.output? reply pin = none

variable {course : Course b env} {answer : Nat → (r : Request) → Except Fault r.Reply}
  {s : Strand} {next : Continuation} {p k l : Nat} {c : Context} {id node pin : String} {n : Node}
  {ds : List (Nat × Deed)}

namespace Deed

theorem areSilent_nil : AreSilent [] := List.forall_mem_nil _

theorem AreSilent.cons {r : Request} (unseen : ∀ reply pin, r.output? reply pin = none)
    (silent : AreSilent ds) : AreSilent ((k, .ask r) :: ds) :=
  List.forall_mem_cons.mpr ⟨⟨r, rfl, unseen⟩, silent⟩

end Deed

namespace Course

/-- These deeds are requests, and whatever their answers decide is what the pins give then; if there
is something to read it has been asked for, and nothing else; the operations have completed, and the
chain was current. -/
structure Through (course : Course b env) (answer : Nat → (r : Request) → Except Fault r.Reply)
    (s : Strand) (p : Nat) (id : String) (read? : Option Request) (ds : List (Nat × Deed))
    (l : Nat) : Prop where
  asked : ∀ e ∈ ds, ∃ r, e.2 = .ask r ∧
    ∀ pin v, r.output? (answer e.1 r) pin = some v → course.Reads l id pin v
  read : ∀ r, read? = some r → ∃ a, ds = [(a, .ask r)]
  settled : ∃ node memos, course.Settled s p node memos l

/-- Whenever the attempt is begun, it comes through its operations and lets the node go on. -/
def FailsSoft (course : Course b env) (answer : Nat → (r : Request) → Except Fault r.Reply)
    (s : Strand) (next : Continuation) (p : Nat) (id : String) (read? : Option Request)
    (x : Attempt Bool) : Prop :=
  ∀ k, course.Performs Job.NoPart Deed.Matters s next p k s.context x fun ds l d r =>
    (d = s.context ∧ course.Through answer s p id read? ds l) ∧ r = .ok true

variable {memos : List Memo} {read? : Option Request}

theorem FailsSoft.forget {x : Attempt Bool} (fails : course.FailsSoft answer s next p id read? x) :
    course.FailsSoft answer s next p id none x := by
  intro k
  refine performs_mono (fails k) ?_
  rintro ds l d r ⟨⟨same, through⟩, ended⟩
  refine ⟨⟨same, through.asked, ?_, through.settled⟩, ended⟩
  rintro _ ⟨⟩

theorem failsSoft_ofExcept_bind {α : Type} {r : Except Fault α} {a : α}
    {g : α → Attempt Bool} (eq : r = .ok a)
    (second : course.FailsSoft answer s next p id read? (g a)) :
    course.FailsSoft answer s next p id read? (Attempt.ofExcept r >>= g) := by
  rw [eq]
  exact second

theorem failsSoft_resolve_bind {g : Value → Attempt Bool} (supplied : course.Supplied s p)
    (node pin : String)
    (second : ∀ v, v.hasText = true → course.FailsSoft answer s next p id read? (g v)) :
    course.FailsSoft answer s next p id read? (b.resolve node pin >>= g) := by
  intro k
  refine performs_bind (performs_of_goes (supplied.goes_resolve node pin)) ?_ ?_
  · rintro _ l _ v - ⟨rfl, rfl, _, ⟨⟩, text, -⟩
    exact second v text l
  · rintro _ _ _ _ ⟨-, -, _, ⟨⟩, -⟩

theorem Settled.through (settled : course.Settled s p node memos l) (silent : Deed.AreSilent ds) :
    course.Through answer s p id none (ds ++ []) l where
  asked e member := by
    rw [List.append_nil] at member
    obtain ⟨r, eq, unseen⟩ := silent e member
    refine ⟨r, eq, fun pin v told => ?_⟩
    rw [unseen] at told
    cases told
  read _ eq := by cases eq
  settled := ⟨node, memos, settled⟩

/-! ## Requests -/

/-- A node makes a request, finds the chain current when it is answered, and goes on with the
answer. -/
theorem Completes.failsSoft_request (completes : course.Completes answer s p) {r : Request}
    {rest : Except Fault r.Reply → Attempt Bool} (node : String)
    (memos : Except Fault r.Reply → List Memo)
    (settles : ∀ reply, r.Proper reply →
      course.Settles s next p s.context node (rest reply) (memos reply) (· = true))
    (reads : ∀ reply k l pin v, r.Proper reply →
      course.Keeps Job.NoPart s p node (memos reply) k l → r.output? reply pin = some v →
        course.Reads l id pin v) :
    course.FailsSoft answer s next p id (some r) (do
      let outcome ← Attempt.capture (Attempt.wait r)
      if ← Attempt.isStale then return false
      rest outcome) := by
  intro k
  refine performs_bind (completes.performs_capture r) ?_ ?_
  · rintro _ l _ _ - ⟨⟨rfl, rfl, proper, current⟩, ⟨⟩⟩
    refine performs_bind (performs_of_goes (goes_isStale node current)) ?_ ?_
    · rintro _ l' _ _ - ⟨rfl, ⟨rfl, kept⟩, ⟨⟩⟩
      refine performs_mono (performs_of_goes (settles (answer k r) proper l')) ?_
      rintro _ l'' _ _ ⟨rfl, ⟨rfl, kept'⟩, _, rfl, rfl⟩
      have keeps := kept.trans kept'
      refine ⟨⟨rfl, fun e member => ?_, ?_, node, _, l, current, keeps⟩, rfl⟩
      · obtain rfl : e = (k, .ask r) := by simpa using member
        exact ⟨r, rfl, fun pin v => reads _ _ _ pin v proper keeps⟩
      · rintro _ ⟨⟩
        exact ⟨k, rfl⟩
    · rintro _ _ _ _ ⟨-, -, ⟨⟩⟩
  · rintro _ _ _ _ ⟨-, ⟨⟩⟩

/-! ## Acts and entries in the log -/

variable {a : Act}

/-- An operation that is no request takes one move, and the chain is current then. -/
theorem Completes.goes_act (completes : course.Completes answer s p)
    (operation : a.isOperation = true) :
    course.Goes Job.NoPart Deed.Matters s next p k c (Attempt.act a) fun l d r =>
      (d = c ∧ (course.state l).epoch = s.context.epoch) ∧ ∃ reply, r = .ok reply := by
  refine Course.goes_act (fun special => ?_) fun does _ _ =>
    ⟨⟨?_, completes.acted operation does⟩, _, rfl⟩
  · cases a <;> first | exact special | cases operation
  · cases a <;> first | rfl | cases operation

section

variable (orders : course.OrdersEnd Job.NoPart s p) (completes : course.Completes answer s p)
include orders

theorem settles_log_pure (level : Level) (text : String)
    (entry : ¬ (Deed.act (.journal level (.str text))).Matters) :
    course.Settles s next p c node (do b.log level text; return true) [] (· = true) :=
  settles_bind (settles_log orders level text entry) fun _ _ => settles_pure rfl

/-- An entry in the log changes nothing for the operation. -/
theorem Settled.goes_log (settled : course.Settled s p node memos k) (level : Level)
    (text : String) (entry : ¬ (Deed.act (.journal level (.str text))).Matters) :
    course.Goes Job.NoPart Deed.Matters s next p k c (b.log level text) fun l d r =>
      (d = c ∧ course.Settled s p node memos l) ∧ r = .ok () := by
  obtain ⟨m, current, kept⟩ := settled
  have logs : course.Settles s next p c node (b.log level text) [] fun _ => True :=
    settles_log orders level text entry
  refine goes_mono (logs k) ?_
  rintro l d _ - ⟨⟨same, kept'⟩, _, rfl, -⟩
  exact ⟨⟨same, m, current, List.append_nil memos ▸ kept.trans kept'⟩, rfl⟩

/-- After silent requests an entry is written into the log, and the node goes on. -/
theorem Settled.performs_log (settled : course.Settled s p node memos k)
    (silent : Deed.AreSilent ds) (level : Level) (text : String)
    (entry : ¬ (Deed.act (.journal level (.str text))).Matters) :
    course.Performs Job.NoPart Deed.Matters s next p k s.context (do
        b.log level text
        return true) fun ds' l d r =>
      (d = s.context ∧ course.Through answer s p id none (ds ++ ds') l) ∧ r = .ok true := by
  refine performs_bind (performs_of_goes (settled.goes_log orders level text entry)) ?_ ?_
  · rintro _ l _ _ - ⟨rfl, ⟨rfl, settled'⟩, -⟩
    exact performs_pure ⟨⟨rfl, settled'.through silent⟩, rfl⟩
  · rintro _ _ _ _ ⟨-, -, ⟨⟩⟩

/-! ## The hardware -/

include completes

section Hardware

variable (found : b.circuit.node? id = some n)
include found

/-- The clipboard is read, or an empty text is kept. -/
theorem failsSoft_runGetClipboard (named : NodeKind.ofName? n.kind = some .getClipboard) :
    course.FailsSoft answer s next p id (some .readClipboard) (b.runGetClipboard n) := by
  refine completes.failsSoft_request (r := .readClipboard) n.id
    (fun reply => [.result (reply.toOption.getD (.str ""))]) (fun reply proper => ?_)
    fun reply k l pin v proper keeps told => ?_
  · cases reply
    all_goals
      refine settles_bind (settles_remember _) fun _ _ => ?_
      exact settles_log_pure orders _ _ not_false
  · refine keeps.reads found named rfl rfl fun w before kept => ?_
    cases reply with
    | ok text =>
      obtain ⟨text, rfl⟩ := proper
      cases told
      simp only [Board.report, kept]
      show Except.ok ((Value.str text).orElse (.str "")) = .ok (.str text)
      rw [Value.orElse_eq]
      simp [Value.isVacant]
    | error f =>
      cases told
      simp only [Board.report, kept]
      rfl

/-- The position is kept, or zeroes are. -/
theorem failsSoft_runGetLocation (named : NodeKind.ofName? n.kind = some .getLocation) :
    course.FailsSoft answer s next p id (some (.position b.config.geolocationTimeout))
      (b.runGetLocation n) := by
  refine completes.failsSoft_request (r := .position b.config.geolocationTimeout) n.id
    (fun reply =>
      let found : Position := reply.toOption.getD ⟨.int 0, .int 0⟩
      [.latitude found.latitude, .longitude found.longitude]) (fun reply proper => ?_)
    fun reply k l pin v proper keeps told => ?_
  · cases reply with
    | ok found =>
      obtain ⟨latitude, longitude⟩ := proper
      obtain ⟨north, latitude⟩ := latitude.exists_fixed
      obtain ⟨east, longitude⟩ := longitude.exists_fixed
      refine settles_bind (settles_remember _) fun _ _ => ?_
      refine settles_bind (settles_remember _) fun _ _ => ?_
      refine settles_bind (settles_ofExcept (P := fun _ => True) latitude trivial) fun _ _ => ?_
      refine settles_bind (settles_ofExcept (P := fun _ => True) longitude trivial) fun _ _ => ?_
      exact settles_log_pure orders .info _ not_false
    | error f =>
      refine settles_bind (settles_remember _) fun _ _ => ?_
      refine settles_bind (settles_remember _) fun _ _ => ?_
      exact settles_log_pure orders .warning _ not_false
  · refine keeps.reads found named rfl rfl fun w before kept => ?_
    cases reply with
    | ok found =>
      cases told
      rw [Board.report_getLocation (kept ▸ proper.1) (kept ▸ proper.2), kept]
      rfl
    | error f =>
      cases told
      rw [Board.report_getLocation (kept ▸ Value.isCoordinate_zero)
        (kept ▸ Value.isCoordinate_zero), kept]
      exact congrArg Except.ok (ite_self _)

/-- The level is kept in percent and whether the battery is charging, or zero and that it is not. -/
theorem failsSoft_runGetBattery (named : NodeKind.ofName? n.kind = some .getBattery) :
    course.FailsSoft answer s next p id (some .battery) (b.runGetBattery n) := by
  refine completes.failsSoft_request (r := .battery) n.id Battery.memos (fun reply proper => ?_)
    fun reply k l pin v proper keeps told => ?_
  · cases reply with
    | ok found =>
      obtain ⟨percent, level, text⟩ := proper.1.exists_percent
      have written : (Value.int percent).toPlain = .ok (Value.int percent).plain := by
        simp [Value.toPlain, Value.hasText, text]
      simp only [Battery.memos, level]
      -- the percentage is worked out outside of all handlers: a level that is too high fails here
      refine settles_bind (settles_ofExcept (P := (· = percent)) rfl rfl) ?_
      rintro _ rfl
      refine settles_bind (settles_remember _) fun _ _ => ?_
      refine settles_bind (settles_remember _) fun _ _ => ?_
      refine settles_bind (settles_ofExcept (P := fun _ => True) written trivial) fun _ _ => ?_
      exact settles_log_pure orders .info _ not_false
    | error f =>
      refine settles_bind (settles_remember _) fun _ _ => ?_
      refine settles_bind (settles_remember _) fun _ _ => ?_
      exact settles_log_pure orders .warning _ not_false
  · refine keeps.reads found named rfl rfl fun w before kept => ?_
    cases reply with
    | ok found =>
      obtain ⟨percent, level, -⟩ := proper.1.exists_percent
      obtain ⟨charging, eq⟩ := proper.2
      rw [Board.report, kept]
      by_cases asked : pin = "charging"
      · simp only [Battery.memos, Request.output?, asked, if_true, eq] at told ⊢
        cases told
        cases charging <;> rfl
      · simp only [Battery.memos, Request.output?, asked, if_false, level] at told ⊢
        cases told
        rfl
    | error f =>
      cases told
      rw [Board.report, kept]
      by_cases asked : pin = "charging"
      · simp only [asked, if_true]
        rfl
      · simp only [asked, if_false]
        rfl

end Hardware

/-- A text is copied to the clipboard, or not. -/
theorem failsSoft_runSetClipboard (supplied : course.Supplied s p) :
    course.FailsSoft answer s next p id none (b.runSetClipboard n) := by
  refine failsSoft_resolve_bind supplied _ _ fun v text => ?_
  have written : v.toText = .ok v.rawText := by simp [Value.toText, text]
  rw [written]
  refine FailsSoft.forget (completes.failsSoft_request (r := .writeClipboard v.rawText) n.id
    (fun _ => []) (fun reply _ => ?_) fun reply k l pin v _ _ told => ?_)
  · cases reply <;> exact settles_log_pure orders _ _ not_false
  · cases told

/-! ## The store -/

/-- Whether the store does what it is told or not, it is written into the log. -/
theorem Completes.goes_store (operation : a.isOperation = true)
    (outcome : a.Reply → Except Fault Unit) (node done : String) {start : String}
    (other : start.toList.head?.any (· != 'E') = true) :
    course.Goes Job.NoPart Deed.Matters s next p k s.context
      (tryCatch (do
        Attempt.ofExcept (outcome (← Attempt.act a))
        b.log .info done) fun f => b.log .error (start ++ f.message)) fun l d r =>
      (d = s.context ∧ course.Settled s p node [] l) ∧ r = .ok () := by
  refine goes_tryCatch (P := fun l d _ => d = s.context ∧ course.Settled s p node [] l) ?_ ?_ ?_
  · refine goes_bind (completes.goes_act operation) ?_ ?_
    · rintro l _ reply - ⟨⟨rfl, current⟩, -⟩
      have settled : course.Settled s p node [] l := ⟨l, current, .refl l⟩
      refine goes_bind (goes_ofExcept (Q := fun l' d _ => l' = l ∧ d = s.context) ⟨rfl, rfl⟩) ?_ ?_
      · rintro _ _ _ - ⟨rfl, rfl⟩
        refine goes_mono (settled.goes_log orders .info done not_false) ?_
        exact fun _ _ _ _ held => held.1
      · rintro _ _ _ ⟨rfl, rfl⟩
        exact ⟨rfl, settled⟩
    · rintro _ _ _ ⟨-, _, ⟨⟩⟩
  · rintro l d _ held
    exact ⟨held, rfl⟩
  · rintro l _ f - ⟨rfl, settled⟩
    exact settled.goes_log orders .error _ (Deed.not_matters_journal other)

theorem Completes.failsSoft_store (operation : a.isOperation = true)
    (outcome : a.Reply → Except Fault Unit) (node done : String) {start : String}
    (other : start.toList.head?.any (· != 'E') = true) :
    course.FailsSoft answer s next p id none (do
      try
        Attempt.ofExcept (outcome (← Attempt.act a))
        b.log .info done
      catch f => b.log .error (start ++ f.message)
      return true) := by
  intro k
  refine performs_bind (performs_of_goes (completes.goes_store orders operation outcome node done
    other)) ?_ ?_
  · rintro _ l _ _ - ⟨rfl, ⟨rfl, settled⟩, -⟩
    exact performs_pure ⟨⟨rfl, settled.through Deed.areSilent_nil⟩, rfl⟩
  · rintro _ _ _ _ ⟨-, -, ⟨⟩⟩

/-- A value is stored, or not. -/
theorem failsSoft_runSave (writes : b.Writes n) (supplied : course.Supplied s p) :
    course.FailsSoft answer s next p id none (b.runSave n) := by
  obtain ⟨key, keyed⟩ := writes.exists_storageKey
  refine failsSoft_resolve_bind supplied _ _ fun v text => ?_
  refine failsSoft_ofExcept_bind keyed ?_
  have written : v.toJson = .ok (Json.line v) := by simp [Value.toJson, text]
  rw [written]
  -- the text of the value is made inside of the handler, but there it cannot fail
  exact completes.failsSoft_store orders (a := .save key (Json.line v)) rfl (fun r => r) n.id _
    (by decide +kernel)

/-- A stored value is deleted, or not. -/
theorem failsSoft_runDelete (writes : b.Writes n) :
    course.FailsSoft answer s next p id none (b.runDelete n) := by
  obtain ⟨key, keyed⟩ := writes.exists_storageKey
  refine failsSoft_ofExcept_bind keyed ?_
  exact completes.failsSoft_store orders (a := .remove key) rfl (fun r => r) n.id _
    (by decide +kernel)

/-! ## Notifications -/

/-- How an attempt to notify the user may end, if the chain is current: not because it is stale. -/
def Notifies (course : Course b env) (s : Strand) (p : Nat) (node : String) (l : Nat) :
    Except Fault Board.Notified → Prop
  | .ok .stale => False
  | .ok .forbidden => course.Settled s p node [] l
  | .ok .sent | .error _ => (course.state l).epoch = s.context.epoch

/-- With permission the user is notified, and without it this is written into the log. -/
theorem Completes.performs_deliver (node title body : String) (permission : Value)
    (current : (course.state k).epoch = s.context.epoch) :
    course.Performs Job.NoPart Deed.Matters s next p k s.context (do
        if ← Attempt.isStale then return .stale
        if permission != Permission.granted then
          b.log .warning s!"Notification not permitted: {title}"
          return .forbidden
        Attempt.wait (.notify title body)
        return Board.Notified.sent) fun ds l d r =>
      d = s.context ∧ Deed.AreSilent ds ∧ course.Notifies s p node l r := by
  refine performs_bind (performs_of_goes (goes_isStale node current)) ?_ ?_
  · rintro _ l _ _ - ⟨rfl, ⟨rfl, kept⟩, ⟨⟩⟩
    simp only [Bool.false_eq_true, if_false]
    split
    · have settled : course.Settled s p node [] l := ⟨k, current, kept⟩
      refine performs_bind (performs_of_goes (settled.goes_log orders .warning _ not_false)) ?_ ?_
      · rintro _ l' _ _ - ⟨rfl, ⟨rfl, settled'⟩, -⟩
        exact performs_pure ⟨rfl, Deed.areSilent_nil, settled'⟩
      · rintro _ _ _ _ ⟨-, -, ⟨⟩⟩
    · have silent : Deed.AreSilent [(l, .ask (.notify title body))] :=
        Deed.areSilent_nil.cons fun _ _ => rfl
      refine performs_bind (completes.performs_wait (.notify title body)) ?_ ?_
      · rintro _ l' _ _ - ⟨⟨rfl, rfl, -, current'⟩, -⟩
        exact performs_pure ⟨rfl, silent, current'⟩
      · rintro _ l' _ e ⟨⟨rfl, rfl, -, current'⟩, -⟩
        exact ⟨rfl, silent, current'⟩
  · rintro _ _ _ _ ⟨-, -, ⟨⟩⟩

/-- Whether the user is notified, or permission denied, or any of it fails: the chain is still
current. -/
theorem Completes.performs_notifyUser (node title body : String) :
    course.Performs Job.NoPart Deed.Matters s next p k s.context (b.notifyUser title body)
      fun ds l d r => d = s.context ∧ Deed.AreSilent ds ∧ course.Notifies s p node l r := by
  refine performs_bind (performs_of_goes (completes.goes_act (a := .permission) rfl)) ?_ ?_
  · rintro _ l _ held? - ⟨rfl, ⟨rfl, current⟩, -⟩
    refine performs_bind (performs_ofExcept
      (Q := fun ds l' d _ => ds = [] ∧ l' = l ∧ d = s.context) ⟨rfl, rfl, rfl⟩) ?_ ?_
    · rintro _ _ _ held - ⟨rfl, rfl, rfl⟩
      dsimp only
      split
      · exact completes.performs_deliver orders node title body held current
      · refine performs_bind (completes.performs_wait .permission) ?_ ?_
        · rintro _ l' _ permission - ⟨⟨rfl, rfl, -, current'⟩, -⟩
          refine performs_mono (completes.performs_deliver orders node title body permission
            current') ?_
          rintro ds l'' d r ⟨same, silent, ended⟩
          exact ⟨same, silent.cons fun _ _ => rfl, ended⟩
        · rintro _ l' _ f ⟨⟨rfl, rfl, -, current'⟩, -⟩
          exact ⟨rfl, Deed.areSilent_nil.cons fun _ _ => rfl, current'⟩
    · rintro _ _ _ _ ⟨rfl, rfl, rfl⟩
      exact ⟨rfl, Deed.areSilent_nil, current⟩
  · rintro _ _ _ _ ⟨-, -, _, ⟨⟩⟩

/-- The user is notified, or not. -/
theorem failsSoft_runNotification (writes : b.Writes n) (supplied : course.Supplied s p) :
    course.FailsSoft answer s next p id none (b.runNotification n) := by
  refine failsSoft_resolve_bind supplied _ _ fun v text => ?_
  refine failsSoft_ofExcept_bind (a := v.rawText) (by simp [Value.toText, text]) ?_
  obtain ⟨title, titled⟩ := succeeds_toPlain_iff.mpr
    (Node.hasText_propertyOr writes.title writes.other)
  refine failsSoft_ofExcept_bind titled ?_
  intro k
  have notifies : course.Performs Job.NoPart Deed.Matters s next p k s.context
      (Attempt.capture (b.notifyUser title v.rawText)) fun ds l d r => ∃ ended, r = .ok ended ∧
        d = s.context ∧ Deed.AreSilent ds ∧ course.Notifies s p n.id l ended :=
    performs_capture (completes.performs_notifyUser orders n.id title v.rawText)
      fun _ _ _ ended held => ⟨ended, rfl, held⟩
  refine performs_bind notifies ?_ ?_
  -- a failure of any of the calls arrives here; after a notification that was sent nobody looks
  -- whether the chain is stale
  · rintro ds l _ ended - ⟨_, ⟨⟩, rfl, silent, notified⟩
    rcases ended with f | (_ | _ | _)
    · refine performs_bind (performs_of_goes (goes_isStale n.id notified)) ?_ ?_
      · rintro _ l' _ _ - ⟨rfl, ⟨rfl, kept⟩, ⟨⟩⟩
        have settled : course.Settled s p n.id [] l' := ⟨l, notified, kept⟩
        exact settled.performs_log orders silent .warning _ not_false
      · rintro _ _ _ _ ⟨-, -, ⟨⟩⟩
    · have settled : course.Settled s p n.id [] l := ⟨l, notified, .refl l⟩
      exact settled.performs_log orders silent .info _ not_false
    · exact performs_pure ⟨⟨rfl, Settled.through notified silent⟩, rfl⟩
    · exact False.elim notified
  · rintro _ _ _ _ ⟨_, ⟨⟩, -⟩

end

/-! ## The nodes -/

end Course

/-- The kinds of the nodes for the hardware and for the store. -/
def NodeKind.failingSoftly : List NodeKind :=
  [.getClipboard, .setClipboard, .getLocation, .getBattery, .sendNotification, .saveData,
    .deleteData]

/-- The request of a node that reads something. -/
def Board.read? (b : Board) : NodeKind → Option Request
  | .getClipboard => some .readClipboard
  | .getLocation => some (.position b.config.geolocationTimeout)
  | .getBattery => some .battery
  | _ => none

namespace Course

variable {kind : NodeKind}

/-- What such a node does before it goes on. -/
theorem exists_failsSoft (next : Continuation)
    (named : NodeKind.ofName? n.kind = some kind) (soft : kind ∈ NodeKind.failingSoftly)
    (found : b.circuit.node? id = some n) (writes : b.Writes n) (supplied : course.Supplied s p)
    (orders : course.OrdersEnd Job.NoPart s p) (completes : course.Completes answer s p) :
    ∃ run, b.run? n kind = some run ∧
      course.FailsSoft answer s next p id (b.read? kind) run := by
  simp only [NodeKind.failingSoftly, List.mem_cons, List.not_mem_nil, or_false] at soft
  rcases soft with rfl | rfl | rfl | rfl | rfl | rfl | rfl
  · exact ⟨_, rfl, failsSoft_runGetClipboard orders completes found named⟩
  · exact ⟨_, rfl, failsSoft_runSetClipboard orders completes supplied⟩
  · exact ⟨_, rfl, failsSoft_runGetLocation orders completes found named⟩
  · exact ⟨_, rfl, failsSoft_runGetBattery orders completes found named⟩
  · exact ⟨_, rfl, failsSoft_runNotification orders completes writes supplied⟩
  · exact ⟨_, rfl, failsSoft_runSave orders completes writes supplied⟩
  · exact ⟨_, rfl, failsSoft_runDelete orders completes writes⟩

end Course

/-- The battery is asked for. -/
def cellApp : App where
  id := "cell"
  name := .str "cell"
  nodes := [{ id := "start", kind := "onAppStart" }, { id := "cell", kind := "getBattery" }]
  wires := [.link "start" "exec" "cell" "exec"]

def cellBoard : Board := cellApp.board

/-- The battery is full, and nothing else is there. -/
def cellReply : (r : Request) → Except Fault r.Reply
  | .battery => .ok { level := .int 1, charging := .bool true }
  | _ => .error .timedOut

def cellRun : Run cellBoard (.prompt cellReply) := .ofStart _ _ ()

end Wireboard
