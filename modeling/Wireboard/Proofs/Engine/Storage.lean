import Wireboard.Proofs.Engine.CallResults
import Wireboard.Proofs.Engine.Pulls
import Wireboard.Proofs.Engine.ReadOnly
import Wireboard.Proofs.Json.Survival
import Wireboard.Rehearsal.Stage

/-!
# Stored data is a map

Nodes store values under keys, load them and delete them.  A value is stored as its JSON text, and a
key is a property of the node of which only the text counts.  Still it is as if the values
themselves were in a map.  What a node loads is the value that was stored last under a key with the
same text, if it was not deleted since, and null if there is none; whichever nodes and chains have
stored and deleted meanwhile.

* Nothing but storing and deleting changes the store, so that along a run it has under every key the
  text of what was stored last (`Run.Kept`, `Run.exists_kept`).  Whoever stores a value has it from
  the pin of a node that stores data (`Run.Saves`), and whoever deletes is a node for that
  (`Run.Deletes`).
* In turn, a node that is executed does store or delete (`Run.saves_of_execute`,
  `Run.deletes_of_execute`).
* To load is to look at the store once (`Run.running_after_load`).
* The stage of a rehearsal has such a store (`Rehearsal.Stage.surroundings_keeps`).

A value that is loaded has gone through its text, so it has to be one that survives this
(`Value.Survives`).  And as for all pulls there is one condition on keys of another sort: a pull is
known by the id of its node and the name of its pin, and where two pins cannot be told apart, one of
them cannot be pulled while the other one is.
-/

namespace Wireboard

variable {σ : Type} {b : Board} {env : Surroundings σ} {s t : Strand}

/-! ## Keys -/

variable {v : Value}

/-- The key under which data is stored is a text that all keys have in common, followed by the text
of the property. -/
theorem Config.storageKey_eq_ok {config : Config} {start key : String}
    (starts : config.storagePrefix.toPlain = .ok start) :
    config.storageKey v = .ok key ↔ ∃ name, Config.keyText v = .ok name ∧ key = start ++ name := by
  unfold storageKey
  rw [starts]
  cases keyText v with
  | error => simp [bind, Except.bind]
  | ok name => simp [bind, Except.bind, pure, Except.pure, eq_comm]

theorem Config.storageKey_of_keyText {config : Config} {start name : String}
    (starts : config.storagePrefix.toPlain = .ok start) (named : Config.keyText v = .ok name) :
    config.storageKey v = .ok (start ++ name) :=
  (storageKey_eq_ok starts).mpr ⟨name, named, rfl⟩

/-! ## Surroundings with a store -/

/-- What is stored is in a store of texts by key, which works where it is said to, and nothing
changes it but saving and deleting. -/
structure Surroundings.Keeps (env : Surroundings σ) (store? : σ → Option Store.KeyValue) : Prop
    extends env.StoresThroughout store? where
  load : ∀ {s store} key, store? s = some store → env.load s key = store.get (.str key)
  save : ∀ {s store store'} key text, store? s = some store →
    store.set (.str key) (.str text) = .ok store' → store? (env.save s key text).2 = some store'
  remove : ∀ {s store store'} key, store? s = some store →
    store.delete (.str key) = .ok store' → store? (env.remove s key).2 = some store'

/-- What can be told from what is stored is changed by saving and deleting alone. -/
theorem Surroundings.StoresThroughout.map {τ υ : Type} {contents : σ → τ}
    (stores : env.StoresThroughout contents) (f : τ → υ) :
    env.StoresThroughout fun s => f (contents s) where
  react s c := congrArg f (stores.react s c)
  random s := congrArg f (stores.random s)
  ask s r := congrArg f (stores.ask s r)
  resume s r ticket := congrArg f (stores.resume s r ticket)

/-- The key under which an act stores or deletes. -/
def Act.storageKey? : Act → Option String
  | .save key _ | .remove key => some key
  | _ => none

/-- What a move does to the store. -/
theorem Machine.Moves.store_cases {τ : Type} {contents : σ → τ} {m m' : Machine σ}
    {impulse? : Option Impulse} (stores : env.StoresThroughout contents)
    (move : m.Moves b env impulse? m') :
    (∃ s key text, m.running? = some s ∧ s.act? = some (.save key text) ∧
      m'.outside = (env.save m.outside key text).2) ∨
    (∃ s key, m.running? = some s ∧ s.act? = some (.remove key) ∧
      m'.outside = (env.remove m.outside key).2) ∨
    (m.act?.bind Act.storageKey? = none ∧ contents m'.outside = contents m.outside) := by
  cases acts : m.act? with
  | none => exact .inr (.inr ⟨rfl, move.store_eq stores (by simp [acts]) (by simp [acts])⟩)
  | some a =>
    obtain ⟨s, running, does⟩ := Option.bind_eq_some_iff.mp acts
    obtain ⟨next, code⟩ := Strand.code_of_act? does
    have eq : m' = m.acted b env s a next := by
      rw [move.eq_stepStrand running, stepStrand, code]
      rfl
    cases a with
    | save key text => exact .inl ⟨s, key, text, running, does, by rw [eq]; rfl⟩
    | remove key => exact .inr (.inl ⟨s, key, running, does, by rw [eq]; rfl⟩)
    | _ => exact .inr (.inr ⟨rfl, move.store_eq stores (by simp [acts]) (by simp [acts])⟩)

/-! ## Nodes for stored data -/

section

variable {id key : String} {n : Node} (found : b.circuit.node? id = some n)
  (keyed : b.config.storageKey (n.property "key") = .ok key)
include found keyed

/-- To load is to open the pull, to look at the store and, if what is there can be read, to close
the pull. -/
theorem Board.body_pull_stored (pin : String) (kind : n.kind = "loadData") :
    ∃ entered after,
      (b.body (.pull id pin)).run = .act (.enter (Context.pullKey n.id pin)) entered ∧
      entered true = .act (.load key) after ∧ ∀ v w, Board.readStored v = .ok w →
        after (.ok v) = .act (.leave (Context.pullKey n.id pin)) fun _ => .ret (.ok w) := by
  have named : NodeKind.ofName? n.kind = some .loadData := by
    rw [kind]
    decide
  simp only [Board.body, Board.pull, found, named, Board.evaluate, Board.pullStored, keyed]
  refine ⟨_, _, rfl, rfl, fun v w reads => ?_⟩
  dsimp only [Attempt.ofExcept, Script.bind, Function.comp, ExceptT.bindCont, bind, ExceptT.bind,
    ExceptT.mk]
  rw [reads]
  rfl

/-- A node that stores data asks its pin for a value, if there is anything to ask, and stores it. -/
theorem Board.body_execute_save (pin? : Option String) (kind : n.kind = "saveData") :
    ∃ notice begins, (b.body (.execute id pin?)).run = .act (.notice notice) (fun _ => begins) ∧
      (b.source? n.id "value" = none →
        ∃ text after, Value.null.toJson = .ok text ∧ begins = .act (.save key text) after) ∧
      ∀ ref, b.source? n.id "value" = some ref →
        ∃ goesOn : Continuation, begins = .call (.pull ref.node ref.pin) goesOn ∧
          ∀ v text, v.toJson = .ok text →
            ∃ after, goesOn (.ok v) = .act (.save key text) after := by
  have named : NodeKind.ofName? n.kind = some .saveData := by
    rw [kind]
    decide
  simp only [Board.body, Board.execute, found, named, Board.perform, Board.run?, Board.runSave,
    Board.resolve_eq, keyed]
  cases source : b.source? n.id "value" with
  | none =>
    refine ⟨_, _, rfl, fun _ => ⟨_, _, rfl, rfl⟩, ?_⟩
    rintro _ ⟨⟩
  | some ref =>
    refine ⟨_, _, rfl, by rintro ⟨⟩, ?_⟩
    rintro _ ⟨⟩
    refine ⟨_, rfl, fun v text written => ?_⟩
    dsimp only [Attempt.ofExcept, Script.bind, Function.comp, ExceptT.bindCont, bind, ExceptT.bind,
      ExceptT.mk]
    rw [written]
    exact ⟨_, rfl⟩

theorem Board.body_execute_delete (pin? : Option String) (kind : n.kind = "deleteData") :
    ∃ notice after, (b.body (.execute id pin?)).run
      = .act (.notice notice) fun _ => .act (.remove key) after := by
  have named : NodeKind.ofName? n.kind = some .deleteData := by
    rw [kind]
    decide
  simp only [Board.body, Board.execute, found, named, Board.perform, Board.run?, Board.runDelete,
    keyed]
  exact ⟨_, _, rfl⟩

end

/-! ## Storing and deleting in a run -/

namespace Run

variable (run : Run b env)

/-- At that time a value is stored under a key with this text: the pin of a node that stores data
has given the value, and its text is about to be written. -/
def Saves (k : Nat) (name : String) (v : Value) : Prop :=
  ∃ t n key text record, (run.state k).running? = some t ∧ t.act? = some (.save key text) ∧
    v.toJson = .ok text ∧ b.Saving n key v record ∧ Config.keyText (n.property "key") = .ok name ∧
    run.Records t.id t.stack.length record k

/-- At that time what is under a key with this text is deleted by a node for that. -/
def Deletes (k : Nat) (name : String) : Prop :=
  ∃ t n key, (run.state k).running? = some t ∧ t.act? = some (.remove key) ∧ b.Deleting n key ∧
    Config.keyText (n.property "key") = .ok name

/-- At that time something happens to what is under a key with this text. -/
def Alters (k : Nat) (name : String) : Prop := (∃ v, run.Saves k name v) ∨ run.Deletes k name

/-- Before that time, the value is the last one that was stored under a key with this text, and it
was not deleted since. -/
structure LastSave (j : Nat) (name : String) (k : Nat) (v : Value) : Prop where
  before : k < j
  saves : run.Saves k name v
  last : ∀ l, k < l → l < j → ¬ run.Alters l name

/-- Before that time, whatever was stored under a key with this text was deleted afterwards. -/
def Cleared (j : Nat) (name : String) : Prop :=
  ∀ k v, k < j → run.Saves k name v → ∃ l, k < l ∧ l < j ∧ run.Deletes l name

/-- What is to be found under a key with this text at that time: the value that was stored last, as
it is written, or null if there is none. -/
def Stored (j : Nat) (name : String) (v : Value) : Prop :=
  (∃ k w, run.LastSave j name k w ∧ v = w.asWritten) ∨ run.Cleared j name ∧ v = .null

/-- What a store should have under a key with this text at that time. -/
def Kept (j : Nat) (name : String) (found? : Option Value) : Prop :=
  (∃ k w text, run.LastSave j name k w ∧ w.toJson = .ok text ∧ found? = some (.str text)) ∨
    run.Cleared j name ∧ found? = none

variable {run} {j k : Nat} {name start : String} {found? : Option Value}

/-! ### One move -/

theorem Kept.later (kept : run.Kept j name found?) (spared : ¬ run.Alters j name) :
    run.Kept (j + 1) name found? := by
  rcases kept with ⟨k, w, text, ⟨before, saves, last⟩, written, rfl⟩ | ⟨cleared, rfl⟩
  · refine .inl ⟨k, w, text, ⟨Nat.lt_succ_of_lt before, saves, ?_⟩, written, rfl⟩
    intro l after le
    rcases Nat.lt_succ_iff_lt_or_eq.mp le with earlier | rfl
    · exact last l after earlier
    · exact spared
  · refine .inr ⟨?_, rfl⟩
    intro k v le saves
    rcases Nat.lt_succ_iff_lt_or_eq.mp le with earlier | rfl
    · obtain ⟨l, after, lt, deletes⟩ := cleared k v earlier saves
      exact ⟨l, after, Nat.lt_succ_of_lt lt, deletes⟩
    · exact absurd (.inl ⟨v, saves⟩) spared

theorem kept_of_saves {text : String} (saves : run.Saves j name v) (written : v.toJson = .ok text) :
    run.Kept (j + 1) name (some (.str text)) := by
  refine .inl ⟨j, v, text, ⟨Nat.lt_succ_self j, saves, ?_⟩, written, rfl⟩
  intro l after le
  omega

/-- Nobody stores and deletes at once. -/
theorem Deletes.not_saves (deletes : run.Deletes j name) (v : Value) : ¬ run.Saves j name v := by
  rintro ⟨t, _, _, _, _, running, saves, -⟩
  obtain ⟨t', _, _, running', removes, -⟩ := deletes
  cases running.symm.trans running'
  cases saves.symm.trans removes

theorem kept_of_deletes (deletes : run.Deletes j name) : run.Kept (j + 1) name none := by
  refine .inr ⟨?_, rfl⟩
  intro k v le saves
  rcases Nat.lt_succ_iff_lt_or_eq.mp le with earlier | rfl
  · exact ⟨j, earlier, Nat.lt_succ_self j, deletes⟩
  · exact absurd saves (deletes.not_saves v)

section

variable (starts : b.config.storagePrefix.toPlain = .ok start)
include starts

/-- What happens to a key with this text is an act on the key. -/
theorem Alters.storageKey?_eq (alters : run.Alters j name) :
    (run.state j).act?.bind Act.storageKey? = some (start ++ name) := by
  rcases alters with ⟨v, t, n, key, text, record, running, acts, -, saving, named, -⟩ |
    ⟨t, n, key, running, acts, deleting, named⟩
  · obtain ⟨name', named', rfl⟩ := (Config.storageKey_eq_ok starts).mp saving.keyed
    cases named.symm.trans named'
    simp [Machine.act?, running, acts, Act.storageKey?]
  · obtain ⟨name', named', rfl⟩ := (Config.storageKey_eq_ok starts).mp deleting.keyed
    cases named.symm.trans named'
    simp [Machine.act?, running, acts, Act.storageKey?]

/-- What is written into the store comes from the pin of a node that stores data. -/
theorem exists_saves (running : (run.state j).running? = some t) {key text : String}
    (acts : t.act? = some (.save key text)) :
    ∃ name v, key = start ++ name ∧ v.toJson = .ok text ∧ run.Saves j name v := by
  obtain ⟨β, booked⟩ := exists_booked running
  obtain ⟨n, v, saving, written⟩ := booked.follows.allows acts
  obtain ⟨name, named, rfl⟩ := (Config.storageKey_eq_ok starts).mp saving.keyed
  have records := booked.books.top
  rw [← booked.height_eq] at records
  exact ⟨name, v, rfl, written, t, n, _, text, _, running, acts, written, saving, named, records⟩

theorem exists_deletes (running : (run.state j).running? = some t) {key : String}
    (acts : t.act? = some (.remove key)) : ∃ name, key = start ++ name ∧ run.Deletes j name := by
  obtain ⟨β, booked⟩ := exists_booked running
  obtain ⟨n, deleting⟩ := booked.follows.allows acts
  obtain ⟨name, named, rfl⟩ := (Config.storageKey_eq_ok starts).mp deleting.keyed
  exact ⟨name, rfl, t, n, _, running, acts, deleting, named⟩

end

/-- What the store should have reads back as what was stored. -/
theorem Kept.exists_stored (kept : run.Kept j name found?)
    (survive : ∀ k v, k < j → run.Saves k name v → v.Survives) :
    ∃ v, Board.readStored (found?.getD .null) = .ok v ∧ run.Stored j name v := by
  rcases kept with ⟨k, w, text, last, written, rfl⟩ | ⟨cleared, rfl⟩
  · obtain ⟨text', written', long, back⟩ := (survive k w last.before last.saves).exists_text
    cases written.symm.trans written'
    refine ⟨w.asWritten, ?_, .inl ⟨k, w, last, rfl⟩⟩
    have said : (Value.str text).isVacant = false := by simpa [Value.isVacant] using long
    simpa [Board.readStored, said] using back
  · exact ⟨.null, rfl, .inr ⟨cleared, rfl⟩⟩

section

variable (filed : b.Filed) {store? : σ → Option Store.KeyValue} (keeps : env.Keeps store?)
  (empty : store? (run.state 0).outside = some (.memory []))
  (starts : b.config.storagePrefix.toPlain = .ok start)
include keeps starts

/-- After one move the store still has under every key what it should have. -/
theorem kept_succ {d : Dictionary} (here : store? (run.state j).outside = some (.memory d))
    (kept : ∀ name, run.Kept j name (d.get? (.text (start ++ name)))) :
    ∃ d', store? (run.state (j + 1)).outside = some (.memory d') ∧
      ∀ name, run.Kept (j + 1) name (d'.get? (.text (start ++ name))) := by
  -- what is under a key stays there unless somebody acts on this key
  have spared {name : String}
      (other : (run.state j).act?.bind Act.storageKey? ≠ some (start ++ name)) :
      run.Kept (j + 1) name (d.get? (.text (start ++ name))) :=
    (kept name).later fun alters => other (alters.storageKey?_eq starts)
  rcases (run.move j).store_cases keeps.toStoresThroughout with
    ⟨t, key, text, running, acts, eq⟩ | ⟨t, key, running, acts, eq⟩ | ⟨none, same⟩
  · obtain ⟨name, v, rfl, written, saves⟩ := exists_saves starts running acts
    have saved := keeps.save (start ++ name) text here rfl
    rw [← eq] at saved
    refine ⟨d.put (.str (start ++ name)) (.str text), saved, fun name' => ?_⟩
    rw [Dictionary.get?_put]
    by_cases same : name = name'
    · rw [if_pos (by rw [same]; rfl), ← same]
      exact kept_of_saves saves written
    · rw [if_neg (by simpa [Value.key?] using same)]
      exact spared (by simpa [Machine.act?, running, acts, Act.storageKey?] using same)
  · obtain ⟨name, rfl, deletes⟩ := exists_deletes starts running acts
    have removed := keeps.remove (start ++ name) here rfl
    rw [← eq] at removed
    refine ⟨d.erase (.text (start ++ name)), removed, fun name' => ?_⟩
    rw [Dictionary.get?_erase]
    by_cases same : name = name'
    · rw [if_pos (by rw [same]), ← same]
      exact kept_of_deletes deletes
    · rw [if_neg (by simpa using same)]
      exact spared (by simpa [Machine.act?, running, acts, Act.storageKey?] using same)
  · refine ⟨d, same.trans here, fun name => spared ?_⟩
    rw [none]
    simp

include empty

/-- Along a run, the store has under every key the text of the value that was stored last. -/
theorem exists_kept (j : Nat) :
    ∃ d, store? (run.state j).outside = some (.memory d) ∧
      ∀ name, run.Kept j name (d.get? (.text (start ++ name))) := by
  induction j with
  | zero => exact ⟨[], empty, fun _ => .inr ⟨fun k _ before => by omega, rfl⟩⟩
  | succ j ih =>
    obtain ⟨d, here, kept⟩ := ih
    exact kept_succ keeps starts here kept

/-! ## Loading -/

/-- What is loaded at any time, under a key with this text. -/
theorem exists_loaded (survive : ∀ k v, k < j → run.Saves k name v → v.Survives) :
    ∃ x v, env.load (run.state j).outside (start ++ name) = .ok x ∧
      Board.readStored x = .ok v ∧ run.Stored j name v := by
  obtain ⟨d, here, kept⟩ := run.exists_kept keeps empty starts j
  obtain ⟨v, reads, stored⟩ := (kept name).exists_stored survive
  exact ⟨_, v, keeps.load (start ++ name) here, reads, stored⟩

include filed in
/-- To load takes five moves and gives what is stored. -/
theorem running_after_load {id pin : String} {n : Node}
    (found : b.circuit.node? id = some n) (kind : n.kind = "loadData")
    (named : Config.keyText (n.property "key") = .ok name) (apart : b.KeyedApart n pin)
    (survive : ∀ k v, k < j → run.Saves k name v → v.Survives)
    (running : (run.state j).running? = some s) {next : Continuation}
    (code : s.code = .call (.pull id pin) next) :
    ∃ v, (run.state (j + 5)).running? = some { s with code := next (.ok v) } ∧
      run.Stored j name v := by
  have keyed := Config.storageKey_of_keyText starts named
  obtain ⟨entered, after, body, looks, closes⟩ := Board.body_pull_stored found keyed pin kind
  have unopened : Context.pullKey n.id pin ∉ s.context.opened := by
    refine run.unopened_of_brief filed found apart body looks (fun l before _ => ?_) running code
    obtain ⟨x, v, loads, reads, -⟩ := exists_loaded keeps empty starts fun k v earlier =>
      survive k v (Nat.lt_trans earlier before)
    refine ⟨.ok v, ?_⟩
    simp only [Machine.perform, loads]
    exact closes x v reads
  obtain ⟨x, v, loads, reads, stored⟩ := exists_loaded keeps empty starts survive
  refine ⟨v, ?_, stored⟩
  refine run.running_after_sight (.load (start ++ name)) (.ok x) body looks (closes x v reads)
    (fun running? context _ => ?_) running code unopened
  simp only [Machine.perform, loads]

end

/-- There is one value to be found at a time. -/
theorem LastSave.eq {w : Value} {l : Nat} (here : run.LastSave j name k v)
    (there : run.LastSave j name l w) : k = l := by
  rcases Nat.lt_trichotomy k l with lt | eq | lt
  · exact absurd (.inl ⟨w, there.saves⟩) (here.last l lt there.before)
  · exact eq
  · exact absurd (.inl ⟨v, here.saves⟩) (there.last k lt here.before)

theorem Stored.eq_of_lastSave {w : Value} (stored : run.Stored j name v)
    (last : run.LastSave j name k w) (survive : ∀ k v, k < j → run.Saves k name v → v.Survives) :
    v = w.asWritten := by
  rcases stored with ⟨k', w', last', rfl⟩ | ⟨cleared, -⟩
  · cases last.eq last'
    obtain ⟨text, written, -, back⟩ := (survive k w last.before last.saves).exists_text
    obtain ⟨text', written', -, back'⟩ := (survive k w' last'.before last'.saves).exists_text
    obtain ⟨t, _, _, _, _, running, acts, here, -⟩ := last.saves
    obtain ⟨t', _, _, _, _, running', acts', here', -⟩ := last'.saves
    cases running.symm.trans running'
    cases acts.symm.trans acts'
    cases written.symm.trans here
    cases written'.symm.trans here'
    exact Except.ok.inj (back'.symm.trans back)
  · obtain ⟨l, after, before, deletes⟩ := cleared k w last.before last.saves
    exact absurd (.inr deletes) (last.last l after before)

/-! ## Executing -/

/-- What is stored is null, or was offered by the node that is wired to the one that stores. -/
theorem Saves.exists_enters (saves : run.Saves k name v) :
    ∃ n, b.Holds n .saveData ∧ b.Enters n.id "value" v := by
  obtain ⟨t, n, key, text, record, -, -, -, ⟨holds, -, given⟩, -, records⟩ := saves
  refine ⟨n, holds, ?_⟩
  cases source : b.source? n.id "value" with
  | none =>
    rw [Board.Gives, source] at given
    rw [Board.Enters, source]
    exact given.1
  | some ref =>
    rw [Board.Gives, source] at given
    rw [given] at records
    rw [Board.Enters, source]
    cases records with
    | cons _ awaits returns _ _ =>
      obtain ⟨next, calls⟩ := awaits.calls
      obtain ⟨-, w, same, offers⟩ := (returns.yields calls).1
      cases same
      exact offers

section

variable {id : String} {pin? : Option String} {n : Node} {next : Continuation} {p : Nat}
  (starts : b.config.storagePrefix.toPlain = .ok start)
  (calls : run.Calls p s (.execute id pin?) next) (found : b.circuit.node? id = some n)
include calls found

/-- A node that stores data, and is wired, pulls the value and has in mind to store it. -/
theorem pulls_of_execute {key : String} {ref : PinRef} (kind : n.kind = "saveData")
    (keyed : b.config.storageKey (n.property "key") = .ok key)
    (source : b.source? n.id "value" = some ref) :
    ∃ t goesOn, run.Calls (p + 2) t (.pull ref.node ref.pin) goesOn ∧
      ∀ v text, v.toJson = .ok text → ∃ after, goesOn (.ok v) = .act (.save key text) after := by
  obtain ⟨notice, begins, body, -, wired⟩ := Board.body_execute_save found keyed pin? kind
  obtain ⟨goesOn, rfl, saves⟩ := wired ref source
  exact ⟨_, goesOn, ⟨run.running_after_act calls.running_after body, rfl⟩, saves⟩

include starts

/-- A node that stores data stores the value that it receives. -/
theorem saves_of_execute (kind : n.kind = "saveData")
    (named : Config.keyText (n.property "key") = .ok name)
    (finds : run.Finds n.id "value" (p + 2) v k) (survives : v.Survives) : run.Saves k name v := by
  have keyed := Config.storageKey_of_keyText starts named
  have holds : b.Holds n .saveData := ⟨⟨id, found⟩, by rw [kind]; decide⟩
  cases finds with
  | unwired source =>
    obtain ⟨notice, begins, body, unwired, -⟩ := Board.body_execute_save found keyed pin? kind
    obtain ⟨text, after, written, saves⟩ := unwired source
    have began := run.running_after_act calls.running_after body
    refine ⟨_, n, _, text, [], began, Strand.act?_of_code saves, written, ⟨holds, keyed, ?_⟩,
      named, .nil⟩
    rw [Board.Gives, source]
    exact ⟨rfl, rfl⟩
  | @wired ref t goesOn q d v source pulls returns =>
    obtain ⟨t', goesOn', pulls', saves⟩ := pulls_of_execute calls found kind keyed source
    cases pulls.running.symm.trans pulls'.running
    cases pulls.code.symm.trans pulls'.code
    obtain ⟨text, written, -⟩ := survives.exists_text
    obtain ⟨after, saves⟩ := saves v text written
    have goes := (returns.yields pulls).2
    have none : run.Records t.id t.stack.length [] (p + 2) := .nil
    have told := none.told pulls returns
    refine ⟨_, n, _, text, _, goes, Strand.act?_of_code saves, written, ⟨holds, keyed, ?_⟩, named,
      told⟩
    rw [Board.Gives, source]

theorem deletes_of_execute (kind : n.kind = "deleteData")
    (named : Config.keyText (n.property "key") = .ok name) : run.Deletes (p + 2) name := by
  have keyed := Config.storageKey_of_keyText starts named
  have holds : b.Holds n .deleteData := ⟨⟨id, found⟩, by rw [kind]; decide⟩
  obtain ⟨notice, after, body⟩ := Board.body_execute_delete found keyed pin? kind
  have began := run.running_after_act calls.running_after body
  exact ⟨_, n, _, began, Strand.act?_of_code rfl, ⟨holds, keyed⟩, named⟩

end

/-- Nodes for stored data make a map, from an empty store on.  When a node that stores data is
executed, it asks for the value at its pin, and stores what it receives; when a node that deletes is
executed, it deletes.  A node that loads, and has pull keys of its own, gives the value that was
stored last under a key with the text of its own one, as it is written, if it was not deleted since;
and null if there is none. -/
theorem stored_data_is_a_map {config : Config} {app : App} (built : Board.ofApp config app = .ok b)
    (run : Run b env) {store? : σ → Option Store.KeyValue} (keeps : env.Keeps store?)
    (empty : store? (run.state 0).outside = some (.memory []))
    (starts : b.config.storagePrefix.toPlain = .ok start) {id : String} {n : Node}
    (found : b.circuit.node? id = some n) (named : Config.keyText (n.property "key") = .ok name)
    {s : Strand} :
    (∀ p pin? next, run.Calls p s (.execute id pin?) next →
      (n.kind = "saveData" →
        (∀ ref, b.source? n.id "value" = some ref →
          ∃ t goesOn, run.Calls (p + 2) t (.pull ref.node ref.pin) goesOn) ∧
        ∀ k v, run.Finds n.id "value" (p + 2) v k → v.Survives → run.Saves k name v) ∧
      (n.kind = "deleteData" → run.Deletes (p + 2) name)) ∧
    ∀ j pin next, run.Calls j s (.pull id pin) next → n.kind = "loadData" →
      b.KeyedApart n pin → (∀ k v, k < j → run.Saves k name v → v.Survives) →
      ∃ v, (run.state (j + 5)).running? = some { s with code := next (.ok v) } ∧
        run.Stored j name v := by
  have keyed := Config.storageKey_of_keyText starts named
  refine ⟨fun p pin? next calls => ⟨fun kind => ⟨fun ref source => ?_, fun k v finds => ?_⟩,
    fun kind => ?_⟩, fun j pin next calls kind apart survive => ?_⟩
  · obtain ⟨t, goesOn, pulls, -⟩ := pulls_of_execute calls found kind keyed source
    exact ⟨t, goesOn, pulls⟩
  · exact saves_of_execute starts calls found kind named finds
  · exact deletes_of_execute starts calls found kind named
  · exact running_after_load (Board.filed_of_ofApp built) keeps empty starts found kind named apart
      survive calls.running calls.code

end Run

/-! ## A value that is stored again -/

namespace Rehearsal.Stage

/-- The store of a stage, and which operations fail. -/
def storage (s : Stage) : Store.KeyValue × List (StoreOperation × String) :=
  (s.store, s.storeFailures)

/-- The store of a stage, if nothing in it fails. -/
def soundStore? (s : Stage) : Option Store.KeyValue :=
  if s.storeFailures = [] then some s.store else none

@[simp] theorem storage_serve (s : Stage) (ticket : Nat) (r : Request) :
    (s.serve ticket r).2.2.storage = s.storage := by
  cases r with
  | http r =>
    simp only [serve]
    split
    next => rfl
    next =>
      simp only [overNet]
      split <;> rfl
  | chat prompt =>
    simp only [serve]
    split <;> rfl
  | writeClipboard | notify =>
    simp only [serve, withHost]
    split <;> rfl
  | _ => rfl

@[simp] theorem storage_ask (s : Stage) (r : Request) : (s.ask r).2.2.storage = s.storage := by
  have counted : (s.number r).2.storage = s.storage := by
    unfold number
    split
    next => split <;> rfl
    next => rfl
  simp only [ask]
  split
  next => exact counted
  next =>
    split
    next => exact counted
    next => exact (storage_serve _ _ r).trans counted

/-- On a stage, nothing changes what is stored but saving and deleting. -/
theorem surroundings_storesThroughout : surroundings.StoresThroughout storage := by
  refine ⟨⟨fun s c => ?_, fun s => rfl, storage_ask⟩, fun s r ticket => ?_⟩
  · simp only [surroundings, react]
    split <;> rfl
  · exact storage_serve s ticket r

theorem surroundings_keeps : surroundings.Keeps soundStore? := by
  have sound {s : Stage} {store : Store.KeyValue} (here : s.soundStore? = some store) :
      s.storeFailures = [] ∧ s.store = store := by
    unfold soundStore? at here
    split at here
    next none => exact ⟨none, Option.some.inj here⟩
    next => cases here
  constructor
  case toStoresThroughout =>
    exact surroundings_storesThroughout.map fun p => if p.2 = [] then some p.1 else none
  case load =>
    intro s store key here
    obtain ⟨none, rfl⟩ := sound here
    simp [surroundings, load, storeFailure?, none]
  case save =>
    intro s store store' key text here saved
    obtain ⟨none, rfl⟩ := sound here
    simp [surroundings, save, withStore, storeFailure?, none, saved, soundStore?]
  case remove =>
    intro s store store' key here removed
    obtain ⟨none, rfl⟩ := sound here
    simp [surroundings, remove, withStore, storeFailure?, none, removed, soundStore?]

end Rehearsal.Stage

/-- A drawing in which a number is stored and deleted, and then another one is stored under a key
with the same text. -/
def jotterApp : App where
  id := "jotter"
  name := .str "jotter"
  nodes := [{ id := "start", kind := "onAppStart" },
    { id := "early", kind := "saveData", properties := [("key", .int 1)] },
    { id := "drop", kind := "deleteData", properties := [("key", .str "1")] },
    { id := "late", kind := "saveData", properties := [("key", .str "1")] },
    { id := "show", kind := "setText", properties := [("targetId", .str "out")] },
    { id := "back", kind := "loadData", properties := [("key", .int 1)] },
    { id := "five", kind := "numberLiteral", properties := [("value", .int 5)] },
    { id := "seven", kind := "numberLiteral", properties := [("value", .int 7)] }]
  wires := [.link "start" "exec" "early" "exec", .link "early" "exec" "drop" "exec",
    .link "drop" "exec" "late" "exec", .link "late" "exec" "show" "exec",
    .link "five" "value" "early" "value", .link "seven" "value" "late" "value",
    .link "back" "value" "show" "value"]

def jotterBoard : Board := jotterApp.board

theorem jotterBoard_built : Board.ofApp {} jotterApp = .ok jotterBoard := rfl

def jotterRun : Run jotterBoard Rehearsal.Stage.surroundings :=
  .ofStart _ _ { proxy := .lines [] false none }

/-- Only numbers are stored, and nothing at all if there is none. -/
theorem jotterRun_survive (k : Nat) (v : Value) (saves : jotterRun.Saves k "1" v) : v.Survives := by
  obtain ⟨n, ⟨⟨id, found⟩, kind⟩, enters⟩ := saves.exists_enters
  have listed : n ∈ jotterApp.nodes := Board.mem_nodes_of_node? jotterBoard_built found
  have wired : ∀ n ∈ jotterApp.nodes, NodeKind.ofName? n.kind = some .saveData →
      jotterBoard.source? n.id "value" = some ⟨"five", "value"⟩ ∨
        jotterBoard.source? n.id "value" = some ⟨"seven", "value"⟩ := by decide
  rcases wired n listed kind with source | source
  all_goals
    rw [Board.Enters, source] at enters
    rcases enters _ rfl rfl with rfl | rfl
    · exact Value.survives_int (by decide)
    · exact Value.survives_null

/-- A number has been stored and is deleted.  Then another one is stored, under another property
with the same text, and this one comes back. -/
theorem Run.stored_data_is_a_map_jotterRun :
    jotterRun.Deletes 23 "1" ∧ jotterRun.Saves 34 "1" (.int 7) ∧
      ∃ s next, jotterRun.Calls 41 s (.pull "back" "value") next ∧
        (jotterRun.state 46).running? = some { s with code := next (.ok (.int 7)) } ∧
        jotterRun.Stored 41 "1" (.int 7) := by
  have starts : jotterBoard.config.storagePrefix.toPlain = .ok "ebos-miniapp-" := by decide +kernel
  have nodes {id name : String} {n : Node} {s : Strand}
      (found : jotterBoard.circuit.node? id = some n)
      (named : Config.keyText (n.property "key") = .ok name) :=
    stored_data_is_a_map jotterBoard_built jotterRun Rehearsal.Stage.surroundings_keeps rfl starts
      found named (s := s)
  have dropped : jotterRun.Deletes 23 "1" := by
    obtain ⟨n, found, kind, named⟩ : ∃ n, jotterBoard.circuit.node? "drop" = some n ∧
        n.kind = "deleteData" ∧ Config.keyText (n.property "key") = .ok "1" :=
      ⟨_, rfl, rfl, by decide +kernel⟩
    have begins : jotterRun.BeginsOn 4 21 (.execute "drop" (some "exec")) := by decide +kernel
    obtain ⟨s, next, executes⟩ := begins.exists_calls
    exact ((nodes found named).1 21 _ next executes).2 kind
  have late : jotterRun.Saves 34 "1" (.int 7) := by
    obtain ⟨n, found, kind, named, source⟩ : ∃ n, jotterBoard.circuit.node? "late" = some n ∧
        n.kind = "saveData" ∧ Config.keyText (n.property "key") = .ok "1" ∧
        jotterBoard.source? n.id "value" = some ⟨"seven", "value"⟩ :=
      ⟨_, rfl, rfl, by decide +kernel, rfl⟩
    have begins : jotterRun.BeginsOn 6 28 (.execute "late" (some "exec")) := by decide +kernel
    have fulfils : jotterRun.Fulfils 7 30 (.pull "seven" "value") 33 (.ok (.int 7)) := by
      decide +kernel
    obtain ⟨s, next, executes⟩ := begins.exists_calls
    obtain ⟨t, goesOn, pulls⟩ := fulfils.1.exists_calls
    obtain ⟨d, returns⟩ := fulfils.exists_returns pulls
    have finds : jotterRun.Finds n.id "value" 30 (.int 7) 34 := .wired source pulls returns
    exact (((nodes found named).1 28 _ next executes).1 kind).2 34 _ finds
      (Value.survives_int (by decide))
  have last : jotterRun.LastSave 41 "1" 34 (.int 7) := by
    have still : ∀ l < 41, 34 < l → (jotterRun.state l).act?.bind Act.storageKey? = none := by
      decide +kernel
    refine ⟨by decide, late, fun l after before alters => ?_⟩
    cases (still l before after).symm.trans (alters.storageKey?_eq starts)
  have begins : jotterRun.BeginsOn 9 41 (.pull "back" "value") := by decide +kernel
  obtain ⟨s, next, pulls⟩ := begins.exists_calls
  have survive : ∀ k v, k < 41 → jotterRun.Saves k "1" v → v.Survives :=
    fun k v _ => jotterRun_survive k v
  obtain ⟨n, found, kind, named⟩ : ∃ n, jotterBoard.circuit.node? "back" = some n ∧
      n.kind = "loadData" ∧ Config.keyText (n.property "key") = .ok "1" :=
    ⟨_, rfl, rfl, by decide +kernel⟩
  have apart := Board.keyedApart_of_plain jotterBoard_built (by decide) found "value"
  obtain ⟨v, goesOn, stored⟩ := (nodes found named).2 41 "value" next pulls kind apart survive
  obtain rfl : v = .int 7 := stored.eq_of_lastSave last survive
  exact ⟨dropped, late, s, next, pulls, goesOn, stored⟩

end Wireboard
