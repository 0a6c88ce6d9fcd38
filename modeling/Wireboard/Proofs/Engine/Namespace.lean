import Wireboard.Proofs.Engine.Storage
import Wireboard.Proofs.Store.Entries

/-!
# Stored data stays in its place

All apps may share one store, so an app has to keep to its part of it.  The keys under which nodes
store, load and delete data all begin with the same text, and nothing else in the store is ever
touched.

* That a node touches the store under its own key is among the terms of the job that executes or
  pulls it (`Board.Does.addresses`).
* Along a run, it follows that every access is under the key of a node (`Run.exists_addresses`), and
  that an entry with a key of another sort never changes (`Run.get_eq_of_foreign`).  The store may
  fail at any time, as long as it changes no other entry than it was told to
  (`Surroundings.Houses`).
* In a course, a node that is at work, executed or pulled, touches its own entry and no other one
  (`Course.addresses_of_touches`), and different keys make different entries
  (`Config.eq_of_storageKey`).
-/

namespace Wireboard

variable {σ : Type} {b : Board} {env : Surroundings σ} {m m' : Machine σ} {s t : Strand}

/-! ## Addresses -/

/-- The node stores, loads or deletes data, and its key is this text. -/
structure Board.Labels (b : Board) (id name : String) : Prop where
  full : name ≠ ""
  node : ∃ n kind, b.circuit.node? id = some n ∧ NodeKind.ofName? n.kind = some kind ∧
    kind.usesStore = true ∧ n.property "key" = .str name

/-- What is under this key is none of the app's business. -/
def Config.Foreign (config : Config) (key : Value) : Prop :=
  ∀ start name, config.storagePrefix.toPlain = .ok start → key ≠ .str (start ++ name)

variable {key : String} {v : Value}

/-- A key begins with the text that all keys have in common. -/
theorem Config.exists_start {config : Config} (keyed : config.storageKey v = .ok key) :
    ∃ start name, config.storagePrefix.toPlain = .ok start ∧ key = start ++ name := by
  cases starts : config.storagePrefix.toPlain with
  | error f => simp [storageKey, starts, bind, Except.bind] at keyed
  | ok start =>
    obtain ⟨name, -, rfl⟩ := (storageKey_eq_ok starts).mp keyed
    exact ⟨start, name, rfl, rfl⟩

theorem Config.keyText_str {name : String} (full : name ≠ "") :
    keyText (.str name) = .ok name := by
  simp [keyText, Value.orElse, Value.isVacant, full, Value.toPlain, Value.hasText, Value.plain]

/-- Different texts make different keys. -/
theorem Config.eq_of_storageKey {config : Config} {name name' : String} (full : name ≠ "")
    (full' : name' ≠ "") (keyed : config.storageKey (.str name) = .ok key)
    (keyed' : config.storageKey (.str name') = .ok key) : name = name' := by
  obtain ⟨start, -, starts, -⟩ := exists_start keyed
  obtain ⟨_, text, eq⟩ := (storageKey_eq_ok starts).mp keyed
  obtain ⟨_, text', eq'⟩ := (storageKey_eq_ok starts).mp keyed'
  rw [keyText_str full] at text
  rw [keyText_str full'] at text'
  cases text
  cases text'
  exact String.append_right_inj start |>.mp (eq.symm.trans eq')

/-! ## Nodes at work -/

/-- The node whose work a job is. -/
def Job.worker? : Job → Option String
  | .execute node _ | .pull node _ => some node
  | _ => none

/-- Whoever touches the store works for a node that does, and under its key. -/
theorem Board.Does.addresses {j : Job} {a : Act} (does : b.Does j a) (entry : a.entry? = some key) :
    ∃ id n, j.worker? = some id ∧ b.circuit.node? id = some n ∧ b.Addresses n key := by
  cases a with
  | load | save | remove =>
    cases entry
    cases j with
    | pull id | execute id =>
      first
      | obtain ⟨n, found, addresses⟩ := does
        exact ⟨id, n, rfl, found, addresses⟩
      | cases does
    | _ => cases does
  | _ => cases entry

namespace Course

variable {course : Course b env} {j : Job} {next : Continuation} {p l : Nat}

variable (course) in
/-- At that time a node is at work, and touches an entry of the store. -/
def Touches (id : String) (l : Nat) (key : String) : Prop :=
  ∃ p s j next t a, course.Calls p s j next ∧ j.worker? = some id ∧ course.Busy s p l t ∧
    t.stack.length = s.stack.length + 1 ∧ t.act? = some a ∧ a.entry? = some key

/-- In a state that can be computed, the node is at work. -/
theorem BeginsOn.touches {id : String} {height : Nat} (begins : course.BeginsOn height p j)
    (works : j.worker? = some id) (between : p < l ∧ course.RisesAbove height p l)
    (touches : (course.state l).running?.map (fun t
      => (t.id, t.stack.length, t.act?.bind Act.entry?)) = some (0, height + 1, some key)) :
    course.Touches id l key := by
  obtain ⟨s, next, calls⟩ := begins.exists_calls
  obtain ⟨number, stack⟩ := begins.stands calls
  obtain ⟨t, running, eq⟩ := Option.map_eq_some_iff.mp touches
  simp only [Prod.mk.injEq] at eq
  obtain ⟨number', top, entry⟩ := eq
  obtain ⟨a, acts, entry⟩ := Option.bind_eq_some_iff.mp entry
  exact ⟨p, s, j, next, t, a, calls, works,
    ⟨between.1, begins.within calls between.2, ⟨running, number'.trans number.symm⟩, by omega⟩,
    by omega, acts, entry⟩

/-- A node for stored data touches its own entry and no other one. -/
theorem addresses_of_touches {id : String} {n : Node} {kind : NodeKind}
    (found : b.circuit.node? id = some n) (named : NodeKind.ofName? n.kind = some kind)
    (stores : kind.usesStore = true) (touches : course.Touches id l key) : b.Addresses n key := by
  obtain ⟨p, s, j, next, t, a, calls, works, busy, top, acts, entry⟩ := touches
  obtain ⟨goesOn, code⟩ := Strand.code_of_act? acts
  have honours := (busy.honours calls top).2
  rw [code] at honours
  obtain ⟨id', n', works', found', addresses⟩ := Board.Does.addresses honours.2.1 entry
  cases works.symm.trans works'
  cases found.symm.trans found'
  exact ⟨⟨kind, ⟨⟨id, found⟩, named⟩, stores⟩, addresses.keyed⟩

end Course

/-! ## Runs -/

/-- The surroundings have a store in which nothing changes but what the app is told to change, and
not even that where it fails. -/
structure Surroundings.Houses (env : Surroundings σ) (store : σ → Store.KeyValue) : Prop
    extends env.StoresThroughout store where
  save : ∀ s key text, store (env.save s key text).2 = store s ∨
    (store s).set (.str key) (.str text) = .ok (store (env.save s key text).2)
  remove : ∀ s key, store (env.remove s key).2 = store s ∨
    (store s).delete (.str key) = .ok (store (env.remove s key).2)

/-- One move leaves alone what is under a key, unless somebody touches it. -/
theorem Machine.Moves.get_eq {store : σ → Store.KeyValue} (houses : env.Houses store)
    {impulse? : Option Impulse} (move : m.Moves b env impulse? m')
    (spared : ∀ key, m.act?.bind Act.entry? = some key → v ≠ .str key) :
    (store m'.outside).get v = (store m.outside).get v := by
  rcases move.store_cases houses.toStoresThroughout with
    ⟨s, key, text, running, acts, eq⟩ | ⟨s, key, running, acts, eq⟩ | ⟨-, same⟩
  · have other : v ≠ .str key := spared key (by simp [act?, running, acts, Act.entry?])
    rw [eq]
    rcases houses.save m.outside key text with same | done
    · rw [same]
    · exact Store.KeyValue.get_of_set done other
  · have other : v ≠ .str key := spared key (by simp [act?, running, acts, Act.entry?])
    rw [eq]
    rcases houses.remove m.outside key with same | done
    · rw [same]
    · exact Store.KeyValue.get_of_delete done other
  · rw [same]

namespace Run

variable {run : Run b env} {k : Nat}

/-- Every access to the store is under the key of a node for stored data. -/
theorem exists_addresses {a : Act} (running : (run.state k).running? = some s)
    (acts : s.act? = some a) (entry : a.entry? = some key) : ∃ n, b.Addresses n key := by
  obtain ⟨i, does⟩ := (serves (P := fun _ => True) (fun _ _ => trivial) (.inl running)).exists_does
    acts
  obtain ⟨-, n, -, -, addresses⟩ := does.addresses entry
  exact ⟨n, addresses⟩

/-- What the app has no business with stays as it was at first. -/
theorem get_eq_of_foreign {store : σ → Store.KeyValue} (houses : env.Houses store)
    (foreign : b.config.Foreign v) (k : Nat) :
    (store (run.state k).outside).get v = (store (run.state 0).outside).get v := by
  induction k with
  | zero => rfl
  | succ k ih =>
    rw [← ih]
    refine (run.move k).get_eq houses fun key touched => ?_
    obtain ⟨a, acts, entry⟩ := Option.bind_eq_some_iff.mp touched
    obtain ⟨s, running, acts⟩ := Option.bind_eq_some_iff.mp acts
    obtain ⟨n, addresses⟩ := exists_addresses running acts entry
    obtain ⟨start, name, starts, rfl⟩ := Config.exists_start addresses.keyed
    exact foreign start name starts

/-- Stored data stays in its place.  Whatever is read, written or deleted in a run is under the key
of a node for that, and the key begins with the prefix; so all entries with other keys are at any
time what they were at first, whatever the store has in it and wherever it fails.  And two nodes
with different keys never touch the same entry. -/
theorem storage_stays_in_namespace (run : Run b env) :
    (∀ k s a key, (run.state k).running? = some s → s.act? = some a → a.entry? = some key →
      ∃ start name n, b.config.storagePrefix.toPlain = .ok start ∧ key = start ++ name ∧
        b.Addresses n key) ∧
    (∀ store : σ → Store.KeyValue, env.Houses store → ∀ v, b.config.Foreign v → ∀ k,
      (store (run.state k).outside).get v = (store (run.state 0).outside).get v) ∧
    ∀ id id' name name', b.Labels id name → b.Labels id' name' → name ≠ name' →
      ∀ l l' key key', run.toCourse.Touches id l key → run.toCourse.Touches id' l' key' →
        key ≠ key' := by
  refine ⟨fun k s a key running acts entry => ?_, fun store houses v foreign k => ?_, ?_⟩
  · obtain ⟨n, addresses⟩ := exists_addresses running acts entry
    obtain ⟨start, name, starts, eq⟩ := Config.exists_start addresses.keyed
    exact ⟨start, name, n, starts, eq, addresses⟩
  · exact get_eq_of_foreign houses foreign k
  · rintro id id' name name' ⟨full, n, kind, found, named, stores, keyed⟩
      ⟨full', n', kind', found', named', stores', keyed'⟩ other l l' key _ touches touches' rfl
    have here := (Course.addresses_of_touches found named stores touches).keyed
    have there := (Course.addresses_of_touches found' named' stores' touches').keyed
    rw [keyed] at here
    rw [keyed'] at there
    exact other (Config.eq_of_storageKey full full' here there)

end Run

/-! ## Two drawers -/

/-- A stage has a store in which nothing changes but what it is told to change. -/
theorem Rehearsal.Stage.surroundings_houses : surroundings.Houses store where
  toStoresThroughout := surroundings_storesThroughout.map Prod.fst
  save s key text := by
    simp only [surroundings, save, withStore]
    cases s.storeFailure? .set with
    | some => exact .inl rfl
    | none =>
      cases s.store.set (.str key) (.str text) with
      | error => exact .inl rfl
      | ok => exact .inr rfl
  remove s key := by
    simp only [surroundings, remove, withStore]
    cases s.storeFailure? .delete with
    | some => exact .inl rfl
    | none =>
      cases s.store.delete (.str key) with
      | error => exact .inl rfl
      | ok => exact .inr rfl

/-- A drawing in which one drawer is filled and another one is emptied. -/
def drawersApp : App where
  id := "drawers"
  name := .str "drawers"
  nodes := [{ id := "start", kind := "onAppStart" },
    { id := "fill", kind := "saveData", properties := [("key", .str "left")] },
    { id := "clear", kind := "deleteData", properties := [("key", .str "right")] }]
  wires := [.link "start" "exec" "fill" "exec", .link "fill" "exec" "clear" "exec"]

def drawersBoard : Board := drawersApp.board

/-- One drawer is full, and there is an entry of somebody else in the store. -/
def drawersStage : Rehearsal.Stage where
  proxy := .lines [] false none
  store := .memory [(.str "theirs", .str "2"), (.str "ebos-miniapp-right", .str "1")]

def drawersRun : Run drawersBoard Rehearsal.Stage.surroundings := .ofStart _ _ drawersStage

/-- Each node touches its own drawer, and what is not in a drawer is still there afterwards. -/
theorem Run.storage_stays_in_namespace_drawersRun :
    drawersRun.toCourse.Touches "fill" 12 "ebos-miniapp-left" ∧
      drawersRun.toCourse.Touches "clear" 19 "ebos-miniapp-right" ∧
      "ebos-miniapp-left" ≠ "ebos-miniapp-right" ∧
      (drawersRun.state 31).outside.store.get (.str "theirs") = .ok (.str "2") ∧
      ∃ n, drawersBoard.Addresses n "ebos-miniapp-left" := by
  have starts : drawersBoard.config.storagePrefix.toPlain = .ok "ebos-miniapp-" := by
    decide +kernel
  obtain ⟨keys, frame, apart⟩ := storage_stays_in_namespace drawersRun
  have fills : drawersRun.toCourse.Touches "fill" 12 "ebos-miniapp-left" := by
    have begins : drawersRun.BeginsOn 2 10 (.execute "fill" (some "exec")) := by decide +kernel
    exact begins.touches rfl (by decide +kernel) (by decide +kernel)
  have clears : drawersRun.toCourse.Touches "clear" 19 "ebos-miniapp-right" := by
    have begins : drawersRun.BeginsOn 4 17 (.execute "clear" (some "exec")) := by decide +kernel
    exact begins.touches rfl (by decide +kernel) (by decide +kernel)
  have left : drawersBoard.Labels "fill" "left" :=
    ⟨by decide, _, .saveData, rfl, by decide, rfl, rfl⟩
  have right : drawersBoard.Labels "clear" "right" :=
    ⟨by decide, _, .deleteData, rfl, by decide, rfl, rfl⟩
  have foreign : drawersBoard.config.Foreign (.str "theirs") := by
    intro start name starts' eq
    cases starts.symm.trans starts'
    have heads := congrArg (fun v : Value => v.plain.toList.head?) eq
    simp [Value.plain] at heads
  refine ⟨fills, clears, ?_, ?_, ?_⟩
  · exact apart _ _ _ _ left right (by decide) _ _ _ _ fills clears
  · exact frame _ Rehearsal.Stage.surroundings_houses _ foreign 31
  · obtain ⟨_, _, _, _, t, a, _, _, busy, _, acts, entry⟩ := fills
    obtain ⟨_, _, n, _, _, addresses⟩ := keys 12 t a _ busy.runs.1 acts entry
    exact ⟨n, addresses⟩

end Wireboard
