import Mathlib.Data.Finset.Card
import Mathlib.Data.Finset.Image
import Wireboard.Proofs.Circuit
import Wireboard.Proofs.Engine.Course

/-!
# Pulls come to an end

To find a value, a pull may need others, along whatever wires there are; and wires may run in
circles.  What ends it is that a pull that is open is not opened again.

Every pull that another one needs is for the source of some wire, and a drawing has only so many
sources.  With each pull inside of another one, there is one source less that is not open
(`Context.card_closed_lt`).  So no trail of pulls is endless (`Board.ends_of_pulls`), and no more
pulls are open at once than there are sources, and the first one (`Course.Busy.adds`).

A value that was found is closed again, so the same source may be pulled any number of times, one
after the other.  That does not matter: what counts is the number of sources that are open together.
-/

namespace Wireboard

variable {σ : Type} {config : Config} {app : App} {b : Board} {env : Surroundings σ}
  {c d e : Context} {key : String} {keys : Finset String}

namespace App

/-- The pins from which a wire leads somewhere. -/
def sources (app : App) : Finset PinRef := (app.wires.map (·.source)).toFinset

/-- The keys under which these pins are pulled. -/
def sourceKeys (app : App) : Finset String :=
  app.sources.image fun p => Context.pullKey p.node p.pin

theorem card_sourceKeys_le (app : App) : app.sourceKeys.card ≤ app.sources.card :=
  Finset.card_image_le

end App

variable {node pin : String} {p : PinRef} (built : Board.ofApp config app = .ok b)

include built in
/-- What is pulled for an input pin is the source of a wire. -/
theorem Board.mem_sources (source : b.source? node pin = some p) : p ∈ app.sources := by
  obtain ⟨w, found, rfl, -⟩ := b.exists_wire_of_source? source
  rw [wireInto?_of_ofApp built] at found
  exact List.mem_toFinset.mpr (List.mem_map_of_mem (List.mem_of_find?_eq_some found))

include built in
theorem Board.mem_sourceKeys (source : b.source? node pin = some p) :
    Context.pullKey p.node p.pin ∈ app.sourceKeys :=
  Finset.mem_image.mpr ⟨p, mem_sources built source, rfl⟩

/-! ## Open pulls -/

namespace Context

theorem opened_of_enter (enters : c.enter key = some d) :
    d.opened = key :: c.opened ∧ key ∉ c.opened := by
  unfold enter at enters
  split at enters
  next => cases enters
  next fresh =>
    cases enters
    exact ⟨rfl, by simpa using fresh⟩

/-- The second context has the open pulls of the first one, and on top of them others, under keys of
a given kind and each once. -/
def Adds (keys : Finset String) (c d : Context) : Prop :=
  ∃ tops, d.opened = tops ++ c.opened ∧ tops.Nodup ∧ ∀ key ∈ tops, key ∈ keys

theorem Adds.refl (c : Context) : c.Adds keys c := ⟨[], rfl, List.nodup_nil, fun _ h => by cases h⟩

theorem Adds.enter (adds : c.Adds keys d) (enters : d.enter key = some e) (member : key ∈ keys) :
    c.Adds keys e := by
  obtain ⟨tops, eq, nodup, subset⟩ := adds
  obtain ⟨opened, fresh⟩ := opened_of_enter enters
  refine ⟨key :: tops, by rw [opened, eq, List.cons_append], ?_, ?_⟩
  · have new : key ∉ tops := by
      rw [eq, List.mem_append] at fresh
      exact fun old => fresh (.inl old)
    exact List.nodup_cons.mpr ⟨new, nodup⟩
  · intro key' member'
    rcases List.mem_cons.mp member' with rfl | old
    · exact member
    · exact subset key' old

/-- There are no more of them than there are keys. -/
theorem Adds.exists_tops (adds : c.Adds keys d) :
    ∃ tops, d.opened = tops ++ c.opened ∧ tops.length ≤ keys.card := by
  obtain ⟨tops, eq, nodup, subset⟩ := adds
  refine ⟨tops, eq, ?_⟩
  calc tops.length = tops.toFinset.card := (List.toFinset_card_of_nodup nodup).symm
    _ ≤ keys.card := Finset.card_le_card fun key member =>
        subset key (List.mem_toFinset.mp member)

/-- The keys that are not open. -/
def closed (keys : Finset String) (c : Context) : Finset String :=
  keys.filter fun key => key ∉ c.opened

/-- To open a pull leaves one key less. -/
theorem card_closed_lt (enters : c.enter key = some d) (member : key ∈ keys) :
    (d.closed keys).card < (c.closed keys).card := by
  obtain ⟨opened, fresh⟩ := opened_of_enter enters
  refine Finset.card_lt_card (Finset.ssubset_iff_subset_ne.mpr ⟨?_, ?_⟩)
  · intro key' member'
    simp only [closed, Finset.mem_filter, opened, List.mem_cons, not_or] at member' ⊢
    exact ⟨member'.1, member'.2.2⟩
  · intro same
    have inside : key ∈ c.closed keys := Finset.mem_filter.mpr ⟨member, fresh⟩
    rw [← same, closed, Finset.mem_filter, opened] at inside
    exact inside.2 List.mem_cons_self

end Context

/-- The job is a pull under one of the keys, or a stop that a listener has ordered. -/
def Job.IsPullAmong (keys : Finset String) : Job → Prop
  | .pull node pin => Context.pullKey node pin ∈ keys
  | .resolve _ _ | .stop => True
  | _ => False

/-! ## No trail of pulls is endless -/

namespace Board

variable {i j : Job}

/-- The pulls inside of a pull are for sources, and are called while it is open. -/
theorem Sends.of_pull (sends : b.Sends env (.pull node pin) c d i) (other : i ≠ .stop) :
    ∃ n input p, b.circuit.node? node = some n ∧
      c.enter (Context.pullKey n.id pin) = some d ∧ b.source? n.id input = some p ∧
      i = .pull p.node p.pin := by
  cases sends with
  | order => exact absurd rfl other
  | pull found enters source => exact ⟨_, _, _, found, enters, source, rfl⟩
  | chain begins => cases begins

include built

/-- A pull for a source comes to an end.  The induction is on the number of sources that are not
open. -/
theorem ends_source (c : Context) (source : Context.pullKey p.node p.pin ∈ app.sourceKeys) :
    b.Ends env c (.pull p.node p.pin) := by
  induction left : (c.closed app.sourceKeys).card using Nat.strong_induction_on
    generalizing c p with
  | _ left' ih =>
    refine Acc.intro _ ?_
    rintro ⟨d, i⟩ ⟨other, sends⟩
    obtain ⟨n, input, p', found, enters, source', rfl⟩ := Sends.of_pull sends other
    rw [(filed_of_ofApp built).id_eq found] at enters
    have fewer := Context.card_closed_lt enters source
    exact ih _ (left ▸ fewer) d (mem_sourceKeys built source') rfl

/-- Every pull comes to an end, whatever is open already. -/
theorem ends_of_pulls (c : Context) (pulls : j.pulls = true) : b.Ends env c j := by
  refine Acc.intro _ ?_
  rintro ⟨d, i⟩ ⟨other, sends⟩
  cases j with
  | pull node pin =>
    obtain ⟨n, input, p, -, -, source, rfl⟩ := Sends.of_pull sends other
    exact ends_source built d (mem_sourceKeys built source)
  | resolve node pin =>
    cases sends with
    | order => exact absurd rfl other
    | resolve source => exact ends_source built c (mem_sourceKeys built source)
    | chain begins => cases begins
  | _ => cases pulls

/-! ## How many pulls are open -/

/-- Where a job of this kind is under way, it adds its own key at most. -/
theorem Stands.adds (stands : b.Stands d i e) (among : i.IsPullAmong keys)
    (adds : c.Adds keys d) : c.Adds keys e := by
  cases i with
  | pull node pin =>
    rcases stands with rfl | ⟨n, found, enters⟩
    · exact adds
    · rw [(filed_of_ofApp built).id_eq found] at enters
      exact adds.enter enters among
  | resolve | stop =>
    cases (stands : e = d)
    exact adds
  | _ => exact among.elim

theorem Sends.among (sends : b.Sends env j c d i) (subset : app.sourceKeys ⊆ keys)
    (among : j.IsPullAmong keys) : i.IsPullAmong keys := by
  cases sends with
  | order => trivial
  | pull _ _ source | resolve source | input _ source | condition source =>
    exact subset (mem_sourceKeys built source)
  | chain begins =>
    cases j with
    | pull | resolve | stop => cases begins
    | _ => exact among.elim
  | _ => exact among.elim

/-- Along a trail of pulls, each one adds its key to those that are open. -/
theorem Trail.adds {under stack : List Continuation} (trail : b.Trail env c j under d i stack)
    (subset : app.sourceKeys ⊆ keys) (among : j.IsPullAmong keys) :
    c.Adds keys d ∧ i.IsPullAmong keys := by
  induction trail with
  | begun => exact ⟨.refl c, among⟩
  | inner _ stands sends _ ih =>
    exact ⟨stands.adds built ih.2 ih.1, sends.among built subset ih.2⟩

end Board

namespace Course

variable {course : Course b env} {s t : Strand} {j : Job} {next : Continuation} {p l : Nat}
  {node pin : String}

theorem Busy.adds (busy : course.Busy s p l t) (calls : course.Calls p s j next)
    (built : Board.ofApp config app = .ok b) (subset : app.sourceKeys ⊆ keys)
    (among : j.IsPullAmong keys) : s.context.Adds keys t.context := by
  obtain ⟨d, i, trail, honours⟩ := (busy.inside calls).trail
  obtain ⟨adds, among'⟩ := trail.adds built subset among
  have stands : b.Stands d i t.context := honours.stands
  exact stands.adds built among' adds

/-- A pull comes to an end with a value and leaves the chain as it was, whatever the wiring and the
state of the chain, as long as requests are answered and listeners end.  And never are there more
pulls open inside of it than the drawing has sources, and one. -/
theorem pull_comes_to_end (built : Board.ofApp config app = .ok b) (course : Course b env)
    (calls : course.Calls p s (.pull node pin) next) :
    (course.Served s p → ∃ q v, course.Returns s p q s.context (.ok v)) ∧
      ∀ l t, course.Busy s p l t → ∃ tops, t.context.opened = tops ++ s.context.opened ∧
        tops.length ≤ app.sources.card + 1 := by
  constructor
  · intro served
    obtain ⟨q, d, x, returns⟩ :=
      returns_of_ends (Board.ends_of_pulls built s.context rfl) calls rfl served
    obtain ⟨⟨rfl, v, rfl, -⟩, -⟩ := returns.yields calls
    exact ⟨q, v, returns⟩
  · intro l t busy
    let keys : Finset String := insert (Context.pullKey node pin) app.sourceKeys
    have adds : s.context.Adds keys t.context :=
      busy.adds calls built (Finset.subset_insert _ _) (Finset.mem_insert_self _ _)
    obtain ⟨tops, eq, le⟩ := adds.exists_tops
    refine ⟨tops, eq, le.trans ?_⟩
    calc keys.card ≤ app.sourceKeys.card + 1 := Finset.card_insert_le _ _
      _ ≤ app.sources.card + 1 := Nat.add_le_add_right app.card_sourceKeys_le 1

end Course

/-- A drawing with a chat that is asked for its own reply, and a text that is part of itself. -/
def echoApp : App where
  id := "echo"
  name := .str "echo"
  nodes := [{ id := "talk", kind := "geminiChat" }, { id := "both", kind := "concat" }]
  wires := [.link "talk" "response" "talk" "prompt", .link "talk" "response" "both" "a",
    .link "both" "result" "both" "b"]

def echoBoard : Board := echoApp.board

theorem echoBoard_built : Board.ofApp {} echoApp = .ok echoBoard := rfl

/-- The text is pulled from outside; the chat replies after some time. -/
def echoRun : Run echoBoard .silent :=
  .ofWishes _ _ () fun
    | 0 => some (.enter none false [] (.evaluate "both" "result"))
    | 16 => some (.release (fun _ => true) fun
      | .chat _ => some (.ok (.str "echo"))
      | _ => none)
    | _ => none

/-- Two pulls are open while the strand waits for the reply; there are two sources. -/
theorem Course.pull_comes_to_end_echoRun : echoApp.sources.card = 2 ∧ ∃ s next,
    echoRun.Calls 2 s (.pull "both" "result") next ∧
      (∃ q v, echoRun.Returns s 2 q s.context (.ok v)) ∧
      ∃ t tops, echoRun.Busy s 2 11 t ∧
        t.context.opened = tops ++ s.context.opened ∧ tops.length ≤ 3 := by
  have spans : echoRun.Spans 0 2 (.pull "both" "result") 27 := by decide +kernel
  have above : echoRun.RisesAbove 0 2 12 := by decide +kernel
  have waits : (echoRun.state 11).running?.map Strand.id = some 0 := by decide +kernel
  obtain ⟨s, next, calls⟩ := spans.1.exists_calls
  have within : echoRun.Within s 2 12 := spans.1.within calls above
  obtain ⟨t, running, number⟩ := Option.map_eq_some_iff.mp waits
  have runs : echoRun.Runs s.id 11 t := ⟨running, number.trans (spans.1.stands calls).1.symm⟩
  have busy : echoRun.Busy s 2 11 t :=
    ⟨by decide, within.mono (by decide), runs, within 11 t (by decide) (by decide) runs⟩
  obtain ⟨returns, bounded⟩ := pull_comes_to_end echoBoard_built echoRun.toCourse calls
  obtain ⟨tops, opened, le⟩ := bounded 11 t busy
  have card : echoApp.sources.card = 2 := by decide +kernel
  exact ⟨card, s, next, calls, returns (spans.served calls), t, tops, busy, opened, by omega⟩

end Wireboard
