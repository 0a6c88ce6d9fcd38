import Mathlib.Data.List.Basic
import Wireboard.Catalog.Create
import Wireboard.Proofs.Document.Fields
import Wireboard.Proofs.Json.Characters

/-!
# No id is given twice

An id is a word for the supply that it is drawn from, the time and the number of ids that were drawn
from this supply before.  The time is of no help, since a clock may stand still or go back.  The
count alone tells ids of one supply apart, and the word tells the supplies apart; so all depends on
an id showing both.  It does, because neither a time nor a count is written with an underscore
(`Supply.idText_inj`).

What one commission does to the counts is `fill_cases`.  All ids that come of a row of commissions
then have counts that were not yet reached when the row began (`exists_of_mem_ids`), so the first of
them is never given again (`nodup_ids`).
-/

namespace Wireboard

/-- What ids are drawn from. -/
inductive Supply where
  | nodes
  | components
deriving DecidableEq

namespace Supply

/-- How the ids of a supply begin. -/
def word : Supply → String
  | .nodes => "node_"
  | .components => "ui_"

/-- The id that is drawn at a time, after so many others. -/
def idText (s : Supply) (time : Int) (count : Nat) : String :=
  s.word ++ Number.intText time ++ "_" ++ Nat.repr count

theorem underscore_not_mem_of_numeric {text : String} (numeric : Json.Numeric text) :
    '_' ∉ text.toList :=
  fun member => absurd (numeric '_' member) (by decide)

/-- What follows the word of an id shows how many ids were drawn before. -/
theorem count_eq_of_append_eq {time time' : Int} {count count' : Nat}
    (same : (Number.intText time).toList ++ '_' :: (Nat.repr count).toList
      = (Number.intText time').toList ++ '_' :: (Nat.repr count').toList) : count = count' := by
  have digits := ((List.append_cons_inj_of_notMem
    (underscore_not_mem_of_numeric (Json.numeric_intText time))
    (underscore_not_mem_of_numeric (Json.numeric_repr count))).mp same).2.2
  rw [Nat.toList_repr, Nat.toList_repr] at digits
  have read := congrArg (Nat.ofDigitChars 10 · 0) digits
  simpa only [Nat.ofDigitChars_ten_toDigits] using read

/-- An id shows the supply that it was drawn from, and how many were drawn before it. -/
theorem idText_inj {s s' : Supply} {time time' : Int} {count count' : Nat}
    (same : s.idText time count = s'.idText time' count') : s = s' ∧ count = count' := by
  have same := congrArg String.toList same
  simp only [idText, String.toList_append, List.append_assoc] at same
  cases s <;> cases s'
  case nodes.nodes | components.components =>
    exact ⟨rfl, count_eq_of_append_eq (List.append_cancel_left same)⟩
  -- the first letters differ
  case nodes.components | components.nodes =>
    exact absurd (List.cons.inj same).1 (by decide)

end Supply

namespace Workshop

/-- What a workshop is asked for. -/
inductive Commission where
  | nodeId
  | node (kind x y : Value)
  | component (kind x y page : Value)
deriving DecidableEq

/-- How many ids were drawn from a supply. -/
def count (w : Workshop) : Supply → Nat
  | .nodes => w.nodes
  | .components => w.components

/-- The id that comes of a commission, if one does, and the workshop after it. -/
def fill (w : Workshop) : Commission → Except Fault (Option String × Workshop)
  | .nodeId => return (← w.nodeId).map some id
  | .node kind x y => return (← w.node? kind x y).map (·.map (·.id)) id
  | .component kind x y page => return (← w.component? kind x y page).map (·.map (·.id)) id

/-- The ids that come of one commission after the other, each with the time at which it is given.
One that fails leaves the workshop as it was. -/
def ids (w : Workshop) : List (Num × Commission) → List String
  | [] => []
  | (clock, commission) :: rest =>
    match { w with clock }.fill commission with
    | .ok (id?, next) => id?.toList ++ next.ids rest
    | .error _ => w.ids rest

/-- An id is drawn from a supply. -/
structure Draws (w : Workshop) (s : Supply) (id : String) (next : Workshop) : Prop where
  text : ∃ time, id = s.idText time (w.count s)
  count : ∀ s', next.count s' = if s' = s then w.count s' + 1 else w.count s'

variable {w next : Workshop} {id : String} {id? : Option String}
  {commissions : List (Num × Commission)}

theorem exists_of_stamp {text : String} (read : w.stamp = .ok text) :
    ∃ time, text = Number.intText time := by
  unfold stamp at read
  cases shown : Timestamp.stamp w.clock with
  | error => simp [shown, Except.map] at read
  | ok time => exact ⟨time, by simpa [shown, Except.map] using read.symm⟩

theorem draws_of_nodeId (done : w.nodeId = .ok (id, next)) : w.Draws .nodes id next := by
  obtain ⟨text, read, made⟩ := bind_eq_ok.mp done
  obtain ⟨time, rfl⟩ := exists_of_stamp read
  cases made
  exact ⟨⟨time, rfl⟩, fun s' => by cases s' <;> rfl⟩

theorem draws_of_componentId (done : w.componentId = .ok (id, next)) :
    w.Draws .components id next := by
  obtain ⟨text, read, made⟩ := bind_eq_ok.mp done
  obtain ⟨time, rfl⟩ := exists_of_stamp read
  cases made
  exact ⟨⟨time, rfl⟩, fun s' => by cases s' <;> rfl⟩

/-- A commission draws one id from one supply, or none and leaves the workshop alone. -/
theorem fill_cases {commission : Commission} (done : w.fill commission = .ok (id?, next)) :
    (id? = none ∧ next = w) ∨ ∃ s id, id? = some id ∧ w.Draws s id next := by
  cases commission with
  | nodeId =>
    obtain ⟨⟨id, next⟩, drawn, answer⟩ := bind_eq_ok.mp done
    cases answer
    exact .inr ⟨.nodes, id, rfl, draws_of_nodeId drawn⟩
  | node kind x y =>
    obtain ⟨⟨made?, next⟩, made, answer⟩ := bind_eq_ok.mp done
    cases answer
    obtain ⟨known?, -, made⟩ := bind_eq_ok.mp made
    cases known? with
    | none =>
      cases made
      exact .inl ⟨rfl, rfl⟩
    | some kind =>
      obtain ⟨⟨id, next⟩, drawn, made⟩ := bind_eq_ok.mp made
      cases made
      exact .inr ⟨.nodes, id, rfl, draws_of_nodeId drawn⟩
  | component kind x y page =>
    obtain ⟨⟨made?, next⟩, made, answer⟩ := bind_eq_ok.mp done
    cases answer
    obtain ⟨known?, -, made⟩ := bind_eq_ok.mp made
    cases known? with
    | none =>
      cases made
      exact .inl ⟨rfl, rfl⟩
    | some kind =>
      obtain ⟨⟨id, next⟩, drawn, made⟩ := bind_eq_ok.mp made
      cases made
      exact .inr ⟨.components, id, rfl, draws_of_componentId drawn⟩

/-- Whatever is drawn in a row of commissions was not drawn before. -/
theorem exists_of_mem_ids (member : id ∈ w.ids commissions) :
    ∃ s time count, id = Supply.idText s time count ∧ w.count s ≤ count := by
  induction commissions generalizing w with
  | nil => cases member
  | cons first rest ih =>
    obtain ⟨clock, commission⟩ := first
    rw [ids] at member
    split at member
    next id? next done =>
      rcases fill_cases done with ⟨rfl, rfl⟩ | ⟨s, id', rfl, drawn⟩
      · exact ih (w := { w with clock }) member
      · rcases List.mem_cons.mp member with rfl | later
        · obtain ⟨time, text⟩ := drawn.text
          exact ⟨s, time, _, text, Nat.le_refl _⟩
        · obtain ⟨s', time, count, text, reached⟩ := ih later
          refine ⟨s', time, count, text, Nat.le_trans ?_ reached⟩
          rw [drawn.count]
          split
          · exact Nat.le_succ _
          · exact Nat.le_refl _
    next => exact ih member

/-- In whatever order nodes, components and ids are asked for, and whatever the clock shows each
time, no id comes twice. -/
theorem nodup_ids (w : Workshop) (commissions : List (Num × Commission)) :
    (w.ids commissions).Nodup := by
  induction commissions generalizing w with
  | nil => exact List.nodup_nil
  | cons first rest ih =>
    obtain ⟨clock, commission⟩ := first
    rw [ids]
    split
    next id? next done =>
      rcases fill_cases done with ⟨rfl, rfl⟩ | ⟨s, id, rfl, drawn⟩
      · exact ih _
      · refine List.nodup_cons.mpr ⟨fun again => ?_, ih next⟩
        -- the count of a later id from the same supply is higher
        obtain ⟨time, text⟩ := drawn.text
        obtain ⟨s', time', count, text', reached⟩ := exists_of_mem_ids again
        obtain ⟨rfl, rfl⟩ := Supply.idText_inj (text.symm.trans text')
        rw [drawn.count, if_pos rfl] at reached
        exact absurd reached (Nat.not_succ_le_self _)
    next => exact ih w

/-- The clock goes back. -/
example :
    ids { clock := .int 0 } [(.int 5, .nodeId), (.int 5, .node (.str "log") .null .null),
      (.int (-5), .component (.str "button") .null .null .null), (.int 5, .nodeId)]
        = ["node_5_0", "node_5_1", "ui_-5_0", "node_5_2"] := by
  decide +kernel

end Workshop

end Wireboard
