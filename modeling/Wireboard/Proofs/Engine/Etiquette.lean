import Wireboard.Engine.Script

/-!
# Reading scripts

A script is a tree, so what it may ever do can be read off before anybody plays it.  An etiquette is
a rule for reading: it says which acts, requests and calls are in order at every point of the tree,
and between which replies a script has to make no difference.  What it says may depend on what has
gone before, as far as the *mode* tells: an act with its reply leads from one mode to the next, and
so do the answer to a request and the return of a job that was called.  A job that is called begins
in a mode of its own.

`Script.Follows` reads the whole tree and says in which modes, and with which values, it may end.
The lemmas below follow the ways in which attempts are put together, so that a proof about a body is
as long as the body and has its shape:

* `From μ x Q`: the attempt `x` follows the etiquette when it begins in the mode `μ`, and ends as
  `Q` says;
* `Throughout x`: it does so from every ordinary mode, and ends in an ordinary one, so it may stand
  nearly anywhere.
-/

namespace Wireboard

variable {α β : Type}

/-- What a listener answers that does nothing. -/
def Callback.idleAnswer : Callback → Value
  | .input _ => .str ""
  | .setText _ _ | .setStyle _ _ _ | .alert _ | .log _ _ | .navigate _ => .null

/-- What a listener does that does nothing. -/
def Callback.idle (c : Callback) : Reaction := { result := .ok c.idleAnswer }

/-- Nobody listens, or somebody who does nothing; an alert has to be heard. -/
def Act.Unheard : (a : Act) → a.Reply → a.Reply → Prop
  | .callback (.alert _), _, _ => False
  | .callback c, heard?, heard?' => heard? = none ∧ heard?' = some c.idle
  | _, _, _ => False

/-- The act calls a listener. -/
def Act.callsListener : Act → Bool
  | .callback _ => true
  | _ => false

/-- The act begins a call of a function, which the script has to end. -/
def Act.opensFrame : Act → Bool
  | .push _ => true
  | _ => false

/-- The act opens a pull. -/
def Act.opensPull : Act → Bool
  | .enter _ => true
  | _ => false

variable {a : Act}

theorem Act.not_unheard {r r' : a.Reply} (quiet : a.callsListener = false) : ¬ a.Unheard r r' := by
  cases a with
  | callback c => cases quiet
  | _ => exact id

/-- For a rule that never asks a script to go on in the same way. -/
theorem Act.unheard_of_false {a : Act} {r r' : a.Reply} (h : False) : a.Unheard r r' := h.elim

/-- A rule for what scripts do. -/
structure Etiquette where
  /-- What a script is in the middle of. -/
  Mode : Type
  /-- Nothing out of the ordinary is under way. -/
  ordinary : Mode → Prop
  /-- A node may go to work. -/
  ready : Mode → Prop
  /-- A job may end. -/
  ends : Mode → Prop
  /-- The node may be named in a call. -/
  ground : String → Prop
  /-- The act is in order. -/
  allows : Mode → Act → Prop
  /-- The reply can be given. -/
  expects : (a : Act) → a.Reply → Prop
  /-- The script has to go on in the same way after either reply. -/
  alike : (a : Act) → a.Reply → a.Reply → Prop
  /-- The mode after an act. -/
  after : Mode → (a : Act) → a.Reply → Mode
  /-- The request is in order. -/
  asks : Mode → Request → Prop
  /-- The mode after the answer. -/
  answered : Mode → Mode
  /-- The call is in order. -/
  calls : Mode → Job → Prop
  /-- The mode in which a job begins that was called. -/
  entered : Mode → Job → Mode
  /-- The mode after its return. -/
  returned : Mode → Job → Except Fault Value → Mode
  ordinary_of_ready : ∀ {μ}, ready μ → ordinary μ
  ends_of_ordinary : ∀ {μ}, ordinary μ → ends μ
  ordinary_after : ∀ {μ} (a : Act) (r : a.Reply), a.opensFrame = false → ordinary μ →
    ordinary (after μ a r)
  ordinary_answered : ∀ {μ}, ordinary μ → ordinary (answered μ)
  ordinary_returned : ∀ {μ} (j : Job) (x : Except Fault Value), ordinary μ →
    ordinary (returned μ j x)
  unheard_of_alike : ∀ {a : Act} {r r' : a.Reply}, alike a r r' → a.Unheard r r'

namespace Etiquette

/-- A rule whose modes are all ordinary, for acts and calls alone. -/
abbrev plain (Mode : Type) (allows : Mode → Act → Prop) (calls : Mode → Job → Prop)
    (after : Mode → (a : Act) → a.Reply → Mode) (answered : Mode → Mode)
    (entered : Mode → Job → Mode) (returned : Mode → Job → Except Fault Value → Mode) :
    Etiquette where
  Mode := Mode
  ordinary _ := True
  ready _ := True
  ends _ := True
  ground _ := True
  allows := allows
  expects _ _ := True
  alike _ _ _ := False
  after := after
  asks _ _ := True
  answered := answered
  calls := calls
  entered := entered
  returned := returned
  ordinary_of_ready _ := trivial
  ends_of_ordinary _ := trivial
  ordinary_after _ _ _ _ := trivial
  ordinary_answered _ := trivial
  ordinary_returned _ _ _ := trivial
  unheard_of_alike := Act.unheard_of_false

/-- Certain acts and certain calls are in order, whatever has gone before. -/
abbrev steady (A : Act → Prop) (C : Job → Prop) : Etiquette :=
  plain Unit (fun _ => A) (fun _ => C) (fun _ _ _ => ()) id (fun _ _ => ()) fun _ _ _ => ()

end Etiquette

/-- The script follows the etiquette when it begins in a mode, whatever it is told on the way, and
ends in such modes and with such values as the condition says. -/
def Script.Follows (E : Etiquette) (Q : E.Mode → α → Prop) : E.Mode → Script α → Prop
  | μ, .ret a => Q μ a
  | μ, .act a next => E.allows μ a ∧ (∀ r r', E.alike a r r' → next r = next r') ∧
      ∀ r, E.expects a r → (next r).Follows E Q (E.after μ a r)
  | μ, .wait r next => E.asks μ r ∧ ∀ x, (next x).Follows E Q (E.answered μ)
  | μ, .call j next => E.calls μ j ∧ ∀ x, (next x).Follows E Q (E.returned μ j x)

namespace Script

@[simp] theorem bind_ret (x : Script α) : x.bind .ret = x := by
  induction x with
  | ret a => rfl
  | act a next ih => exact congrArg (Script.act a) (funext ih)
  | wait r next ih => exact congrArg (Script.wait r) (funext ih)
  | call j next ih => exact congrArg (Script.call j) (funext ih)

variable {E : Etiquette} {μ : E.Mode}

/-- What comes second begins where the first part ends. -/
theorem follows_bind {s : Script α} {f : α → Script β} {P : E.Mode → α → Prop}
    {Q : E.Mode → β → Prop} (h : s.Follows E P μ)
    (next : ∀ ν a, P ν a → (f a).Follows E Q ν) : (s.bind f).Follows E Q μ := by
  induction s generalizing μ with
  | ret a => exact next μ a h
  | act a next ih =>
    refine ⟨h.1, fun r r' same => ?_, fun r expected => ih r (h.2.2 r expected)⟩
    exact congrArg (bind · f) (h.2.1 r r' same)
  | wait r next ih => exact ⟨h.1, fun x => ih x (h.2 x)⟩
  | call j next ih => exact ⟨h.1, fun x => ih x (h.2 x)⟩

end Script

namespace Etiquette

variable {E : Etiquette} {μ : E.Mode}

/-- The attempt follows the etiquette when it begins in the mode, and ends as the condition says. -/
def From (E : Etiquette) (μ : E.Mode) (x : Attempt α) (Q : E.Mode → Except Fault α → Prop) : Prop :=
  x.run.Follows E Q μ

/-- The attempt follows the etiquette wherever nothing out of the ordinary is under way. -/
def Throughout (E : Etiquette) (x : Attempt α) : Prop :=
  ∀ μ, E.ordinary μ → E.From μ x fun ν _ => E.ordinary ν

variable {x : Attempt α} {f : α → Attempt β}

section From

variable {Q : E.Mode → Except Fault β → Prop}

theorem from_mono {P : E.Mode → Except Fault β → Prop} {x : Attempt β} (hx : E.From μ x P)
    (weaker : ∀ ν r, P ν r → Q ν r) : E.From μ x Q := by
  rw [From, ← Script.bind_ret x.run]
  exact Script.follows_bind hx weaker

theorem from_pure {b : β} (h : Q μ (.ok b)) : E.From μ (pure b) Q := h

theorem from_throw {f : Fault} (h : Q μ (.error f)) : E.From μ (throw f) Q := h

/-- One attempt after the other; a failure of the first is a failure of both. -/
theorem from_bind {P : E.Mode → Except Fault α → Prop} (hx : E.From μ x P)
    (ok : ∀ ν a, P ν (.ok a) → E.From ν (f a) Q) (error : ∀ ν e, P ν (.error e) → Q ν (.error e)) :
    E.From μ (x >>= f) Q := by
  refine Script.follows_bind (s := x.run) hx fun ν r h => ?_
  cases r with
  | ok a => exact ok ν a h
  | error e => exact error ν e h

/-- An act that calls no listener; what follows knows of the reply. -/
theorem from_act_bind {f : a.Reply → Attempt β} (quiet : a.callsListener = false)
    (allowed : E.allows μ a) (next : ∀ r, E.expects a r → E.From (E.after μ a r) (f r) Q) :
    E.From μ (Attempt.act a >>= f) Q :=
  ⟨allowed, fun _ _ same => absurd (E.unheard_of_alike same) (Act.not_unheard quiet), next⟩

theorem from_act {P : E.Mode → Except Fault a.Reply → Prop} (quiet : a.callsListener = false)
    (allowed : E.allows μ a) (ends : ∀ r, E.expects a r → P (E.after μ a r) (.ok r)) :
    E.From μ (Attempt.act a) P :=
  ⟨allowed, fun _ _ same => absurd (E.unheard_of_alike same) (Act.not_unheard quiet), ends⟩

theorem from_call {j : Job} {P : E.Mode → Except Fault Value → Prop} (called : E.calls μ j)
    (ends : ∀ x, P (E.returned μ j x) x) : E.From μ (Attempt.call j) P :=
  ⟨called, ends⟩

/-- A result that is there already takes no act. -/
theorem from_ofExcept_bind {r : Except Fault α} (ok : ∀ a, r = .ok a → E.From μ (f a) Q)
    (error : ∀ e, r = .error e → Q μ (.error e)) : E.From μ (Attempt.ofExcept r >>= f) Q := by
  cases r with
  | ok a => exact ok a rfl
  | error e => exact error e rfl

/-- An attempt that is watched goes on where it ended, well or badly. -/
theorem from_tryCatch {x : Attempt β} {h : Fault → Attempt β} {P : E.Mode → Except Fault β → Prop}
    (hx : E.From μ x P) (ok : ∀ ν b, P ν (.ok b) → Q ν (.ok b))
    (error : ∀ ν f, P ν (.error f) → E.From ν (h f) Q) : E.From μ (tryCatch x h) Q := by
  refine Script.follows_bind (s := x.run) hx fun ν r ended => ?_
  cases r with
  | ok b => exact ok ν b ended
  | error f => exact error ν f ended

theorem from_capture {Q : E.Mode → Except Fault (Except Fault α) → Prop}
    (hx : E.From μ x fun ν r => Q ν (.ok r)) : E.From μ (Attempt.capture x) Q :=
  Script.follows_bind (s := x.run) hx fun _ _ ended => ended

/-- To throw a result away changes nothing about how it was found. -/
theorem from_discard {Q : E.Mode → Except Fault PUnit → Prop} {P : E.Mode → Except Fault α → Prop}
    (hx : E.From μ x P) (ok : ∀ ν a, P ν (.ok a) → Q ν (.ok ⟨⟩))
    (error : ∀ ν e, P ν (.error e) → Q ν (.error e)) : E.From μ (discard x) Q :=
  from_bind (f := fun _ => pure PUnit.unit) hx ok error

/-- Each branch may rely on the way the choice went. -/
theorem from_ite {c : Prop} [Decidable c] {x y : Attempt β} (hx : c → E.From μ x Q)
    (hy : ¬ c → E.From μ y Q) : E.From μ (if c then x else y) Q := by
  split
  next h => exact hx h
  next h => exact hy h

end From

/-! ## From every ordinary mode -/

theorem throughout_pure (a : α) : E.Throughout (pure a : Attempt α) := fun _ usual => usual

theorem throughout_ofExcept (r : Except Fault α) : E.Throughout (Attempt.ofExcept r) :=
  fun _ usual => usual

/-- What is ordinary after the first part stays so. -/
theorem from_usual_bind (hx : E.From μ x fun ν _ => E.ordinary ν) (hf : ∀ a, E.Throughout (f a)) :
    E.From μ (x >>= f) fun ν _ => E.ordinary ν :=
  from_bind hx (fun ν a usual => hf a ν usual) fun _ _ usual => usual

theorem throughout_bind (hx : E.Throughout x) (hf : ∀ a, E.Throughout (f a)) :
    E.Throughout (x >>= f) :=
  fun μ usual => from_usual_bind (hx μ usual) hf

theorem throughout_bind_pure {g : α → β} (hx : E.Throughout x) :
    E.Throughout (x >>= fun a => pure (g a)) :=
  throughout_bind hx fun _ => throughout_pure _

theorem throughout_ofExcept_bind {r : Except Fault α} (hf : ∀ a, E.Throughout (f a)) :
    E.Throughout (Attempt.ofExcept r >>= f) :=
  throughout_bind (throughout_ofExcept r) hf

theorem throughout_discard (hx : E.Throughout x) : E.Throughout (discard x) :=
  fun μ usual => from_discard (hx μ usual) (fun _ _ usual => usual) fun _ _ usual => usual

theorem throughout_act (quiet : a.callsListener = false) (plain : a.opensFrame = false)
    (allowed : ∀ μ, E.ordinary μ → E.allows μ a) : E.Throughout (Attempt.act a) :=
  fun μ usual => from_act quiet (allowed μ usual) fun r _ => E.ordinary_after a r plain usual

theorem throughout_wait {r : Request} (asked : ∀ μ, E.ordinary μ → E.asks μ r) :
    E.Throughout (Attempt.wait r) :=
  fun μ usual => ⟨asked μ usual, fun _ => E.ordinary_answered usual⟩

theorem throughout_call {j : Job} (called : ∀ μ, E.ordinary μ → E.calls μ j) :
    E.Throughout (Attempt.call j) :=
  fun μ usual => from_call (called μ usual) fun x => E.ordinary_returned j x usual

theorem throughout_tryCatch {h : Fault → Attempt α} (hx : E.Throughout x)
    (hh : ∀ f, E.Throughout (h f)) : E.Throughout (tryCatch x h) :=
  fun μ usual => from_tryCatch (hx μ usual) (fun _ _ usual => usual) fun ν f usual => hh f ν usual

theorem throughout_capture (hx : E.Throughout x) : E.Throughout (Attempt.capture x) :=
  fun μ usual => from_capture (hx μ usual)

theorem throughout_ite {c : Prop} [Decidable c] {y : Attempt α} (hx : E.Throughout x)
    (hy : E.Throughout y) : E.Throughout (if c then x else y) :=
  fun μ usual => from_ite (fun _ => hx μ usual) fun _ => hy μ usual

theorem throughout_forM {xs : List β} {f : β → Attempt PUnit}
    (hf : ∀ x ∈ xs, E.Throughout (f x)) : E.Throughout (xs.forM f) := by
  induction xs with
  | nil => exact throughout_pure _
  | cons x rest ih =>
    have first : E.Throughout (f x) := hf x List.mem_cons_self
    have others : E.Throughout (rest.forM f) := ih fun y hy => hf y (List.mem_cons_of_mem _ hy)
    exact throughout_bind first fun _ => others

end Etiquette

end Wireboard
