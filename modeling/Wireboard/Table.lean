/-!
# Tables in order of insertion

A table is a list of named entries.  A new name goes to the end; a name that is there already
keeps its place and gets the new entry.  Everything that shows the order of its fields, from
documents to stored data, is such a table.
-/

namespace Wireboard

/-- Named entries, in order of insertion. -/
abbrev Table (α : Type) := List (String × α)

namespace Table

variable {α β : Type}

/-- The entry under a name. -/
def get? (t : Table α) (name : String) : Option α :=
  match t with
  | [] => none
  | (n, a) :: rest => if n = name then some a else get? rest name

def put (t : Table α) (name : String) (a : α) : Table α :=
  match t with
  | [] => [(name, a)]
  | (n, b) :: rest => if n = name then (n, a) :: rest else (n, b) :: put rest name a

/-- Take the entry under a name away. -/
def erase (t : Table α) (name : String) : Table α :=
  t.filter fun e => e.1 != name

def names (t : Table α) : List String := t.map (·.1)

def has (t : Table α) (name : String) : Bool := (t.get? name).isSome

/-- Put the entries of the second table, one after the other, into the first. -/
def putAll (t : Table α) (u : Table α) : Table α :=
  u.foldl (fun acc e => acc.put e.1 e.2) t

/-- The table of a list of entries; the last of several under one name counts. -/
def ofEntries (es : List (String × α)) : Table α := putAll [] es

@[simp] theorem get?_nil (name : String) : get? ([] : Table α) name = none := rfl

@[simp] theorem get?_cons (n : String) (a : α) (rest : Table α) (name : String) :
    get? ((n, a) :: rest) name = if n = name then some a else get? rest name := rfl

@[simp] theorem get?_put (t : Table α) (k name : String) (a : α) :
    (t.put k a).get? name = if k = name then some a else t.get? name := by
  induction t with
  | nil => simp [put, get?]
  | cons e rest ih =>
    obtain ⟨n, b⟩ := e
    by_cases h : n = k
    · subst h
      by_cases h' : n = name <;> simp [put, get?, h']
    · by_cases h' : n = name
      · subst h'
        simp [put, get?, h, Ne.symm h]
      · simp [put, get?, h, h', ih]

/-- A new name goes to the end; one that is there keeps its place. -/
@[simp] theorem names_put (t : Table α) (k : String) (a : α) :
    (t.put k a).names = if t.has k then t.names else t.names ++ [k] := by
  induction t with
  | nil => rfl
  | cons e rest ih =>
    obtain ⟨n, b⟩ := e
    by_cases h : n = k
    · simp [put, names, has, get?, h]
    · have tail : (put rest k a).names = if has rest k then names rest else names rest ++ [k] := ih
      have step : has ((n, b) :: rest) k = has rest k := by simp [has, get?, h]
      rw [step]
      by_cases present : has rest k = true
      · simpa [put, names, h, present] using tail
      · simpa [put, names, h, present] using tail

@[simp] theorem get?_erase (t : Table α) (k name : String) :
    (t.erase k).get? name = if k = name then none else t.get? name := by
  induction t with
  | nil => simp [erase, get?]
  | cons e rest ih =>
    obtain ⟨n, b⟩ := e
    unfold erase at ih ⊢
    by_cases h : n = k
    · subst h
      by_cases h' : n = name
      · simpa [List.filter_cons, h'] using ih
      · simpa [List.filter_cons, get?, h'] using ih
    · by_cases h' : n = name
      · subst h'
        simp [get?, h, Ne.symm h]
      · simpa [List.filter_cons, get?, h, h'] using ih

end Table

end Wireboard
