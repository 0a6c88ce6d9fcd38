import Mathlib.Data.List.Induction
import Wireboard.Table

/-!
# Tables without repeated names

A table that is built by `put` alone has every name once.  For such a table to be in it and to be
found in it are the same, and building it again from its entries changes nothing, not even the
order.
-/

namespace Wireboard.Table

variable {α β : Type}

theorem get?_eq_find? (t : Table α) (name : String) :
    t.get? name = (t.find? (·.1 == name)).map (·.2) := by
  induction t with
  | nil => rfl
  | cons e rest ih =>
    obtain ⟨n, b⟩ := e
    by_cases same : n = name <;> simp [same, ih]

theorem mem_of_get? {t : Table α} {name : String} {a : α} (found : t.get? name = some a) :
    (name, a) ∈ t := by
  rw [get?_eq_find?, Option.map_eq_some_iff] at found
  obtain ⟨e, found, rfl⟩ := found
  obtain rfl : e.1 = name := by simpa using List.find?_some found
  exact List.mem_of_find?_eq_some found

theorem get?_eq_none_iff {t : Table α} {name : String} : t.get? name = none ↔ name ∉ t.names := by
  rw [get?_eq_find?, Option.map_eq_none_iff, List.find?_eq_none, names, List.mem_map]
  grind

/-- What is in the table is found there. -/
theorem get?_of_mem {t : Table α} {name : String} {a : α} (distinct : t.names.Nodup)
    (member : (name, a) ∈ t) : t.get? name = some a := by
  induction t with
  | nil => cases member
  | cons e rest ih =>
    obtain ⟨n, b⟩ := e
    obtain ⟨fresh, distinct⟩ := List.nodup_cons.mp distinct
    rw [get?_cons]
    rcases List.mem_cons.mp member with same | later
    · cases same
      exact if_pos rfl
    · have other : n ≠ name := by
        rintro rfl
        exact fresh (List.mem_map.mpr ⟨_, later, rfl⟩)
      rw [if_neg other]
      exact ih distinct later

@[simp] theorem get?_append (t u : Table α) (name : String) :
    get? (t ++ u) name = (t.get? name).or (u.get? name) := by
  simp [get?_eq_find?, Option.map_or]

variable {e : String × α}

theorem mem_put {t : Table α} {name : String} {a : α} (member : e ∈ t.put name a) :
    e ∈ t ∨ e = (name, a) := by
  induction t with
  | nil => exact .inr (List.mem_singleton.mp member)
  | cons first rest ih =>
    obtain ⟨n, b⟩ := first
    unfold put at member
    split at member
    next same =>
      rcases List.mem_cons.mp member with new | old
      · rw [same] at new
        exact .inr new
      · exact .inl (List.mem_cons_of_mem _ old)
    next =>
      rcases List.mem_cons.mp member with head | later
      · rw [head]
        exact .inl List.mem_cons_self
      · exact (ih later).imp_left (List.mem_cons_of_mem _)

/-- A table that has every name once still has after an entry was put into it. -/
theorem nodup_names_put {t : Table α} (name : String) (a : α) (distinct : t.names.Nodup) :
    (t.put name a).names.Nodup := by
  rw [names_put]
  split
  next => exact distinct
  next fresh =>
    have absent : name ∉ t.names := by
      rw [← get?_eq_none_iff]
      simpa [has] using fresh
    refine List.nodup_append.mpr ⟨distinct, List.pairwise_singleton _ _, ?_⟩
    rintro other member _ last rfl
    rw [List.mem_singleton.mp last] at member
    exact absent member

variable {es : List (String × α)}

@[simp] theorem ofEntries_concat (es : List (String × α)) (e : String × α) :
    ofEntries (es ++ [e]) = (ofEntries es).put e.1 e.2 :=
  List.foldl_append

/-- Of the entries under one name the last one counts. -/
theorem get?_ofEntries (es : List (String × α)) (name : String) :
    (ofEntries es).get? name = (es.findRev? (·.1 == name)).map (·.2) := by
  rw [List.findRev?_eq_find?_reverse]
  induction es using List.reverseRecOn with
  | nil => rfl
  | append_singleton es e ih =>
    rw [ofEntries_concat, get?_put, ih, List.reverse_append]
    by_cases same : e.1 = name <;> simp [same]

/-- A table has the names of the entries it is made of. -/
@[simp] theorem has_ofEntries (es : List (String × α)) (name : String) :
    (ofEntries es).has name = es.any (·.1 == name) := by
  rw [has, get?_ofEntries, Option.isSome_map, List.findRev?_eq_find?_reverse,
    List.isSome_find?, List.any_reverse]

/-- The names stand in the order in which they first came. -/
theorem names_ofEntries (es : List (String × α)) :
    (ofEntries es).names = (es.map (·.1)).eraseDups := by
  induction es using List.reverseRecOn with
  | nil => rfl
  | append_singleton es e ih =>
    have seen : (ofEntries es).has e.1 = (es.map (·.1)).contains e.1 := by
      rw [has_ofEntries, List.contains_eq_any_beq, List.any_map]
      exact congrArg es.any (funext fun _ => Bool.beq_comm)
    rw [ofEntries_concat, names_put, ih, seen, List.map_append, List.eraseDups_append,
      List.map_singleton, List.cons_removeAll, List.nil_removeAll]
    cases (es.map (·.1)).contains e.1 <;> simp [List.eraseDups_cons]

theorem nodup_names_ofEntries (es : List (String × α)) : (ofEntries es).names.Nodup := by
  induction es using List.reverseRecOn with
  | nil => exact List.nodup_nil
  | append_singleton es e ih =>
    rw [ofEntries_concat]
    exact nodup_names_put e.1 e.2 ih

theorem mem_of_mem_ofEntries (member : e ∈ ofEntries es) : e ∈ es := by
  induction es using List.reverseRecOn with
  | nil => cases member
  | append_singleton es last ih =>
    rw [ofEntries_concat] at member
    rcases mem_put member with old | new
    · exact List.mem_append_left _ (ih old)
    · exact List.mem_append_right _ (List.mem_singleton.mpr new)

theorem erase_of_not_mem {t : Table α} {name : String} (absent : name ∉ t.names) :
    t.erase name = t := by
  refine List.filter_eq_self.mpr fun e member => ?_
  have other : e.1 ≠ name := by
    rintro rfl
    exact absent (List.mem_map_of_mem member)
  simpa using other

theorem put_of_not_mem {t : Table α} {name : String} (a : α) (fresh : name ∉ t.names) :
    t.put name a = t ++ [(name, a)] := by
  induction t with
  | nil => rfl
  | cons e rest ih =>
    obtain ⟨n, b⟩ := e
    rw [names, List.map_cons, List.mem_cons, not_or] at fresh
    rw [put, if_neg (Ne.symm fresh.1), ih fresh.2]
    rfl

theorem putAll_of_nodup {t : Table α} (distinct : (t.names ++ Table.names es).Nodup) :
    t.putAll es = t ++ es := by
  induction es generalizing t with
  | nil => exact (List.append_nil t).symm
  | cons e rest ih =>
    have fresh : e.1 ∉ t.names := fun member =>
      (List.nodup_append.mp distinct).2.2 e.1 member e.1 List.mem_cons_self rfl
    have step : putAll t (e :: rest) = putAll (t ++ [e]) rest := by
      rw [putAll, List.foldl_cons, put_of_not_mem e.2 fresh]
      rfl
    rw [step, ih, List.append_assoc, List.singleton_append]
    simpa [names] using distinct

/-- A table that has every name once is made of its own entries. -/
theorem ofEntries_of_nodup {t : Table α} (distinct : t.names.Nodup) : ofEntries t = t :=
  putAll_of_nodup (t := []) distinct

/-! ## Names and entries that are changed

Where different names become different names, a table can be changed before or after.
-/

section Map

variable {g : String → String} (injective : ∀ {x y}, g x = g y → x = y) (f : α → β) (t : Table α)
  (name : String)
include injective

theorem get?_map : get? (t.map (Prod.map g f)) (g name) = (t.get? name).map f := by
  have same (n : String) : g n = g name ↔ n = name := ⟨injective, congrArg g⟩
  induction t with
  | nil => rfl
  | cons e rest ih =>
    obtain ⟨n, a⟩ := e
    rw [List.map_cons, Prod.map_apply, get?_cons, get?_cons, ih]
    simp only [same]
    split <;> rfl

theorem put_map (a : α) :
    put (t.map (Prod.map g f)) (g name) (f a) = (t.put name a).map (Prod.map g f) := by
  induction t with
  | nil => rfl
  | cons e rest ih =>
    obtain ⟨n, b⟩ := e
    rw [List.map_cons, Prod.map_apply, put, put, ih]
    by_cases same : n = name
    · rw [if_pos same, if_pos (congrArg g same), List.map_cons, Prod.map_apply]
    · rw [if_neg same, if_neg fun equal => same (injective equal), List.map_cons, Prod.map_apply]

theorem erase_map : erase (t.map (Prod.map g f)) (g name) = (t.erase name).map (Prod.map g f) := by
  rw [erase, erase, List.filter_map]
  refine congrArg _ (List.filter_congr fun e _ => ?_)
  by_cases same : e.1 = name
  · simp [same]
  · have different : g e.1 ≠ g name := fun equal => same (injective equal)
    exact (bne_iff_ne.mpr different).trans (bne_iff_ne.mpr same).symm

end Map

/-! ## Parts of tables

The entries under some of the names are a table of their own.
-/

section Filter

variable (p : String → Bool) (t : Table α) (name : String)

theorem get?_filter {p : String → Bool} {name : String} (inside : p name = true) (t : Table α) :
    get? (t.filter fun e => p e.1) name = t.get? name := by
  rw [get?_eq_find?, get?_eq_find?, List.find?_filter]
  refine congrArg (Option.map _) (congrArg (t.find? ·) (funext fun e => ?_))
  by_cases same : e.1 = name <;> simp [same, inside]

theorem filter_put (a : α) :
    (t.put name a).filter (fun e => p e.1)
      = if p name then put (t.filter fun e => p e.1) name a else t.filter fun e => p e.1 := by
  induction t with
  | nil => cases inside : p name <;> simp [put, inside]
  | cons e rest ih =>
    obtain ⟨n, b⟩ := e
    rw [put]
    by_cases same : n = name
    · cases inside : p name <;> simp [put, same, inside]
    · rw [if_neg same, List.filter_cons, ih, List.filter_cons]
      cases p n <;> cases p name <;> simp [put, same]

theorem filter_erase :
    (t.erase name).filter (fun e => p e.1) = erase (t.filter fun e => p e.1) name := by
  simp only [erase, List.filter_filter, Bool.and_comm]

end Filter

end Wireboard.Table
