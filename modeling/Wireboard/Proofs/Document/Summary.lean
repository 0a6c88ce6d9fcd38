import Wireboard.Document.Summary

/-!
# The order of summaries

Summaries whose last change has a text for its time can always be put in order (`exists_sort`): the
result has the same members, and no summary stands behind one that is older.  So lists with the same
members are put in the same order, up to summaries of one time (`sort_of_perm`).

A document may have anything for the time of its last change.  Values that cannot be compared, or
only further down than there is room for, stop the sort.  Which of them are compared is the sort's
own affair, so this is said in two steps: where any two summaries can be compared there is a result
(`exists_sort_of_comparable`), and where there is one all times are on one scale
(`oneScale_of_sort`).
-/

namespace Wireboard

variable {list sorted : List Summary} {s t : Summary} {reach : Reach}

namespace Summary

/-- The summary has a text for the time of its last change. -/
def Timed (s : Summary) : Prop := ∃ time, s.updatedAt = .str time

/-- The text for the time of the last change. -/
def time (s : Summary) : String :=
  match s.updatedAt with
  | .str time => time
  | _ => ""

theorem Timed.updatedAt (timed : s.Timed) : s.updatedAt = .str s.time := by
  obtain ⟨time, eq⟩ := timed
  rw [Summary.time, eq]

theorem Timed.key (timed : s.Timed) : s.key = .str s.time := by
  rw [Summary.key, timed.updatedAt, Value.orElse]
  by_cases empty : s.time = ""
  · rw [empty]
    rfl
  · rw [if_neg (by simpa [Value.isVacant] using empty)]

/-- No summary stands behind one that is older. -/
def Sorted (list : List Summary) : Prop := list.Pairwise fun s t => ¬ Text.Precedes s.time t.time

theorem insert_of_precedes {x : Bool} (ok : reach.precedes t.key s.key = .ok x)
    (rest : List Summary) :
    insert reach s (t :: rest)
      = if x then .ok (s :: t :: rest) else (insert reach s rest).map (t :: ·) := by
  rw [insert, ok]
  cases x with
  | true => rfl
  | false => cases insert reach s rest <;> rfl

theorem insert_cons (own : s.Timed) (first : t.Timed) (rest : List Summary) :
    insert reach s (t :: rest)
      = if Text.Precedes t.time s.time then .ok (s :: t :: rest)
        else (insert reach s rest).map (t :: ·) := by
  have compared : reach.precedes t.key s.key = .ok (decide (Text.Precedes t.time s.time)) := by
    rw [own.key, first.key, Reach.precedes, if_pos (reach.compares_flat _ _ rfl rfl),
      Value.precedes]
  rw [insert_of_precedes compared]
  simp only [decide_eq_true_eq]

/-- A summary finds its place in a list that is in order. -/
theorem exists_insert (reach : Reach) (own : s.Timed) (timed : ∀ t ∈ list, t.Timed)
    (sorted : Sorted list) :
    ∃ out, insert reach s list = .ok out ∧ out.Perm (s :: list) ∧ Sorted out := by
  induction list with
  | nil => exact ⟨[s], rfl, .refl _, List.pairwise_singleton _ _⟩
  | cons t rest ih =>
    obtain ⟨first, others⟩ := List.forall_mem_cons.mp timed
    obtain ⟨newest, inner⟩ := List.pairwise_cons.mp sorted
    rw [insert_cons own first]
    by_cases older : Text.Precedes t.time s.time
    · rw [if_pos older]
      refine ⟨_, rfl, .refl _, List.pairwise_cons.mpr ⟨fun u member => ?_, sorted⟩⟩
      rcases List.mem_cons.mp member with rfl | later
      · exact older.asymm
      · exact Text.not_precedes_trans (newest u later) older.asymm
    · obtain ⟨out, found, perm, ordered⟩ := ih others inner
      rw [if_neg older, found]
      refine ⟨t :: out, rfl, (perm.cons t).trans (.swap s t rest), ?_⟩
      refine List.pairwise_cons.mpr ⟨fun u member => ?_, ordered⟩
      rcases List.mem_cons.mp (perm.mem_iff.mp member) with rfl | later
      · exact older
      · exact newest u later

/-- One summary after the other finds its place among those that are in order already. -/
theorem exists_foldlM (timed : ∀ s ∈ list, s.Timed) (before : ∀ s ∈ sorted, s.Timed)
    (ordered : Sorted sorted) :
    ∃ out, list.foldlM (fun sorted s => insert reach s sorted) sorted = .ok out
      ∧ out.Perm (list ++ sorted) ∧ Sorted out := by
  induction list generalizing sorted with
  | nil => exact ⟨sorted, rfl, .refl _, ordered⟩
  | cons s list ih =>
    obtain ⟨first, others⟩ := List.forall_mem_cons.mp timed
    obtain ⟨next, found, perm, nextOrdered⟩ := exists_insert reach first before ordered
    have nextTimed : ∀ t ∈ next, t.Timed := fun t member =>
      List.forall_mem_cons.mpr ⟨first, before⟩ t (perm.mem_iff.mp member)
    obtain ⟨out, done, outPerm, outOrdered⟩ := ih others nextTimed nextOrdered
    refine ⟨out, ?_, ?_, outOrdered⟩
    · rw [List.foldlM_cons, found]
      exact done
    · calc out.Perm (list ++ next) := outPerm
        _ |>.Perm (list ++ s :: sorted) := perm.append_left list
        _ |>.Perm (s :: list ++ sorted) := List.perm_middle

/-- Summaries with times can be put in order. -/
theorem exists_sort (timed : ∀ s ∈ list, s.Timed) :
    ∃ out, sort list reach = .ok out ∧ out.Perm list ∧ Sorted out := by
  obtain ⟨out, done, perm, ordered⟩ :=
    exists_foldlM timed (List.forall_mem_nil _) List.Pairwise.nil
  exact ⟨out, done, List.append_nil list ▸ perm, ordered⟩

/-- Lists with the same members are put in the same order, up to summaries of one time. -/
theorem sort_of_perm {other : List Summary} (perm : list.Perm other) (timed : ∀ s ∈ list, s.Timed) :
    ∃ out out', sort list = .ok out ∧ sort other = .ok out' ∧ out.Perm out'
      ∧ out.map (·.updatedAt) = out'.map (·.updatedAt) := by
  have otherTimed : ∀ s ∈ other, s.Timed := fun s member => timed s (perm.mem_iff.mpr member)
  obtain ⟨out, done, outPerm, ordered⟩ := exists_sort timed
  obtain ⟨out', done', outPerm', ordered'⟩ := exists_sort otherTimed
  have same : out.Perm out' := outPerm.trans (perm.trans outPerm'.symm)
  have times : out.map time = out'.map time :=
    List.Perm.eq_of_pairwise (fun a b _ _ h h' => Text.eq_of_not_precedes h h')
      (List.pairwise_map.mpr ordered) (List.pairwise_map.mpr ordered') (same.map time)
  have texts {l : List Summary} (all : ∀ s ∈ l, s.Timed) :
      l.map (·.updatedAt) = (l.map time).map .str := by
    rw [List.map_map]
    exact List.map_congr_left fun s member => (all s member).updatedAt
  refine ⟨out, out', done, done', same, ?_⟩
  rw [texts fun s member => timed s (outPerm.mem_iff.mp member),
    texts fun s member => otherTimed s (outPerm'.mem_iff.mp member), times]

/-! ## Times of any kind -/

end Summary

/-- What values are compared by. -/
inductive Scale where
  | text
  | number
  | list
  /-- Values of this kind cannot be compared with anything. -/
  | none
deriving DecidableEq

namespace Value

/-- The scale that a value is on. -/
def scale : Value → Scale
  | .str _ => .text
  | .bool _ | .int _ | .float _ | .nan _ => .number
  | .list _ => .list
  | .null | .obj _ => .none

theorem exists_asNum?_iff {v : Value} : (∃ n, v.asNum? = some n) ↔ v.scale = .number := by
  cases v <;> simp [asNum?, scale]

variable {b : Value}

/-- A number is compared with numbers and with nothing else. -/
theorem exists_precedesNum_iff {v : Value} {a : Num} :
    (∃ x, precedes.precedesNum v a b = .ok x) ↔ b.scale = .number := by
  rw [← exists_asNum?_iff, precedes.precedesNum]
  cases b.asNum? <;> simp

theorem scale_of_precedes {a : Value} {x : Bool} (ok : a.precedes b = .ok x) :
    a.scale = b.scale ∧ a.scale ≠ .none := by
  cases a with
  | bool | int | float | nan =>
    rw [precedes] at ok
    exact ⟨(exists_precedesNum_iff.mp ⟨x, ok⟩).symm, by simp [scale]⟩
  | str | list => cases b <;> simp [precedes, scale] at ok ⊢
  | null | obj => cases b <;> simp [precedes] at ok

/-- Only lists among the values that can be compared have members. -/
theorem isFlat_of_scale {v : Value} (comparable : v.scale ≠ .none) (single : v.scale ≠ .list) :
    v.isFlat = true := by
  cases v with
  | list => exact absurd rfl single
  | obj => exact absurd rfl comparable
  | _ => rfl

/-- Two lists need not be comparable, but all other values on one scale are. -/
theorem exists_precedes {a : Value} (same : a.scale = b.scale) (comparable : a.scale ≠ .none)
    (single : a.scale ≠ .list) : ∃ x, a.precedes b = .ok x := by
  cases a with
  | bool | int | float | nan =>
    rw [precedes]
    exact exists_precedesNum_iff.mpr same.symm
  | str s =>
    cases b with
    | str t => exact ⟨_, by rw [precedes]⟩
    | _ => cases same
  | list => exact absurd rfl single
  | null | obj => exact absurd rfl comparable

end Value

namespace Summary

/-- The times of the last changes can be compared, either way round. -/
def Comparable (reach : Reach) (s t : Summary) : Prop :=
  (∃ x, reach.precedes s.key t.key = .ok x) ∧ ∃ x, reach.precedes t.key s.key = .ok x

/-- The times of the last changes are on one scale. -/
def OneScale (s t : Summary) : Prop := s.key.scale = t.key.scale ∧ s.key.scale ≠ .none

theorem OneScale.symm (same : OneScale s t) : OneScale t s :=
  ⟨same.1.symm, same.1 ▸ same.2⟩

theorem OneScale.trans {u : Summary} (first : OneScale s t) (second : OneScale t u) :
    OneScale s u :=
  ⟨first.1.trans second.1, first.2⟩

theorem OneScale.exists_precedes (same : OneScale s t) (single : s.key.scale ≠ .list) :
    ∃ x, reach.precedes s.key t.key = .ok x := by
  have flat := Value.isFlat_of_scale same.2 single
  have flat' := Value.isFlat_of_scale same.symm.2 (same.1 ▸ single)
  rw [Reach.precedes, if_pos (reach.compares_flat _ _ flat flat')]
  exact Value.exists_precedes same.1 same.2 single

theorem OneScale.comparable (same : OneScale s t) (single : s.key.scale ≠ .list) :
    Comparable reach s t :=
  ⟨same.exists_precedes single, same.symm.exists_precedes (same.1 ▸ single)⟩

theorem oneScale_of_precedes {x : Bool} (ok : reach.precedes s.key t.key = .ok x) :
    OneScale s t := by
  unfold Reach.precedes at ok
  split at ok
  next => exact Value.scale_of_precedes ok
  next => cases ok

theorem exists_insert_of_comparable (comparable : ∀ t ∈ list, Comparable reach t s) :
    ∃ out, insert reach s list = .ok out := by
  induction list with
  | nil => exact ⟨[s], rfl⟩
  | cons t rest ih =>
    obtain ⟨⟨⟨x, ok⟩, -⟩, others⟩ := List.forall_mem_cons.mp comparable
    obtain ⟨out, found⟩ := ih others
    rw [insert_of_precedes ok, found]
    cases x with
    | true => exact ⟨_, rfl⟩
    | false => exact ⟨_, rfl⟩

variable {out : List Summary}

theorem perm_of_insert (ok : insert reach s list = .ok out) : out.Perm (s :: list) := by
  induction list generalizing out with
  | nil =>
    cases ok
    exact .refl _
  | cons t rest ih =>
    cases compared : reach.precedes t.key s.key with
    | error f =>
      rw [insert, compared] at ok
      cases ok
    | ok x =>
      rw [insert_of_precedes compared] at ok
      cases x with
      | true =>
        cases ok
        exact .refl _
      | false =>
        cases found : insert reach s rest with
        | error f =>
          rw [found] at ok
          cases ok
        | ok inner =>
          rw [found] at ok
          cases ok
          exact ((ih found).cons t).trans (.swap s t rest)

/-- A summary that found its place was compared with the first one at least. -/
theorem oneScale_of_insert (ok : insert reach s list = .ok out) (before : list.Pairwise OneScale) :
    (s :: list).Pairwise OneScale := by
  cases list with
  | nil => exact List.pairwise_singleton _ _
  | cons t rest =>
    have first : OneScale s t := by
      cases compared : reach.precedes t.key s.key with
      | error f =>
        rw [insert, compared] at ok
        cases ok
      | ok x => exact (oneScale_of_precedes compared).symm
    refine List.pairwise_cons.mpr ⟨List.forall_mem_cons.mpr ⟨first, fun u member => ?_⟩, before⟩
    exact first.trans ((List.pairwise_cons.mp before).1 u member)

theorem exists_foldlM_of_comparable (comparable : list.Pairwise (Comparable reach))
    (mixed : ∀ s ∈ list, ∀ t ∈ sorted, Comparable reach t s) :
    ∃ out, list.foldlM (fun sorted s => insert reach s sorted) sorted = .ok out := by
  induction list generalizing sorted with
  | nil => exact ⟨sorted, rfl⟩
  | cons s list ih =>
    obtain ⟨first, others⟩ := List.forall_mem_cons.mp mixed
    obtain ⟨own, later⟩ := List.pairwise_cons.mp comparable
    obtain ⟨next, found⟩ := exists_insert_of_comparable first
    rw [List.foldlM_cons, found]
    refine ih later fun u member t inside => ?_
    rcases List.mem_cons.mp ((perm_of_insert found).mem_iff.mp inside) with rfl | old
    · exact own u member
    · exact others u member t old

/-- Summaries any two of which can be compared can be put in order. -/
theorem exists_sort_of_comparable (comparable : list.Pairwise (Comparable reach)) :
    ∃ out, sort list reach = .ok out :=
  exists_foldlM_of_comparable comparable fun _ _ => List.forall_mem_nil _

theorem foldlM_eq_ok (ok : list.foldlM (fun sorted s => insert reach s sorted) sorted = .ok out)
    (before : sorted.Pairwise OneScale) : out.Perm (list ++ sorted) ∧ out.Pairwise OneScale := by
  induction list generalizing sorted with
  | nil =>
    cases ok
    exact ⟨.refl _, before⟩
  | cons s list ih =>
    rw [List.foldlM_cons] at ok
    cases found : insert reach s sorted with
    | error f =>
      rw [found] at ok
      cases ok
    | ok next =>
      rw [found] at ok
      have perm := perm_of_insert found
      have together : next.Pairwise OneScale :=
        (perm.pairwise_iff OneScale.symm).mpr (oneScale_of_insert found before)
      obtain ⟨outPerm, outTogether⟩ := ih ok together
      refine ⟨?_, outTogether⟩
      calc out.Perm (list ++ next) := outPerm
        _ |>.Perm (list ++ s :: sorted) := perm.append_left list
        _ |>.Perm (s :: list ++ sorted) := List.perm_middle

/-- Whatever could be put in order is all there, and its times are on one scale. -/
theorem oneScale_of_sort (ok : sort list reach = .ok out) :
    out.Perm list ∧ list.Pairwise OneScale := by
  obtain ⟨perm, together⟩ := foldlM_eq_ok ok List.Pairwise.nil
  rw [List.append_nil] at perm
  exact ⟨perm, (perm.pairwise_iff OneScale.symm).mp together⟩

end Summary

end Wireboard
