import TFCommon.Lib.Run
import Mathlib.Algebra.BigOperators.Group.List.Basic

/-! `DerivedStatsIf` of an aggregated map: `DerivedStatsAgg` keeps the aggregates and `DerivedStatsMerge` the objects that the
differences are fed to. Each loop treats every key on its own; only `DerivedStatsMerge` looks at the whole map, and clears all
objects when it is empty. -/
namespace TFCommon.DerivedStats

structure Update (K M : Type) where
  keys : List K
  value : K → M
  del : K → Bool

/-- An object is given by the values that it was fed since it was created. -/
structure StatsMaps (K M : Type) where
  aggm : K → Option M := fun _ => none
  dsm : K → Option (List M) := fun _ => none
  -- The latest raw values.
  raw : K → Option M := fun _ => none

section
variable {K M : Type} [DecidableEq K] [Add M] [Sub M]

def derivedStatsAgg (u : Update K M) (agg : K → Option M) : Update K M × (K → Option M) :=
  let diff : Update K M :=
    { u with
      value := fun k =>
        match agg k with
        | some a => u.value k - a
        | none => u.value k }
  (diff, fun k =>
    if k ∈ u.keys then
      if u.del k then none
      else
        match agg k with
        | some a => some (a + diff.value k)
        | none => some (diff.value k)
    else agg k)

def derivedStatsMerge (u : Update K M) (dsm : K → Option (List M)) : K → Option (List M) :=
  if u.keys = [] then fun _ => none
  else fun k => if k ∈ u.keys then if u.del k then none else some ((dsm k).getD [] ++ [u.value k]) else dsm k

def StatsMaps.update (s : StatsMaps K M) (u : Update K M) : StatsMaps K M :=
  let (diff, aggm) := derivedStatsAgg u s.aggm
  { aggm
    dsm := derivedStatsMerge diff s.dsm
    raw := fun k => if k ∈ u.keys then some (u.value k) else s.raw k }

def StatsMaps.step (s : StatsMaps K M) (u : Update K M) : Except Empty (StatsMaps K M) := .ok (s.update u)

end

namespace StatsMaps
variable {K M : Type} [AddCommGroup M] {s : StatsMaps K M}

/-- The keys with an object are those with an aggregate, and what an object was fed adds up to the latest value. -/
def InStep (s : StatsMaps K M) : Prop :=
  ∀ k, ((s.dsm k).isSome ↔ (s.aggm k).isSome) ∧ ∀ fed, s.dsm k = some fed → s.raw k = some fed.sum

def Tracked (s : StatsMaps K M) (u : Update K M) : Prop := u.keys = [] → ∀ k, s.aggm k = none

/-- A key has an aggregate, its latest value, and an object, or neither. -/
def Agrees (s : StatsMaps K M) : Prop := ∀ k,
  s.aggm k = none ∧ s.dsm k = none ∨ ∃ fed, s.dsm k = some fed ∧ s.aggm k = some fed.sum ∧ s.raw k = some fed.sum

theorem Agrees.inStep (agrees : s.Agrees) : s.InStep := by
  intro k
  rcases agrees k with ⟨none_, gone⟩ | ⟨fed, object, agg, raw⟩
  · simp [none_, gone]
  · simp [object, agg, raw]

variable [DecidableEq K]

theorem Agrees.update (agrees : s.Agrees) (u : Update K M) (tracked : s.Tracked u) : (s.update u).Agrees := by
  intro k
  by_cases empty : u.keys = []
  · refine .inl ⟨?_, ?_⟩
    · simp [StatsMaps.update, derivedStatsAgg, empty, tracked empty k]
    · simp [StatsMaps.update, derivedStatsAgg, derivedStatsMerge, empty]
  simp only [StatsMaps.update, derivedStatsAgg, derivedStatsMerge, if_neg empty]
  by_cases here : k ∈ u.keys
  · simp only [if_pos here]
    cases u.del k with
    | true => exact .inl ⟨rfl, rfl⟩
    | false =>
      -- the difference takes the sum from the old value to the new one
      rcases agrees k with ⟨none_, gone⟩ | ⟨fed, object, agg, _⟩
      · exact .inr ⟨[u.value k], by simp [none_, gone], by simp [none_], by simp⟩
      · exact .inr ⟨fed ++ [u.value k - fed.sum], by simp [object, agg], by simp [agg], by simp⟩
  · simp only [if_neg here]
    exact agrees k

theorem tracked_of_inStep (u : Update K M) (after : (s.update u).InStep) : s.Tracked u := by
  intro empty k
  have gone := (after k).1
  simpa [StatsMaps.update, derivedStatsAgg, derivedStatsMerge, empty] using gone

/-- The objects keep in step with the aggregates exactly if no empty map comes while there are aggregates. -/
theorem in_step_iff (updates : List (Update K M)) :
    Safe step InStep (fun _ => True) {} updates ↔ Throughout step Tracked ({} : StatsMaps K M) updates := by
  refine safe_iff (I := Agrees) (fun _ agrees => agrees.inStep) ?_ ?_ updates {} fun _ => .inl ⟨rfl, rfl⟩
  · intro s u agrees tracked
    exact agrees.update u tracked
  · intro s u _ after
    exact tracked_of_inStep u after

/-- After an empty map a key has an aggregate and no object; the next object is fed a difference only. -/
theorem empty_map_clears :
    let first := ({} : StatsMaps Nat Int).update ⟨[0], fun _ => 5, fun _ => false⟩
    let cleared := first.update ⟨[], fun _ => 0, fun _ => false⟩
    let again := cleared.update ⟨[0], fun _ => 7, fun _ => false⟩
    cleared.aggm 0 = some 5 ∧ cleared.dsm 0 = none ∧ again.dsm 0 = some [2] ∧ again.raw 0 = some 7 := by
  decide

end StatsMaps

end TFCommon.DerivedStats
