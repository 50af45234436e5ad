import TFCommon.Scheduler.Model
import TFCommon.Lib.Run
import Mathlib.Algebra.Group.Nat.Defs

/-! `TaskScheduler::GetTaskId`: a lookup under the read lock and, if the name is missing, an insertion under
the write lock. The two sections are separate steps of a call, so calls interleave between them. -/
namespace TFCommon.Scheduler

/-- What a call has done: nothing yet, missed in the lookup, or returned. -/
inductive Phase where
  | looking
  | missed
  | returned (id : TaskId)
deriving DecidableEq, Repr

structure IdCall (Name : Type) where
  name : Name
  phase : Phase
deriving DecidableEq, Repr

structure TaskIds (Name : Type) where
  idMap : List (Name × TaskId) := []
  idMax : TaskId := 0
  -- The calls made so far, in the order in which they were made.
  calls : List (IdCall Name) := []

inductive IdAction (Name : Type) where
  | call (name : Name)
  | lookup (call : Nat)
  | insert (call : Nat)
deriving DecidableEq, Repr

/-- A step that the call cannot take, or `++id_max_` beyond `INT_MAX`. -/
inductive IdFault where
  | disabled
  | overflow
deriving DecidableEq, Repr

namespace TaskIds
variable {Name : Type} [DecidableEq Name]

def find (s : TaskIds Name) (name : Name) : Option TaskId := s.idMap.lookup name

def insertId (s : TaskIds Name) (name : Name) (id : TaskId) : List (Name × TaskId) :=
  if (s.find name).isSome then s.idMap else (name, id) :: s.idMap

def setCall (s : TaskIds Name) (call : Nat) (name : Name) (phase : Phase) : TaskIds Name :=
  { s with calls := s.calls.set call ⟨name, phase⟩ }

def lookupStep (s : TaskIds Name) (call : Nat) : Except IdFault (TaskIds Name) :=
  match s.calls[call]? with
  | some ⟨name, .looking⟩ =>
    match s.find name with
    | some id => .ok (s.setCall call name (.returned id))
    | none => .ok (s.setCall call name .missed)
  | _ => .error .disabled

def insertStep (s : TaskIds Name) (call : Nat) : Except IdFault (TaskIds Name) :=
  match s.calls[call]? with
  | some ⟨name, .missed⟩ =>
    if s.idMax + 1 < 2 ^ 31 then
      let tid := s.idMax + 1
      .ok { s.setCall call name (.returned tid) with idMax := tid, idMap := s.insertId name tid }
    else .error .overflow
  | _ => .error .disabled

def step (s : TaskIds Name) : IdAction Name → Except IdFault (TaskIds Name)
  | .call name => .ok { s with calls := s.calls ++ [⟨name, .looking⟩] }
  | .lookup call => s.lookupStep call
  | .insert call => s.insertStep call

def Returned (s : TaskIds Name) (name : Name) (id : TaskId) : Prop := ⟨name, .returned id⟩ ∈ s.calls

instance (s : TaskIds Name) (name : Name) (id : TaskId) : Decidable (s.Returned name id) :=
  inferInstanceAs (Decidable (_ ∈ s.calls))

/-- Calls have returned the same id exactly if they were made with the same name. -/
def Consistent (s : TaskIds Name) : Prop :=
  ∀ name other id id', s.Returned name id → s.Returned other id' → (name = other ↔ id = id')

def inserting (s : TaskIds Name) : IdAction Name → Option Name
  | .insert call =>
    match s.calls[call]? with
    | some ⟨name, .missed⟩ => some name
    | _ => none
  | _ => none

/-- A name is inserted only while it is missing, and while there is an id left for it. -/
def Fresh (s : TaskIds Name) (action : IdAction Name) : Prop :=
  ∀ name ∈ s.inserting action, s.find name = none ∧ s.idMax + 1 < 2 ^ 31

instance (s : TaskIds Name) (action : IdAction Name) : Decidable (s.Fresh action) :=
  inferInstanceAs (Decidable (∀ name ∈ s.inserting action, s.find name = none ∧ s.idMax + 1 < 2 ^ 31))

inductive Stepped (s : TaskIds Name) : IdAction Name → Except IdFault (TaskIds Name) → Prop where
  | call (name : Name) : Stepped s (.call name) (.ok { s with calls := s.calls ++ [⟨name, .looking⟩] })
  | hit (call : Nat) (name : Name) (id : TaskId) (was : s.calls[call]? = some ⟨name, .looking⟩)
      (found : s.find name = some id) : Stepped s (.lookup call) (.ok (s.setCall call name (.returned id)))
  | miss (call : Nat) (name : Name) (was : s.calls[call]? = some ⟨name, .looking⟩) (missing : s.find name = none) :
      Stepped s (.lookup call) (.ok (s.setCall call name .missed))
  | insert (call : Nat) (name : Name) (was : s.calls[call]? = some ⟨name, .missed⟩) (left : s.idMax + 1 < 2 ^ 31) :
      Stepped s (.insert call) (.ok { s.setCall call name (.returned (s.idMax + 1)) with
        idMax := s.idMax + 1, idMap := s.insertId name (s.idMax + 1) })
  | overflow (call : Nat) (name : Name) (was : s.calls[call]? = some ⟨name, .missed⟩) (none : ¬ s.idMax + 1 < 2 ^ 31) :
      Stepped s (.insert call) (.error .overflow)
  | disabled (action : IdAction Name) (idle : s.inserting action = none) : Stepped s action (.error .disabled)

theorem step_stepped (s : TaskIds Name) (action : IdAction Name) : s.Stepped action (s.step action) := by
  cases action with
  | call name => exact .call name
  | lookup call =>
    rw [step, lookupStep]
    split
    · rename_i name was
      split
      · exact .hit call name _ was ‹_›
      · exact .miss call name was ‹_›
    · exact .disabled _ rfl
  | insert call =>
    rw [step, insertStep]
    split
    · rename_i name was
      split
      · exact .insert call name was ‹_›
      · exact .overflow call name was ‹_›
    · rename_i other
      refine .disabled _ ?_
      rw [inserting]
      split
      · exact absurd ‹_› (other _)
      · rfl

variable {name : Name} {s : TaskIds Name}

omit [DecidableEq Name] in
theorem inserting_missed {call : Nat} (was : s.calls[call]? = some ⟨name, .missed⟩) :
    s.inserting (.insert call) = some name := by
  rw [inserting, was]

omit [DecidableEq Name] in
theorem returned_setCall {call : Nat} {before phase : Phase}
    (was : s.calls[call]? = some ⟨name, before⟩) (going : ∀ id, before ≠ .returned id) (other : Name) (id : TaskId) :
    (s.setCall call name phase).Returned other id ↔ s.Returned other id ∨ (other = name ∧ phase = .returned id) := by
  have bound : call < s.calls.length := (List.getElem?_eq_some_iff.mp was).1
  constructor
  · intro now
    rcases List.mem_or_eq_of_mem_set now with already | same
    · exact .inl already
    · cases same
      exact .inr ⟨rfl, rfl⟩
  · rintro (already | ⟨rfl, rfl⟩)
    · obtain ⟨place, at_place⟩ := List.mem_iff_getElem?.mp already
      refine List.mem_iff_getElem?.mpr ⟨place, ?_⟩
      have apart : call ≠ place := by
        rintro rfl
        cases was.symm.trans at_place
        exact going id rfl
      rw [setCall, List.getElem?_set_ne apart, at_place]
    · exact List.mem_set bound _

omit [DecidableEq Name] in
theorem returned_call (s : TaskIds Name) (name other : Name) (id : TaskId) :
    Returned { s with calls := s.calls ++ [⟨name, .looking⟩] } other id ↔ s.Returned other id := by
  simp [Returned]

theorem find_insert (missing : s.find name = none) (id : TaskId) (other : Name) :
    (s.insertId name id).lookup other = if other = name then some id else s.find other := by
  rw [insertId, missing, if_neg (by decide), List.lookup_cons]
  by_cases same : other = name
  · rw [if_pos same, beq_iff_eq.mpr same]
  · rw [if_neg same, beq_eq_false_iff_ne.mpr same]
    rfl

def Issued (s : TaskIds Name) (name : Name) (id : TaskId) : Prop := s.Returned name id ∨ s.find name = some id

structure Apart (s : TaskIds Name) : Prop where
  bounded : ∀ name id, s.Issued name id → id ≤ s.idMax
  apart : ∀ name other id, s.Issued name id → s.Issued other id → name = other

theorem Apart.extend {s next : TaskIds Name} (before : s.Apart) (fresh : Name) (grows : s.idMax ≤ next.idMax)
    (kept : ∀ name id, next.Issued name id → s.Issued name id ∨ (name = fresh ∧ id = s.idMax + 1 ∧ id ≤ next.idMax)) :
    next.Apart := by
  have above (name : Name) : ¬ s.Issued name (s.idMax + 1) := fun issued =>
    Nat.not_succ_le_self _ (before.bounded name _ issued)
  constructor
  · intro name id issued
    rcases kept name id issued with old | ⟨_, _, below⟩
    · exact (before.bounded name id old).trans grows
    · exact below
  · intro name other id one two
    rcases kept name id one with old | ⟨first, new, _⟩ <;> rcases kept other id two with old' | ⟨second, new', _⟩
    · exact before.apart name other id old old'
    · exact absurd (new' ▸ old) (above name)
    · exact absurd (new ▸ old') (above other)
    · exact first.trans second.symm

theorem find_insertId {name other : Name} {id id' : TaskId}
    (found : (s.insertId name id).lookup other = some id') : s.find other = some id' ∨ (other = name ∧ id' = id) := by
  cases missing : s.find name with
  | none =>
    rw [find_insert missing] at found
    split at found
    · exact .inr ⟨‹_›, (Option.some.inj found).symm⟩
    · exact .inl found
  | some there =>
    rw [insertId, missing] at found
    exact .inl found

theorem Apart.step {s next : TaskIds Name} {action : IdAction Name} (before : s.Apart) (stepped : s.Stepped action (.ok next)) :
    next.Apart := by
  cases stepped with
  | call name =>
    exact before.extend name le_rfl fun other id issued => .inl (issued.imp_left (returned_call s name other id).mp)
  | hit call name id was found =>
    refine before.extend name le_rfl fun other id' issued => .inl (issued.elim (fun returned => ?_) .inr)
    rcases (returned_setCall was (by simp) other id').mp returned with old | ⟨rfl, same⟩
    · exact .inl old
    · cases same
      exact .inr found
  | miss call name was missing =>
    refine before.extend name le_rfl fun other id' issued => .inl (issued.imp_left fun returned => ?_)
    exact ((returned_setCall was (by simp) other id').mp returned).resolve_right (by simp)
  | insert call name was left =>
    refine before.extend name (Nat.le_succ _) fun other id issued => ?_
    rcases issued with returned | stored
    · rcases (returned_setCall was (by simp) other id).mp returned with old | ⟨rfl, same⟩
      · exact .inl (.inl old)
      · cases same
        exact .inr ⟨rfl, rfl, le_rfl⟩
    · rcases find_insertId stored with old | ⟨rfl, rfl⟩
      · exact .inl (.inr old)
      · exact .inr ⟨rfl, rfl, le_rfl⟩

structure Sound (s : TaskIds Name) : Prop where
  stored : ∀ name id, s.Returned name id ↔ s.find name = some id
  issued : ∀ name id, s.find name = some id → id ≤ s.idMax
  distinct : ∀ name other id, s.find name = some id → s.find other = some id → name = other

theorem Apart.sound (apart : s.Apart) (stored : ∀ name id, s.Returned name id ↔ s.find name = some id) : s.Sound where
  stored := stored
  issued name id found := apart.bounded name id (.inr found)
  distinct name other id one two := apart.apart name other id (.inr one) (.inr two)

theorem Sound.apart (sound : s.Sound) : s.Apart := by
  have found {name : Name} {id : TaskId} (issued : s.Issued name id) : s.find name = some id :=
    issued.elim (sound.stored name id).mp fun stored => stored
  exact ⟨fun name id issued => sound.issued name id (found issued),
    fun name other id one two => sound.distinct name other id (found one) (found two)⟩

theorem Sound.consistent (sound : s.Sound) : s.Consistent := by
  intro name other id id' one two
  rw [sound.stored] at one two
  constructor
  · rintro rfl
    exact Option.some.inj (one.symm.trans two)
  · rintro rfl
    exact sound.distinct name other id one two

theorem Sound.step_hinges (sound : s.Sound) (action : IdAction Name) :
    Hinges Sound Consistent (· = IdFault.overflow) (s.step action) (s.Fresh action) := by
  have stepped := s.step_stepped action
  generalize s.step action = result at stepped
  cases stepped with
  | call name =>
    exact ⟨fun _ => ⟨fun other id => (returned_call s name other id).trans (sound.stored other id), sound.issued, sound.distinct⟩,
      fun _ => nofun⟩
  | hit call name id was found =>
    refine ⟨fun _ => ⟨fun other id' => ?_, sound.issued, sound.distinct⟩, fun _ => nofun⟩
    rw [returned_setCall was (by simp), sound.stored]
    constructor
    · rintro (already | ⟨rfl, same⟩)
      · exact already
      · cases same
        exact found
    · exact .inl
  | miss call name was missing =>
    refine ⟨fun _ => ⟨fun other id' => ?_, sound.issued, sound.distinct⟩, fun _ => nofun⟩
    rw [returned_setCall was (by simp), sound.stored]
    exact or_iff_left (by simp)
  | insert call name was left =>
    refine ⟨fun fresh => (sound.apart.step (.insert call name was left)).sound fun other id => ?_, fun verdict name' inserted => ?_⟩
    · obtain ⟨missing, _⟩ := fresh name (inserting_missed was)
      refine (returned_setCall was (by simp) other id).trans ?_
      rw [find, find_insert missing (s.idMax + 1), sound.stored]
      split
      · rename_i same
        rw [same, missing]
        simp
      · rename_i differ
        simp [differ]
    · cases (inserting_missed was).symm.trans inserted
      refine ⟨?_, left⟩
      cases found : s.find name with
      | none => rfl
      | some id =>
        have returned : ∀ id, s.Returned name id ∨ (name = name ∧ Phase.returned (s.idMax + 1) = .returned id) →
            (s.setCall call name (.returned (s.idMax + 1))).Returned name id :=
          fun id => (returned_setCall was (by simp) name id).mpr
        have one := returned id (.inl ((sound.stored name id).mpr found))
        have two := returned (s.idMax + 1) (.inr ⟨rfl, rfl⟩)
        have same := (verdict name name id (s.idMax + 1) one two).mp rfl
        exact absurd (same ▸ sound.issued name id found) (Nat.not_succ_le_self _)
  | overflow call name was none =>
    exact ⟨fun fresh => absurd (fresh name (inserting_missed was)).2 none, fun verdict => absurd rfl verdict⟩
  | disabled action idle =>
    refine ⟨fun _ => IdFault.noConfusion, fun _ name inserted => ?_⟩
    cases idle.symm.trans inserted

theorem sound_empty : ({} : TaskIds Name).Sound := by
  constructor
  · simp [Returned, find]
  · exact nofun
  · exact nofun

/-- Whatever calls are made and however their two sections interleave: ids and names correspond in every state,
and there is always an id left, exactly if every name is inserted while it is missing. -/
theorem getTaskId_consistent_iff (actions : List (IdAction Name)) :
    TFCommon.Safe step Consistent (· = IdFault.overflow) {} actions ↔ Throughout step Fresh {} actions :=
  safe_iff (fun _ => Sound.consistent) (fun _ action sound => (sound.step_hinges action).keeps)
    (fun _ action sound => (sound.step_hinges action).exposes) actions {} sound_empty

/-- Two first calls for one name: both miss, then both insert. -/
def missTwice : List (IdAction String) :=
  [.call "db::DBTable", .call "db::DBTable", .lookup 0, .lookup 1, .insert 0, .insert 1]

def twoIds : TaskIds String where
  idMap := [("db::DBTable", 1)]
  idMax := 2
  calls := [⟨"db::DBTable", .returned 1⟩, ⟨"db::DBTable", .returned 2⟩]

theorem missTwice_two_ids : run step {} missTwice = .ok twoIds ∧ ¬ twoIds.Consistent := by
  refine ⟨rfl, fun consistent => ?_⟩
  have same := (consistent "db::DBTable" "db::DBTable" 1 2 (by decide) (by decide)).mp rfl
  exact absurd same (by decide)

end TaskIds

end TFCommon.Scheduler
