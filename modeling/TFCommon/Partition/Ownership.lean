import TFCommon.Lib.Run
import Mathlib.Data.List.Nodup

/-! The locks of a partition client (`libpartition.py`): an update of the target list gives up partitions and starts
greenlets that acquire others, and these run whenever the update waits. A lock is abstract: it has at most one holder,
`acquire` returns `True` when it then holds the lock, and `cancel` lets a pending `acquire` raise `CancelledError`. With
no `acquire` pending it has no effect, also not on later ones; in kazoo the flag that it sets stays. -/
namespace TFCommon.Partition.Ownership
open Function (forall_update_iff)

inductive Task where
  -- In its loop; the flag says whether the lock was cancelled since it was started.
  | trying (cancelled : Bool)
  -- In the callback, after it has entered the partition.
  | notifying
  | ready
deriving DecidableEq, Repr

inductive Holder where
  | nobody
  | me
  | other
deriving DecidableEq, Repr

/-- Where `_acquire_partition_ownership` is. The list has the partitions whose locks are to be released. -/
inductive Phase where
  -- No call is going on; the flag says whether the last one returned and did not raise.
  | idle (returned : Bool)
  | scan (part : Nat) (release : List Nat)
  -- In `get(block=True)` after the lock was cancelled.
  | join (part : Nat) (release : List Nat)
  | callback (release : List Nat)
  | releasing (release : List Nat)
deriving DecidableEq, Repr

structure State where
  locks : Nat → Holder
  target : List Nat
  curr : List Nat := []
  tasks : Nat → Option Task := fun _ => none
  phase : Phase := .scan 0 []

inductive Action where
  -- `update_cluster_list`, with the partitions that the ring gives to the client.
  | update (target : List Nat)
  -- One that raises when the known servers are logged: a name of a node is not made of numbers.
  | updateRaises (target : List Nat)
  | resume
  | acquired (part : Nat)
  | notAcquired (part : Nat)
  | acquireCancelled (part : Nat)
  | notified (part : Nat)
  | otherAcquires (part : Nat)
  | otherReleases (part : Nat)
deriving DecidableEq, Repr

inductive Fault where
  | disabled
deriving DecidableEq, Repr

namespace State

def setTask (s : State) (part : Nat) (task : Option Task) : State := { s with tasks := Function.update s.tasks part task }

def setLock (s : State) (part : Nat) (holder : Holder) : State := { s with locks := Function.update s.locks part holder }

def cleanupGreenlets (s : State) : State :=
  { s with tasks := fun part => if s.tasks part = some .ready then none else s.tasks part }

def spawn (s : State) (part : Nat) : State := s.setTask part (some (.trying false))

def claimPartition (s : State) (part : Nat) : State :=
  if part ∈ s.curr then s
  else match s.tasks part with
    | some .ready | none => s.spawn part
    | some (.trying _) | some .notifying => s

def giveUp (s : State) (part : Nat) (release : List Nat) : State :=
  if part ∈ s.curr then { s with curr := s.curr.erase part, phase := .scan (part + 1) (release ++ [part]) }
  else { s with phase := .scan (part + 1) release }

def dropPartition (s : State) (part : Nat) (release : List Nat) : State :=
  match s.tasks part with
  | none => s.giveUp part release
  | some .ready => (s.setTask part none).giveUp part release
  | some .notifying => { s with phase := .join part release }
  | some (.trying _) => { s.setTask part (some (.trying true)) with phase := .join part release }

/-- The call in progress goes on up to where it may next wait, or to the next partition. -/
def resume (maxPartition : Nat) (s : State) : Except Fault State :=
  match s.phase with
  | .idle _ => .error .disabled
  | .scan part release =>
    if part < maxPartition then
      if part ∈ s.target then .ok { s.claimPartition part with phase := .scan (part + 1) release }
      else .ok (s.dropPartition part release)
    else .ok { s with phase := if release = [] then .idle true else .callback release }
  | .join part release =>
    if s.tasks part = some .ready then .ok ((s.setTask part none).giveUp part release) else .error .disabled
  | .callback release => .ok { s with phase := .releasing release }
  | .releasing [] => .ok { s with phase := .idle true }
  | .releasing (part :: rest) => .ok { s.setLock part .nobody with phase := .releasing rest }

def isTrying (s : State) (part : Nat) : Bool :=
  match s.tasks part with
  | some (.trying _) => true
  | _ => false

def step (maxPartition : Nat) (s : State) : Action → Except Fault State
  | .update target =>
    match s.phase with
    | .idle _ =>
      if ∀ part ∈ target, part < maxPartition then .ok { s.cleanupGreenlets with target, phase := .scan 0 [] }
      else .error .disabled
    | _ => .error .disabled
  | .updateRaises target =>
    match s.phase with
    | .idle _ =>
      if ∀ part ∈ target, part < maxPartition then .ok { s.cleanupGreenlets with target, phase := .idle false }
      else .error .disabled
    | _ => .error .disabled
  | .resume => s.resume maxPartition
  | .acquired part =>
    if s.isTrying part = true ∧ s.locks part ≠ .other then
      .ok { (s.setLock part .me).setTask part (some .notifying) with curr := s.curr ++ [part] }
    else .error .disabled
  | .notAcquired part => if s.isTrying part then .ok s else .error .disabled
  | .acquireCancelled part =>
    if s.tasks part = some (.trying true) then .ok (s.setTask part (some .ready)) else .error .disabled
  | .notified part => if s.tasks part = some .notifying then .ok (s.setTask part (some .ready)) else .error .disabled
  | .otherAcquires part => if s.locks part = .nobody then .ok (s.setLock part .other) else .error .disabled
  | .otherReleases part => if s.locks part = .other then .ok (s.setLock part .nobody) else .error .disabled

def Live (s : State) (part : Nat) : Prop := ∃ task, s.tasks part = some task ∧ task ≠ .ready

end State

/-! ### What every step keeps -/

def Phase.release : Phase → List Nat
  | .idle _ => []
  | .scan _ release | .join _ release | .callback release | .releasing release => release

def Phase.scanned (maxPartition : Nat) : Phase → Nat
  | .idle false => 0
  | .scan part _ | .join part _ => part
  | .idle true | .callback _ | .releasing _ => maxPartition

namespace State

structure Sound (maxPartition : Nat) (s : State) : Prop where
  range : ∀ part ∈ s.target, part < maxPartition
  once : (s.curr ++ s.phase.release).Nodup
  mine : ∀ part, s.locks part = .me ↔ part ∈ s.curr ++ s.phase.release
  inside : ∀ part, part ∈ s.curr ∨ s.tasks part ≠ none → part < maxPartition
  entered : ∀ part, s.tasks part = some .notifying → part ∈ s.curr
  -- A greenlet is cancelled only while it is waited for.
  cancelled : ∀ part, s.tasks part = some (.trying true) → ∃ release, s.phase = .join part release
  waited : ∀ part release, s.phase = .join part release → part ∉ s.target
  claimed : ∀ part < s.phase.scanned maxPartition, part ∈ s.target → part ∈ s.curr ∨ s.Live part
  dropped : ∀ part < s.phase.scanned maxPartition, part ∉ s.target → part ∉ s.curr ∧ ¬ s.Live part

variable {maxPartition : Nat} {s next : State} {part : Nat} {task : Option Task} {phase : Phase}

theorem tasks_setTask_self : (s.setTask part task).tasks part = task := Function.update_self ..

theorem tasks_setTask_ne {p : Nat} (other : p ≠ part) : (s.setTask part task).tasks p = s.tasks p :=
  Function.update_of_ne other ..

theorem isTrying_iff : s.isTrying part = true ↔ ∃ flag, s.tasks part = some (.trying flag) := by
  unfold isTrying
  split
  · simp [*]
  · rename_i other
    simpa using other

/-- A greenlet that tries to acquire a lock does so for a partition that is neither owned nor about to be released. -/
structure Exclusive (s : State) : Prop where
  pending : ∀ part ∈ s.phase.release, part ∉ s.target
  unowned : ∀ part, s.isTrying part = true → part ∉ s.curr ++ s.phase.release

structure Inv (maxPartition : Nat) (s : State) : Prop extends Sound maxPartition s, Exclusive s

section
variable (inv : s.Inv maxPartition)
include inv

theorem Inv.begin {returned : Bool} (idle : s.phase = .idle returned) {target : List Nat}
    (range : ∀ part ∈ target, part < maxPartition) (nothing : phase.release = [])
    (unseen : phase.scanned maxPartition = 0) (elsewhere : ∀ p release, phase ≠ .join p release) :
    Inv maxPartition { s.cleanupGreenlets with target, phase } := by
  have before := inv.once
  have mine := inv.mine
  have unowned := inv.unowned
  rw [idle] at before mine unowned
  have kept {p : Nat} {task : Task} (there : s.cleanupGreenlets.tasks p = some task) : s.tasks p = some task := by
    simp only [cleanupGreenlets] at there
    split at there
    · cases there
    · exact there
  refine ⟨⟨range, ?_, ?_, ?_, fun p notifying => inv.entered p (kept notifying), fun p trying => ?_,
    fun p release joining => absurd joining (elsewhere p release), ?_, ?_⟩, ?_, fun p trying => ?_⟩
  · rw [nothing]
    exact before
  · rw [nothing]
    exact mine
  · rintro p (owned | started)
    · exact inv.inside p (.inl owned)
    · refine inv.inside p (.inr fun none => started ?_)
      simp [cleanupGreenlets, none]
  · obtain ⟨release, joining⟩ := inv.cancelled p (kept trying)
    rw [idle] at joining
    cases joining
  iterate 2
    intro p less
    rw [unseen] at less
    cases less
  · rw [nothing]
    exact nofun
  · obtain ⟨flag, running⟩ := isTrying_iff.mp trying
    rw [nothing]
    exact unowned p (isTrying_iff.mpr ⟨flag, kept running⟩)

/-! ### The greenlets -/

theorem Inv.setTask (task : Option Task) (inside : task ≠ none → part < maxPartition)
    (entered : task = some .notifying → part ∈ s.curr)
    (cancelled : task = some (.trying true) → ∃ release, s.phase = .join part release)
    (claimed : part < s.phase.scanned maxPartition → part ∈ s.target → part ∈ s.curr ∨ ∃ t, task = some t ∧ t ≠ .ready)
    (dropped : part < s.phase.scanned maxPartition → part ∉ s.target → task = none ∨ task = some .ready)
    (unowned : ∀ flag, task = some (.trying flag) → part ∉ s.curr ++ s.phase.release) :
    Inv maxPartition (s.setTask part task) := by
  refine ⟨⟨inv.range, inv.once, inv.mine,
    (forall_update_iff s.tasks fun p task => p ∈ s.curr ∨ task ≠ none → p < maxPartition).mpr
      ⟨fun h => h.elim (fun owned => inv.inside part (.inl owned)) inside, fun p _ => inv.inside p⟩,
    (forall_update_iff s.tasks fun p task => task = some .notifying → p ∈ s.curr).mpr ⟨entered, fun p _ => inv.entered p⟩,
    (forall_update_iff s.tasks fun p task => task = some (.trying true) → ∃ release, s.phase = .join p release).mpr
      ⟨cancelled, fun p _ => inv.cancelled p⟩, inv.waited,
    (forall_update_iff s.tasks fun p task => p < s.phase.scanned maxPartition → p ∈ s.target →
      p ∈ s.curr ∨ ∃ t, task = some t ∧ t ≠ .ready).mpr ⟨claimed, fun p _ => inv.claimed p⟩,
    (forall_update_iff s.tasks fun p task => p < s.phase.scanned maxPartition → p ∉ s.target →
      p ∉ s.curr ∧ ¬ ∃ t, task = some t ∧ t ≠ .ready).mpr ⟨fun seen notTarget => ?_, fun p _ => inv.dropped p⟩⟩,
    inv.pending, fun p trying => ?_⟩
  · refine ⟨(inv.dropped part seen notTarget).1, ?_⟩
    rintro ⟨t, rfl, notReady⟩
    rcases dropped seen notTarget with none | ready
    · cases none
    · exact notReady (Option.some.inj ready)
  · obtain ⟨flag, running⟩ := isTrying_iff.mp trying
    by_cases here : p = part
    · subst here
      exact unowned flag (tasks_setTask_self.symm.trans running)
    · exact inv.unowned p (isTrying_iff.mpr ⟨flag, (tasks_setTask_ne here).symm.trans running⟩)

theorem Inv.acquired (trying : s.isTrying part = true) :
    Inv maxPartition { (s.setLock part .me).setTask part (some .notifying) with curr := s.curr ++ [part] } := by
  obtain ⟨flag, running⟩ := isTrying_iff.mp trying
  have entered : part ∈ s.curr ++ [part] := List.mem_append_right _ (List.mem_singleton.mpr rfl)
  have less : part < maxPartition := inv.inside part (.inr (by simp [running]))
  have fresh := inv.unowned part trying
  have old {p : Nat} (other : p ≠ part) (owned : p ∈ s.curr ++ [part]) : p ∈ s.curr := by simpa [other] using owned
  refine ⟨⟨inv.range, ?_, fun p => ?_,
    (forall_update_iff s.tasks fun p task => p ∈ s.curr ++ [part] ∨ task ≠ none → p < maxPartition).mpr
      ⟨fun _ => less, fun p other h => inv.inside p (h.imp_left (old other))⟩,
    (forall_update_iff s.tasks fun p task => task = some .notifying → p ∈ s.curr ++ [part]).mpr
      ⟨fun _ => entered, fun p _ notifying => List.mem_append_left _ (inv.entered p notifying)⟩,
    (forall_update_iff s.tasks fun p task => task = some (.trying true) → ∃ release, s.phase = .join p release).mpr
      ⟨nofun, fun p _ => inv.cancelled p⟩, inv.waited,
    (forall_update_iff s.tasks fun p task => p < s.phase.scanned maxPartition → p ∈ s.target →
      p ∈ s.curr ++ [part] ∨ ∃ t, task = some t ∧ t ≠ .ready).mpr
      ⟨fun _ _ => .inl entered, fun p _ seen target => (inv.claimed p seen target).imp_left (List.mem_append_left _)⟩,
    (forall_update_iff s.tasks fun p task => p < s.phase.scanned maxPartition → p ∉ s.target →
      p ∉ s.curr ++ [part] ∧ ¬ ∃ t, task = some t ∧ t ≠ .ready).mpr
      ⟨fun seen notTarget => absurd ⟨_, running, nofun⟩ (inv.dropped part seen notTarget).2,
        fun p other seen notTarget => (inv.dropped p seen notTarget).imp_left (· ∘ old other)⟩⟩,
    inv.pending, fun p trying inside => ?_⟩
  · rw [List.append_assoc, List.singleton_append, List.nodup_middle]
    exact List.nodup_cons.mpr ⟨fresh, inv.once⟩
  · by_cases here : p = part
    · subst here
      simp [State.setTask, setLock]
    · have before := inv.mine p
      simpa [State.setTask, setLock, here] using before
  · obtain ⟨flag, running⟩ := isTrying_iff.mp trying
    by_cases here : p = part
    · subst here
      cases tasks_setTask_self.symm.trans running
    · refine inv.unowned p (isTrying_iff.mpr ⟨flag, (tasks_setTask_ne here).symm.trans running⟩) ?_
      change p ∈ (s.curr ++ [part]) ++ s.phase.release at inside
      simpa [here] using inside

theorem Inv.others (notMine : s.locks part ≠ .me) {holder : Holder} (other : holder ≠ .me) :
    Inv maxPartition (s.setLock part holder) := by
  refine { inv with mine := fun p => ?_ }
  by_cases here : p = part
  · subst here
    simp only [setLock, Function.update_self, other, false_iff]
    exact fun owned => notMine ((inv.mine p).mpr owned)
  · have before := inv.mine p
    simpa [setLock, here] using before

/-! ### The call -/

theorem Inv.notCancelled (elsewhere : ∀ release, s.phase ≠ .join part release) : s.tasks part ≠ some (.trying true) := by
  intro trying
  obtain ⟨release, joining⟩ := inv.cancelled part trying
  exact elsewhere release joining

theorem Inv.setPhase (list : phase.release = s.phase.release)
    (quiet : ∀ p, s.tasks p ≠ some (.trying true)) (waited : ∀ p release, phase = .join p release → p ∉ s.target)
    (claimed : ∀ p < phase.scanned maxPartition, s.phase.scanned maxPartition ≤ p → p ∈ s.target → p ∈ s.curr ∨ s.Live p)
    (dropped : ∀ p < phase.scanned maxPartition, s.phase.scanned maxPartition ≤ p → p ∉ s.target → p ∉ s.curr ∧ ¬ s.Live p) :
    Inv maxPartition { s with phase } := by
  refine ⟨⟨inv.range, ?_, ?_, inv.inside, inv.entered, fun p trying => absurd trying (quiet p), waited,
    fun p less target => ?_, fun p less notTarget => ?_⟩, ?_, ?_⟩
  · rw [list]
    exact inv.once
  · rw [list]
    exact inv.mine
  · rcases Nat.lt_or_ge p (s.phase.scanned maxPartition) with before | after
    · exact inv.claimed p before target
    · exact claimed p less after target
  · rcases Nat.lt_or_ge p (s.phase.scanned maxPartition) with before | after
    · exact inv.dropped p before notTarget
    · exact dropped p less after notTarget
  · rw [list]
    exact inv.pending
  · rw [list]
    exact inv.unowned

theorem Inv.seen {release : List Nat} (here : s.phase = .scan part release)
    (target : part ∈ s.target) (covered : part ∈ s.curr ∨ s.Live part) :
    Inv maxPartition { s with phase := .scan (part + 1) release } := by
  have only {p : Nat} (less : p < part + 1) (after : s.phase.scanned maxPartition ≤ p) : p = part := by
    rw [here] at after
    exact Nat.le_antisymm (Nat.le_of_lt_succ less) after
  refine inv.setPhase (by rw [here]; rfl) (fun p => inv.notCancelled (by simp [here])) (by simp)
    (fun p less after _ => ?_) (fun p less after notTarget => ?_)
  · exact only less after ▸ covered
  · exact absurd target (only less after ▸ notTarget)

theorem Inv.spawn (target : part ∈ s.target) (free : part ∉ s.curr) : Inv maxPartition (s.spawn part) := by
  refine inv.setTask (some (.trying false)) (fun _ => inv.range part target) nofun nofun
    (fun _ _ => .inr ⟨_, rfl, nofun⟩) (fun _ notTarget => absurd target notTarget) fun _ _ owned => ?_
  rcases List.mem_append.mp owned with old | later
  · exact free old
  · exact inv.pending part later target

theorem Inv.claimPartition {release : List Nat} (here : s.phase = .scan part release)
    (target : part ∈ s.target) : Inv maxPartition { s.claimPartition part with phase := .scan (part + 1) release } := by
  have started : (s.spawn part).Live part :=
    ⟨.trying false, tasks_setTask_self, nofun⟩
  unfold State.claimPartition
  split
  · exact inv.seen here target (.inl ‹_›)
  · rename_i free
    split
    · exact (inv.spawn target free).seen here target (.inr started)
    · exact (inv.spawn target free).seen here target (.inr started)
    all_goals exact inv.seen here target (.inr ⟨_, ‹_›, fun h => (by cases h)⟩)

omit inv in
theorem moved_perm {curr release : List Nat} (owned : part ∈ curr) :
    (curr.erase part ++ (release ++ [part])).Perm (curr ++ release) := by
  rw [← List.append_assoc]
  refine (List.perm_append_singleton _ _).trans ?_
  exact (List.perm_cons_erase owned).symm.append_right release

theorem Inv.giveUp {release : List Nat} (list : s.phase.release = release)
    (here : s.phase.scanned maxPartition = part) (elsewhere : ∀ p ≠ part, ∀ release, s.phase ≠ .join p release)
    (notTarget : part ∉ s.target) (gone : s.tasks part = none) : Inv maxPartition (s.giveUp part release) := by
  have once := inv.once
  have mine := inv.mine
  have claimed := inv.claimed
  have dropped := inv.dropped
  have pending := inv.pending
  have unowned := inv.unowned
  rw [list] at once mine pending unowned
  rw [here] at claimed dropped
  have dead : ¬ s.Live part := by
    rintro ⟨task, running, _⟩
    rw [gone] at running
    cases running
  have cancelled : ∀ p, s.tasks p ≠ some (.trying true) := fun p trying => by
    by_cases same : p = part
    · rw [same, gone] at trying
      cases trying
    · exact inv.notCancelled (elsewhere p same) trying
  have apart : s.curr.Nodup := (List.nodup_append.mp once).1
  unfold State.giveUp
  split
  · rename_i owned
    have moved := @moved_perm _ _ release owned
    refine ⟨⟨inv.range, moved.nodup_iff.mpr once, fun p => (mine p).trans moved.mem_iff.symm, fun p => ?_, fun p notifying => ?_,
      fun p trying => absurd trying (cancelled p), nofun, fun p less target => ?_,
      fun p less other => ?_⟩, fun p later => ?_, fun p trying inside => unowned p trying (moved.mem_iff.mp inside)⟩
    · exact fun h => inv.inside p (h.imp_left List.mem_of_mem_erase)
    · refine apart.mem_erase_iff.mpr ⟨fun same => ?_, inv.entered p notifying⟩
      rw [same] at notifying
      exact dead ⟨_, notifying, nofun⟩
    · rcases Nat.lt_succ_iff_lt_or_eq.mp less with before | rfl
      · exact (claimed p before target).imp_left fun owned => apart.mem_erase_iff.mpr ⟨Nat.ne_of_lt before, owned⟩
      · exact absurd target notTarget
    · rcases Nat.lt_succ_iff_lt_or_eq.mp less with before | rfl
      · exact (dropped p before other).imp_left fun free owned => free (List.mem_of_mem_erase owned)
      · exact ⟨apart.not_mem_erase, dead⟩
    · rcases List.mem_append.mp later with old | new
      · exact pending p old
      · exact List.mem_singleton.mp new ▸ notTarget
  · rename_i free
    have only {p : Nat} (less : p < part + 1) (after : s.phase.scanned maxPartition ≤ p) : p = part :=
      Nat.le_antisymm (Nat.le_of_lt_succ less) (here ▸ after)
    refine inv.setPhase list.symm cancelled (by simp) (fun p less after target => ?_) (fun p less after _ => ?_)
    · exact absurd target (only less after ▸ notTarget)
    · exact only less after ▸ ⟨free, dead⟩

theorem Inv.forget (here : s.phase.scanned maxPartition = part) : Inv maxPartition (s.setTask part none) := by
  refine inv.setTask none (fun h => absurd rfl h) nofun nofun ?_ (fun _ _ => .inl rfl) nofun
  intro less
  rw [here] at less
  exact absurd less (Nat.lt_irrefl part)

theorem Inv.join {release : List Nat} (here : s.phase = .scan part release) (notTarget : part ∉ s.target) :
    Inv maxPartition { s with phase := .join part release } := by
  have none {p : Nat} (less : p < part) (after : s.phase.scanned maxPartition ≤ p) : False := by
    rw [here] at after
    exact Nat.not_le_of_lt less after
  refine inv.setPhase (by rw [here]; rfl) (fun p => inv.notCancelled (by simp [here])) (fun p list joining => ?_)
    (fun p less after => (none less after).elim) (fun p less after => (none less after).elim)
  cases joining
  exact notTarget

theorem Inv.dropPartition {release : List Nat} (here : s.phase = .scan part release)
    (less : part < maxPartition) (notTarget : part ∉ s.target) : Inv maxPartition (s.dropPartition part release) := by
  have list : s.phase.release = release := by rw [here]; rfl
  have scanned : s.phase.scanned maxPartition = part := by rw [here]; rfl
  have elsewhere : ∀ p ≠ part, ∀ release, s.phase ≠ .join p release := fun p _ release joining => by
    rw [here] at joining
    cases joining
  unfold State.dropPartition
  split
  · exact inv.giveUp list scanned elsewhere notTarget ‹_›
  · exact (inv.forget scanned).giveUp list scanned elsewhere notTarget tasks_setTask_self
  · exact inv.join here notTarget
  · rename_i running
    have free : part ∉ s.curr ++ release := list ▸ inv.unowned part (isTrying_iff.mpr ⟨_, running⟩)
    refine (inv.join here notTarget).setTask (some (.trying true)) (fun _ => less) nofun (fun _ => ⟨release, rfl⟩) ?_ ?_
      fun _ _ => free
    all_goals exact fun before => absurd before (Nat.lt_irrefl part)

theorem Inv.release {rest : List Nat} (here : s.phase = .releasing (part :: rest)) :
    Inv maxPartition { s.setLock part .nobody with phase := .releasing rest } := by
  have once := inv.once
  have mine := inv.mine
  have claimed := inv.claimed
  have dropped := inv.dropped
  have pending := inv.pending
  have unowned := inv.unowned
  rw [here] at once mine claimed dropped pending unowned
  obtain ⟨free, once⟩ := List.nodup_cons.mp (List.nodup_middle.mp once)
  refine ⟨⟨inv.range, once, fun p => ?_, inv.inside, inv.entered, fun p trying => ?_, nofun,
    claimed, dropped⟩, fun p later => pending p (List.mem_cons_of_mem part later),
    fun p trying inside => unowned p trying (List.perm_middle.mem_iff.mpr (List.mem_cons_of_mem part inside))⟩
  · by_cases same : p = part
    · subst same
      simp only [setLock, Function.update_self]
      exact ⟨nofun, fun owned => absurd owned free⟩
    · have before := mine p
      simpa [setLock, same, Phase.release] using before
  · exact absurd trying (inv.notCancelled fun release joining => by rw [here] at joining; cases joining)

theorem Inv.after (list : phase.release = s.phase.release)
    (elsewhere : ∀ p release, s.phase ≠ .join p release) (all : maxPartition ≤ s.phase.scanned maxPartition)
    (scanned : phase.scanned maxPartition = maxPartition) (later : ∀ p release, phase ≠ .join p release) :
    Inv maxPartition { s with phase } := by
  have none {p : Nat} (less : p < phase.scanned maxPartition) (after : s.phase.scanned maxPartition ≤ p) : False :=
    Nat.not_le_of_lt (scanned ▸ less) (Nat.le_trans all after)
  exact inv.setPhase list (fun p => inv.notCancelled (elsewhere p)) (fun p list joining => absurd joining (later p list))
    (fun p less after => (none less after).elim) (fun p less after => (none less after).elim)

theorem Inv.resume (ran : s.resume maxPartition = .ok next) : next.Inv maxPartition := by
  unfold State.resume at ran
  split at ran
  · cases ran
  · rename_i part release here
    have elsewhere : ∀ p list, s.phase ≠ .join p list := by simp [here]
    split at ran
    · split at ran
      · cases ran
        exact inv.claimPartition here ‹_›
      · cases ran
        exact inv.dropPartition here ‹_› ‹_›
    · rename_i beyond
      cases ran
      have all : maxPartition ≤ s.phase.scanned maxPartition := by
        rw [here]
        exact Nat.le_of_not_lt beyond
      split
      · rename_i nothing
        exact inv.after (by rw [here, nothing]; rfl) elsewhere all rfl (by simp)
      · exact inv.after (by rw [here]; rfl) elsewhere all rfl (by simp)
  · rename_i part release here
    obtain ⟨_, rfl⟩ := of_guard ran
    have scanned : s.phase.scanned maxPartition = part := by rw [here]; rfl
    have list : s.phase.release = release := by rw [here]; rfl
    refine (inv.forget scanned).giveUp list scanned (fun p other list joining => ?_)
      (inv.waited part release here) tasks_setTask_self
    cases here.symm.trans joining
    exact other rfl
  · rename_i release here
    cases ran
    exact inv.after (by rw [here]; rfl) (by simp [here]) (by rw [here]; exact Nat.le_refl _) rfl (by simp)
  · rename_i here
    cases ran
    exact inv.after (by rw [here]; rfl) (by simp [here]) (by rw [here]; exact Nat.le_refl _) rfl (by simp)
  · rename_i part rest here
    cases ran
    exact inv.release here

end

/-! ### Steps -/

inductive Stepped (maxPartition : Nat) (s : State) : State → Prop where
  | called {returned : Bool} {target : List Nat} {phase : Phase} (idle : s.phase = .idle returned)
      (range : ∀ part ∈ target, part < maxPartition) (nothing : phase.release = [])
      (unseen : phase.scanned maxPartition = 0) (elsewhere : ∀ p release, phase ≠ .join p release) :
      Stepped maxPartition s { s.cleanupGreenlets with target, phase }
  | resumed {next : State} (ran : s.resume maxPartition = .ok next) : Stepped maxPartition s next
  | acquired {part : Nat} (trying : s.isTrying part = true) :
      Stepped maxPartition s { (s.setLock part .me).setTask part (some .notifying) with curr := s.curr ++ [part] }
  | finished {part : Nat} (ends : s.tasks part = some (.trying true) ∨ s.tasks part = some .notifying) :
      Stepped maxPartition s (s.setTask part (some .ready))
  | others {part : Nat} {holder : Holder} (notMine : s.locks part ≠ .me) (other : holder ≠ .me) :
      Stepped maxPartition s (s.setLock part holder)
  | nothing : Stepped maxPartition s s

theorem step_cases {a : Action} (stepped : s.step maxPartition a = .ok next) : Stepped maxPartition s next := by
  cases a with
  | update target | updateRaises target =>
    simp only [step] at stepped
    split at stepped
    · obtain ⟨range, rfl⟩ := of_guard stepped
      exact .called ‹_› range rfl rfl (by simp)
    · cases stepped
  | resume => exact .resumed stepped
  | acquired part =>
    obtain ⟨may, rfl⟩ := of_guard stepped
    exact .acquired may.1
  | notAcquired part =>
    obtain ⟨_, rfl⟩ := of_guard stepped
    exact .nothing
  | acquireCancelled part =>
    obtain ⟨trying, rfl⟩ := of_guard stepped
    exact .finished (.inl trying)
  | notified part =>
    obtain ⟨notifying, rfl⟩ := of_guard stepped
    exact .finished (.inr notifying)
  | otherAcquires part =>
    obtain ⟨free, rfl⟩ := of_guard stepped
    exact .others (by simp [free]) (by simp)
  | otherReleases part =>
    obtain ⟨held, rfl⟩ := of_guard stepped
    exact .others (by simp [held]) (by simp)

theorem Inv.step (inv : s.Inv maxPartition) (stepped : Stepped maxPartition s next) : next.Inv maxPartition := by
  cases stepped with
  | called idle range nothing unseen elsewhere => exact inv.begin idle range nothing unseen elsewhere
  | resumed ran => exact inv.resume ran
  | acquired trying => exact inv.acquired trying
  | @finished part ends =>
    refine inv.setTask (some .ready) (fun _ => inv.inside part (.inr ?_)) nofun nofun (fun seen _ => ?_)
      (fun _ _ => .inr rfl) nofun
    · rcases ends with trying | notifying
      · simp [trying]
      · simp [notifying]
    · rcases ends with trying | notifying
      · obtain ⟨release, joining⟩ := inv.cancelled part trying
        rw [joining] at seen
        exact absurd seen (Nat.lt_irrefl part)
      · exact .inl (inv.entered part notifying)
  | others notMine other => exact inv.others notMine other
  | nothing => exact inv

theorem start_sound {target : List Nat} (range : ∀ part ∈ target, part < maxPartition) {locks : Nat → Holder}
    (notMine : ∀ part, locks part ≠ .me) : Sound maxPartition { locks, target } where
  range := range
  once := .nil
  mine part := ⟨fun mine => absurd mine (notMine part), nofun⟩
  inside part := fun h => h.elim nofun (fun started => absurd rfl started)
  entered part h := (by cases h)
  cancelled part h := (by cases h)
  waited part release h := (by cases h)
  claimed part h := absurd h (Nat.not_lt_zero part)
  dropped part h := absurd h (Nat.not_lt_zero part)

/-- In every interleaving: a partition in the list is there once and its lock is held; and whenever a call has returned, the
partitions that are owned are targets, a target is owned or has a greenlet that acquires it, and no other lock is held or
being acquired. -/
theorem ownership_backed (maxPartition : Nat) (target : List Nat) (range : ∀ part ∈ target, part < maxPartition)
    (locks : Nat → Holder) (notMine : ∀ part, locks part ≠ .me) (actions : List Action) (s : State)
    (ran : run (step maxPartition) { locks, target } actions = .ok s) :
    s.curr.Nodup ∧ (∀ part ∈ s.curr, s.locks part = .me) ∧
      (s.phase = .idle true → (∀ part ∈ s.curr, part ∈ s.target) ∧ (∀ part ∈ s.target, part ∈ s.curr ∨ s.Live part) ∧
        ∀ part, part ∉ s.target → s.locks part ≠ .me ∧ ¬ s.Live part) := by
  obtain ⟨sound, _⟩ : s.Inv maxPartition :=
    run_invariant (Inv maxPartition) (fun _ => True) (fun s a next inv _ stepped => inv.step (step_cases stepped)) actions
      _ s ⟨start_sound range notMine, nofun, nofun⟩ (fun _ _ => trivial) ran
  refine ⟨(List.nodup_append.mp sound.once).1, fun part owned => ?_, fun returned => ?_⟩
  · exact (sound.mine part).mpr (List.mem_append_left _ owned)
  · have claimed := sound.claimed
    have dropped := sound.dropped
    have mine := sound.mine
    rw [returned] at claimed dropped mine
    refine ⟨fun part owned => ?_, fun part target => claimed part (sound.range part target) target, fun part notTarget => ?_⟩
    · by_contra notTarget
      exact (dropped part (sound.inside part (.inl owned)) notTarget).1 owned
    · have away : part ∉ s.curr ∧ ¬ s.Live part := by
        by_cases less : part < maxPartition
        · exact dropped part less notTarget
        · refine ⟨fun owned => less (sound.inside part (.inl owned)), ?_⟩
          rintro ⟨task, started, _⟩
          exact less (sound.inside part (.inr (by simp [started])))
      refine ⟨fun held => away.1 ?_, away.2⟩
      simpa [Phase.release] using (mine part).mp held

/-- Partition 1 is given up while its greenlet runs, and the lock is acquired although it was cancelled. -/
def lateAcquire : List Action :=
  [.resume, .resume, .resume, .acquired 0, .notified 0, .update [0], .resume, .resume, .acquired 1, .notified 1, .resume,
    .resume, .resume, .resume, .resume]

theorem ownership_backed_lateAcquire :
    ∃ s, run (step 2) { locks := fun _ => .nobody, target := [0, 1] } lateAcquire = .ok s ∧
      (s.phase, s.curr, s.locks 1) = (.idle true, [0], .nobody) ∧
      (s.curr.Nodup ∧ (∀ part ∈ s.curr, s.locks part = .me) ∧
        (s.phase = .idle true → (∀ part ∈ s.curr, part ∈ s.target) ∧ (∀ part ∈ s.target, part ∈ s.curr ∨ s.Live part) ∧
          ∀ part, part ∉ s.target → s.locks part ≠ .me ∧ ¬ s.Live part)) := by
  obtain ⟨s, ran, seen⟩ := ok_of_seen (f := fun s : State => (s.phase, s.curr, s.locks 1)) (b := (.idle true, [0], .nobody))
    (x := run (step 2) { locks := fun _ => .nobody, target := [0, 1] } lateAcquire) (by decide +kernel)
  exact ⟨s, ran, seen, ownership_backed 2 [0, 1] (by decide) (fun _ => .nobody) (fun _ => by decide) lateAcquire s ran⟩

end State

end TFCommon.Partition.Ownership
