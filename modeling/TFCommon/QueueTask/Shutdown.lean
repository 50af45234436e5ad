import TFCommon.QueueTask.Positions

/-! `ScheduleShutdown` against producers and the runner. A runner that is marked for cancellation after
its last look at the queue is deleted by the scheduler without a shutdown; and an entry that is pushed
once the queue has been drained is never deleted. Nothing else can go wrong. -/
namespace TFCommon.QueueTask
open Function (update forall_update_iff)
open WorkQueue

variable {α : Type}

inductive Stage where
  | other
  | drain
  | clear
deriving DecidableEq, Repr

def Thread.stage : Thread α → Stage
  | .drain _ => .drain
  | .clear => .clear
  | _ => .other

def RunnerPc.stage : RunnerPc α → Stage
  | .drain => .drain
  | .clear => .clear
  | _ => .other

def WorkQueue.stage (q : WorkQueue α) : Stage :=
  match q.mutex with
  | none => .other
  | some (.thread t) => (q.threads t).stage
  | some (.runner r) =>
    match q.runners r with
    | none => .other
    | some runner => runner.pc.stage

/-- What has happened on the way: a cancelled runner that had returned `false` was deleted by the
scheduler, an entry was pushed after the queue was drained, and the shutdowns that were performed. -/
structure History where
  dropped : Option RunnerId := none
  late : Bool := false
  cleared : Nat := 0
deriving DecidableEq, Repr

def WorkQueue.observe (cfg : Config α) (q : WorkQueue α) (h : History) : Action α → History
  | .thread t _ =>
    match q.threads t with
    | .push _ _ => { h with late := h.late || q.deleted || (cfg.pointers && q.stage == .clear) }
    | .clear => { h with cleared := h.cleared + 1 }
    | _ => h
  | .runner r _ =>
    match q.runners r with
    | some ⟨.clear, _⟩ => { h with cleared := h.cleared + 1 }
    | _ => h
  | .exit r =>
    match q.runners r with
    | some ⟨.returned false, true⟩ => { h with dropped := some r }
    | _ => h
  | _ => h

def stepObserved (cfg : Config α) :
    WorkQueue α × History → Action α → Except Stuck (WorkQueue α × History)
  | (q, h), a => do return (← q.step cfg a, q.observe cfg h a)

def Discarded (cfg : Config α) (q : WorkQueue α) : Prop :=
  if cfg.pointers then q.pushed = q.delivered ++ q.freed else q.queue = []

def Action.asynchronous : Action α → Bool
  | .call _ (.shutdown _) => false
  | _ => true

structure Control (running : Bool) (current : Option RunnerId) (scheduled deleted : Bool) (stage : Stage) (h : History) :
    Prop where
  running : running = current.isSome
  drain : stage ≠ .other → scheduled = true ∧ deleted = false ∧ current = none
  gone : deleted = true → scheduled = true ∧ current = none
  closed : scheduled = true → deleted = false → stage ≠ .other ∨ current ≠ none
  dropped : h.dropped ≠ none → scheduled = true
  cleared : h.cleared = if deleted then 1 else 0

def ThreadOK (current : Option RunnerId) (deleted scheduled deleteEntries : Bool) : Thread α → Prop
  | .testAbort _ => current = none ∧ deleted = false
  | .start _ => current = none ∧ deleted = false ∧ scheduled = false
  | .drain asked => asked = deleteEntries
  | .lockShutdown scheduled _ => scheduled = true
  | .shutdown scheduled _ => scheduled = true
  | _ => True

abbrev WorkQueue.Allows (q : WorkQueue α) (pc : Thread α) : Prop :=
  ThreadOK q.currentRunner q.deleted q.shutdownScheduled q.deleteEntriesOnShutdown pc

structure Entries (pointers : Bool) (queue pushed delivered freed inflight : List α) (deleted deleteEntries : Bool)
    (stage : Stage) (late : Bool) : Prop where
  kept : pointers = true → deleteEntries = true → deleted = false → pushed = delivered ++ inflight ++ freed ++ queue
  unfreed : stage = .other → deleted = false → freed = []
  early : deleted = false → (late = true ↔ pointers = true ∧ stage = .clear ∧ queue ≠ [])
  final : deleted = true → deleteEntries = true →
    if pointers then
      if late then delivered.length + freed.length < pushed.length else pushed = delivered ++ freed
    else (late = true ↔ queue ≠ [])

structure Sound (cfg : Config α) (q : WorkQueue α) (h : History) : Prop where
  mutex : Token q.mutex q.holding
  owner : Token q.currentRunner fun r => q.owns r ∨ h.dropped = some r
  control : Control q.running q.currentRunner q.shutdownScheduled q.deleted q.stage h
  threads : ∀ t, ThreadOK q.currentRunner q.deleted q.shutdownScheduled q.deleteEntriesOnShutdown (q.threads t)
  cancels : ∀ r runner, q.runners r = some runner → runner.taskCancel = true → q.shutdownScheduled = true
  asks : q.shutdownScheduled = false → q.deleteEntriesOnShutdown = true
  orphan : ∀ r, h.dropped = some r → q.runners r = none
  entries : Entries cfg.pointers q.queue q.pushed q.delivered q.freed q.inflight q.deleted q.deleteEntriesOnShutdown
    q.stage h.late

theorem sound_init (cfg : Config α) : Sound cfg ({} : WorkQueue α) {} where
  mutex := mutex_init
  owner r := by simp [owns]
  control := by constructor <;> simp [WorkQueue.stage]
  threads _ := trivial
  cancels r runner here := by cases here
  asks _ := rfl
  orphan r lost := by cases lost
  entries := by constructor <;> simp [inflight]

variable {cfg : Config α} {q q' : WorkQueue α} {h : History} {t : ThreadId} {r : RunnerId} {runner : QueueTaskRunner α}
  {pc : Thread α} {m : Option Holder} {pointers running scheduled deleted deleteEntries late : Bool} {active : Option RunnerId}
  {stage : Stage} {queue pushed delivered freed inflight : List α}

theorem absurd_true {b : Bool} {p : Prop} (off : b = false) (on : b = true) : p := by
  rw [off] at on
  cases on

theorem ThreadOK.free {current current' : Option RunnerId} {d d' s s' e e' : Bool} (ok : ThreadOK current d s e pc)
    (outside : pc.holds = false) : ThreadOK current' d' s' e' pc := by
  cases pc <;> simp_all [ThreadOK, Thread.holds]

theorem stage_thread (inside : q.mutex = some (.thread t)) (now : q.threads t = pc) : q.stage = pc.stage := by
  simp [WorkQueue.stage, inside, now]

theorem stage_runner {old : RunnerPc α} (inside : q.mutex = some (.runner r)) (here : q.runners r = some runner)
    (now : runner.pc = old) : q.stage = old.stage := by
  simp [WorkQueue.stage, inside, here, now]

theorem stage_goto_self (inside : q.mutex = some (.thread t)) : (q.goto t pc).stage = pc.stage := by
  simp [WorkQueue.stage, WorkQueue.goto, inside]

theorem stage_none (outside : q.mutex = none) : q.stage = .other := by
  simp [WorkQueue.stage, outside]

theorem stage_goto (before_ : (q.threads t).stage = .other) (after_ : pc.stage = .other) :
    (q.goto t pc).stage = q.stage := by
  unfold WorkQueue.stage WorkQueue.goto
  cases q.mutex with
  | none => rfl
  | some holder =>
    cases holder with
    | runner r => rfl
    | thread u =>
      by_cases same : u = t
      · subst same
        simp [before_, after_]
      · simp [same]

section
variable (control : Control running active scheduled deleted stage h)
include control

theorem Control.undropped (open_ : scheduled = false) :
    h.dropped = none := by
  by_contra lost
  exact absurd_true open_ (control.dropped lost)

theorem Control.undeleted (open_ : scheduled = false) :
    deleted = false := by
  cases gone : deleted with
  | false => rfl
  | true => exact absurd_true open_ (control.gone gone).1

theorem Control.live (some_ : active ≠ none) :
    stage = .other ∧ deleted = false := by
  constructor
  · by_contra busy
    exact some_ (control.drain busy).2.2
  · cases gone : deleted with
    | false => rfl
    | true => exact absurd (control.gone gone).2 some_

end

section
variable (entries : Entries pointers queue pushed delivered freed inflight deleted deleteEntries stage late)
include entries

theorem Entries.push (entry : α) : Entries pointers (queue ++ [entry]) (pushed ++ [entry]) delivered freed inflight deleted
    deleteEntries stage (late || deleted || (pointers && stage == .clear)) where
  kept points asked alive := by
    rw [entries.kept points asked alive]
    simp
  unfreed := entries.unfreed
  early alive := by
    have before_ := entries.early alive
    cases late <;> simp_all
  final gone asked := by
    have before_ := entries.final gone asked
    cases pointers with
    | true =>
      simp only [gone, Bool.or_true, Bool.true_or, if_true, List.length_append, List.length_singleton] at before_ ⊢
      split at before_
      · omega
      · rw [before_]
        simp
    | false => simp [gone]

theorem Entries.early_other (alive : deleted = false) (before_ : stage ≠ .clear) : late = false := by
  have early := entries.early alive
  simpa [before_] using early

theorem Entries.early_iff {queue' : List α} {stage' : Stage} (alive : deleted = false) (before_ : stage ≠ .clear)
    (after_ : stage' ≠ .clear ∨ pointers = false ∨ queue' = []) :
    late = true ↔ pointers = true ∧ stage' = .clear ∧ queue' ≠ [] := by
  rw [entries.early_other alive before_]
  rcases after_ with other | value | empty
  · simp [other]
  · simp [value]
  · simp [empty]

end

theorem Entries.deleteOne {rest : List α} {entry : α}
    (entries : Entries pointers (entry :: rest) pushed delivered freed inflight deleted deleteEntries .drain late)
    (alive : deleted = false) :
    Entries pointers rest pushed delivered (if deleteEntries then freed ++ [entry] else freed) inflight deleted
      deleteEntries .drain late := by
  refine ⟨fun points asked _ => ?_, nofun,
    fun _ => entries.early_iff alive (by decide) (.inl (by decide)), absurd_true alive⟩
  rw [entries.kept points asked alive, if_pos asked]
  simp

theorem deleteTurn_none (ran : q.deleteTurn cfg d = none) : cfg.pointers = false ∨ q.queue = [] := by
  unfold WorkQueue.deleteTurn at ran
  split at ran
  · split at ran
    · cases ran
    · rename_i value
      exact .inl (by simpa using value)
  · rename_i empty
    exact .inr empty

theorem Control.toClear (control : Control running active scheduled deleted .drain h) :
    Control running active scheduled deleted .clear h :=
  { control with drain := fun _ => control.drain (by decide), closed := fun _ _ => .inl (by decide) }

theorem Entries.toClear (entries : Entries pointers queue pushed delivered freed inflight deleted deleteEntries .drain late)
    (drained : pointers = false ∨ queue = []) :
    Entries pointers queue pushed delivered freed inflight deleted deleteEntries .clear late :=
  ⟨entries.kept, nofun,
    fun alive => entries.early_iff alive (by decide) (.inr drained), entries.final⟩

theorem Control.clear (control : Control running active scheduled deleted .clear h) :
    Control running active scheduled true .other { h with cleared := h.cleared + 1 } := by
  obtain ⟨closed, alive, alone⟩ := control.drain (by decide)
  refine ⟨control.running, fun busy => absurd rfl busy, fun _ => ⟨closed, alone⟩, by simp, control.dropped, ?_⟩
  simp [control.cleared, alive]

theorem Entries.clear (entries : Entries pointers queue pushed delivered freed [] deleted deleteEntries .clear late)
    (alive : deleted = false) :
    Entries pointers [] pushed delivered freed [] true deleteEntries .other late := by
  refine ⟨by simp, by simp, by simp, fun _ asked => ?_⟩
  have early := entries.early alive
  cases points : pointers with
  | true =>
    have kept := entries.kept points asked alive
    rw [if_pos rfl, kept]
    by_cases lost : late = true
    · have waits := (early.mp lost).2.2
      rw [if_pos lost]
      have positive := List.length_pos_iff.mpr waits
      simp only [List.length_append]
      omega
    · have empty : queue = [] := by
        by_contra waits
        exact lost (early.mpr ⟨points, rfl, waits⟩)
      rw [if_neg lost, empty]
      simp
  | false =>
    simp only [points] at early
    simp [early]

section threads

section
variable (sound : Sound cfg q h)
include sound

theorem Sound.goto (mutex : Token m ({ q with mutex := m }.goto t pc).holding)
    (stage : ({ q with mutex := m }.goto t pc).stage = q.stage) (reads : q.Allows pc) :
    Sound cfg ({ q with mutex := m }.goto t pc) h where
  __ := sound
  mutex := mutex
  control := by
    rw [stage]
    exact sound.control
  threads := (forall_update_iff q.threads fun _ => ThreadOK _ _ _ _).mpr ⟨reads, fun u _ => sound.threads u⟩
  entries := by
    rw [stage]
    exact sound.entries

theorem Sound.pass {old : Thread α} (now : q.threads t = old) (same : pc.holds = old.holds)
    (before_ : old.stage = .other) (after_ : pc.stage = .other) (reads : q.Allows pc) :
    Sound cfg (q.goto t pc) h := by
  subst now
  exact Sound.goto sound (sound.mutex.keep (holding_goto rfl rfl same fun _ => Iff.rfl)) (stage_goto before_ after_) reads

theorem Sound.enter (free : q.mutex = none) (holds : pc.holds = true) (after_ : pc.stage = .other) (reads : q.Allows pc) :
    Sound cfg ({ q with mutex := some (.thread t) }.goto t pc) h := by
  refine sound.goto (sound.mutex.take free (holding_goto_ne rfl rfl) ((holding_goto_self rfl).mpr holds)) ?_ reads
  rw [stage_none free, ← after_]
  exact stage_goto_self rfl

theorem Sound.inside {old : Thread α} (now : q.threads t = old) (holds : old.holds = true) : q.mutex = some (.thread t) :=
  (sound.mutex (.thread t)).mpr (by rwa [← now] at holds)

theorem Sound.leave {old : Thread α} (now : q.threads t = old) (holds : old.holds = true)
    (before_ : old.stage = .other) (out : pc.holds = false) (reads : q.Allows pc) :
    Sound cfg ({ q with mutex := none }.goto t pc) h := by
  subst now
  have inside := sound.inside rfl holds
  refine sound.goto (sound.mutex.drop inside (holding_goto_ne rfl rfl) (not_holding_goto rfl out)) ?_ reads
  rw [stage_thread inside rfl, before_]
  rfl

theorem Sound.count (count : UInt64) : Sound cfg { q with count := count } h :=
  { sound with }

theorem Sound.disable (disabled : Bool) : Sound cfg { q with disabled := disabled } h :=
  { sound with }

theorem Sound.push (entry : α) : Sound cfg { q with queue := q.queue ++ [entry], pushed := q.pushed ++ [entry] }
      { h with late := h.late || q.deleted || (cfg.pointers && q.stage == .clear) } :=
  { sound with control := { sound.control with }, entries := sound.entries.push entry }

end

variable {current' : Option RunnerId} {d' s' e' : Bool}

section
variable (sound : Sound cfg q h)
include sound

theorem Sound.excluded {u : ThreadId} (other : q.mutex ≠ some (.thread u)) : ThreadOK current' d' s' e' (q.threads u) := by
  refine (sound.threads u).free ?_
  cases holds : (q.threads u).holds with
  | false => rfl
  | true => exact absurd (sound.inside rfl holds) other

theorem Sound.threads_goto (inside : q.mutex = some (.thread t)) (reads : ThreadOK current' d' s' e' pc) :
    ∀ u, ThreadOK current' d' s' e' (update q.threads t pc u) := by
  refine (forall_update_iff q.threads fun _ => ThreadOK _ _ _ _).mpr ⟨reads, fun u other => sound.excluded fun both => ?_⟩
  rw [inside] at both
  cases both
  exact other rfl

theorem Sound.outside (inside : q.mutex = some (.runner r)) (u : ThreadId) : ThreadOK current' d' s' e' (q.threads u) := by
  refine sound.excluded fun both => ?_
  rw [inside] at both
  cases both

theorem Sound.at_stage {s : Stage} (now : q.stage = s) : Control q.running q.currentRunner q.shutdownScheduled q.deleted s h ∧
    Entries cfg.pointers q.queue q.pushed q.delivered q.freed q.inflight q.deleted q.deleteEntriesOnShutdown s h.late := by
  subst now
  exact ⟨sound.control, sound.entries⟩

end

end threads

variable {d : Bool} {fresh : RunnerId}

section shutdown

def WorkQueue.started (q : WorkQueue α) (t : ThreadId) (fresh : RunnerId) (result : Option Bool) : WorkQueue α :=
  { q with running := true, currentRunner := some fresh, runners := update q.runners fresh (some {}) }.goto t
    (.unlock result)

def WorkQueue.closing (q : WorkQueue α) (t : ThreadId) (d : Bool) (runners' : RunnerId → Option (QueueTaskRunner α)) :
    WorkQueue α :=
  { q with
    shutdownScheduled := true, deleteEntriesOnShutdown := d, running := false, currentRunner := none
    runners := runners' }.goto t (.drain d)

def WorkQueue.marked (q : WorkQueue α) (t : ThreadId) (d : Bool) (r : RunnerId) (runner : QueueTaskRunner α) :
    WorkQueue α :=
  { q with
    shutdownScheduled := true, deleteEntriesOnShutdown := d
    runners := update q.runners r (some { runner with taskCancel := true }) }.goto t (.unlock none)

section
variable (sound : Sound cfg q h)
include sound

theorem Sound.cancels_update {v : Option (QueueTaskRunner α)}
    (new : ∀ runner, v = some runner → runner.taskCancel = true → q.shutdownScheduled = true) :
    ∀ r' runner, update q.runners r v r' = some runner → runner.taskCancel = true → q.shutdownScheduled = true :=
  (forall_update_iff q.runners fun _ v => ∀ runner, v = some runner → runner.taskCancel = true → q.shutdownScheduled = true).mpr
    ⟨new, fun r' _ => sound.cancels r'⟩

theorem Sound.start {result : Option Bool} (now : q.threads t = .start result)
    (unused : q.runners fresh = none) :
    Sound cfg (q.started t fresh result) h := by
  have reads := sound.threads t
  rw [now] at reads
  obtain ⟨alone, alive, open_⟩ := reads
  have inside := sound.inside now rfl
  have lost := sound.control.undropped open_
  have after_ : (q.started t fresh result).stage = .other := stage_goto_self inside
  refine ⟨sound.mutex.keep (holding_goto rfl now rfl (exists_update_iff (·.holds = true) ?_)), ?_, ?_,
    sound.threads_goto inside trivial, sound.cancels_update (by rintro _ ⟨⟩ ⟨⟩), sound.asks, by simp [lost], ?_⟩
  · simp [unused, RunnerPc.holds]
  · refine sound.owner.take alone (fun r' other => ?_) (.inl ⟨{}, Function.update_self .., rfl⟩)
    simp [owns, started, WorkQueue.goto, other]
  · rw [after_]
    exact ⟨rfl, fun busy => absurd rfl busy, by simp [started, WorkQueue.goto, alive], by simp [started, WorkQueue.goto],
      by simp [lost], sound.control.cleared⟩
  · obtain ⟨_, entries⟩ := sound.at_stage (stage_thread inside now)
    rw [inflight_none alone] at entries
    rw [after_, inflight_some rfl (Function.update_self ..)]
    exact entries

theorem Sound.beginDrain {runners' : RunnerId → Option (QueueTaskRunner α)}
    (now : q.threads t = .shutdown true d) (open_ : q.shutdownScheduled = false) (empty : q.inflight = [])
    (fewer : ∀ r runner, runners' r = some runner → q.runners r = some runner ∧ runner.pc.live = false)
    (holding : ∀ r, (∃ runner, runners' r = some runner ∧ runner.pc.holds = true) ↔ q.holding (.runner r)) :
    Sound cfg (q.closing t d runners') h := by
  have inside := sound.inside now rfl
  have lost := sound.control.undropped open_
  have alive := sound.control.undeleted open_
  obtain ⟨control, entries⟩ := sound.at_stage (s := .other) (stage_thread inside now)
  have after_ : (q.closing t d runners').stage = .drain := stage_goto_self inside
  refine ⟨sound.mutex.keep (holding_goto rfl now rfl holding), fun r' => ?_, ?_, sound.threads_goto inside rfl,
    fun _ _ _ _ => rfl, by simp [closing, WorkQueue.goto], by simp [lost], ?_⟩
  · constructor
    · intro impossible
      cases impossible
    · rintro (⟨runner', there, live⟩ | impossible)
      · rw [(fewer r' runner' there).2] at live
        cases live
      · rw [lost] at impossible
        cases impossible
  · rw [after_]
    exact ⟨rfl, fun _ => ⟨rfl, alive, rfl⟩, absurd_true alive, fun _ _ => .inl (by decide),
      fun _ => rfl, control.cleared⟩
  · rw [after_]
    rw [empty] at entries
    exact ⟨fun points _ _ => entries.kept points (sound.asks open_) alive, by simp,
      fun _ => entries.early_iff alive (by decide) (.inl (by decide)), absurd_true alive⟩

theorem Sound.markRunner (now : q.threads t = .shutdown true d)
    (open_ : q.shutdownScheduled = false) (current : q.currentRunner = some r) (here : q.runners r = some runner) :
    Sound cfg (q.marked t d r runner) h := by
  have inside := sound.inside now rfl
  have lost := sound.control.undropped open_
  have alive := sound.control.undeleted open_
  obtain ⟨control, entries⟩ := sound.at_stage (stage_thread inside now)
  have after_ : (q.marked t d r runner).stage = .other := stage_goto_self inside
  refine ⟨sound.mutex.keep (holding_goto rfl now rfl (exists_update_iff (·.holds = true) (by simp [here]))),
    sound.owner.keep fun r' => or_congr_left (exists_update_iff (·.live = true) (by simp [here]) r'), ?_,
    sound.threads_goto inside trivial, fun _ _ _ _ => rfl, by simp [WorkQueue.marked, WorkQueue.goto], by simp [lost], ?_⟩
  · rw [after_]
    exact ⟨control.running, fun busy => absurd rfl busy, absurd_true alive,
      fun _ _ => .inr (by simp [WorkQueue.marked, WorkQueue.goto, current]), fun _ => rfl, control.cleared⟩
  · have same : (q.marked t d r runner).inflight = q.inflight := by
      simp [WorkQueue.inflight, WorkQueue.marked, WorkQueue.goto, current, here]
    rw [after_, same]
    exact ⟨fun points _ _ => entries.kept points (sound.asks open_) alive, entries.unfreed, entries.early,
      absurd_true alive⟩

theorem Sound.deleteTurn (stage : q.stage = .drain) (asked : d = q.deleteEntriesOnShutdown)
    (ran : q.deleteTurn cfg d = some q') : Sound cfg q' h := by
  subst asked
  unfold WorkQueue.deleteTurn at ran
  split at ran
  · rename_i entry rest queue
    split at ran
    · cases ran
      have entries := sound.entries
      rw [queue, stage] at entries
      refine { sound with entries := ?_ }
      show Entries cfg.pointers rest q.pushed q.delivered _ q.inflight q.deleted q.deleteEntriesOnShutdown q.stage h.late
      rw [stage]
      exact entries.deleteOne (sound.control.drain (by simp [stage])).2.1
    · cases ran
  · cases ran

theorem Sound.toClear (now : q.threads t = .drain d)
    (drained : cfg.pointers = false ∨ q.queue = []) : Sound cfg (q.goto t .clear) h := by
  have inside := sound.inside now rfl
  have after_ : (q.goto t .clear).stage = .clear := stage_goto_self inside
  obtain ⟨control, entries⟩ := sound.at_stage (stage_thread inside now)
  refine ⟨sound.mutex.keep (holding_goto rfl now rfl fun _ => Iff.rfl), sound.owner, ?_, sound.threads_goto inside trivial,
    sound.cancels, sound.asks, sound.orphan, ?_⟩
  · rw [after_]
    exact control.toClear
  · rw [after_]
    exact entries.toClear drained

theorem Sound.clear (now : q.threads t = .clear) :
    Sound cfg (q.clearQueue.goto t (.idle none)) { h with cleared := h.cleared + 1 } := by
  have inside := sound.inside now rfl
  obtain ⟨control, entries⟩ := sound.at_stage (s := .clear) (stage_thread inside now)
  obtain ⟨_, alive, alone⟩ := control.drain (by decide)
  rw [inflight_none alone] at entries
  refine ⟨sound.mutex.drop inside (holding_goto_ne rfl rfl) (not_holding_goto rfl rfl), sound.owner, control.clear,
    sound.threads_goto inside trivial, sound.cancels, sound.asks, sound.orphan, ?_⟩
  · have empty : (q.clearQueue.goto t (.idle none)).inflight = [] := inflight_none alone
    rw [empty]
    exact entries.clear alive

end

end shutdown

section runners
variable {dest : RunnerPc α}

theorem stage_advance (here : q.runners r = some runner) (before_ : runner.pc.stage = .other) (after_ : dest.stage = .other) :
    (q.advance r runner dest).stage = q.stage := by
  unfold WorkQueue.stage WorkQueue.advance
  cases q.mutex with
  | none => rfl
  | some holder =>
    cases holder with
    | thread _ => rfl
    | runner r' =>
      by_cases same : r' = r
      · subst same
        simp [here, before_, after_]
      · simp [same]

theorem stage_advance_self (inside : q.mutex = some (.runner r)) : (q.advance r runner dest).stage = dest.stage := by
  simp [WorkQueue.stage, WorkQueue.advance, inside]

theorem RunnerPc.stage_live {pc : RunnerPc α} (live : pc.live = true) : pc.stage = .other := by
  cases pc <;> simp_all [RunnerPc.live, RunnerPc.stage]

section
variable (sound : Sound cfg q h)
include sound

section
variable (here : q.runners r = some runner)
include here

theorem Sound.inside_runner {old : RunnerPc α} (now : runner.pc = old) (holds : old.holds = true) :
    q.mutex = some (.runner r) :=
  (sound.mutex (.runner r)).mpr ⟨runner, here, by rwa [← now] at holds⟩

theorem Sound.current {old : RunnerPc α} (now : runner.pc = old) (live : old.live = true) : q.currentRunner = some r :=
  (sound.owner r).mpr (.inl ⟨runner, here, by rwa [← now] at live⟩)

theorem Sound.not_live (other : q.currentRunner ≠ some r) : runner.pc.live = false :=
  Bool.eq_false_iff.mpr fun live => other (sound.current here rfl live)

theorem Sound.orphan_update (new : Option (QueueTaskRunner α)) :
    ∀ r', h.dropped = some r' → update q.runners r new r' = none := by
  intro r' lost
  have nothing := sound.orphan r' lost
  have other : r' ≠ r := fun same => by
    rw [same, here] at nothing
    cases nothing
  rw [Function.update_of_ne other]
  exact nothing

theorem Sound.cancels_advance : ∀ r' runner', update q.runners r (some { runner with pc := dest }) r' = some runner' →
    runner'.taskCancel = true → q.shutdownScheduled = true := by
  refine sound.cancels_update ?_
  rintro _ ⟨⟩
  exact sound.cancels r runner here

omit here in
theorem Sound.disown (current : q.currentRunner = some r) (over_ : dest.live = false)
    (lost : h.dropped ≠ some r) : Token none fun r' => (q.advance r runner dest).owns r' ∨ h.dropped = some r' := by
  refine sound.owner.drop current (fun r' other => or_congr_left ?_) ?_
  · simp [owns, WorkQueue.advance, other]
  · simp [owns, WorkQueue.advance, over_, lost]

theorem Sound.advance (live : runner.pc.live = true) (live' : dest.live = true)
    (mutex : Token m ({ q with mutex := m, queue := queue, delivered := delivered }.advance r runner dest).holding)
    (stage : ({ q with mutex := m, queue := queue, delivered := delivered }.advance r runner dest).stage = .other)
    (order : delivered ++ dest.inflight ++ queue = q.delivered ++ runner.pc.inflight ++ q.queue) :
    Sound cfg ({ q with mutex := m, queue := queue, delivered := delivered }.advance r runner dest) h := by
  have current := sound.current here rfl live
  obtain ⟨before_, alive⟩ := sound.control.live (by simp [current])
  refine ⟨mutex, sound.owner.keep fun r' => or_congr_left (owns_advance here (live'.trans live.symm) r'), ?_, sound.threads,
    sound.cancels_advance here, sound.asks, sound.orphan_update here _, ?_⟩
  · rw [stage]
    exact (sound.at_stage before_).1
  · have entries := sound.entries
    have unfreed := entries.unfreed before_ alive
    have moved : ({ q with mutex := m, queue := queue, delivered := delivered }.advance r runner dest).inflight =
        dest.inflight := by simp [WorkQueue.inflight, WorkQueue.advance, current]
    rw [stage, moved]
    refine ⟨fun points asked _ => ?_, fun _ _ => unfreed, fun _ => entries.early_iff alive (by simp [before_])
      (.inl (by decide)), absurd_true alive⟩
    have kept := entries.kept points asked alive
    rw [unfreed, inflight_some current here, List.append_nil] at kept
    show q.pushed = delivered ++ dest.inflight ++ q.freed ++ queue
    rw [unfreed, List.append_nil, order]
    exact kept

omit here in
theorem Sound.proceed {old : RunnerPc α} (queue delivered : List α)
    (here : q.runners r = some runner) (now : runner.pc = old) (live : old.live = true) (live' : dest.live = true)
    (same : dest.holds = old.holds)
    (order : delivered ++ dest.inflight ++ queue = q.delivered ++ old.inflight ++ q.queue) :
    Sound cfg ({ q with queue := queue, delivered := delivered }.advance r runner dest) h := by
  subst now
  have current := sound.current here rfl live
  obtain ⟨before_, _⟩ := sound.control.live (by simp [current])
  exact Sound.advance (m := q.mutex) sound here live live' (sound.mutex.keep (holding_advance here rfl rfl same))
    ((stage_advance here (RunnerPc.stage_live live) (RunnerPc.stage_live live')).trans before_) order

theorem Sound.stay {old : RunnerPc α} (now : runner.pc = old)
    (live : old.live = true) (live' : dest.live = true) (same : dest.holds = old.holds)
    (order : dest.inflight = old.inflight) : Sound cfg (q.advance r runner dest) h :=
  sound.proceed q.queue q.delivered here now live live' same (by rw [order])

theorem Sound.finish (now : runner.pc = .finish) (open_ : q.shutdownScheduled = false) :
    Sound cfg ({ q with currentRunner := none, running := false, mutex := none }.advance r runner (.returned true)) h := by
  have current := sound.current here now rfl
  have lost := sound.control.undropped open_
  obtain ⟨before_, alive⟩ := sound.control.live (by simp [current])
  have inside := sound.inside_runner here now rfl
  refine ⟨sound.mutex.drop inside (holding_advance_ne rfl rfl) (not_holding_advance rfl rfl),
    sound.disown current rfl (by simp [lost]), ?_, sound.outside inside, sound.cancels_advance here, sound.asks,
    sound.orphan_update here _, ?_⟩
  · exact ⟨rfl, fun busy => absurd rfl busy, absurd_true alive,
      fun closed => absurd (open_.symm.trans closed) (by decide), by simp [lost], sound.control.cleared⟩
  · obtain ⟨_, entries⟩ := sound.at_stage before_
    rw [inflight_some current here, now] at entries
    exact entries

theorem Sound.toDrain (now : runner.pc = .finish)
    (closed : q.shutdownScheduled = true) :
    Sound cfg ({ q with currentRunner := none, running := false }.advance r runner .drain) h := by
  have current := sound.current here now rfl
  obtain ⟨before_, alive⟩ := sound.control.live (by simp [current])
  have inside := sound.inside_runner here now rfl
  have lost : ∀ r', h.dropped ≠ some r' := fun r' lost => by
    have other := (sound.owner r').mpr (.inr lost)
    have nothing := sound.orphan r' lost
    rw [current] at other
    cases other
    rw [here] at nothing
    cases nothing
  have after_ : ({ q with currentRunner := none, running := false }.advance r runner .drain).stage = .drain :=
    stage_advance_self inside
  refine ⟨sound.mutex.keep (holding_advance here rfl rfl (by rw [now]; rfl)), sound.disown current rfl (lost r), ?_,
    sound.outside inside, fun _ _ _ _ => closed, sound.asks, sound.orphan_update here _, ?_⟩
  · rw [after_]
    exact ⟨rfl, fun _ => ⟨closed, alive, rfl⟩, absurd_true alive,
      fun _ _ => .inl (by decide), sound.control.dropped, sound.control.cleared⟩
  · obtain ⟨_, entries⟩ := sound.at_stage before_
    rw [inflight_some current here, now] at entries
    rw [after_]
    exact ⟨entries.kept, by simp,
      fun _ => entries.early_iff alive (by decide) (.inl (by decide)), entries.final⟩

theorem Sound.runnerToClear (now : runner.pc = .drain)
    (drained : cfg.pointers = false ∨ q.queue = []) : Sound cfg (q.advance r runner .clear) h := by
  have inside := sound.inside_runner here now rfl
  have after_ : (q.advance r runner .clear).stage = .clear := stage_advance_self inside
  obtain ⟨control, entries⟩ := sound.at_stage (s := .drain) (stage_runner inside here now)
  have alone := (control.drain (by decide)).2.2
  refine ⟨sound.mutex.keep (holding_advance here rfl rfl (by rw [now]; rfl)),
    sound.owner.keep fun r' => or_congr_left (owns_advance here (by rw [now]; rfl) r'), ?_, sound.threads,
    fun _ _ _ _ => (control.drain (by decide)).1, sound.asks, sound.orphan_update here _, ?_⟩
  · rw [after_]
    exact control.toClear
  · rw [inflight_none alone] at entries
    have empty : (q.advance r runner .clear).inflight = [] := inflight_none alone
    rw [after_, empty]
    exact entries.toClear drained

theorem Sound.runnerClear (now : runner.pc = .clear) :
    Sound cfg (q.clearQueue.advance r runner (.returned true)) { h with cleared := h.cleared + 1 } := by
  have inside := sound.inside_runner here now rfl
  obtain ⟨control, entries⟩ := sound.at_stage (s := .clear) (stage_runner inside here now)
  obtain ⟨closed, alive, alone⟩ := control.drain (by decide)
  rw [inflight_none alone] at entries
  refine ⟨sound.mutex.drop inside (holding_advance_ne rfl rfl) (not_holding_advance rfl rfl),
    sound.owner.keep fun r' => or_congr_left (owns_advance here (by rw [now]; rfl) r'), control.clear, sound.outside inside,
    fun _ _ _ _ => closed, sound.asks, sound.orphan_update here _, ?_⟩
  · have empty : (q.clearQueue.advance r runner (.returned true)).inflight = [] := inflight_none alone
    rw [empty]
    exact entries.clear alive

theorem Sound.deleteRunner {h' : History} (outside : runner.pc.holds = false) (idle : runner.pc.inflight = [])
    (owner : Token q.currentRunner fun r' => (r' ≠ r ∧ q.owns r') ∨ h'.dropped = some r')
    (dropped : h'.dropped ≠ none → q.shutdownScheduled = true)
    (orphan : ∀ r', h'.dropped = some r' → r' ≠ r → q.runners r' = none)
    (same : h'.late = h.late ∧ h'.cleared = h.cleared) :
    Sound cfg { q with runners := update q.runners r none } h' := by
  have stage : { q with runners := update q.runners r none }.stage = q.stage := by
    cases inside : q.mutex with
    | none => simp [WorkQueue.stage, inside]
    | some holder =>
      cases holder with
      | thread u => simp [WorkQueue.stage, inside]
      | runner r' =>
        have other : r' ≠ r := fun same => by
          obtain ⟨runner', there, holds⟩ := (sound.mutex (.runner r')).mp inside
          rw [same, here] at there
          cases there
          rw [outside] at holds
          cases holds
        simp [WorkQueue.stage, inside, other]
  have inflight : { q with runners := update q.runners r none }.inflight = q.inflight := by
    cases current : q.currentRunner with
    | none => simp [WorkQueue.inflight, current]
    | some r' =>
      by_cases equal : r' = r
      · subst equal
        rw [inflight_some current here, idle]
        simp [WorkQueue.inflight]
      · simp [WorkQueue.inflight, current, equal]
  refine ⟨sound.mutex.stay (holding_advance_ne rfl rfl) (by simp [holding, here, outside]),
    owner.keep fun r' => or_congr_left ?_, ?_, sound.threads, sound.cancels_update (by simp), sound.asks,
    (forall_update_iff q.runners fun r' v => h'.dropped = some r' → v = none).mpr
      ⟨fun _ => rfl, fun r' other lost => orphan r' lost other⟩, ?_⟩
  · by_cases equal : r' = r
    · subst equal
      simp [owns]
    · simp [owns, equal]
  · rw [stage]
    exact { sound.control with dropped := dropped, cleared := same.2.trans sound.control.cleared }
  · rw [stage, inflight, same.1]
    exact sound.entries

end

end

end runners

theorem Sound.shutdown_cases (sound : Sound cfg q h) (now : q.threads t = .shutdown true d)
    (ran : q.stepThread cfg t fresh = .ok q') :
    q' = q.goto t (.unlock none) ∨
    q.shutdownScheduled = false ∧
      (q.currentRunner = none ∧ q' = q.closing t d q.runners ∨
        ∃ r runner, q.currentRunner = some r ∧ q.runners r = some runner ∧
          (runner.pc = .queued ∧ q' = q.closing t d (update q.runners r none) ∨ q' = q.marked t d r runner)) := by
  simp only [stepThread, now, scheduleShutdown] at ran
  cases closed : q.shutdownScheduled with
  | true =>
    simp only [closed] at ran
    cases ran
    exact .inl rfl
  | false =>
    have alive := sound.control.undeleted closed
    have running := sound.control.running
    refine .inr ⟨rfl, ?_⟩
    cases current : q.currentRunner with
    | none =>
      rw [current] at running
      simp only [closed] at ran running
      simp only [running, alive, Bool.false_eq_true, if_false] at ran
      cases ran
      simp [closing, current, alive]
    | some r =>
      rw [current] at running
      simp only [closed, Option.isSome_some] at ran running
      simp only [running, Bool.false_eq_true, if_false, cancelRunner, current] at ran
      refine .inr ?_
      cases here : q.runners r with
      | none =>
        simp only [here] at ran
        cases ran
      | some runner =>
        refine ⟨r, runner, rfl, here, ?_⟩
        obtain ⟨pc, cancel⟩ := runner
        cases pc <;> simp only [here] at ran
        case queued =>
          simp only [bind, Except.bind, pure, Except.pure, if_true, shutdownLocked, alive, Bool.false_eq_true, if_false,
            Except.ok.injEq] at ran
          exact .inl ⟨rfl, by simp [← ran, closing, alive]⟩
        all_goals
          cases ran
          exact .inr (by simp [WorkQueue.marked, running, current])

theorem Sound.shutdown (sound : Sound cfg q h) (now : q.threads t = .shutdown true d)
    (ran : q.stepThread cfg t fresh = .ok q') : Sound cfg q' h := by
  rcases sound.shutdown_cases now ran with rfl | ⟨open_, ⟨alone, rfl⟩ | ⟨r, runner, current, here, ⟨queued, rfl⟩ | rfl⟩⟩
  · exact sound.pass now rfl rfl rfl trivial
  · exact sound.beginDrain now open_ (inflight_none alone) (fun r runner here => ⟨here, sound.not_live here (by simp [alone])⟩)
      fun _ => Iff.rfl
  · refine sound.beginDrain now open_ ?_ (fun r' runner' there => ?_) fun r' => ?_
    · rw [inflight_some current here, queued]
      rfl
    · have other : r' ≠ r := fun same => by simp [same] at there
      rw [Function.update_of_ne other] at there
      exact ⟨there, sound.not_live there (by simpa [current] using other.symm)⟩
    · by_cases same : r' = r
      · subst same
        simp [holding, here, queued, RunnerPc.holds]
      · simp [holding, same]
  · exact sound.markRunner now open_ current here

theorem stepThread_sound (sound : Sound cfg q h) (ran : q.stepThread cfg t fresh = .ok q') :
    Sound cfg q' (q.observe cfg h (.thread t fresh)) := by
  have reads := sound.threads t
  have stepped := ran
  cases now : q.threads t <;> simp only [stepThread, observe, now, Except.ok.injEq, reduceCtorEq] at ran reads ⊢
  case increment entry =>
    subst ran
    have counted := sound.count (q.count + cfg.weight entry)
    split <;> exact counted.pass now rfl rfl rfl trivial
  case push entry ncount =>
    subst ran
    exact (sound.push entry).pass now rfl rfl rfl trivial
  case decrement entry =>
    subst ran
    exact (sound.count _).pass now rfl rfl rfl trivial
  case lock | lockShutdown =>
    obtain ⟨held, taken, ran⟩ := bind_ok ran
    cases ran
    obtain ⟨free, rfl⟩ := acquire_ok taken
    exact sound.enter free rfl rfl reads
  case testQueue result =>
    subst ran
    split
    · exact sound.pass now rfl rfl rfl trivial
    · rename_i go
      simp only [Bool.or_eq_true, not_or, Bool.not_eq_true, sound.control.running, Option.isSome_eq_false_iff,
        Option.isNone_iff_eq_none] at go
      exact sound.pass now rfl rfl rfl ⟨go.1.1, go.2⟩
  case testAbort result =>
    subst ran
    split
    · exact sound.pass now rfl rfl rfl trivial
    · rename_i go
      simp only [runnerAbortLocked, Bool.or_eq_true, not_or, Bool.not_eq_true] at go
      exact sound.pass now rfl rfl rfl ⟨reads.1, reads.2, go.2⟩
  case start result =>
    obtain ⟨unused, ran⟩ := of_check (of_check ran).2
    cases ran
    exact sound.start now (by simpa using unused)
  case unlock result =>
    subst ran
    exact sound.leave now rfl rfl rfl trivial
  case readDisabled | rereadDisabled =>
    subst ran
    split <;> exact sound.pass now rfl rfl rfl trivial
  case writeDisabled disabled =>
    subst ran
    exact (sound.disable disabled).pass now rfl rfl rfl trivial
  case shutdown scheduled d =>
    cases reads
    exact sound.shutdown now stepped
  case drain d =>
    have inside := sound.inside now rfl
    split at ran
    · rename_i next turn
      cases ran
      exact sound.deleteTurn (stage_thread inside now) reads turn
    · rename_i turn
      cases ran
      exact sound.toClear now (deleteTurn_none turn)
  case clear =>
    subst ran
    exact sound.clear now

theorem stepRunner_sound {answer : Bool} (sound : Sound cfg q h) (ran : q.stepRunner cfg r answer = .ok q') :
    Sound cfg q' (q.observe cfg h (.runner r answer)) := by
  cases here : q.runners r with
  | none => simp [stepRunner, here] at ran
  | some runner =>
    simp only [stepRunner, here] at ran
    by_cases last : runner.pc = .clear
    · -- the only step of a runner that counts
      have observed : q.observe cfg h (.runner r answer) = { h with cleared := h.cleared + 1 } := by
        obtain ⟨pc, cancel⟩ := runner
        cases last
        simp only [observe, here]
      simp only [last, Except.ok.injEq] at ran
      subst ran
      rw [observed]
      exact sound.runnerClear here last
    have observed : q.observe cfg h (.runner r answer) = h := by
      obtain ⟨pc, cancel⟩ := runner
      cases pc <;> simp_all [observe]
    rw [observed]
    cases now : runner.pc <;> simp only [now, Except.ok.injEq, reduceCtorEq] at ran
    case onEntry | testQueue | testAbort =>
      subst ran
      split <;> exact sound.stay here now rfl rfl rfl rfl
    case abort =>
      obtain ⟨_, rfl⟩ := of_guard ran
      split <;> exact sound.stay here now rfl rfl rfl rfl
    case dequeue count =>
      split at ran
      · cases ran
        exact sound.stay here now rfl rfl rfl rfl
      · rename_i entry rest queue
        cases ran
        refine sound.proceed rest q.delivered here now rfl rfl rfl ?_
        simp [queue, RunnerPc.inflight]
    case decrement count entry =>
      subst ran
      exact (sound.count _).stay here now rfl rfl rfl rfl
    case callback count entry =>
      subst ran
      have next : ∀ dest : RunnerPc α, dest.live = true → dest.holds = false → dest.inflight = [] →
          Sound cfg ({ q with delivered := q.delivered ++ [entry] }.advance r runner dest) h := by
        intro dest live holds empty
        refine sound.proceed q.queue (q.delivered ++ [entry]) here now rfl live holds ?_
        rw [empty]
        simp [RunnerPc.inflight]
      split
      · exact next _ rfl rfl rfl
      · split <;> exact next _ rfl rfl rfl
    case lockDone =>
      obtain ⟨held, taken, ran⟩ := bind_ok ran
      cases ran
      obtain ⟨free, rfl⟩ := acquire_ok taken
      refine sound.advance here (by rw [now]; rfl) rfl ?_ ?_ (by rw [now]; rfl)
      · exact sound.mutex.take free (holding_advance_ne rfl rfl) ((holding_advance_self rfl).mpr rfl)
      · exact stage_advance_self rfl
    case finish =>
      have current := sound.current here now rfl
      have alive := (sound.control.live (by simp [current])).2
      split at ran
      · rename_i closed
        rw [shutdownLocked, if_neg (by simp [alive])] at ran
        cases ran
        exact sound.toDrain here now closed
      · rename_i open_
        cases ran
        exact sound.finish here now (by simpa using open_)
    case resume =>
      subst ran
      have current := sound.current here now rfl
      have running : q.running = true := by simp [sound.control.running, current]
      have inside := sound.inside_runner here now rfl
      rw [← running]
      refine sound.advance here (by rw [now]; rfl) rfl ?_ rfl (by rw [now]; rfl)
      exact sound.mutex.drop inside (holding_advance_ne rfl rfl) (not_holding_advance rfl rfl)
    case drain =>
      have inside := sound.inside_runner here now rfl
      split at ran
      · rename_i next turn
        cases ran
        exact sound.deleteTurn (stage_runner inside here now) rfl turn
      · rename_i turn
        cases ran
        exact sound.runnerToClear here now (deleteTurn_none turn)
    case clear => exact absurd now last

theorem taskExit_sound (sound : Sound cfg q h) (ran : q.taskExit r = .ok q') :
    Sound cfg q' (q.observe cfg h (.exit r)) := by
  unfold taskExit at ran
  split at ran
  · rename_i done cancel here
    cases done with
    | true =>
      cases ran
      simp only [observe, here]
      refine sound.deleteRunner here rfl rfl (sound.owner.keep fun r' => or_congr_left ?_) sound.control.dropped
        (fun r' lost _ => sound.orphan r' lost) ⟨rfl, rfl⟩
      refine and_iff_right_of_imp fun ⟨runner, there, live⟩ same => ?_
      rw [same, here] at there
      cases there
      cases live
    | false =>
      cases cancel with
      | true =>
        cases ran
        simp only [observe, here]
        have current := sound.current here rfl rfl
        refine sound.deleteRunner here rfl rfl (fun r' => ?_) (fun _ => sound.cancels r _ here rfl)
          (fun r' lost other => absurd (Option.some.inj lost).symm other) ⟨rfl, rfl⟩
        rw [current]
        refine ⟨fun same => .inr same, ?_⟩
        rintro (⟨other, ⟨runner, there, live⟩⟩ | same)
        · have current' := sound.current there rfl live
          rw [current] at current'
          exact current'
        · exact same
      | false =>
        cases ran
        simp only [observe, here]
        exact sound.stay here rfl rfl rfl rfl rfl
  · cases ran

theorem step_sound (action : Action α) (sound : Sound cfg q h) (legal : action.asynchronous = true)
    (ran : q.step cfg action = .ok q') : Sound cfg q' (q.observe cfg h action) := by
  cases action with
  | call t c =>
    simp only [step] at ran
    split at ran
    · rename_i result idle
      cases ran
      cases c with
      | enqueue _ | setDisable _ => exact sound.pass idle rfl rfl rfl trivial
      | scheduleShutdown _ => exact sound.pass idle rfl rfl rfl rfl
      | shutdown _ => cases legal
    · cases ran
  | thread t fresh => exact stepThread_sound sound ran
  | dispatch r =>
    simp only [step, dispatch] at ran
    split at ran
    · rename_i cancel here
      cases ran
      exact sound.stay here rfl rfl rfl rfl rfl
    · cases ran
  | runner r answer => exact stepRunner_sound sound ran
  | exit r => exact taskExit_sound sound ran

theorem stepObserved_sound {s s' : WorkQueue α × History} {action : Action α} (sound : Sound cfg s.1 s.2)
    (legal : action.asynchronous = true) (ran : stepObserved cfg s action = .ok s') : Sound cfg s'.1 s'.2 := by
  obtain ⟨next, stepped, ran⟩ := bind_ok ran
  cases ran
  exact step_sound action sound legal stepped

/-- The shutdown has been performed once, with the entries deleted if that was asked for. -/
def Performed (cfg : Config α) (q : WorkQueue α) (h : History) : Prop :=
  h.cleared = 1 ∧ q.deleted = true ∧ (q.deleteEntriesOnShutdown = true → Discarded cfg q)

theorem Entries.discarded
    (entries : Entries cfg.pointers q.queue q.pushed q.delivered q.freed inflight q.deleted q.deleteEntriesOnShutdown
      stage h.late) (gone : q.deleted = true) (asked : q.deleteEntriesOnShutdown = true) :
    Discarded cfg q ↔ h.late = false := by
  have final := entries.final gone asked
  unfold Discarded
  cases points : cfg.pointers with
  | false =>
    simp only [points, Bool.false_eq_true, if_false] at final ⊢
    rw [← Bool.not_eq_true, final, not_not]
  | true =>
    simp only [points] at final ⊢
    cases late : h.late with
    | false => simpa [late] using final
    | true =>
      simp only [late, if_true] at final
      refine iff_of_false (fun all => ?_) (by decide)
      rw [all, List.length_append] at final
      omega

/-- Once `ScheduleShutdown` is done and the scheduler has no runner of the queue left, the shutdown has
been performed unless a runner was dropped or an entry came late. -/
theorem shutdown_completes_iff (cfg : Config α) (actions : List (Action α)) (q : WorkQueue α) (h : History)
    (ran : run (stepObserved cfg) ({}, {}) actions = .ok (q, h)) (legal : ∀ a ∈ actions, a.asynchronous = true)
    (closed : q.shutdownScheduled = true) (settled : ∀ t, (q.threads t).stage = .other)
    (exited : ∀ r, q.runners r = none) :
    Performed cfg q h ↔ h.dropped = none ∧ (q.deleteEntriesOnShutdown = true → h.late = false) := by
  have sound : Sound cfg q h := run_invariant (fun s => Sound cfg s.1 s.2) (fun a => a.asynchronous = true)
    (fun _ _ _ sound legal ran => stepObserved_sound sound legal ran) actions ({}, {}) (q, h) (sound_init cfg) legal ran
  have stage : q.stage = .other := by
    unfold WorkQueue.stage
    split
    · rfl
    · exact settled _
    · simp [exited]
  constructor
  · rintro ⟨_, gone, discards⟩
    refine ⟨?_, fun asked => (sound.entries.discarded gone asked).mp (discards asked)⟩
    cases lost : h.dropped with
    | none => rfl
    | some r =>
      have current := (sound.owner r).mpr (.inr lost)
      rw [(sound.control.gone gone).2] at current
      cases current
  · rintro ⟨unlost, punctual⟩
    have alone : q.currentRunner = none := by
      cases current : q.currentRunner with
      | none => rfl
      | some r =>
        rcases (sound.owner r).mp current with ⟨runner, here, _⟩ | lost
        · rw [exited r] at here
          cases here
        · rw [unlost] at lost
          cases lost
    have gone : q.deleted = true := by
      by_contra alive
      rcases sound.control.closed closed (by simpa using alive) with busy | current
      · exact busy stage
      · exact current alone
    exact ⟨by simp [sound.control.cleared, gone], gone, fun asked => (sound.entries.discarded gone asked).mpr (punctual asked)⟩

/-- The runner 0 is taken back from the scheduler with its entry in the queue. -/
def takenBack : List (Action Nat) :=
  [.call 0 (.enqueue 7), .thread 0 0, .thread 0 0, .thread 0 0, .thread 0 0, .thread 0 0, .thread 0 0, .thread 0 0,
    .call 1 (.scheduleShutdown true), .thread 1 1, .thread 1 1, .thread 1 1, .thread 1 1, .thread 1 1]

theorem takenBack_performed : ∃ q h, run (stepObserved { pointers := true }) ({}, {}) takenBack = .ok (q, h) ∧
    q.freed = [7] ∧ Performed { pointers := true } q h := by
  refine ⟨_, _, rfl, rfl, ?_⟩
  refine (shutdown_completes_iff { pointers := true } takenBack _ _ rfl (by decide) rfl (fun t => ?_) fun r => ?_).mpr
    ⟨rfl, fun _ => rfl⟩
  · match t with
    | 0 => rfl
    | 1 => rfl
    | _ + 2 => rfl
  · match r with
    | 0 => rfl
    | _ + 1 => rfl

/-- `on_entry` makes the runner 0 wait for another run, and `ScheduleShutdown` comes before its exit. -/
def refusedEntry : List (Action Nat) :=
  [.call 0 (.enqueue 7), .thread 0 0, .thread 0 0, .thread 0 0, .thread 0 0, .thread 0 0, .thread 0 0, .thread 0 0,
    .dispatch 0, .runner 0 false, .call 1 (.scheduleShutdown true), .thread 1 1, .thread 1 1, .thread 1 1, .exit 0]

/-- Nothing is left that could shut the queue down. -/
theorem refusedEntry_abandoned : ∃ q h, run (stepObserved { pointers := true }) ({}, {}) refusedEntry = .ok (q, h) ∧
    q.shutdownScheduled = true ∧ (∀ t, ∃ result, q.threads t = .idle result) ∧ (∀ r, q.runners r = none) ∧
    q.deleteEntriesOnShutdown = true ∧ q.queue = [7] ∧ q.freed = [] ∧ q.deleted = false ∧
    ¬ Performed { pointers := true } q h := by
  refine ⟨_, _, rfl, rfl, fun t => ?_, fun r => ?_, rfl, rfl, rfl, rfl, fun performed => ?_⟩
  · match t with
    | 0 | 1 | _ + 2 => exact ⟨_, rfl⟩
  · match r with
    | 0 => rfl
    | _ + 1 => rfl
  · cases performed.1

end TFCommon.QueueTask
