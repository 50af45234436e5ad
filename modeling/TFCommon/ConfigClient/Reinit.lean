import TFCommon.Lib.Run
import Mathlib.Data.List.Basic

/-! How the AMQP reader waits for the end of the configuration, and what wakes it: `WaitForEndOfConfig`, `EndOfConfig`
and `ReinitConfigClient` of `config_client_manager.cc`, with `RabbitMQReader::Run` and the `config_client::Init` task.

A section under `end_of_rib_sync_mutex_`, a wait, a notification and a write of `reinit_triggered_` are one step each.
The calls of `EndOfConfig` and of `ReinitConfigClient` that are in progress are counted by what they do next. -/
namespace TFCommon.ConfigClient

inductive ReaderState where
  | idle
  -- before the test of `reinit_triggered_` in `Run`
  | start
  -- before the mutex section of `WaitForEndOfConfig`
  | entering
  -- in `cond_var_.wait`
  | waiting
  -- notified, before it holds the mutex again
  | woken
  -- in the loop that receives messages
  | receiving
deriving DecidableEq, Repr

structure ConfigClientManager where
  endOfRibComputed : Bool := false
  reinitTriggered : Bool := false
  initTrigger : Bool := true
  reader : ReaderState := .idle
  -- calls of `EndOfConfig` before their mutex section
  ends : Nat := 0
  -- calls of `ReinitConfigClient` before their mutex section, before the write of the flag, and before
  -- `init_trigger_->Set()`
  notifying : Nat := 0
  writing : Nat := 0
  setting : Nat := 0
deriving DecidableEq, Repr

inductive Action where
  | init
  | reader
  | spuriousWakeup
  | callEndOfConfig
  | endOfConfig
  | callReinit
  | notifyReinit
  | writeReinit
  | setReinit
deriving DecidableEq, Repr

inductive Fault where
  -- the thread of the action has no such step
  | disabled
  | assertion
deriving DecidableEq, Repr

namespace ConfigClientManager

def notifyAll (m : ConfigClientManager) : ConfigClientManager :=
  { m with reader := if m.reader = .waiting then .woken else m.reader }

/-- `InitConfigClient`. The policy of `config_client::Init` excludes the reader task and the tasks that call
`EndOfConfig`. -/
def initConfigClient (m : ConfigClientManager) : Except Fault ConfigClientManager :=
  if m.initTrigger = true ∧ m.reader = .idle ∧ m.ends = 0 then
    .ok { m with
      initTrigger := false
      endOfRibComputed := if m.reinitTriggered then false else m.endOfRibComputed
      reinitTriggered := false
      reader := .start }
  else .error .disabled

def readerStep (m : ConfigClientManager) : Except Fault ConfigClientManager :=
  match m.reader with
  | .idle => .error .disabled
  | .start => .ok { m with reader := if m.reinitTriggered then .idle else .entering }
  | .entering => .ok { m with reader := if m.endOfRibComputed then .receiving else .waiting }
  | .waiting => .error .disabled
  | .woken =>
    -- the flag is tested before the condition of the loop
    .ok { m with reader := if m.reinitTriggered || m.endOfRibComputed then .receiving else .waiting }
  | .receiving => .ok { m with reader := if m.reinitTriggered then .idle else .receiving }

def endOfConfig (m : ConfigClientManager) : Except Fault ConfigClientManager :=
  if m.ends = 0 then .error .disabled
  else if m.endOfRibComputed then .error .assertion
  else .ok (notifyAll { m with ends := m.ends - 1, endOfRibComputed := true })

def step (m : ConfigClientManager) : Action → Except Fault ConfigClientManager
  | .init => m.initConfigClient
  | .reader => m.readerStep
  | .spuriousWakeup => if m.reader = .waiting then .ok { m with reader := .woken } else .error .disabled
  | .callEndOfConfig => .ok { m with ends := m.ends + 1 }
  | .endOfConfig => m.endOfConfig
  | .callReinit => .ok { m with notifying := m.notifying + 1 }
  | .notifyReinit =>
    if m.notifying = 0 then .error .disabled
    else .ok (notifyAll { m with notifying := m.notifying - 1, writing := m.writing + 1 })
  | .writeReinit =>
    if m.writing = 0 then .error .disabled
    else .ok { m with writing := m.writing - 1, setting := m.setting + 1, reinitTriggered := true }
  | .setReinit =>
    if m.setting = 0 then .error .disabled
    else .ok { m with setting := m.setting - 1, initTrigger := true }

/-- A reinit is requested, the reader sleeps, and no thread is left that will notify it. -/
def LockedOut (m : ConfigClientManager) : Prop :=
  m.reinitTriggered = true ∧ m.reader = .waiting ∧ m.ends = 0 ∧ m.notifying = 0

instance (m : ConfigClientManager) : Decidable m.LockedOut := inferInstanceAs (Decidable (_ ∧ _))

/-- A reader that takes the mutex and may go to sleep does so in time: a notification is still to come, or no call of
`ReinitConfigClient` is between its notification and its write of the flag and no flag is left unseen. -/
def Timely (m : ConfigClientManager) (a : Action) : Prop :=
  a = .reader → m.endOfRibComputed = true ∨ m.ends ≠ 0 ∨ m.notifying ≠ 0 ∨
    (m.reader = .entering → m.reinitTriggered = false ∧ m.writing = 0) ∧
      (m.reader = .woken → m.reinitTriggered = true ∨ m.writing = 0)

instance (m : ConfigClientManager) (a : Action) : Decidable (m.Timely a) := inferInstanceAs (Decidable (_ → _))

/-- A sleeping reader will be notified, or no flag is set and none is about to be set. -/
def Wakeable (m : ConfigClientManager) : Prop :=
  m.reader = .waiting → m.ends ≠ 0 ∨ m.notifying ≠ 0 ∨ m.reinitTriggered = false ∧ m.writing = 0

variable {m next final : ConfigClientManager} {a : Action}

theorem notifyAll_awake : m.notifyAll.reader ≠ .waiting := by
  unfold notifyAll
  split
  · exact nofun
  · assumption

theorem Wakeable.reader (timely : m.Timely .reader) (stepped : m.readerStep = .ok next) : next.Wakeable := by
  intro asleep
  have timely := timely rfl
  unfold readerStep at stepped
  cases state : m.reader with
  | idle | waiting => simp [state] at stepped
  | start | receiving =>
    simp only [state, Except.ok.injEq] at stepped
    subst stepped
    split at asleep <;> cases asleep
  | entering =>
    simp only [state, Except.ok.injEq] at stepped
    subst stepped
    cases ended : m.endOfRibComputed with
    | true => simp [ended] at asleep
    | false => simpa [ended, state] using timely
  | woken =>
    simp only [state, Except.ok.injEq] at stepped
    subst stepped
    split at asleep
    · cases asleep
    · rename_i unset
      simp only [Bool.or_eq_true, not_or, Bool.not_eq_true] at unset
      simpa [unset, state] using timely

theorem Wakeable.step (wakeable : m.Wakeable) (timely : m.Timely a) (stepped : m.step a = .ok next) : next.Wakeable := by
  cases a with
  | reader => exact .reader timely stepped
  | init =>
    obtain ⟨_, rfl⟩ := of_guard stepped
    exact nofun
  | spuriousWakeup =>
    obtain ⟨_, rfl⟩ := of_guard stepped
    exact nofun
  | callEndOfConfig =>
    cases stepped
    exact fun _ => .inl (Nat.succ_ne_zero _)
  | callReinit =>
    cases stepped
    exact fun _ => .inr (.inl (Nat.succ_ne_zero _))
  | endOfConfig =>
    obtain ⟨_, rest⟩ := of_check stepped
    obtain ⟨_, same⟩ := of_check rest
    cases same
    exact fun asleep => absurd asleep notifyAll_awake
  | notifyReinit =>
    obtain ⟨_, same⟩ := of_check stepped
    cases same
    exact fun asleep => absurd asleep notifyAll_awake
  | writeReinit =>
    obtain ⟨some_, same⟩ := of_check stepped
    cases same
    intro asleep
    rcases wakeable asleep with ends | notifying | ⟨_, none_⟩
    · exact .inl ends
    · exact .inr (.inl notifying)
    · exact absurd none_ some_
  | setReinit =>
    obtain ⟨_, same⟩ := of_check stepped
    cases same
    exact wakeable

theorem Wakeable.not_lockedOut (wakeable : m.Wakeable) : ¬ m.LockedOut := by
  rintro ⟨flag, asleep, ends, notifying⟩
  simpa [flag, ends, notifying] using wakeable asleep

/-- An interleaving in which the reader goes to sleep in time never locks it out. -/
theorem reinit_wakes_timely (actions : List Action) (timely : Throughout step Timely {} actions) :
    Safe step (fun m => ¬ m.LockedOut) (fun _ => False) {} actions := by
  refine safe_of_throughout (I := Wakeable) (fun m => Wakeable.not_lockedOut) (fun m a wakeable timely => ?_) actions {}
    nofun timely
  cases stepped : m.step a with
  | error fault => exact id
  | ok next => exact wakeable.step timely stepped

/-- A reinit that wakes the reader after its flag is written. -/
theorem reinit_wakes_woken :
    Safe step (fun m => ¬ m.LockedOut) (fun _ => False) {}
      [.init, .reader, .reader, .callReinit, .notifyReinit, .writeReinit, .reader] :=
  reinit_wakes_timely _ (throughout_of_check Timely _ _ (by decide))

/-- A reader that goes to sleep too late is locked out then, or by the write that it has not waited for. -/
theorem late_locked_out (late : ¬ m.Timely .reader) :
    ∃ more final, run step m (.reader :: more) = .ok final ∧ final.LockedOut := by
  simp only [Timely, forall_const, not_or, not_and_or, Classical.not_imp, Bool.not_eq_true, ne_eq, not_not] at late
  obtain ⟨unended, ends, notifying, early⟩ := late
  have asleep : m.step .reader = .ok { m with reader := .waiting } := by
    rcases early with ⟨state, _⟩ | ⟨state, unset, _⟩
    · simp [step, readerStep, state, unended]
    · simp [step, readerStep, state, unended, unset]
  have owed : m.reinitTriggered = true ∨ m.writing ≠ 0 := by
    rcases early with ⟨_, set | writing⟩ | ⟨_, _, writing⟩
    · exact .inl (by simpa using set)
    · exact .inr writing
    · exact .inr writing
  rcases owed with set | writing
  · refine ⟨[], { m with reader := .waiting }, ?_, set, rfl, ends, notifying⟩
    simp only [run, asleep]
    rfl
  · refine ⟨[.writeReinit], { m with
      reader := .waiting, writing := m.writing - 1, setting := m.setting + 1, reinitTriggered := true }, ?_, rfl, rfl,
      ends, notifying⟩
    simp only [run, asleep, bind, Except.bind]
    simp only [step, if_neg writing]

/-- Without a new call and without a spurious wake-up the reader sleeps on, so that `config_client::Init` never runs. -/
theorem LockedOut.forever (locked : m.LockedOut) (more : List Action)
    (nothing : ∀ a ∈ more, a ≠ .callEndOfConfig ∧ a ≠ .callReinit ∧ a ≠ .spuriousWakeup)
    (ran : run step m more = .ok final) : final.LockedOut := by
  refine run_invariant LockedOut (fun a => a ≠ .callEndOfConfig ∧ a ≠ .callReinit ∧ a ≠ .spuriousWakeup) ?_ more m final
    locked nothing ran
  rintro m a next ⟨flag, asleep, ends, notifying⟩ ⟨noEnd, noReinit, noWakeup⟩ stepped
  cases a with
  | callEndOfConfig => exact absurd rfl noEnd
  | callReinit => exact absurd rfl noReinit
  | spuriousWakeup => exact absurd rfl noWakeup
  | init => simp [step, initConfigClient, asleep] at stepped
  | reader => simp [step, readerStep, asleep] at stepped
  | endOfConfig => exact absurd ends (of_check stepped).1
  | notifyReinit => exact absurd notifying (of_check stepped).1
  | writeReinit =>
    obtain ⟨_, same⟩ := of_check stepped
    cases same
    exact ⟨rfl, asleep, ends, notifying⟩
  | setReinit =>
    obtain ⟨_, same⟩ := of_check stepped
    cases same
    exact ⟨flag, asleep, ends, notifying⟩

/-- The notification of a reinit comes before its flag: the reader wakes, finds the flag unset and sleeps again. -/
theorem reinit_misses_reader :
    ∃ m, run step {} [.init, .reader, .reader, .callReinit, .notifyReinit, .reader, .writeReinit, .setReinit] = .ok m ∧
      m.LockedOut ∧ m.initTrigger = true ∧
      ∀ more final, (∀ a ∈ more, a ≠ .callEndOfConfig ∧ a ≠ .callReinit ∧ a ≠ .spuriousWakeup) →
        run step m more = .ok final → final.reader = .waiting ∧ final.step .init = .error .disabled := by
  refine ⟨⟨false, true, true, .waiting, 0, 0, 0, 0⟩, by decide, by decide, rfl, fun more final nothing ran => ?_⟩
  have locked := LockedOut.forever (by decide) more nothing ran
  exact ⟨locked.2.1, by simp [step, initConfigClient, locked.2.1]⟩

end ConfigClientManager

end TFCommon.ConfigClient
