import TFCommon.Lib.Run

/-! `TaskTrigger` of `base/task_trigger.cc`: threads that call `Set()` and the worker tasks that they enqueue. The workers
are counted by what they do next, and so are the calls of `Set()` between the exchange of `trigger_` and `Enqueue`. -/
namespace TFCommon.Scheduler

structure TaskTrigger where
  trigger : Bool := false
  disabled : Bool := false
  deferred : Bool := false
  setting : Nat := 0
  -- In the scheduler, before `Run`.
  waiting : Nat := 0
  -- Before the call of `func_`, in it, and after it has returned `true`.
  entered : Nat := 0
  calling : Nat := 0
  finished : Nat := 0
  -- After `Reset()`; the scheduler still has the task.
  leaving : Nat := 0
  -- a `Set()` has come since `func_` was last called
  unserved : Bool := false
deriving DecidableEq, Repr

namespace TaskTrigger

inductive Action where
  | set
  | enqueue
  | run
  | call
  | callReturns (done : Bool)
  | reset
  | exit
deriving DecidableEq, Repr

inductive Fault where
  | disabled
deriving DecidableEq, Repr

def set (t : TaskTrigger) : TaskTrigger :=
  { t with trigger := true, unserved := true, setting := if t.trigger then t.setting else t.setting + 1 }

/-- `Run` up to the call of `func_`. -/
def enter (t : TaskTrigger) : TaskTrigger :=
  if t.disabled then { t with waiting := t.waiting - 1, trigger := false, leaving := t.leaving + 1 }
  else if t.deferred then t
  else { t with waiting := t.waiting - 1, entered := t.entered + 1 }

def step (t : TaskTrigger) : Action → Except Fault TaskTrigger
  | .set => .ok t.set
  | .enqueue =>
    if t.setting = 0 then .error .disabled else .ok { t with setting := t.setting - 1, waiting := t.waiting + 1 }
  | .run => if t.waiting = 0 then .error .disabled else .ok t.enter
  | .call =>
    if t.entered = 0 then .error .disabled
    else .ok { t with entered := t.entered - 1, calling := t.calling + 1, unserved := false }
  | .callReturns done =>
    if t.calling = 0 then .error .disabled
    else if done then .ok { t with calling := t.calling - 1, finished := t.finished + 1 }
    else .ok { t with calling := t.calling - 1, waiting := t.waiting + 1 }
  | .reset =>
    if t.finished = 0 then .error .disabled
    else .ok { t with finished := t.finished - 1, trigger := false, leaving := t.leaving + 1 }
  | .exit => if t.leaving = 0 then .error .disabled else .ok { t with leaving := t.leaving - 1 }

/-- The workers, and the call of `Set()` that will enqueue one, for which `trigger_` is up. -/
def pending (t : TaskTrigger) : Nat := t.setting + t.waiting + t.entered + t.calling + t.finished

/-- When no worker is left and no call of `Set()` is in progress, `func_` was called after the last `Set()`. -/
def Served (t : TaskTrigger) : Prop := t.pending = 0 → t.leaving = 0 → t.unserved = false

instance (t : TaskTrigger) : Decidable t.Served := inferInstanceAs (Decidable (_ → _))

/-- No `Set()` has come between the start of the call of `func_` that has returned `true` and the `Reset()` after it. -/
def Quiet (t : TaskTrigger) (a : Action) : Prop := a = .reset → t.unserved = false

instance (t : TaskTrigger) (a : Action) : Decidable (t.Quiet a) := inferInstanceAs (Decidable (_ → _))

structure Inv (t : TaskTrigger) : Prop where
  enabled : t.disabled = false
  raised : t.pending = t.trigger.toNat
  kept : t.unserved = true → t.trigger = true

variable {t : TaskTrigger} {a : Action}

theorem Inv.served (inv : Inv t) : t.Served := by
  intro none _
  cases unserved : t.unserved with
  | false => rfl
  | true =>
    have raised := inv.raised
    rw [none, inv.kept unserved] at raised
    cases raised

theorem Inv.move {t' : TaskTrigger} (inv : Inv t) (enabled : t'.disabled = t.disabled) (pending : t'.pending = t.pending)
    (trigger : t'.trigger = t.trigger) (unserved : t'.unserved = true → t.unserved = true) : Inv t' where
  enabled := enabled.trans inv.enabled
  raised := by rw [pending, trigger, inv.raised]
  kept up := trigger.trans (inv.kept (unserved up))

theorem Inv.set (inv : Inv t) : Inv t.set := by
  refine ⟨inv.enabled, ?_, fun _ => rfl⟩
  have raised := inv.raised
  simp only [TaskTrigger.set, TaskTrigger.pending] at raised ⊢
  cases up : t.trigger <;> simp only [Bool.toNat_true] at raised ⊢ <;> grind

theorem Inv.step (inv : Inv t) (quiet : Quiet t a) : Verdict Inv (fun _ => False) (t.step a) := by
  cases a with
  | set => exact inv.set
  | enqueue =>
    simp only [TaskTrigger.step]
    split
    · exact id
    · refine inv.move rfl ?_ rfl id
      simp only [TaskTrigger.pending]
      omega
  | run =>
    simp only [TaskTrigger.step, enter, if_neg (Bool.eq_false_iff.mp inv.enabled)]
    split
    · exact id
    · split
      · exact inv
      · refine inv.move rfl ?_ rfl id
        simp only [TaskTrigger.pending]
        omega
  | call =>
    simp only [TaskTrigger.step]
    split
    · exact id
    · refine inv.move rfl ?_ rfl nofun
      simp only [TaskTrigger.pending]
      omega
  | callReturns done =>
    simp only [TaskTrigger.step]
    split
    · exact id
    · cases done <;> refine inv.move rfl ?_ rfl id <;> simp only [TaskTrigger.pending] <;> omega
  | reset =>
    simp only [TaskTrigger.step]
    split
    · exact id
    · refine ⟨inv.enabled, ?_, fun unserved => ?_⟩
      · have raised := inv.raised
        have room := Bool.toNat_le t.trigger
        simp only [TaskTrigger.pending, Bool.toNat_false] at raised ⊢
        omega
      · rw [quiet rfl] at unserved
        cases unserved
  | exit =>
    simp only [TaskTrigger.step]
    split
    · exact id
    · exact inv.move rfl rfl rfl id

/-- No trigger is lost in a run in which no `Set()` comes between the start of a call of `func_` that returns `true` and
the `Reset()` after it. -/
theorem triggers_served (actions : List Action) (quiet : Throughout step Quiet {} actions) :
    TFCommon.Safe step Served (fun _ => False) {} actions :=
  safe_of_throughout (fun _ => Inv.served) (fun _ _ => Inv.step) actions {} ⟨rfl, rfl, nofun⟩ quiet

/-- A `Set()` during a call of `func_` that returns `false`. -/
def patientRun : List Action :=
  [.set, .enqueue, .run, .call, .set, .callReturns false, .run, .call, .callReturns true, .reset, .exit]

theorem patientRun_served : Throughout step Quiet {} patientRun ∧ TFCommon.Safe step Served (fun _ => False) {} patientRun := by
  have quiet : Throughout step Quiet {} patientRun := throughout_of_check Quiet patientRun _ (by decide +kernel)
  exact ⟨quiet, triggers_served patientRun quiet⟩

/-- A `Set()` during a call of `func_` that returns `true` is dropped. -/
theorem set_during_call_lost :
    ∃ t, TFCommon.run step {} [.set, .enqueue, .run, .call, .set, .callReturns true, .reset, .exit] = .ok t ∧
      ¬ t.Served :=
  ⟨_, rfl, by decide⟩

end TaskTrigger
end TFCommon.Scheduler
