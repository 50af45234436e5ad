import TFCommon.Scheduler.Reachable

/-! How often the loops over deferqs look at an entry. Each turn is at a later first task than the turn before; an entry
comes to have another first task only if it was run, which happens once. -/
namespace TFCommon.Scheduler
open TaskScheduler

namespace TaskScheduler

def deferQExamined (s : TaskScheduler) (o : Owner) : List EntryId :=
  (trail (runDeferQTurn o) s.turns ((s.deferq o).head?, s)).filterMap Prod.fst

def mergeItem : (Option EntryId × Option EntryId) × TaskScheduler → Option EntryId
  | ((some x, some y), s) => some (if s.headSeqno x < s.headSeqno y then x else y)
  | _ => none

def combinedExamined (s : TaskScheduler) (id : TaskId) (e : EntryId) : List EntryId :=
  let begin_ := (((s.deferq (.group id)).head?, (s.deferq (.entry e)).head?), s)
  (trail (combinedTurn (.group id) (.entry e)) s.turns begin_).filterMap mergeItem ++
    match loop (combinedTurn (.group id) (.entry e)) s.turns begin_ with
    | none => []
    | some ((x, y), s) =>
      if x ≠ none then s.deferQExamined (.group id) else if y ≠ none then s.deferQExamined (.entry e) else []

def exitExamined (s : TaskScheduler) (e : EntryId) (t : TaskPtr) (id : TaskId) : Option (List EntryId) := do
  let s ← s.clearRunTask e t
  let s := (s.addRunCount (.entry e) (-1)).addRunCount (.group id) (-1)
  return if s.runCount (.group id) = 0 ∧ s.runCount (.entry e) = 0 then s.combinedExamined id e
    else if s.runCount (.group id) = 0 then s.deferQExamined (.group id)
    else if s.runCount (.entry e) = 0 then s.deferQExamined (.entry e)
    else []

/-- The entries that the loops of a call examine; of all calls only `OnTaskExit` and `Start` have such loops. -/
def examined (s : TaskScheduler) : Event → List EntryId
  | .exit t complete =>
    (s.setRecycle t (!complete)).elim [] fun s => (s.tasks t).elim [] fun task =>
      ({ s with tbb := s.tbb.erase t, doneCount := s.doneCount + 1 }.exitExamined task.entry t task.taskId).getD []
  | .start => { s with running := true }.deferQExamined (.entry .stop)
  | _ => []

end TaskScheduler

variable {s s' : TaskScheduler} {moving news : List TaskPtr} {x v : EntryId} {o o' : Owner} {it : Option EntryId}
  {X : EntryId → Prop}

/-- What is left for `x` in a loop that is about to examine `it`: one turn if `x` is not behind it, and one if `x` has
not been run. -/
def potential (x : EntryId) (it : Option EntryId) (s : TaskScheduler) : Nat :=
  (if it.any fun w => decide (s.headSeqno w ≤ s.headSeqno x) then 1 else 0) + if s.runCount (.entry x) = 0 then 1 else 0

theorem potential_le (x : EntryId) (it : Option EntryId) (s : TaskScheduler) : potential x it s ≤ 2 := by
  unfold potential
  split <;> split <;> omega

theorem Visited.spent (visited : Visited x news s s') (inv : Inv s none moving X) (owned : s.owner x = some o)
    (ran : news ≠ []) : s'.waitq x = [] ∨ s.runCount (.entry x) = 0 ∧ s'.runCount (.entry x) ≠ 0 := by
  obtain ⟨t, rest, task, queue, here, rfl, _⟩ := inv.core.head (inv.core.waits owned)
  cases inst : task.taskInstance with
  | none =>
    have all := visited.all inst ran
    have split := visited.waitq
    rw [← all] at split
    exact .inl (by simpa using split)
  | some n =>
    have self : task.entry ∈ s.policyq task.entry := by
      rw [Task.entry, inst]
      exact inv.policed.self task.taskId n
    have zero : s.runCount (.entry task.entry) = 0 := by
      by_contra active
      exact ran (visited.blocked.mpr (.inr ⟨_, self, active⟩))
    refine .inr ⟨zero, ?_⟩
    rw [visited.counts, if_pos (EntryId.counts_self _), zero]
    simpa using ran

theorem potential_visit (inv : Inv s none moving X) (owned : s.owner v = some o) (moved : Moved v moving s s')
    (visited : Visited v news s s') (later : ∀ w, it = some w → s.headSeqno v < s'.headSeqno w) :
    potential x it s' + (if some v = some x then 1 else 0) ≤ potential x (some v) s := by
  have ahead (some_ : (it.any fun w => decide (s'.headSeqno w ≤ s'.headSeqno x)) = true) : s.headSeqno v < s'.headSeqno x := by
    cases it with
    | none => cases some_
    | some w => exact (later w rfl).trans_le (of_decide_eq_true some_)
  have idle (zero : s'.runCount (.entry x) = 0) : s.runCount (.entry x) = 0 := by
    have grows := moved.counts (.entry x)
    have nonneg := inv.core.nonneg (.entry x)
    omega
  unfold potential
  by_cases same : v = x
  · subst same
    have behind (stays : s'.headSeqno v ≤ s.headSeqno v) : ¬ (it.any fun w => decide (s'.headSeqno w ≤ s'.headSeqno v)) = true :=
      fun some_ => (ahead some_).not_ge stays
    by_cases ran : news = []
    · subst ran
      have stays : s'.headSeqno v = s.headSeqno v :=
        headSeqno_congr (congrArg List.head? visited.waitq.symm) fun t _ => by rw [visited.tasks, if_neg List.not_mem_nil]
      rw [if_neg (behind stays.le)]
      split <;> simp_all
    · rcases visited.spent inv owned ran with empty | ⟨zero, active⟩
      · rw [if_neg (behind (by simp [headSeqno, empty]))]
        split <;> simp_all
      · split <;> simp
  · rw [moved.head x fun equal => same equal.symm] at ahead ⊢
    simp only [Option.some.injEq, same, if_false, Option.any_some, decide_eq_true_eq, Nat.add_zero]
    refine Nat.add_le_add ?_ ?_
    · split
      · rename_i some_
        rw [if_pos (ahead some_).le]
      · exact Nat.zero_le _
    · split
      · rename_i zero
        rw [if_pos (idle zero)]
      · exact Nat.zero_le _

theorem deferQ_count (inv : Inv s none moving X) (o : Owner) (x : EntryId) : (s.deferQExamined o).count x ≤ 2 := by
  refine (trail_count (fun u => (∃ X, Inv u.2 none moving X) ∧ ∀ z, u.1 = some z → u.2.owner z = some o) Prod.fst
    (fun u => potential x u.1 u.2) x ?_ _ _ ⟨⟨X, inv⟩, fun z head => ?_⟩).trans (potential_le ..)
  · rintro ⟨it, u⟩ ⟨⟨X, inv⟩, mine⟩
    cases it with
    | none => exact .inl ⟨rfl, u, rfl⟩
    | some v =>
      obtain ⟨u', news, run, inv', moved, visited, ahead⟩ := visit_next (inv.weaken fun _ _ _ => .inr) (mine v rfl)
      refine .inr ⟨(KeyedList.next v (u.deferq o), u'), by simp [runDeferQTurn, run], ⟨⟨_, inv'⟩, fun z here => (ahead z here).1⟩, ?_⟩
      exact potential_visit inv (mine v rfl) moved visited fun w here => (ahead w here).2
  · exact (inv.core.links.member o z).mp (List.mem_of_head? head)

theorem merge_visit {z : EntryId} (inv : Inv s none moving X) (apart : o ≠ o') (owned : s.owner v = some o)
    (owned' : s.owner z = some o') (older : s.headSeqno v ≤ s.headSeqno z) : ∃ s', s.visit o v = some s' ∧
      (∃ X, Inv s' none moving X) ∧ (∀ n, KeyedList.next v (s.deferq o) = some n → s'.owner n = some o) ∧
      s'.owner z = some o' ∧ ∀ it, (∀ w, it = some w → KeyedList.next v (s.deferq o) = some w ∨ w = z) →
        potential x it s' + (if some v = some x then 1 else 0) ≤ potential x (some v) s := by
  obtain ⟨s', news, run, inv', moved, visited, ahead⟩ := visit_next (inv.weaken fun _ _ _ => .inr) owned
  obtain ⟨_, stays, later⟩ := moved.other_later inv.core apart owned owned' older
  refine ⟨s', run, ⟨_, inv'⟩, fun n here => (ahead n here).1, stays, fun it item => ?_⟩
  refine potential_visit inv owned moved visited fun w here => ?_
  rcases item w here with next | rfl
  · exact (ahead w next).2
  · exact later

theorem mergeItem_some {a b : Option EntryId} (here : mergeItem ((a, b), s) = some v) : a = some v ∨ b = some v := by
  unfold mergeItem at here
  split at here
  · rename_i y z u same
    cases same
    split at here
    · exact .inl here
    · exact .inr here
  · cases here

theorem merge_count (inv : Inv s none moving X) (apart : o ≠ o') (x : EntryId) :
    ((trail (combinedTurn o o') s.turns (((s.deferq o).head?, (s.deferq o').head?), s)).filterMap mergeItem).count x ≤ 2 := by
  refine (trail_count (fun u => (∃ X, Inv u.2 none moving X) ∧ (∀ z, u.1.1 = some z → u.2.owner z = some o) ∧
      ∀ z, u.1.2 = some z → u.2.owner z = some o') mergeItem (fun u => potential x (mergeItem u) u.2) x ?_ _ _
    ⟨⟨X, inv⟩, fun z head => ?_, fun z head => ?_⟩).trans (potential_le ..)
  · rintro ⟨⟨a, b⟩, u⟩ ⟨⟨X, inv⟩, mine, mine'⟩
    cases a with
    | none => exact .inl ⟨rfl, _, rfl⟩
    | some y =>
      cases b with
      | none => exact .inl ⟨rfl, _, rfl⟩
      | some z =>
        right
        by_cases less : u.headSeqno y < u.headSeqno z
        · obtain ⟨u', run, inv', next, stays, paid⟩ := merge_visit inv apart (mine y rfl) (mine' z rfl) less.le
          refine ⟨((KeyedList.next y (u.deferq o), some z), u'), by simp [combinedTurn, less, run],
            ⟨inv', next, by rintro _ ⟨⟩; exact stays⟩, ?_⟩
          simp only [mergeItem, less]
          exact paid _ fun w here => (mergeItem_some here).imp_right fun same => (Option.some.inj same).symm
        · obtain ⟨u', run, inv', next, stays, paid⟩ := merge_visit inv apart.symm (mine' z rfl) (mine y rfl) (not_lt.mp less)
          refine ⟨((some y, KeyedList.next z (u.deferq o')), u'), by simp [combinedTurn, less, run],
            ⟨inv', by rintro _ ⟨⟩; exact stays, next⟩, ?_⟩
          simp only [mergeItem, less]
          exact paid _ fun w here => (mergeItem_some here).symm.imp_right fun same => (Option.some.inj same).symm
  · exact (inv.core.links.member o z).mp (List.mem_of_head? head)
  · exact (inv.core.links.member o' z).mp (List.mem_of_head? head)

theorem combined_count {id : TaskId} {e : EntryId}
    (inv : Inv s none moving fun y => s.owner y = some (.group id) ∨ s.owner y = some (.entry e)) (x : EntryId) :
    (s.combinedExamined id e).count x ≤ 4 := by
  obtain ⟨⟨⟨a, b⟩, u⟩, run, inv', _⟩ := merge_spec (by simp) inv
  have first := merge_count inv (show Owner.group id ≠ .entry e by simp) x
  have second (o : Owner) : (u.deferQExamined o).count x ≤ 2 := deferQ_count inv' o x
  simp only [combinedExamined, run, List.count_append]
  split
  · have more := second (.group id)
    omega
  · split
    · have more := second (.entry e)
      omega
    · rw [List.count_nil]
      omega

theorem exit_count {t : TaskPtr} {task : Task} (idle : Idle s) (running : t ∈ s.tbb) (here : s.tasks t = some task) (x : EntryId) :
    (({ s with tbb := s.tbb.erase t, doneCount := s.doneCount + 1 }.exitExamined task.entry t task.taskId).getD []).count x ≤ 4 := by
  obtain ⟨runTask', clear, others, alone⟩ := clearRunTask_spec idle.core running here
  have inv := exited_inv idle running here others alone
  have two (o : Owner) : ((s.exited t task runTask').deferQExamined o).count x ≤ 4 :=
    (deferQ_count inv o x).trans (by decide)
  simp only [exitExamined, clear, Option.bind_eq_bind, Option.bind_some]
  split
  · refine combined_count (inv.weaken fun y _ _ => ?_) x
    rintro ⟨o, owned, rfl | rfl, _⟩
    · exact .inl owned
    · exact .inr owned
  · split
    · exact two _
    · split
      · exact two _
      · exact Nat.zero_le _

/-- Every call returns, and its loops examine an entry at most four times. -/
theorem deferqs_drain (policies : Policies) (distinct : (policies.map Prod.fst).Nodup) :
    ∃ s₀, ({} : TaskScheduler).setPolicies policies = some s₀ ∧ ∀ s, Reachable s₀ s → ∀ event, Enabled s event →
      ∃ s', s.exec event = some s' ∧ ∀ x, (s.examined event).count x ≤ 4 := by
  obtain ⟨s₀, installed, initial, _⟩ := setPolicies_idle policies distinct
  refine ⟨s₀, installed, fun s reach event enabled => ?_⟩
  obtain ⟨idle, _⟩ := reach.idle initial
  obtain ⟨s', run, _⟩ := exec_call idle event enabled
  refine ⟨s', run, fun x => ?_⟩
  cases event with
  | create | enqueue | cancel | stop => exact Nat.zero_le _
  | start => exact (deferQ_count (start_inv idle) _ x).trans (by decide)
  | exit t complete =>
    obtain ⟨_, task, here, runs⟩ := (idle.core.tasks.started t).mp enabled
    have marked := idle.mark here { task with taskRecycle := !complete } rfl rfl rfl rfl rfl
    simp only [examined, setRecycle, here, Option.bind_eq_bind, Option.bind_some, Option.pure_def, Option.elim_some, setTask,
      Function.update_self]
    exact exit_count marked enabled (Function.update_self ..) x

/-- An entry is examined twice: its second task is started, and when its third one comes up it has to wait. -/
theorem mixedRules_drain :
    (∃ s₀, ({} : TaskScheduler).setPolicies mixedRules = some s₀ ∧ ∀ s, Reachable s₀ s → ∀ event, Enabled s event →
      ∃ s', s.exec event = some s' ∧ ∀ x, (s.examined event).count x ≤ 4) ∧
    ((({} : TaskScheduler).setPolicies mixedRules).bind
      ([Event.create 1 0 (some 3), .create 2 0 (some 3), .create 3 2 (some 3), .create 4 0 (some 3), .enqueue 1, .enqueue 2,
        .enqueue 3, .enqueue 4].foldlM exec)).map
        (fun s => s.examined (.exit 1 true)) = some [.task 0 (some 3), .task 2 (some 3), .task 0 (some 3)] :=
  ⟨deferqs_drain mixedRules (by decide), by decide⟩

end TFCommon.Scheduler
