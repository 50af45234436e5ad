import TFCommon.Scheduler.Operations

/-! The links that `SetPolicy` makes of the rules. -/
namespace TFCommon.Scheduler
open Function (update)
open TaskScheduler

abbrev Policies := List (TaskId × TaskPolicy)

def TaskScheduler.setPolicies (s : TaskScheduler) : Policies → Option TaskScheduler
  | [] => some s
  | (id, policy) :: rest => do (← s.setPolicy id policy).setPolicies rest

/-- The wildcard rule `rule` of `id` links two groups, in both directions. -/
def groupRule (id : TaskId) (rule : TaskExclusion) (g h : TaskId) : Prop :=
  rule.matchInstance = none ∧ (g = id ∧ h = rule.matchId ∨ g = rule.matchId ∧ h = id)

/-- The instance rule `rule` of `id` links the entry of the instance, and that of the group, with the
entry of the other group. -/
def entryRule (id : TaskId) (rule : TaskExclusion) (e x : EntryId) : Prop :=
  ∃ n, rule.matchInstance = some n ∧
    ((e = .task id (some n) ∨ e = .task id none) ∧ x = .task rule.matchId (some n) ∨
      e = .task rule.matchId (some n) ∧ (x = .task id (some n) ∨ x = .task id none))

def GroupLinked (policies : Policies) (g h : TaskId) : Prop :=
  ∃ p ∈ policies, ∃ rule ∈ p.2, groupRule p.1 rule g h

def EntryLinked (policies : Policies) (e x : EntryId) : Prop :=
  ∃ p ∈ policies, ∃ rule ∈ p.2, entryRule p.1 rule e x

variable {s s' : TaskScheduler} {id g h : TaskId} {e x : EntryId} {rule : TaskExclusion}

theorem groupRule.symm (linked : groupRule id rule g h) : groupRule id rule h g :=
  ⟨linked.1, linked.2.symm.imp And.symm And.symm⟩

theorem entryRule.symm (linked : entryRule id rule e x) : entryRule id rule x e := by
  obtain ⟨n, instance_, sides⟩ := linked
  exact ⟨n, instance_, sides.symm.imp And.symm And.symm⟩

def Unused (s : TaskScheduler) : Prop :=
  ∃ groups entries set policy policyq, s =
    { groupDb := groups, entryDb := entries, policySet := set, policy := policy, policyq := policyq }

structure Adds (G : TaskId → TaskId → Prop) (E : EntryId → EntryId → Prop) (s s' : TaskScheduler) : Prop where
  unused : Unused s → Unused s'
  policy : ∀ g h, h ∈ s'.policy g ↔ h ∈ s.policy g ∨ G g h
  policyq : ∀ e x, x ∈ s'.policyq e ↔ x ∈ s.policyq e ∨ E e x

theorem Adds.trans {G G' : TaskId → TaskId → Prop} {E E' : EntryId → EntryId → Prop} {s'' : TaskScheduler}
    (first : Adds G E s s') (second : Adds G' E' s' s'') :
    Adds (fun g h => G g h ∨ G' g h) (fun e x => E e x ∨ E' e x) s s'' where
  unused := second.unused ∘ first.unused
  policy g h := by rw [second.policy, first.policy, or_assoc]
  policyq e x := by rw [second.policyq, first.policyq, or_assoc]

theorem Adds.congr {G G' : TaskId → TaskId → Prop} {E E' : EntryId → EntryId → Prop} (adds : Adds G E s s')
    (groups : ∀ g h, G g h ↔ G' g h) (entries : ∀ e x, E e x ↔ E' e x) : Adds G' E' s s' where
  unused := adds.unused
  policy g h := by rw [adds.policy, groups]
  policyq e x := by rw [adds.policyq, entries]

theorem getTaskGroup_adds (s : TaskScheduler) (id : TaskId) :
    Adds (fun _ _ => False) (fun _ _ => False) s (s.getTaskGroup id) := by
  rw [getTaskGroup_eq]
  refine ⟨?_, by simp, by simp⟩
  rintro ⟨groups, entries, set, policy, policyq, rfl⟩
  exact ⟨_, _, _, _, _, rfl⟩

theorem getTaskEntry_adds (s : TaskScheduler) (id : TaskId) (n : Nat) :
    Adds (fun _ _ => False) (fun _ _ => False) s (s.getTaskEntry id (some n)) := by
  have group := getTaskGroup_adds s id
  simp only [getTaskEntry]
  split
  · exact group
  · refine ⟨fun unused => ?_, group.policy, group.policyq⟩
    obtain ⟨groups, entries, set, policy, policyq, same⟩ := group.unused unused
    rw [same]
    exact ⟨_, _, _, _, _, rfl⟩

theorem addGroupPolicy_adds (s : TaskScheduler) (id other : TaskId) :
    Adds (fun g h => g = id ∧ h = other) (fun _ _ => False) s (s.addGroupPolicy id other) := by
  refine ⟨?_, fun g h => ?_, by simp [addGroupPolicy]⟩
  · rintro ⟨groups, entries, set, policy, policyq, rfl⟩
    exact ⟨_, _, _, _, _, rfl⟩
  · by_cases same : g = id
    · subst same
      simp [addGroupPolicy]
    · simp [addGroupPolicy, same]

theorem addPolicy_adds (s : TaskScheduler) (e other : EntryId) :
    Adds (fun _ _ => False) (fun y x => y = e ∧ x = other) s (s.addPolicy e other) := by
  refine ⟨?_, by simp [addPolicy], fun y x => ?_⟩
  · rintro ⟨groups, entries, set, policy, policyq, rfl⟩
    exact ⟨_, _, _, _, _, rfl⟩
  · by_cases same : y = e
    · subst same
      simp [addPolicy]
    · simp [addPolicy, same]

theorem addRule_adds (s : TaskScheduler) (id : TaskId) (rule : TaskExclusion) :
    Adds (groupRule id rule) (entryRule id rule) s (s.addRule id rule) := by
  cases inst : rule.matchInstance with
  | none =>
    simp only [addRule, inst]
    refine (((getTaskGroup_adds s rule.matchId).trans (addGroupPolicy_adds _ id rule.matchId)).trans
      (addGroupPolicy_adds _ rule.matchId id)).congr (fun g h => ?_) fun e x => ?_
    · simp [groupRule, inst]
    · simp [entryRule, inst]
  | some n =>
    simp only [addRule, inst]
    refine ((((((getTaskEntry_adds s id n).trans (getTaskEntry_adds _ rule.matchId n)).trans
      (addPolicy_adds _ (.task id (some n)) (.task rule.matchId (some n)))).trans
      (addPolicy_adds _ (.task rule.matchId (some n)) (.task id (some n)))).trans
      (addPolicy_adds _ (.task id none) (.task rule.matchId (some n)))).trans
      (addPolicy_adds _ (.task rule.matchId (some n)) (.task id none))).congr (fun g h => ?_) fun e x => ?_
    · simp [groupRule, inst]
    · simp [entryRule, inst]
      tauto

theorem addRules_adds (id : TaskId) (policy : TaskPolicy) (s : TaskScheduler) :
    Adds (fun g h => ∃ rule ∈ policy, groupRule id rule g h) (fun e x => ∃ rule ∈ policy, entryRule id rule e x) s
      (policy.foldl (fun s rule => s.addRule id rule) s) := by
  induction policy generalizing s with
  | nil => exact ⟨fun h => h, by simp, by simp⟩
  | cons rule rest ih => exact ((addRule_adds s id rule).trans (ih _)).congr (by simp) (by simp)

theorem addRule_policySet (s : TaskScheduler) (id : TaskId) (rule : TaskExclusion) :
    (s.addRule id rule).policySet = s.policySet := by
  have group : ∀ (s : TaskScheduler) (id : TaskId), (s.getTaskGroup id).policySet = s.policySet := fun s id => by
    rw [getTaskGroup_eq]
  have entry : ∀ (s : TaskScheduler) (id : TaskId) (n : Nat), (s.getTaskEntry id (some n)).policySet = s.policySet :=
    fun s id n => by
      simp only [getTaskEntry]
      split <;> exact group s id
  cases inst : rule.matchInstance with
  | none => simp only [addRule, inst, addGroupPolicy, group]
  | some n => simp only [addRule, inst, addPolicy, entry]

theorem addRules_policySet (id : TaskId) (policy : TaskPolicy) (s : TaskScheduler) :
    (policy.foldl (fun s rule => s.addRule id rule) s).policySet = s.policySet := by
  induction policy generalizing s with
  | nil => rfl
  | cons rule rest ih => rw [List.foldl_cons, ih, addRule_policySet]

theorem setPolicy_spec (s : TaskScheduler) (id : TaskId) (policy : TaskPolicy) (first : s.policySet id = false) :
    ∃ s', s.setPolicy id policy = some s' ∧ s'.policySet = update s.policySet id true ∧
      Adds (fun g h => ∃ rule ∈ policy, groupRule id rule g h) (fun e x => ∃ rule ∈ policy, entryRule id rule e x) s s' := by
  have group := getTaskGroup_adds s id
  have same : (s.getTaskGroup id).policySet = s.policySet := by rw [getTaskGroup_eq]
  have marked : Adds (fun _ _ => False) (fun _ _ => False) s
      { s.getTaskGroup id with policySet := update (s.getTaskGroup id).policySet id true } := by
    refine ⟨fun unused => ?_, group.policy, group.policyq⟩
    obtain ⟨groups, entries, set, policy, policyq, equal⟩ := group.unused unused
    rw [equal]
    exact ⟨_, _, _, _, _, rfl⟩
  refine ⟨_, ?_, ?_, (marked.trans (addRules_adds id policy _)).congr (by simp) (by simp)⟩
  · rw [setPolicy, if_neg (by simp [same, first])]
  · rw [addRules_policySet, same]

theorem setPolicies_spec (policies : Policies) (s : TaskScheduler) (distinct : (policies.map Prod.fst).Nodup)
    (first : ∀ p ∈ policies, s.policySet p.1 = false) : ∃ s', s.setPolicies policies = some s' ∧
      Adds (GroupLinked policies) (EntryLinked policies) s s' := by
  induction policies generalizing s with
  | nil => exact ⟨s, rfl, fun h => h, by simp [GroupLinked], by simp [EntryLinked]⟩
  | cons p rest ih =>
    obtain ⟨fresh, distinct⟩ := List.nodup_cons.mp distinct
    obtain ⟨s₁, run, set, adds⟩ := setPolicy_spec s p.1 p.2 (first p (by simp))
    obtain ⟨s₂, runs, later⟩ := ih s₁ distinct fun q hq => by
      have other : q.1 ≠ p.1 := fun same => fresh (same ▸ List.mem_map_of_mem hq)
      rw [set, Function.update_of_ne other]
      exact first q (List.mem_cons_of_mem p hq)
    refine ⟨s₂, by simp [setPolicies, run, runs], (adds.trans later).congr ?_ ?_⟩
    · simp [GroupLinked]
    · simp [EntryLinked]

theorem implicit_self (own : x ∈ implicitPolicy e) : e = x := by
  unfold implicitPolicy at own
  split at own
  · rw [List.mem_singleton.mp own]
  · simp at own

theorem setPolicies_idle (policies : Policies) (distinct : (policies.map Prod.fst).Nodup) :
    ∃ s, ({} : TaskScheduler).setPolicies policies = some s ∧ Idle s ∧
      (∀ g h, h ∈ s.policy g ↔ GroupLinked policies g h) ∧
      (∀ e x, x ∈ s.policyq e ↔ x ∈ implicitPolicy e ∨ EntryLinked policies e x) ∧ Unused s := by
  obtain ⟨s, run, adds⟩ := setPolicies_spec policies {} distinct fun _ _ => rfl
  have groups : ∀ g h, h ∈ s.policy g ↔ GroupLinked policies g h := fun g h => by simp [adds.policy g h]
  have policed : Policed s.policy s.policyq := by
    refine ⟨fun g h linked => ?_, fun e x linked => ?_, fun id n => ?_⟩
    · rw [groups] at linked ⊢
      obtain ⟨p, hp, rule, hr, both⟩ := linked
      exact ⟨p, hp, rule, hr, both.symm⟩
    · rw [adds.policyq] at linked ⊢
      refine linked.imp (fun own => ?_) ?_
      · obtain rfl := implicit_self own
        exact own
      · rintro ⟨p, hp, rule, hr, both⟩
        exact ⟨p, hp, rule, hr, both.symm⟩
    · rw [adds.policyq]
      exact .inl (by simp [implicitPolicy])
  have unused := adds.unused ⟨_, _, _, _, _, rfl⟩
  refine ⟨s, run, ?_, groups, adds.policyq, unused⟩
  obtain ⟨dbGroups, dbEntries, set, policy, policyq, rfl⟩ := unused
  refine ⟨⟨?_, ?_, ?_, ?_, by simp⟩, ?_, ?_, policed⟩
  · constructor <;> simp
  · constructor <;> simp
  · constructor <;> simp [ownerOf, KeyedList.Sorted]
  · intro t task there
    simp at there
  · intro e o owned
    simp [TaskScheduler.owner, ownerOf] at owned
  · constructor <;> simp

end TFCommon.Scheduler
