import TFCommon.Scheduler.Drain

/-! The loops over deferqs. An iterator stands at an entry, and the entries that still have to be
visited are those of its deferq whose first task is not older. -/
namespace TFCommon.Scheduler
open Function (update)
open TaskScheduler

variable {s s' : TaskScheduler} {moving : List TaskPtr} {x y : EntryId} {t : TaskPtr} {o : Owner} {it : Option EntryId}
  {X R : EntryId → Prop}

def Ahead (s : TaskScheduler) (o : Owner) (it : Option EntryId) (y : EntryId) : Prop :=
  s.owner y = some o ∧ ∃ x, it = some x ∧ s.headSeqno x ≤ s.headSeqno y

def Cursor (s : TaskScheduler) (o : Owner) (it : Option EntryId) (n : Nat) : Prop :=
  ∀ x, it = some x → s.owner x = some o ∧ ∃ k : Nat, s.headSeqno x = WithBot.some k ∧ s.seqno < n + k

theorem not_ahead_none : ¬ Ahead s o none y := by
  rintro ⟨_, _, impossible, _⟩
  cases impossible

theorem Core.number (core : Core s none moving) (owned : s.owner x = some o) :
    ∃ k : Nat, s.headSeqno x = WithBot.some k ∧ k ≤ s.seqno := by
  obtain ⟨t, _, task, _, here, _, key, _⟩ := core.head (core.waits owned)
  exact ⟨task.seqno, key, core.tasks.young t task here⟩

theorem Core.begin (core : Core s none moving) (o : Owner) :
    Cursor s o (s.deferq o).head? (s.seqno + 1) ∧ ∀ y, s.owner y = some o → Ahead s o (s.deferq o).head? y := by
  constructor
  · intro x head
    have owned := (core.links.member o x).mp (List.mem_of_head? head)
    obtain ⟨k, key, _⟩ := core.number owned
    exact ⟨owned, k, key, by omega⟩
  · intro y owned
    have member := (core.links.member o y).mpr owned
    obtain ⟨x, rest, queue⟩ := List.exists_cons_of_ne_nil (List.ne_nil_of_mem member)
    have head : (s.deferq o).head? = some x := by rw [queue]; rfl
    exact ⟨owned, x, head, KeyedList.head_least (core.links.sorted o) head member⟩

/-- Entries from the deferqs of the owners in `D` are visited one after the other, and the tasks of `starts` are
started in this order. -/
inductive Visits (D : Owner → Prop) (moving : List TaskPtr) : List TaskPtr → TaskScheduler → TaskScheduler → Prop
  | done (s : TaskScheduler) : Visits D moving [] s s
  | visit {s mid s' : TaskScheduler} {x : EntryId} {o : Owner} {news starts : List TaskPtr} {X : EntryId → Prop} (drained : D o)
      (owned : s.owner x = some o) (inv : Inv s none moving X) (moved : Moved x moving s mid) (visited : Visited x news s mid)
      (rest : Visits D moving starts mid s') : Visits D moving (news ++ starts) s s'

section
variable {D D' : Owner → Prop} {starts starts' news : List TaskPtr} {s'' : TaskScheduler} {u : TaskPtr}

theorem Visits.trans (first : Visits D moving starts s s') (second : Visits D moving starts' s' s'') :
    Visits D moving (starts ++ starts') s s'' := by
  induction first with
  | done s => exact second
  | visit drained owned inv moved visited _ ih =>
    rw [List.append_assoc]
    exact .visit drained owned inv moved visited (ih second)

theorem Visits.snoc (first : Visits D moving starts s s') (drained : D o) (owned : s'.owner x = some o)
    (inv : Inv s' none moving X) (moved : Moved x moving s' s'') (visited : Visited x news s' s'') :
    Visits D moving (starts ++ news) s s'' := by
  have last := first.trans (.visit drained owned inv moved visited (.done s''))
  rwa [List.append_nil] at last

section
variable (visits : Visits D moving starts s s')
include visits

theorem Visits.mono (more : ∀ o, D o → D' o) : Visits D' moving starts s s' := by
  induction visits with
  | done s => exact .done s
  | visit drained owned inv moved visited _ ih => exact .visit (more _ drained) owned inv moved visited ih

theorem Visits.grown : Grown moving s s' := by
  induction visits with
  | done s => exact .refl ..
  | visit _ _ _ moved _ _ ih => exact moved.toGrown.trans ih

theorem Visits.tasks (u : TaskPtr) : s'.tasks u = if u ∈ starts then (s.tasks u).map Task.started else s.tasks u := by
  induction visits with
  | done s => simp
  | @visit s mid s' x o news starts X drained owned inv moved visited _ ih =>
    rw [ih, visited.tasks]
    by_cases after : u ∈ starts
    · rw [if_pos after, if_pos (List.mem_append_right news after)]
      split
      · rw [Option.map_map]
        rfl
      · rfl
    · simp [after]

theorem Visits.waited (member : u ∈ starts) : ∃ a, s.tasks u = some a ∧ a.state = .wait := by
  induction visits with
  | done s => exact absurd member List.not_mem_nil
  | @visit s mid s' x o news starts X drained owned inv moved visited _ ih =>
    by_cases first : u ∈ news
    · obtain ⟨_, a, here, waits, _⟩ := inv.core.tasks.in_waitq (by rw [visited.waitq]; exact List.mem_append_left _ first)
      exact ⟨a, here, waits⟩
    · obtain ⟨a, here, waits⟩ := ih ((List.mem_append.mp member).resolve_left first)
      rw [visited.tasks, if_neg first] at here
      exact ⟨a, here, waits⟩

theorem Visits.tbb : s'.tbb = starts.reverse ++ s.tbb := by
  induction visits with
  | done s => rfl
  | visit _ _ _ _ visited _ ih => rw [ih, visited.tbb, List.reverse_append, List.append_assoc]

theorem Visits.ledger : s'.ledger = s.ledger := by
  induction visits with
  | done s => rfl
  | visit _ _ _ _ visited _ ih => exact ih.trans visited.ledger

end

end

theorem visit_next (inv : Inv s none moving fun y => Ahead s o (some x) y ∨ R y) (owned : s.owner x = some o) :
    ∃ s' news, s.visit o x = some s' ∧
      Inv s' none moving (fun y => Ahead s' o (KeyedList.next x (s.deferq o)) y ∨ R y ∧ y ≠ x) ∧
      Moved x moving s s' ∧ Visited x news s s' ∧
      ∀ n, KeyedList.next x (s.deferq o) = some n → s'.owner n = some o ∧ s.headSeqno x < s'.headSeqno n := by
  obtain ⟨s', news, run, inv', moved, visited⟩ := visit_spec inv owned
  have sorted := inv.core.links.sorted o
  obtain ⟨later, least⟩ := KeyedList.next_spec sorted ((inv.core.links.member o x).mpr owned)
  have follows : ∀ n, KeyedList.next x (s.deferq o) = some n →
      n ≠ x ∧ s'.owner n = some o ∧ s'.headSeqno n = s.headSeqno n ∧ s.headSeqno x < s.headSeqno n := by
    intro n here
    obtain ⟨member, above⟩ := later n here
    have other : n ≠ x := fun same => lt_irrefl _ (same ▸ above)
    have stays : s.owner n = some o := (inv.core.links.member o n).mp member
    exact ⟨other, (moved.owner n other).trans stays, moved.head n other, above⟩
  refine ⟨s', news, run, inv'.weaken ?_, moved, visited, fun n here => ?_⟩
  · rintro y o' _ ⟨⟨mine, z, same, from_⟩ | rest, other⟩
    · cases same
      have differ : s.headSeqno x ≠ s.headSeqno y := fun same =>
        other (inv.core.head_inj (inv.core.waits owned) (inv.core.waits mine) same).symm
      obtain ⟨n, here, below⟩ := least y ((inv.core.links.member o y).mpr mine) (lt_of_le_of_ne from_ differ)
      obtain ⟨_, _, sameHead, _⟩ := follows n here
      refine .inl ⟨(moved.owner y other).trans mine, n, here, ?_⟩
      rw [sameHead, moved.head y other]
      exact below
    · exact .inr ⟨rest, other⟩
  · obtain ⟨_, mine, sameHead, above⟩ := follows n here
    exact ⟨mine, sameHead ▸ above⟩

theorem Cursor.advance {n k : Nat} (key : s.headSeqno x = WithBot.some k) (left : s.seqno < n + k) (seqno : s'.seqno = s.seqno)
    (ahead : ∀ z, it = some z → s'.owner z = some o ∧ s.headSeqno x < s'.headSeqno z) (core : Core s' none moving) :
    Cursor s' o it (n - 1) := by
  intro z here
  obtain ⟨owned, above⟩ := ahead z here
  obtain ⟨l, number, _⟩ := core.number owned
  rw [key, number, WithBot.coe_lt_coe] at above
  exact ⟨owned, l, number, by omega⟩

theorem runDeferQ_spec (inv : Inv s none moving fun y => s.owner y = some o) :
    ∃ s', s.runDeferQ o = some s' ∧ Inv s' none moving (fun _ => False) ∧ ∃ starts, Visits (· = o) moving starts s s' := by
  obtain ⟨cursor, all⟩ := inv.core.begin o
  refine loop_total
    (fun n (u : Option EntryId × TaskScheduler) => Inv u.2 none moving (fun y => Ahead u.2 o u.1 y ∨ False) ∧
      Cursor u.2 o u.1 n ∧ ∃ starts, Visits (· = o) moving starts s u.2) _ ?_ (s.seqno + 1) s.turns ((s.deferq o).head?, s)
    ⟨inv.weaken fun y _ _ owned => .inl (all y owned), cursor, [], .done s⟩ (by simp [turns])
  rintro n ⟨it, u⟩ ⟨inv, cursor, starts, visits⟩
  cases it with
  | none => exact .inl ⟨u, rfl, inv.weaken fun y _ _ h => h.elim not_ahead_none id, starts, visits⟩
  | some x =>
    obtain ⟨owned, k, key, left⟩ := cursor x rfl
    obtain ⟨_, key', bound⟩ := inv.core.number owned
    rw [key, WithBot.coe_inj] at key'
    obtain ⟨u', news, run, inv', moved, visited, ahead⟩ := visit_next inv owned
    refine .inr ⟨(KeyedList.next x (u.deferq o), u'), n - 1, ?_, by omega, ?_, ?_, _, visits.snoc rfl owned inv moved visited⟩
    · simp [runDeferQTurn, run]
    · exact inv'.weaken fun y _ _ => Or.imp_right And.left
    · exact Cursor.advance key left moved.seqno ahead inv'.core

theorem Moved.other_later {o' : Owner} {z : EntryId} (moved : Moved x moving s s') (core : Core s none moving) (apart : o ≠ o')
    (owned : s.owner x = some o) (owned' : s.owner z = some o') (older : s.headSeqno x ≤ s.headSeqno z) :
    z ≠ x ∧ s'.owner z = some o' ∧ s.headSeqno x < s'.headSeqno z := by
  have other : z ≠ x := by
    rintro rfl
    exact apart (Option.some.inj (owned.symm.trans owned'))
  have differ : s.headSeqno x ≠ s.headSeqno z := fun same =>
    other (core.head_inj (core.waits owned) (core.waits owned') same).symm
  rw [moved.owner z other, moved.head z other]
  exact ⟨other, owned', lt_of_le_of_ne older differ⟩

theorem merge_turn {o' : Owner} {z : EntryId} {n : Nat}
    (inv : Inv s none moving fun y => Ahead s o (some x) y ∨ Ahead s o' (some z) y) (apart : o ≠ o')
    (cursor : Cursor s o (some x) n) (cursor' : Cursor s o' (some z) n) (older : s.headSeqno x ≤ s.headSeqno z) :
    ∃ s' news, s.visit o x = some s' ∧ n - 1 < n ∧
      Inv s' none moving (fun y => Ahead s' o (KeyedList.next x (s.deferq o)) y ∨ Ahead s' o' (some z) y) ∧
      Cursor s' o (KeyedList.next x (s.deferq o)) (n - 1) ∧ Cursor s' o' (some z) (n - 1) ∧ Moved x moving s s' ∧
      Visited x news s s' := by
  obtain ⟨owned, k, key, left⟩ := cursor x rfl
  obtain ⟨owned', _⟩ := cursor' z rfl
  obtain ⟨_, key', bound⟩ := inv.core.number owned
  rw [key, WithBot.coe_inj] at key'
  obtain ⟨s', news, run, inv', moved, visited, ahead⟩ := visit_next inv owned
  obtain ⟨other, later⟩ := moved.other_later inv.core apart owned owned' older
  refine ⟨s', news, run, by omega, inv'.weaken ?_, Cursor.advance key left moved.seqno ahead inv'.core, ?_, moved, visited⟩
  · rintro y _ _ (first | ⟨⟨mine, w, same, from_⟩, away⟩)
    · exact .inl first
    · cases same
      refine .inr ⟨(moved.owner y away).trans mine, z, rfl, ?_⟩
      rw [moved.head z other, moved.head y away]
      exact from_
  · refine Cursor.advance key left moved.seqno ?_ inv'.core
    rintro w ⟨⟩
    exact later

theorem Inv.swap {P Q : EntryId → Prop} (inv : Inv s none moving fun y => P y ∨ Q y) :
    Inv s none moving fun y => Q y ∨ P y :=
  inv.weaken fun _ _ _ => Or.symm

theorem merge_spec {o' : Owner} (apart : o ≠ o')
    (inv : Inv s none moving fun y => s.owner y = some o ∨ s.owner y = some o') :
    ∃ r, loop (combinedTurn o o') s.turns (((s.deferq o).head?, (s.deferq o').head?), s) = some r ∧
      Inv r.2 none moving (fun y => Ahead r.2 o r.1.1 y ∨ Ahead r.2 o' r.1.2 y) ∧
      (r.1.1 = none ∨ r.1.2 = none) ∧ ∃ starts, Visits (fun p => p = o ∨ p = o') moving starts s r.2 := by
  obtain ⟨cursor, all⟩ := inv.core.begin o
  obtain ⟨cursor', all'⟩ := inv.core.begin o'
  refine loop_total
    (fun n (u : (Option EntryId × Option EntryId) × TaskScheduler) =>
      Inv u.2 none moving (fun y => Ahead u.2 o u.1.1 y ∨ Ahead u.2 o' u.1.2 y) ∧
      (Cursor u.2 o u.1.1 n ∧ Cursor u.2 o' u.1.2 n) ∧ ∃ starts, Visits (fun p => p = o ∨ p = o') moving starts s u.2)
    _ ?_ (s.seqno + 1) s.turns (((s.deferq o).head?, (s.deferq o').head?), s)
    ⟨inv.weaken fun y _ _ => Or.imp (all y) (all' y), ⟨cursor, cursor'⟩, [], .done s⟩ (by simp [turns])
  rintro n ⟨⟨a, b⟩, u⟩ ⟨inv, ⟨cursor, cursor'⟩, starts, visits⟩
  cases a with
  | none => exact .inl ⟨((none, b), u), by simp [combinedTurn], inv, .inl rfl, starts, visits⟩
  | some x =>
    cases b with
    | none => exact .inl ⟨((some x, none), u), by simp [combinedTurn], inv, .inr rfl, starts, visits⟩
    | some z =>
      right
      by_cases less : u.headSeqno x < u.headSeqno z
      · obtain ⟨u', news, run, fewer, inv', next, stays, moved, visited⟩ :=
          merge_turn inv apart cursor cursor' (le_of_lt less)
        refine ⟨((KeyedList.next x (u.deferq o), some z), u'), n - 1, ?_, fewer, inv', ⟨next, stays⟩, _,
          visits.snoc (.inl rfl) (cursor x rfl).1 inv moved visited⟩
        simp [combinedTurn, less, run]
      · obtain ⟨u', news, run, fewer, inv', next, stays, moved, visited⟩ :=
          merge_turn inv.swap apart.symm cursor' cursor (not_lt.mp less)
        refine ⟨((some x, KeyedList.next z (u.deferq o')), u'), n - 1, ?_, fewer, inv'.swap, ⟨stays, next⟩, _,
          visits.snoc (.inr rfl) (cursor' z rfl).1 inv moved visited⟩
        simp [combinedTurn, less, run]

theorem runCombinedDeferQ_spec {id : TaskId}
    (inv : Inv s none moving fun y => s.owner y = some (.group id) ∨ s.owner y = some (.entry x)) :
    ∃ s', s.runCombinedDeferQ id x = some s' ∧ Inv s' none moving (fun _ => False) ∧
      ∃ starts, Visits (fun p => p = .group id ∨ p = .entry x) moving starts s s' := by
  obtain ⟨⟨⟨a, b⟩, u⟩, run, inv', ended, starts, visits⟩ := merge_spec (by simp) inv
  simp only [runCombinedDeferQ, run, Option.bind_eq_bind, Option.bind_some]
  cases a with
  | none =>
    cases b with
    | none => exact ⟨u, rfl, inv'.weaken fun y _ _ h => h.elim not_ahead_none not_ahead_none, starts, visits⟩
    | some z =>
      obtain ⟨s', more, final, starts', later⟩ := runDeferQ_spec (inv'.weaken fun y _ _ h => (h.resolve_left not_ahead_none).1)
      exact ⟨s', more, final, _, visits.trans (later.mono fun _ => .inr)⟩
  | some z =>
    obtain rfl := ended.resolve_left (Option.some_ne_none z)
    obtain ⟨s', more, final, starts', later⟩ := runDeferQ_spec (inv'.weaken fun y _ _ h => (h.resolve_right not_ahead_none).1)
    exact ⟨s', more, final, _, visits.trans (later.mono fun _ => .inl)⟩

end TFCommon.Scheduler
