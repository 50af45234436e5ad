import Mathlib.Data.List.Infix

/-! Replacing every occurrence of a word, from left to right and without looking at what was put in. -/
namespace TFCommon.Replace

variable {α : Type} [DecidableEq α]

/-- `skip` symbols belong to the occurrence that was replaced last. -/
def replaceGo (pattern replacement : List α) : Nat → List α → List α
  | _, [] => []
  | skip + 1, _ :: rest => replaceGo pattern replacement skip rest
  | 0, b :: rest =>
    if pattern.isPrefixOf (b :: rest) then replacement ++ replaceGo pattern replacement (pattern.length - 1) rest
    else b :: replaceGo pattern replacement 0 rest

def replaceAll (pattern replacement s : List α) : List α := replaceGo pattern replacement 0 s

variable {pattern replacement s rest : List α} {a b : α} {w : List α}

theorem replaceGo_append (skipped : List α) :
    replaceGo pattern replacement skipped.length (skipped ++ rest) = replaceAll pattern replacement rest := by
  induction skipped with
  | nil => rfl
  | cons b skipped ih => exact ih

theorem replaceAll_hit :
    replaceAll (a :: w) replacement (a :: w ++ rest) = replacement ++ replaceAll (a :: w) replacement rest := by
  have here : (a :: w).isPrefixOf (a :: w ++ rest) = true := List.isPrefixOf_iff_prefix.mpr (List.prefix_append _ _)
  rw [replaceAll, List.cons_append, replaceGo, ← List.cons_append, if_pos here, ← replaceGo_append w]
  rfl

theorem replaceAll_miss (absent : ¬ pattern <+: b :: rest) :
    replaceAll pattern replacement (b :: rest) = b :: replaceAll pattern replacement rest := by
  rw [replaceAll, replaceGo, if_neg fun here => absent (List.isPrefixOf_iff_prefix.mp here)]
  rfl

theorem replaceAll_keep {kept : List α} (absent : a ∉ kept) :
    replaceAll (a :: w) replacement (kept ++ rest) = kept ++ replaceAll (a :: w) replacement rest := by
  induction kept with
  | nil => rfl
  | cons b kept ih =>
    have other : ¬ a :: w <+: b :: (kept ++ rest) := by
      intro front
      rw [(List.cons_prefix_cons.mp front).1] at absent
      exact absent List.mem_cons_self
    rw [List.cons_append, replaceAll_miss other, ih fun inside => absent (List.mem_cons_of_mem b inside)]
    rfl

theorem replaceAll_induction {P : List α → Prop} (a : α) (w : List α) (nil : P [])
    (hit : ∀ rest, P rest → P (a :: w ++ rest)) (miss : ∀ b rest, ¬ a :: w <+: b :: rest → P rest → P (b :: rest)) :
    ∀ s, P s := by
  intro s
  induction size : s.length using Nat.strongRecOn generalizing s with
  | _ n ih =>
    cases s with
    | nil => exact nil
    | cons b rest =>
      by_cases here : a :: w <+: b :: rest
      · obtain ⟨tail, same⟩ := here
        rw [← same]
        refine hit tail (ih tail.length ?_ tail rfl)
        rw [← size, ← same, List.length_append, List.length_cons]
        omega
      · exact miss b rest here (ih rest.length (by rw [← size]; exact Nat.lt_succ_self _) rest rfl)

theorem length_replaceAll_le (shorter : replacement.length ≤ (a :: w).length) (s : List α) :
    (replaceAll (a :: w) replacement s).length ≤ s.length := by
  induction s using replaceAll_induction a w with
  | nil => exact Nat.le_refl _
  | hit rest ih =>
    rw [replaceAll_hit, List.length_append, List.length_append]
    exact Nat.add_le_add shorter ih
  | miss b rest absent ih =>
    rw [replaceAll_miss absent]
    exact Nat.succ_le_succ ih

theorem length_replaceAll_lt (shorter : replacement.length < (a :: w).length) (inside : a :: w <:+: s) :
    (replaceAll (a :: w) replacement s).length < s.length := by
  induction s using replaceAll_induction a w with
  | nil => exact absurd (List.infix_nil.mp inside) (List.cons_ne_nil a w)
  | hit rest ih =>
    have behind := length_replaceAll_le (Nat.le_of_lt shorter) rest
    rw [replaceAll_hit, List.length_append, List.length_append]
    omega
  | miss b rest absent ih =>
    rcases List.infix_cons_iff.mp inside with front | later
    · exact absurd front absent
    · rw [replaceAll_miss absent]
      exact Nat.succ_lt_succ (ih later)

theorem replaceAll_of_absent (absent : ¬ a :: w <:+: s) : replaceAll (a :: w) replacement s = s := by
  induction s using replaceAll_induction a w with
  | nil => rfl
  | hit rest ih => exact absurd (List.prefix_append _ _).isInfix absent
  | miss b rest other ih => rw [replaceAll_miss other, ih fun later => absent (List.infix_cons later)]

def replaceEach (table : List (List α × List α)) (s : List α) : List α :=
  table.foldl (fun s entry => replaceAll entry.1 entry.2 s) s

variable {table : List (List α × List α)}

theorem length_replaceEach_le (shorter : ∀ entry ∈ table, entry.2.length < entry.1.length) (s : List α) :
    (replaceEach table s).length ≤ s.length := by
  induction table generalizing s with
  | nil => exact Nat.le_refl _
  | cons entry table ih =>
    obtain ⟨pattern, replacement⟩ := entry
    have less : replacement.length < pattern.length := shorter _ List.mem_cons_self
    cases pattern with
    | nil => exact absurd less (Nat.not_lt_zero _)
    | cons a w =>
      have rest := ih (fun entry member => shorter entry (List.mem_cons_of_mem _ member)) (replaceAll (a :: w) replacement s)
      exact Nat.le_trans rest (length_replaceAll_le (Nat.le_of_lt less) s)

theorem replaceEach_eq_self (shorter : ∀ entry ∈ table, entry.2.length < entry.1.length) (s : List α) :
    replaceEach table s = s ↔ ∀ entry ∈ table, ¬ entry.1 <:+: s := by
  induction table with
  | nil => exact iff_of_true rfl fun _ member => absurd member List.not_mem_nil
  | cons entry table ih =>
    obtain ⟨pattern, replacement⟩ := entry
    have less : replacement.length < pattern.length := shorter _ List.mem_cons_self
    have later : ∀ entry ∈ table, entry.2.length < entry.1.length := fun entry member =>
      shorter entry (List.mem_cons_of_mem _ member)
    rw [List.forall_mem_cons]
    cases pattern with
    | nil => exact absurd less (Nat.not_lt_zero _)
    | cons a w =>
      by_cases inside : a :: w <:+: s
      · refine iff_of_false (fun same => ?_) fun absent => absent.1 inside
        have first := length_replaceAll_lt less inside
        have rest := length_replaceEach_le later (replaceAll (a :: w) replacement s)
        have whole : (replaceEach table (replaceAll (a :: w) replacement s)).length = s.length := congrArg List.length same
        omega
      · have unchanged : replaceEach ((a :: w, replacement) :: table) s = replaceEach table s :=
          congrArg (replaceEach table) (replaceAll_of_absent inside)
        rw [unchanged, ih later]
        exact ⟨fun absent => ⟨inside, absent⟩, And.right⟩

end TFCommon.Replace
