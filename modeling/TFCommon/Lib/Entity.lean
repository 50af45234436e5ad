import TFCommon.Lib.Replace

/-! Escaping by entities: some symbols are written as an escape symbol followed by a word that a stop symbol ends.
Replacing the entities one after the other takes one symbol out of the table at a time. -/
namespace TFCommon.Entity
open Replace

variable {α : Type}

/-- The symbols that are escaped, with the words that follow the escape symbol. -/
abbrev Table (α : Type) := List (α × List α)

/-- The words end at their first stop symbol, and hold neither the escape symbol nor one that is escaped. -/
structure WellFormed (amp stop : α) (table : Table α) : Prop where
  ended : ∀ entry ∈ table, ∃ body, entry.2 = body ++ [stop] ∧ stop ∉ body
  plain : ∀ entry ∈ table, ∀ b ∈ entry.2, b ≠ amp ∧ ∀ other ∈ table, other.1 ≠ b
  distinct : table.Pairwise fun a b => a.1 ≠ b.1 ∧ a.2 ≠ b.2

variable {amp stop c b : α} {w s rest : List α} {table : Table α}

theorem eq_of_ended {body body' : List α} (first : stop ∉ body) (second : stop ∉ body')
    (front : body ++ [stop] <+: body' ++ [stop] ++ rest) : body = body' := by
  induction body generalizing body' with
  | nil =>
    cases body' with
    | nil => rfl
    | cons b body' =>
      rw [(List.cons_prefix_cons.mp front).1] at second
      exact absurd List.mem_cons_self second
  | cons a body ih =>
    cases body' with
    | nil =>
      rw [(List.cons_prefix_cons.mp front).1] at first
      exact absurd List.mem_cons_self first
    | cons b body' =>
      obtain ⟨same, later⟩ := List.cons_prefix_cons.mp front
      rw [same, ih (fun inside => first (List.mem_cons_of_mem a inside))
        (fun inside => second (List.mem_cons_of_mem b inside)) later]

namespace WellFormed

theorem tail (ok : WellFormed amp stop ((c, w) :: table)) : WellFormed amp stop table where
  ended entry member := ok.ended entry (List.mem_cons_of_mem _ member)
  plain entry member b inside := by
    obtain ⟨visible, absent⟩ := ok.plain entry (List.mem_cons_of_mem _ member) b inside
    exact ⟨visible, fun other member => absent other (List.mem_cons_of_mem _ member)⟩
  distinct := ok.distinct.tail

theorem absent (ok : WellFormed amp stop ((c, w) :: table)) : ∀ entry ∈ table, entry.1 ≠ c :=
  fun entry member => ((List.pairwise_cons.mp ok.distinct).1 entry member).1.symm

theorem amp_not_mem (ok : WellFormed amp stop table) {entry : α × List α} (member : entry ∈ table) : amp ∉ entry.2 :=
  fun inside => (ok.plain entry member amp inside).1 rfl

end WellFormed

variable [DecidableEq α]

def encodeOne (amp : α) (table : Table α) (b : α) : List α :=
  match table.find? fun entry => entry.1 = b with
  | some entry => amp :: entry.2
  | none => [b]

def encode (amp : α) (table : Table α) (s : List α) : List α := s.flatMap (encodeOne amp table)

theorem encode_cons : encode amp table (b :: s) = encodeOne amp table b ++ encode amp table s := List.flatMap_cons

theorem encode_append : encode amp table (s ++ rest) = encode amp table s ++ encode amp table rest :=
  List.flatMap_append

theorem encodeOne_plain (absent : ∀ entry ∈ table, entry.1 ≠ b) : encodeOne amp table b = [b] := by
  have missing : table.find? (fun entry => entry.1 = b) = none := by
    rw [List.find?_eq_none]
    intro entry member
    simpa using absent entry member
  simp only [encodeOne, missing]

theorem encode_plain (absent : ∀ b ∈ s, ∀ entry ∈ table, entry.1 ≠ b) : encode amp table s = s := by
  induction s with
  | nil => rfl
  | cons b s ih =>
    rw [encode_cons, encodeOne_plain (absent b List.mem_cons_self),
      ih fun a inside => absent a (List.mem_cons_of_mem b inside)]
    rfl

theorem encode_nil_table : encode amp [] s = s := encode_plain fun _ _ _ member => absurd member List.not_mem_nil

theorem encodeOne_head : encodeOne amp ((c, w) :: table) c = amp :: w := by
  simp [encodeOne]

theorem encodeOne_tail (other : b ≠ c) : encodeOne amp ((c, w) :: table) b = encodeOne amp table b := by
  have differs : ¬ c = b := fun same => other same.symm
  simp [encodeOne, differs]

theorem encodeOne_cases (b : α) :
    (∃ entry ∈ table, entry.1 = b ∧ encodeOne amp table b = amp :: entry.2) ∨
      (∀ entry ∈ table, entry.1 ≠ b) ∧ encodeOne amp table b = [b] := by
  cases found : table.find? fun entry => entry.1 = b with
  | some entry =>
    refine .inl ⟨entry, List.mem_of_find?_eq_some found, ?_, by simp only [encodeOne, found]⟩
    simpa using List.find?_some found
  | none =>
    have absent : ∀ entry ∈ table, entry.1 ≠ b := by
      intro entry member
      simpa using List.find?_eq_none.mp found entry member
    exact .inr ⟨absent, encodeOne_plain absent⟩

theorem encode_add (absent : ∀ entry ∈ table, entry.1 ≠ c) (visible : ∀ entry ∈ table, c ∉ amp :: entry.2) (s : List α) :
    replaceAll [c] (amp :: w) (encode amp table s) = encode amp ((c, w) :: table) s := by
  induction s with
  | nil => rfl
  | cons b s ih =>
    rw [encode_cons, encode_cons]
    by_cases mine : b = c
    · rw [mine, encodeOne_plain absent, replaceAll_hit, ih, encodeOne_head]
    · rw [encodeOne_tail mine]
      rcases encodeOne_cases b with ⟨entry, member, _, written⟩ | ⟨_, written⟩
      · rw [written, replaceAll_keep (visible entry member), ih]
      · have kept : c ∉ [b] := fun inside => mine (List.mem_singleton.mp inside).symm
        rw [written, replaceAll_keep kept, ih]

theorem not_mem_encode (entry : α × List α) (key : entry ∈ table) (visible : ∀ other ∈ table, entry.1 ∉ amp :: other.2)
    (s : List α) : entry.1 ∉ encode amp table s := by
  intro inside
  obtain ⟨b, _, written⟩ := List.mem_flatMap.mp inside
  rcases encodeOne_cases b with ⟨other, member, _, same⟩ | ⟨absent, same⟩
  · rw [same] at written
    exact visible other member written
  · rw [same] at written
    exact absent entry key (List.mem_singleton.mp written)

theorem prefix_encode (plain : ∀ b ∈ w, b ≠ amp ∧ ∀ entry ∈ table, entry.1 ≠ b) : w <+: encode amp table s ↔ w <+: s := by
  induction w generalizing s with
  | nil => exact ⟨fun _ => List.nil_prefix, fun _ => List.nil_prefix⟩
  | cons a w ih =>
    have here := plain a List.mem_cons_self
    cases s with
    | nil => exact Iff.rfl
    | cons b s =>
      rw [encode_cons]
      rcases encodeOne_cases b with ⟨entry, member, key, written⟩ | ⟨absent, written⟩
      · rw [written, List.cons_append, List.cons_prefix_cons, List.cons_prefix_cons]
        constructor
        · rintro ⟨same, _⟩
          exact absurd same here.1
        · rintro ⟨same, _⟩
          exact absurd (key.trans same.symm) (here.2 entry member)
      · rw [written, List.cons_append, List.nil_append, List.cons_prefix_cons, List.cons_prefix_cons,
          ih fun b inside => plain b (List.mem_cons_of_mem a inside)]

namespace WellFormed

theorem keeps (ok : WellFormed amp stop ((c, w) :: table)) {entry : α × List α} (member : entry ∈ table) :
    replaceAll (amp :: w) [c] (amp :: entry.2 ++ rest) = amp :: entry.2 ++ replaceAll (amp :: w) [c] rest := by
  have differs := ((List.pairwise_cons.mp ok.distinct).1 entry member).2
  obtain ⟨body, word, first⟩ := ok.ended (c, w) List.mem_cons_self
  obtain ⟨body', word', second⟩ := ok.ended entry (List.mem_cons_of_mem _ member)
  have other : ¬ amp :: w <+: amp :: (entry.2 ++ rest) := by
    intro front
    have later := (List.cons_prefix_cons.mp front).2
    dsimp only at word differs
    rw [word, word'] at later differs
    exact differs (by rw [eq_of_ended first second later])
  rw [List.cons_append, replaceAll_miss other, replaceAll_keep (ok.amp_not_mem (List.mem_cons_of_mem _ member))]
  rfl

/-- The entity of the escape symbol itself must be the first one that is replaced. -/
theorem replace_amp (ok : WellFormed amp stop ((amp, w) :: table)) (s : List α) :
    replaceAll (amp :: w) [amp] (encode amp ((amp, w) :: table) s) = encode amp table s := by
  induction s with
  | nil => rfl
  | cons b s ih =>
    rw [encode_cons, encode_cons]
    by_cases escape : b = amp
    · rw [escape, encodeOne_head, replaceAll_hit, ih, encodeOne_plain ok.absent]
    · rw [encodeOne_tail escape]
      rcases encodeOne_cases b with ⟨entry, member, key, written⟩ | ⟨absent, written⟩
      · rw [written, ok.keeps member, ih]
      · have kept : amp ∉ [b] := fun inside => escape (List.mem_singleton.mp inside).symm
        rw [written, replaceAll_keep kept, ih]

theorem replace_other (ok : WellFormed amp stop ((c, w) :: table)) (unescaped : ∀ entry ∈ (c, w) :: table, entry.1 ≠ amp)
    (s : List α) :
    replaceAll (amp :: w) [c] (encode amp ((c, w) :: table) s) = encode amp table (replaceAll (amp :: w) [c] s) := by
  induction s using replaceAll_induction amp w with
  | nil => rfl
  | hit rest ih =>
    have raw : encode amp ((c, w) :: table) (amp :: w) = amp :: w := by
      refine encode_plain fun b inside => ?_
      rcases List.mem_cons.mp inside with escape | inside
      · rw [escape]
        exact unescaped
      · exact (ok.plain (c, w) List.mem_cons_self b inside).2
    rw [encode_append, raw, replaceAll_hit, replaceAll_hit, ih, List.singleton_append, List.singleton_append,
      encode_cons, encodeOne_plain ok.absent]
    rfl
  | miss b s other ih =>
    rw [encode_cons, replaceAll_miss other, encode_cons]
    by_cases mine : b = c
    · rw [mine, encodeOne_head, replaceAll_hit, ih, encodeOne_plain ok.absent]
    · rw [encodeOne_tail mine]
      rcases encodeOne_cases b with ⟨entry, member, key, written⟩ | ⟨absent, written⟩
      · rw [written, ok.keeps member, ih]
      · have still : ¬ amp :: w <+: b :: encode amp ((c, w) :: table) s := by
          intro front
          obtain ⟨same, later⟩ := List.cons_prefix_cons.mp front
          have inside := (prefix_encode (ok.plain (c, w) List.mem_cons_self)).mp later
          exact other (List.cons_prefix_cons.mpr ⟨same, inside⟩)
        rw [written, List.singleton_append, replaceAll_miss still, ih]
        rfl

end WellFormed

def replacements (amp : α) (table : Table α) : List (List α × List α) := table.map fun entry => (amp :: entry.2, [entry.1])

theorem WellFormed.replaceEach_encode (ok : WellFormed amp stop table) (unescaped : ∀ entry ∈ table, entry.1 ≠ amp) (s : List α) :
    replaceEach (replacements amp table) (encode amp table s) = replaceEach (replacements amp table) s := by
  induction table generalizing s with
  | nil => exact congrArg (replaceEach []) encode_nil_table
  | cons entry table ih =>
    obtain ⟨c, w⟩ := entry
    have later := ih ok.tail (fun entry member => unescaped entry (List.mem_cons_of_mem _ member)) (replaceAll (amp :: w) [c] s)
    rw [← ok.replace_other unescaped] at later
    exact later

end TFCommon.Entity
