import TFCommon.Lib.Run

/-! Programs with a state and failures, and what they keep: an invariant of the state and a view of it. -/
namespace TFCommon

variable {S E α β X Y : Type}

/-- From a state with the invariant the program ends in one with the invariant and the same view, and its result has the
postcondition; or it fails in a way that is not bad. -/
def Keeps (I : S → Prop) (view : S → X) (bad : E → Prop) (program : StateT S (Except E) α) (post : α → Prop) : Prop :=
  ∀ s, I s → Verdict (fun (r : α × S) => post r.1 ∧ I r.2 ∧ view r.2 = view s) bad (program s)

namespace Keeps
variable {I : S → Prop} {view : S → X} {bad : E → Prop} {program : StateT S (Except E) α} {post later : α → Prop}

theorem mono (keeps : Keeps I view bad program post) (implies : ∀ a, post a → later a) : Keeps I view bad program later :=
  fun s inv => (keeps s inv).imp fun r kept => ⟨implies r.1 kept.1, kept.2⟩

theorem blur (keeps : Keeps I view bad program post) (blurred : X → Y) : Keeps I (blurred ∘ view) bad program post :=
  fun s inv => (keeps s inv).imp fun _ kept => ⟨kept.1, kept.2.1, congrArg blurred kept.2.2⟩

theorem pure {a : α} (holds : post a) : Keeps I view bad (Pure.pure a) post := fun _ inv => ⟨holds, inv, rfl⟩

theorem fail {e : E} (allowed : ¬ bad e) : Keeps I view bad (throw e) post := fun _ _ => allowed

theorem read : Keeps I view bad (get : StateT S (Except E) S) I := fun _ inv => ⟨inv, inv, rfl⟩

theorem bind {next : α → StateT S (Except E) β} {result : β → Prop} (first : Keeps I view bad program post)
    (second : ∀ a, post a → Keeps I view bad (next a) result) : Keeps I view bad (program >>= next) result :=
  fun s inv => (first s inv).bind fun r kept =>
    (second r.1 kept.1 r.2 kept.2.1).imp fun _ done => ⟨done.1, done.2.1, done.2.2.trans kept.2.2⟩

/-- A program that leaves the state as it is, and then another from the same state. -/
theorem andThen {next : α → StateT S (Except E) β} {result : β × S → Prop} {s : S} (first : Keeps I id bad program post)
    (inv : I s) (second : ∀ a, post a → Verdict result bad (next a s)) : Verdict result bad ((program >>= next) s) := by
  refine (first s inv).bind fun r kept => ?_
  obtain ⟨a, s'⟩ := r
  obtain ⟨holds, _, rfl⟩ := kept
  exact second a holds

theorem afterGet {next : S → StateT S (Except E) β} {result : β × S → Prop} {s : S}
    (later : Verdict result bad (next s s)) : Verdict result bad ((get >>= next) s) := later

theorem ite {condition : Prop} [Decidable condition] {other : StateT S (Except E) α}
    (yes : condition → Keeps I view bad program post) (no : ¬ condition → Keeps I view bad other post) :
    Keeps I view bad (if condition then program else other) post := by
  split
  · rename_i holds
    exact yes holds
  · rename_i fails
    exact no fails

end Keeps

end TFCommon
