import Mathlib.Init

/-! A token that at most one holder has: a mutex, or a pointer to the one that owns something. What
the token names and what each holder believes change together. -/
namespace TFCommon

variable {H : Type} {token : Option H} {holds holds' : H → Prop} {h h' : H}

def Token (token : Option H) (holds : H → Prop) : Prop := ∀ h, token = some h ↔ holds h

theorem Token.unique (ok : Token token holds) (first : holds h) (second : holds h') : h = h' := by
  have one := (ok h).mpr first
  rw [(ok h').mpr second] at one
  exact (Option.some.inj one).symm

theorem Token.keep (ok : Token token holds) (same : ∀ h, holds' h ↔ holds h) : Token token holds' :=
  fun h => (ok h).trans (same h).symm

theorem Token.stay (ok : Token token holds) (others : ∀ h', h' ≠ h → (holds' h' ↔ holds h')) (same : holds' h ↔ holds h) :
    Token token holds' := by
  refine ok.keep fun h' => ?_
  by_cases here : h' = h
  · rw [here]
    exact same
  · exact others h' here

theorem Token.take (ok : Token token holds) (free : token = none) (others : ∀ h', h' ≠ h → (holds' h' ↔ holds h')) (now : holds' h) :
    Token (some h) holds' := by
  subst free
  intro h'
  constructor
  · intro same
    cases same
    exact now
  · intro held
    by_cases same : h' = h
    · rw [same]
    · have impossible := (ok h').mpr ((others h' same).mp held)
      cases impossible

theorem Token.drop (ok : Token token holds) (held : token = some h) (others : ∀ h', h' ≠ h → (holds' h' ↔ holds h')) (gone : ¬ holds' h) :
    Token none holds' := by
  subst held
  intro h'
  constructor
  · intro impossible
    cases impossible
  · intro held
    by_cases same : h' = h
    · exact absurd (same ▸ held) gone
    · have other := (ok h').mpr ((others h' same).mp held)
      exact absurd (Option.some.inj other).symm same

end TFCommon
