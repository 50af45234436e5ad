import Mathlib.Data.List.Basic

/-! Messages that announce their own length at their beginning, and the only way to cut a stream into them. -/
namespace TFCommon

/-- What the beginning of a stream says about the length of its first message. -/
structure Framing (α : Type) where
  announced : List α → Option Nat
  stable : ∀ {stream : List α} {n : Nat} (more : List α), announced stream = some n → announced (stream ++ more) = some n
  positive : ∀ {stream : List α} {n : Nat}, announced stream = some n → 0 < n

namespace Framing
variable {α : Type} (f : Framing α)

def Open (stream : List α) : Prop := ∀ n, f.announced stream = some n → stream.length < n

/-- A stream is cut into messages and the beginning of the next one. -/
inductive Cut : List α → List (List α) → List α → Prop
  | rest {stream : List α} : f.Open stream → Cut stream [] stream
  | message {message stream tail : List α} {messages : List (List α)} :
    f.announced (message ++ stream) = some message.length → Cut stream messages tail →
      Cut (message ++ stream) (message :: messages) tail

variable {f} {stream tail tail' message : List α} {messages messages' : List (List α)}

theorem open_nil : f.Open [] := fun _ announced => f.positive announced

theorem cut_nil : f.Cut [] [] [] := .rest open_nil

theorem Open.not_message {rest : List α} (opened : f.Open (message ++ rest)) :
    f.announced (message ++ rest) ≠ some message.length := by
  intro announced
  have short := opened _ announced
  rw [List.length_append] at short
  omega

theorem Cut.tail_open (cut : f.Cut stream messages tail) : f.Open tail := by
  induction cut with
  | rest opened => exact opened
  | message announced later ih => exact ih

theorem Cut.flatten (cut : f.Cut stream messages tail) : stream = messages.flatten ++ tail := by
  induction cut with
  | rest opened => rfl
  | message announced later ih => rw [List.flatten_cons, List.append_assoc, ← ih]

theorem Cut.append {more : List α} (cut : f.Cut stream messages tail) (next : f.Cut (tail ++ more) messages' tail') :
    f.Cut (stream ++ more) (messages ++ messages') tail' := by
  induction cut with
  | rest opened => exact next
  | message announced later ih =>
    rw [List.append_assoc]
    refine .message ?_ (ih next)
    rw [← List.append_assoc]
    exact f.stable more announced

theorem cut_flatten (messages : List (List α)) (whole : ∀ m ∈ messages, f.announced m = some m.length) :
    f.Cut messages.flatten messages [] := by
  induction messages with
  | nil => exact cut_nil
  | cons m rest ih =>
    exact .message (f.stable _ (whole m List.mem_cons_self)) (ih fun m' inside => whole m' (List.mem_cons_of_mem m inside))

theorem Cut.take {more : List α} (cut : f.Cut stream messages tail) (all : f.Cut (stream ++ more) messages' tail') :
    messages <+: messages' := by
  induction cut generalizing messages' with
  | rest opened => exact List.nil_prefix
  | message announced later ih =>
    rename_i first stream last messages
    generalize whole : first ++ stream ++ more = bytes at all
    have known : f.announced bytes = some first.length := whole ▸ f.stable more announced
    cases all with
    | rest opened =>
      subst whole
      rw [List.append_assoc] at opened known
      exact absurd known opened.not_message
    | message announced' later' =>
      rename_i first' stream' messages'
      have same : first.length = first'.length := Option.some.inj (known.symm.trans announced')
      rw [List.append_assoc] at whole
      obtain ⟨rfl, rfl⟩ := List.append_inj whole same
      exact (List.prefix_cons_inj first).mpr (ih later')

theorem Cut.unique (cut : f.Cut stream messages tail) (other : f.Cut stream messages' tail') :
    messages = messages' ∧ tail = tail' := by
  have left := cut.take ((List.append_nil stream).symm ▸ other)
  have right := other.take ((List.append_nil stream).symm ▸ cut)
  obtain rfl := left.eq_of_length_le right.length_le
  exact ⟨rfl, List.append_cancel_left (cut.flatten.symm.trans other.flatten)⟩

/-- What is left of a stream of whole messages is a proper part of one of them. -/
theorem Cut.tail_within {more : List α} (cut : f.Cut stream messages tail)
    (whole : ∀ m ∈ messages', f.announced m = some m.length) (all : stream ++ more = messages'.flatten) :
    tail = [] ∨ ∃ m ∈ messages', tail.length < m.length := by
  obtain ⟨others, rfl⟩ := cut.take (all ▸ cut_flatten messages' whole)
  rw [cut.flatten, List.flatten_append, List.append_assoc] at all
  have left := List.append_cancel_left all
  cases others with
  | nil => exact .inl (List.append_eq_nil_iff.mp left).1
  | cons m others =>
    have mem : m ∈ messages ++ m :: others := by simp
    refine .inr ⟨m, mem, ?_⟩
    by_contra long
    obtain ⟨rest, rfl⟩ := List.prefix_of_prefix_length_le ⟨others.flatten, left.symm⟩ (List.prefix_append tail more)
      (Nat.le_of_not_lt long)
    have short := cut.tail_open _ (f.stable rest (whole m mem))
    rw [List.length_append] at short
    omega

end Framing

end TFCommon
