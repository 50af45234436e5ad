import Mathlib.Data.List.Perm.Basic
import Mathlib.Tactic.Common

/-! Labelled binary trees in preorder, with one-hole contexts innermost frame first. The thread of
a hole is the nearest label above it whose left subtree holds it. -/
namespace TFCommon

inductive BinTree (α : Type) where
  | empty
  | node (a : α) (l r : BinTree α)

namespace BinTree
variable {α : Type}

def toList : BinTree α → List α
  | empty => []
  | node a l r => a :: (toList l ++ toList r)

@[simp] theorem toList_empty : (empty : BinTree α).toList = [] := rfl
@[simp] theorem toList_node (a : α) (l r : BinTree α) : (node a l r).toList = a :: (l.toList ++ r.toList) := rfl

def size (t : BinTree α) : Nat := t.toList.length

@[simp] theorem size_empty : (empty : BinTree α).size = 0 := rfl
@[simp] theorem size_node (a : α) (l r : BinTree α) : (node a l r).size = l.size + r.size + 1 := by
  simp [size]

def child (b : Bool) (l r : BinTree α) : BinTree α := if b then r else l

@[simp] theorem child_true (l r : BinTree α) : child true l r = r := rfl
@[simp] theorem child_false (l r : BinTree α) : child false l r = l := rfl

theorem mem_of_child {b : Bool} {a x : α} {l r : BinTree α} (h : x ∈ (child b l r).toList) :
    x ∈ (node a l r).toList := by
  cases b <;> simp only [child_true, child_false] at h <;> simp [h]

structure Frame (α : Type) where
  label : α
  dir : Bool
  other : BinTree α

def Frame.fill (f : Frame α) (t : BinTree α) : BinTree α :=
  if f.dir then node f.label f.other t else node f.label t f.other

theorem perm_fill (f : Frame α) (t : BinTree α) : (f.fill t).toList.Perm (f.label :: (f.other.toList ++ t.toList)) := by
  cases h : f.dir with
  | true => simp [Frame.fill, h]
  | false =>
    simp only [Frame.fill, h]
    exact .cons _ List.perm_append_comm

theorem size_fill (f : Frame α) (t : BinTree α) : (f.fill t).size = f.other.size + t.size + 1 := by
  rw [size, (perm_fill f t).length_eq]
  simp [size]

def plug : List (Frame α) → BinTree α → BinTree α
  | [], t => t
  | f :: c, t => plug c (f.fill t)

@[simp] theorem plug_nil (t : BinTree α) : plug [] t = t := rfl
@[simp] theorem plug_cons (f : Frame α) (c : List (Frame α)) (t : BinTree α) : plug (f :: c) t = plug c (f.fill t) := rfl

theorem plug_append (c d : List (Frame α)) (t : BinTree α) : plug (c ++ d) t = plug d (plug c t) := by
  induction c generalizing t with
  | nil => rfl
  | cons f c ih => exact ih (f.fill t)

theorem plug_node (c : List (Frame α)) (a : α) (l r : BinTree α) : ∃ b x y, plug c (node a l r) = node b x y := by
  induction c generalizing a l r with
  | nil => exact ⟨a, l, r, rfl⟩
  | cons f c ih =>
    cases h : f.dir with
    | true => simpa [Frame.fill, h] using ih f.label f.other (node a l r)
    | false => simpa [Frame.fill, h] using ih f.label (node a l r) f.other

def down (b : Bool) (a : α) (l r : BinTree α) : Frame α := ⟨a, b, child (!b) l r⟩

@[simp] theorem fill_down (b : Bool) (a : α) (l r : BinTree α) : (down b a l r).fill (child b l r) = node a l r := by
  cases b <;> rfl

theorem plug_down (b : Bool) (a : α) (l r : BinTree α) (c : List (Frame α)) :
    plug (down b a l r :: c) (child b l r) = plug c (node a l r) := by
  rw [plug_cons, fill_down]

theorem fill_node (f : Frame α) (t : BinTree α) :
    ∃ l r, f.fill t = node f.label l r ∧ child f.dir l r = t ∧ down f.dir f.label l r = f := by
  obtain ⟨a, b, other⟩ := f
  cases b with
  | true => exact ⟨other, t, rfl, rfl, rfl⟩
  | false => exact ⟨t, other, rfl, rfl, rfl⟩

@[simp] theorem down_dir (b : Bool) (a : α) (l r : BinTree α) : (down b a l r).dir = b := rfl
@[simp] theorem down_label (b : Bool) (a : α) (l r : BinTree α) : (down b a l r).label = a := rfl

def before : List (Frame α) → List α
  | [] => []
  | f :: c => before c ++ f.label :: (if f.dir then f.other.toList else [])

def after : List (Frame α) → List α
  | [] => []
  | f :: c => (if f.dir then [] else f.other.toList) ++ after c

theorem toList_plug (c : List (Frame α)) (t : BinTree α) :
    (plug c t).toList = before c ++ (t.toList ++ after c) := by
  induction c generalizing t with
  | nil => simp [before, after]
  | cons f c ih =>
    rw [plug_cons, ih]
    cases h : f.dir <;> simp [Frame.fill, before, after, h]

theorem mem_before (c : List (Frame α)) (a : α) :
    a ∈ before c ↔ ∃ f ∈ c, a = f.label ∨ f.dir = true ∧ a ∈ f.other.toList := by
  induction c with
  | nil => simp [before]
  | cons f c ih => cases h : f.dir <;> simp [before, ih, h, or_comm]

theorem mem_after (c : List (Frame α)) (a : α) : a ∈ after c ↔ ∃ f ∈ c, f.dir = false ∧ a ∈ f.other.toList := by
  induction c with
  | nil => simp [after]
  | cons f c ih => cases h : f.dir <;> simp [after, ih, h]

theorem mem_focus {t : BinTree α} {a : α} (h : a ∈ t.toList) : ∃ c l r, plug c (node a l r) = t := by
  induction t with
  | empty => simp at h
  | node b l r ihl ihr =>
    have below : ∀ side, a ∈ (child side l r).toList → (∃ c l' r', plug c (node a l' r') = child side l r) →
        ∃ c l' r', plug c (node a l' r') = node b l r := by
      rintro side _ ⟨c, l', r', split⟩
      exact ⟨c ++ [down side b l r], l', r', by rw [plug_append, split, plug_down]; rfl⟩
    rcases List.mem_cons.mp h with rfl | h
    · exact ⟨[], l, r, rfl⟩
    · rcases List.mem_append.mp h with h | h
      · exact below false h (ihl h)
      · exact below true h (ihr h)

def outside (c : List (Frame α)) : List α := before c ++ after c

theorem perm_plug (c : List (Frame α)) (t : BinTree α) : (plug c t).toList.Perm (t.toList ++ outside c) := by
  rw [toList_plug]
  exact (List.perm_append_comm_assoc _ _ _)

theorem mem_plug (c : List (Frame α)) (t : BinTree α) (a : α) : a ∈ (plug c t).toList ↔ a ∈ t.toList ∨ a ∈ outside c := by
  rw [(perm_plug c t).mem_iff, List.mem_append]

theorem mem_outside (c : List (Frame α)) (a : α) :
    a ∈ outside c ↔ ∃ f ∈ c, a = f.label ∨ a ∈ f.other.toList := by
  induction c with
  | nil => simp [outside, before, after]
  | cons f c ih =>
    rw [List.exists_mem_cons_iff, ← ih]
    cases h : f.dir <;> simp [outside, before, after, h] <;> tauto

theorem label_outside {c : List (Frame α)} {f : Frame α} (h : f ∈ c) : f.label ∈ outside c :=
  (mem_outside c f.label).mpr ⟨f, h, .inl rfl⟩

theorem outside_cons (f : Frame α) (c : List (Frame α)) :
    (outside (f :: c)).Perm (f.label :: (f.other.toList ++ outside c)) := by
  cases h : f.dir
  all_goals
    simp only [outside, before, after, h, Bool.false_eq_true, if_false, if_true, List.append_assoc, List.cons_append,
      List.nil_append]
    exact List.perm_middle.trans (.cons _ (List.perm_append_comm_assoc _ _ _))

def thread : List (Frame α) → Option α
  | [] => none
  | f :: c => if f.dir then thread c else some f.label

@[simp] theorem thread_nil : thread ([] : List (Frame α)) = none := rfl

theorem thread_frame {c : List (Frame α)} {a : α} (h : thread c = some a) :
    ∃ inner f outer, c = inner ++ f :: outer ∧ f.label = a ∧ f.dir = false ∧ (∀ g ∈ inner, g.dir = true) ∧
      after c = f.other.toList ++ after outer := by
  induction c with
  | nil => simp at h
  | cons f c ih =>
    cases hf : f.dir with
    | false =>
      refine ⟨[], f, c, rfl, ?_, hf, by simp, by simp [after, hf]⟩
      simpa [thread, hf] using h
    | true =>
      obtain ⟨inner, g, outer, split, label, dir, turns, rest⟩ := ih (by simpa [thread, hf] using h)
      exact ⟨f :: inner, g, outer, by rw [split]; rfl, label, dir, List.forall_mem_cons.mpr ⟨hf, turns⟩,
        by simp [after, hf, rest]⟩

theorem thread_none {c : List (Frame α)} (h : thread c = none) : (∀ f ∈ c, f.dir = true) ∧ after c = [] := by
  induction c with
  | nil => simp [after]
  | cons f c ih =>
    cases hf : f.dir with
    | false => simp [thread, hf] at h
    | true =>
      obtain ⟨turns, rest⟩ := ih (by simpa [thread, hf] using h)
      exact ⟨List.forall_mem_cons.mpr ⟨hf, turns⟩, by simp [after, hf, rest]⟩

def climb : List (Frame α) → Nat
  | [] => 0
  | f :: c => (if f.dir then 0 else 2 * f.other.size + 1) + climb c

theorem climb_bound (c : List (Frame α)) (t : BinTree α) : 2 * t.size + climb c ≤ 2 * (plug c t).size := by
  induction c generalizing t with
  | nil => simp [climb]
  | cons f c ih =>
    have h := ih (f.fill t)
    cases hf : f.dir <;> simp [climb, Frame.fill, hf] at * <;> omega

theorem climb_append (inner outer : List (Frame α)) : climb (inner ++ outer) = climb inner + climb outer := by
  induction inner with
  | nil => simp [climb]
  | cons f inner ih => simp [climb, ih, Nat.add_assoc]

end BinTree

end TFCommon
