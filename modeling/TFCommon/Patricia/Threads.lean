import TFCommon.Patricia.Trie
import Mathlib.Algebra.Order.Group.Int

/-! How the node memory holds a trie: child links, and right threads where a right child is missing. -/
namespace TFCommon.Patricia
open BitString BinTree

variable {D : Type}

def link (T : Trie D) (th : Link D) : Link D :=
  match T with
  | .empty => th
  | .node a _ _ => some a.ref

@[simp] theorem link_empty (th : Link D) : link .empty th = th := rfl
@[simp] theorem link_node (a : Cell D) (l r : Trie D) (th : Link D) : link (.node a l r) th = some a.ref := rfl

def Ref.isInt : Ref D → Bool
  | .data _ => false
  | .int _ => true

theorem isInt_iff (x : Ref D) : x.isInt = true ↔ x.toData = none := by cases x <;> simp [Ref.isInt, Ref.toData]

variable {x : Ref D} {c : Path D}

theorem isInt_false (h : x.isInt = false) : ∃ d, x = .data d := by
  cases x with
  | data d => exact ⟨d, rfl⟩
  | int n => simp [Ref.isInt] at h

def nodeAt (a : Cell D) (left right : Link D) : Node D :=
  { left := left, right := right, intnode := a.ref.isInt, bitpos := a.word.length }

@[simp] theorem nodeAt_left (a : Cell D) (left right : Link D) : (nodeAt a left right).left = left := rfl
@[simp] theorem nodeAt_right (a : Cell D) (left right : Link D) : (nodeAt a left right).right = right := rfl
@[simp] theorem nodeAt_intnode (a : Cell D) (left right : Link D) : (nodeAt a left right).intnode = a.ref.isInt := rfl
@[simp] theorem nodeAt_bitpos (a : Cell D) (left right : Link D) : (nodeAt a left right).bitpos = a.word.length := rfl

theorem link_full {X : Trie D} (full : X ≠ .empty) (th th' : Link D) : link X th = link X th' := by
  cases X with
  | empty => exact absurd rfl full
  | node a l r => rfl

theorem full_of_entry {X : Trie D} (entry : link X none = some x) : X ≠ .empty := by
  rintro rfl
  simp at entry

theorem link_of_entry {X : Trie D} (entry : link X none = some x) (th : Link D) : link X th = some x := by
  cases X with
  | empty => simp at entry
  | node a l r => exact entry

def Rep (mem : Ref D → Option (Node D)) : Link D → Trie D → Prop
  | _, .empty => True
  | th, .node a l r => mem a.ref = some (nodeAt a (link l none) (link r th)) ∧ Rep mem (some a.ref) l ∧ Rep mem th r

def threadRef (c : Path D) : Link D := (thread c).map (·.ref)

def holeThread : Path D → Link D
  | [] => none
  | f :: c => if f.dir then threadRef c else none

def frameNode (f : Frame (Cell D)) (c : Path D) (h : Link D) : Node D :=
  if f.dir then nodeAt f.label (link f.other none) h else nodeAt f.label h (link f.other (threadRef c))

theorem frameNode_bitpos (f : Frame (Cell D)) (c : Path D) (h : Link D) :
    (frameNode f c h).bitpos = f.label.word.length := by
  cases dir : f.dir <;> simp [frameNode, dir]

theorem frameNode_intnode (f : Frame (Cell D)) (c : Path D) (h : Link D) :
    (frameNode f c h).intnode = f.label.ref.isInt := by
  cases dir : f.dir <;> simp [frameNode, dir]

def Linked (mem : Ref D → Option (Node D)) (root : Link D) : Path D → Link D → Prop
  | [], h => root = h
  | f :: c, h =>
    mem f.label.ref = some (frameNode f c h) ∧
    Rep mem (if f.dir then some f.label.ref else threadRef c) f.other ∧ Linked mem root c (some f.label.ref)

def refs (T : Trie D) : List (Ref D) := T.toList.map (·.ref)
def outerRefs (c : Path D) : List (Ref D) := (outside c).map (·.ref)

@[simp] theorem refs_empty : refs (.empty : Trie D) = [] := rfl
@[simp] theorem refs_node (a : Cell D) (l r : Trie D) : refs (.node a l r) = a.ref :: (refs l ++ refs r) := by
  simp [refs]

theorem mem_refs {X : Trie D} {a : Cell D} (h : a ∈ X.toList) : a.ref ∈ refs X := List.mem_map_of_mem h

theorem refs_plug (c : Path D) (T : Trie D) : (refs (plug c T)).Perm (refs T ++ outerRefs c) := by
  have h := (perm_plug c T).map (·.ref)
  rwa [List.map_append] at h

theorem refs_fill (g : Frame (Cell D)) (X : Trie D) : (refs (g.fill X)).Perm ((g.label.ref :: refs g.other) ++ refs X) := by
  have h := (perm_fill g X).map (·.ref)
  rwa [List.map_cons, List.map_append] at h

theorem outerRefs_cons (f : Frame (Cell D)) (c : Path D) :
    (outerRefs (f :: c)).Perm (f.label.ref :: (refs f.other ++ outerRefs c)) := by
  have h := (outside_cons f c).map (·.ref)
  rwa [List.map_cons, List.map_append] at h

theorem threadRef_outer {z : Ref D} (h : threadRef c = some z) : z ∈ outerRefs c := by
  obtain ⟨b, found, rfl⟩ := Option.map_eq_some_iff.mp h
  obtain ⟨inner, f, outer, split, rfl, _⟩ := thread_frame found
  exact List.mem_map_of_mem (label_outside (by simp [split]))

theorem threadRef_cons (f : Frame (Cell D)) (c : Path D) :
    threadRef (f :: c) = if f.dir then threadRef c else some f.label.ref := by
  cases h : f.dir <;> simp [threadRef, thread, h]

section
variable {mem mem' : Ref D → Option (Node D)} {root : Link D}

theorem Rep.congr {th : Link D} {T : Trie D} (rep : Rep mem th T) (same : ∀ x ∈ refs T, mem' x = mem x) :
    Rep mem' th T := by
  induction T generalizing th with
  | empty => trivial
  | node a l r ihl ihr =>
    obtain ⟨here, left, right⟩ := rep
    simp only [refs_node, List.mem_cons, List.mem_append] at same
    exact ⟨(same a.ref (.inl rfl)).trans here, ihl left fun x hx => same x (.inr (.inl hx)),
      ihr right fun x hx => same x (.inr (.inr hx))⟩

theorem Linked.congr {h : Link D} (linked : Linked mem root c h)
    (same : ∀ x ∈ outerRefs c, mem' x = mem x) : Linked mem' root c h := by
  induction c generalizing h with
  | nil => exact linked
  | cons f c ih =>
    obtain ⟨here, other, outer⟩ := linked
    have within : ∀ x, x = f.label.ref ∨ x ∈ refs f.other ∨ x ∈ outerRefs c → mem' x = mem x := by
      intro x hx
      exact same x ((outerRefs_cons f c).mem_iff.mpr (by simpa using hx))
    exact ⟨(within _ (.inl rfl)).trans here, other.congr fun x hx => within x (.inr (.inl hx)),
      ih outer fun x hx => within x (.inr (.inr hx))⟩

theorem rep_fill (f : Frame (Cell D)) (c : Path D) (X : Trie D) : Rep mem (threadRef c) (f.fill X) ↔
    mem f.label.ref = some (frameNode f c (link X (holeThread (f :: c)))) ∧
    Rep mem (if f.dir then some f.label.ref else threadRef c) f.other ∧ Rep mem (threadRef (f :: c)) X := by
  rw [threadRef_cons]
  cases h : f.dir <;> simp only [Frame.fill, Rep, frameNode, holeThread, h, Bool.false_eq_true, if_true, if_false]
  tauto

theorem rep_plug (c : Path D) (X : Trie D) : (root = link (plug c X) none ∧ Rep mem none (plug c X)) ↔
    Linked mem root c (link X (holeThread c)) ∧ Rep mem (threadRef c) X := by
  induction c generalizing X with
  | nil => rfl
  | cons f c ih =>
    have entered : link (f.fill X) (holeThread c) = some f.label.ref := by
      cases h : f.dir <;> simp [Frame.fill, h]
    rw [plug_cons, ih, entered, rep_fill, Linked]
    tauto

theorem Linked.frame {h : Link D} (linked : Linked mem root c h) {f : Frame (Cell D)} (hf : f ∈ c) :
    ∃ left right, mem f.label.ref = some (nodeAt f.label left right) := by
  induction c generalizing h with
  | nil => simp at hf
  | cons g c ih =>
    obtain ⟨here, _, outer⟩ := linked
    rcases List.mem_cons.mp hf with rfl | hf
    · cases hd : f.dir <;> simp only [frameNode, hd, Bool.false_eq_true, if_false] at here <;>
        exact ⟨_, _, here⟩
    · exact ih outer hf

end

def Live (mem : Ref D → Option (Node D)) : Prop := ∀ d, ∃ n, mem (.data d) = some n ∧ n.intnode = false

structure Shape (K : KeyTraits D) (t : Tree D) (T : Trie D) : Prop where
  root : t.root = link T none
  rep : Rep t.mem none T
  wf : WF K T
  distinct : (refs T).Nodup
  nodes : t.nodes = (stored T).length
  total : t.nodes + t.intNodes = T.size
  young : ∀ n, Ref.int n ∈ refs T → n < t.fresh
  live : Live t.mem

section
variable {K : KeyTraits D} {t : Tree D} {c : Path D} {a : Cell D} {l r X T : Trie D}

theorem Shape.turns (shape : Shape K t T) : t.turns = 2 * T.size + 2 := by
  rw [Tree.turns, shape.total]
  rfl

theorem Shape.focus (shape : Shape K t (plug c X)) :
    Linked t.mem t.root c (link X (holeThread c)) ∧ Rep t.mem (threadRef c) X :=
  (rep_plug c X).mp ⟨shape.root, shape.rep⟩

theorem Shape.read (shape : Shape K t (plug c (.node a l r))) :
    t.mem a.ref = some (nodeAt a (link l none) (link r (threadRef c))) :=
  shape.focus.2.1

theorem Shape.apart (shape : Shape K t (plug c X)) :
    (refs X).Nodup ∧ (outerRefs c).Nodup ∧ ∀ x ∈ refs X, x ∉ outerRefs c := by
  obtain ⟨inner, outer, apart⟩ := List.nodup_append.mp ((refs_plug c X).nodup_iff.mp shape.distinct)
  exact ⟨inner, outer, fun x hx hy => apart x hx x hy rfl⟩

theorem Shape.young_inside {n : Nat} (shape : Shape K t (plug c X)) (inside : .int n ∈ refs X) : n < t.fresh :=
  shape.young n ((refs_plug c X).mem_iff.mpr (List.mem_append_left _ inside))

theorem Shape.thread_low (shape : Shape K t (plug c X)) (h : threadRef c = some x) :
    ∃ n, t.mem x = some n ∧ ∀ a ∈ X.toList, n.bitpos < a.word.length := by
  obtain ⟨b, found, rfl⟩ := Option.map_eq_some_iff.mp h
  obtain ⟨inner, f, outer, split, rfl, dir, _⟩ := thread_frame found
  have hf : f ∈ c := by simp [split]
  obtain ⟨left, right, stored⟩ := shape.focus.1.frame hf
  refine ⟨_, stored, fun a ha => ?_⟩
  exact turn_length (((wf_focus shape.wf).2 f hf).1 a ha)

theorem thread_focus {z : Ref D} (h : threadRef c = some z) (X : Trie D) :
    ∃ (f : Frame (Cell D)) (outer : Path D) (Y : Trie D), f.label.ref = z ∧
      plug outer (.node f.label Y f.other) = plug c X ∧ after c = f.other.toList ++ after outer ∧
      2 * f.other.size + 1 + climb outer ≤ climb c := by
  obtain ⟨b, found, rfl⟩ := Option.map_eq_some_iff.mp h
  obtain ⟨inner, f, outer, rfl, rfl, dir, _, rest⟩ := thread_frame found
  refine ⟨f, outer, plug inner X, rfl, ?_, rest, ?_⟩
  · rw [plug_append, plug_cons, Frame.fill, dir]
    rfl
  · simp [climb_append, climb, dir]

inductive Moved (t : Tree D) (n : Node D) (c : Path D) (b : Bool) (l r : Trie D) (x : Link D) : Prop
  | child (a : Cell D) (l' r' : Trie D) (below : child b l r = .node a l' r') (dest : x = some a.ref)
      (moved : t.move n x = some (.child a.ref))
  | missing (none : child b l r = .empty) (dest : x = Option.none) (moved : t.move n x = some .missing)
  | thread (z : Ref D) (none : child b l r = .empty) (right : b = true) (dest : x = some z)
      (up : threadRef c = some z) (moved : t.move n x = some (.thread z))

theorem Shape.move (shape : Shape K t (plug c (.node a l r))) (b : Bool) (n : Node D)
    (pos : n.bitpos = a.word.length) :
    Moved t n c b l r (if b then link r (threadRef c) else link l none) := by
  cases below : child b l r with
  | node a' l' r' =>
    have moved : Shape K t (plug (down b a l r :: c) (.node a' l' r')) := by
      rw [← below, plug_down]
      exact shape
    have under := (wf_focus moved.wf).2 _ (List.mem_cons_self ..)
    have longer := turn_length (under.1 a' (by simp))
    have entered : (if b then link r (threadRef c) else link l none) = some a'.ref := by
      cases b <;> simp only [child_true, child_false] at below <;> simp [below]
    refine .child a' l' r' below entered ?_
    rw [entered, Tree.move, moved.read, Option.map_some]
    simpa [pos] using longer
  | empty =>
    cases b with
    | false =>
      rw [child_false] at below
      exact .missing below (by simp [below]) (by simp [below, Tree.move])
    | true =>
      rw [child_true] at below
      simp only [below, if_true, link_empty]
      cases up : threadRef c with
      | none => exact .missing (by simp) rfl rfl
      | some z =>
        obtain ⟨m, stored, low⟩ := shape.thread_low up
        refine .thread z (by simp) rfl rfl up ?_
        have lower := low a (by simp)
        rw [Tree.move, stored, Option.map_some, if_pos (by omega)]

theorem follow_nodeAt (node : D) (a : Cell D) (left right : Link D) :
    Tree.follow K node (nodeAt a left right) = if bit (key K node) a.word.length then right else left := by
  rw [Tree.follow, getBit_eq]
  rfl

theorem Shape.turnDown {A R : Type} (shape : Shape K t (plug c (.node a l r))) (node : D) (locals : A)
    (atThread : Ref D → R) {b : Bool} (hb : bit (key K node) a.word.length = b) :
    t.turnDown K node (nodeAt a (link l none) (link r (threadRef c))) locals atThread =
        some (.again (link (child b l r) none, locals)) ∨
      child b l r = .empty ∧ b = true ∧ ∃ z, threadRef c = some z ∧
        t.turnDown K node (nodeAt a (link l none) (link r (threadRef c))) locals atThread = some (.exit (atThread z)) := by
  simp only [Tree.turnDown, follow_nodeAt, hb]
  cases shape.move b (nodeAt a (link l none) (link r (threadRef c))) rfl with
  | child a' l' r' below dest moved => exact .inl (by simp [moved, below])
  | missing none dest moved => exact .inl (by simp [moved, none])
  | thread z none right dest up moved => exact .inr ⟨none, right, z, up, by simp [moved]⟩

theorem Shape.descend {A R : Type} {body : Link D × A → Option (Turn (Link D × A) R)} (shape : Shape K t T)
    (I : Path D → Trie D → A → Prop) (Q : R → Prop)
    (turn : ∀ c X locals, plug c X = T → I c X locals →
      (∃ r, body (link X none, locals) = some (.exit r) ∧ Q r) ∨
      ∃ a l r b next, X = .node a l r ∧ body (link X none, locals) = some (.again (link (child b l r) none, next)) ∧
        I (down b a l r :: c) (child b l r) next)
    {locals : A} (start : plug c X = T) (inv : I c X locals) :
    ∃ r, loop body t.turns (link X none, locals) = some r ∧ Q r := by
  apply loop_total (fun n s => ∃ c X, plug c X = T ∧ s.1 = link X none ∧ I c X s.2 ∧ n = X.size) Q
    ?_ X.size t.turns (link X none, locals) ⟨c, X, start, rfl, inv, rfl⟩
  · have bound := climb_bound c X
    rw [start] at bound
    rw [shape.turns]
    omega
  · rintro n ⟨x, locals⟩ ⟨c, X, split, rfl, inv, rfl⟩
    rcases turn c X locals split inv with done | ⟨a, l, r, b, next, rfl, step, later⟩
    · exact .inl done
    · refine .inr ⟨_, _, step, ?_, down b a l r :: c, child b l r, ?_, rfl, later, rfl⟩
      · cases b <;> simp only [child_true, child_false, size_node] <;> omega
      · rw [plug_down, split]

end

end TFCommon.Patricia
