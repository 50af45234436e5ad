import TFCommon.Patricia.Iterate
import TFCommon.Patricia.Rewire

/-! What `FindNext` computes for a key: the part of the trie where the key parts from it, and the
nodes after that part, except where the walk falls back to the first node of the tree. -/
namespace TFCommon.Patricia
open BitString BinTree

variable {D : Type} {K : KeyTraits D} {t : Tree D} {T : Trie D}

def landing (T : Trie D) (c : Path D) : Link D := if after c = [] then first T.toList else first (after c)

variable {f : Frame (Cell D)} {c : Path D}

section
variable {c : Path D} {a : Cell D} {l r X : Trie D}

theorem Shape.landed_child (shape : Shape K t (plug c (.node a l r))) :
    t.landed (some a.ref) = some (first ((BinTree.node a l r).toList ++ after c)) := by
  simp only [Tree.landed, shape.read, Option.bind_eq_bind, Option.bind_some]
  split
  next kind =>
    rw [toList_node, List.cons_append, first_int kind]
    simpa using shape.getNextNode
  next kind =>
    obtain ⟨d, data⟩ := isInt_false (by simpa using kind)
    rw [toList_node, List.cons_append, first_data data]
    rfl

inductive Climbing (t : Tree D) (T : Trie D) (answer : Link D) : Nat → Ref D × Link D → Prop
  | thread (c : Path D) (X : Trie D) (from_ : Ref D) (nl : Node D) (split : plug c X = T) (read : t.mem from_ = some nl)
      (inside : ∃ b ∈ X.toList, b.word.length = nl.bitpos) (here : answer = landing T c) :
      Climbing t T answer (climb c + 1) (from_, threadRef c)
  | child (c : Path D) (a : Cell D) (l r : Trie D) (from_ : Ref D) (nl : Node D) (split : plug c (.node a l r) = T)
      (read : t.mem from_ = some nl) (below : nl.bitpos < a.word.length)
      (here : answer = first ((BinTree.node a l r).toList ++ after c)) : Climbing t T answer 0 (from_, some a.ref)

theorem Shape.climbTurn (shape : Shape K t T) {answer : Link D} {n : Nat} {s : Ref D × Link D}
    (climbing : Climbing t T answer n s) :
    (∃ y, t.climbTurn s = some (.exit y) ∧ t.landed y = some answer) ∨
      ∃ next m, t.climbTurn s = some (.again next) ∧ m < n ∧ Climbing t T answer m next := by
  cases climbing with
  | child c a l r from_ nl split read below here =>
    subst split
    have lower : ¬ a.word.length < nl.bitpos := Nat.lt_asymm below
    refine .inl ⟨some a.ref, by simp [Tree.climbTurn, read, shape.read, lower], ?_⟩
    rw [here]
    exact shape.landed_child
  | thread c X from_ nl split read inside here =>
    subst split
    obtain ⟨b, hb, pos⟩ := inside
    cases up : threadRef c with
    | none =>
      have stop := (thread_none (Option.map_eq_none_iff.mp up)).2
      refine .inl ⟨none, rfl, ?_⟩
      rw [here, landing, if_pos stop]
      exact shape.getNextNode_begin
    | some z =>
      obtain ⟨nz, readUp, low⟩ := shape.thread_low up
      have lower := low b hb
      rw [pos] at lower
      obtain ⟨f, outer, Y, rfl, above, rest, weight⟩ := thread_focus up X
      have self := (above ▸ shape : Shape K t _).read
      rw [self] at readUp
      cases readUp
      refine .inr ⟨(f.label.ref, link f.other (threadRef outer)), ?_⟩
      cases other : f.other with
      | empty =>
        refine ⟨climb outer + 1, by
          simp only [Tree.climbTurn, read, self, Option.bind_eq_bind, Option.bind_some]
          rw [if_pos lower, other]
          rfl, by omega, ?_⟩
        refine .thread outer (.node f.label Y f.other) f.label.ref _ above self ⟨f.label, by simp, rfl⟩ ?_
        rw [here, landing, rest, other]
        rfl
      | node a' l' r' =>
        have wf := (above ▸ shape : Shape K t _).wf
        have longer := turn_length (((wf_focus wf).1.child true).2 a' (by simp [other]))
        refine ⟨0, by
          simp only [Tree.climbTurn, read, self, Option.bind_eq_bind, Option.bind_some]
          rw [if_pos lower, other]
          rfl, by omega, ?_⟩
        refine .child (down true f.label Y f.other :: outer) a' l' r' f.label.ref _ ?_ self longer ?_
        · rw [← other]
          exact (plug_down true f.label Y f.other outer).trans above
        · rw [here, landing, rest, other]
          simp [after]

theorem Shape.climb (shape : Shape K t T) {answer : Link D} {n : Nat} {s : Ref D × Link D}
    (climbing : Climbing t T answer n s) (enough : n < t.turns) :
    (loop t.climbTurn t.turns s).bind t.landed = some answer := by
  obtain ⟨y, run, lands⟩ := loop_total (Climbing t T answer) (fun y => t.landed y = some answer)
    (fun n s climbing => shape.climbTurn climbing) n t.turns s climbing enough
  rw [run]
  exact lands

theorem Shape.climb_thread (shape : Shape K t T) {from_ : Ref D} {nl : Node D} (split : plug c X = T)
    (read : t.mem from_ = some nl) (inside : ∃ b ∈ X.toList, b.word.length = nl.bitpos) :
    (loop t.climbTurn t.turns (from_, threadRef c)).bind t.landed = some (landing T c) := by
  apply shape.climb (.thread c X from_ nl split read inside rfl)
  have bound := climb_bound c X
  rw [split] at bound
  rw [shape.turns]
  omega

theorem Shape.climb_right (shape : Shape K t T) (split : plug (f :: c) X = T) (dir : f.dir = false)
    {nl : Node D} (read : t.mem f.label.ref = some nl) (pos : nl.bitpos = f.label.word.length) :
    (loop t.climbTurn t.turns (f.label.ref, link f.other (threadRef c))).bind t.landed = some (landing T (f :: c)) := by
  have place : plug c (.node f.label X f.other) = T := by
    rw [← split, plug_cons, Frame.fill, dir]
    rfl
  have rest : after (f :: c) = f.other.toList ++ after c := by simp [after, dir]
  cases other : f.other with
  | empty =>
    have same : landing T (f :: c) = landing T c := by simp [landing, rest, other]
    rw [same]
    exact shape.climb_thread place read ⟨f.label, by simp, pos.symm⟩
  | node a' l' r' =>
    have wf := (place ▸ shape : Shape K t _).wf
    have longer := turn_length (((wf_focus wf).1.child true).2 a' (by simp [other]))
    refine shape.climb (.child (down true f.label X f.other :: c) a' l' r' f.label.ref nl ?_ read (by omega) ?_) ?_
    · rw [← other]
      exact (plug_down true f.label X f.other c).trans place
    · rw [landing, rest, other]
      simp [after]
    · rw [shape.turns]
      omega

end

def lastData (c : Path D) : Link D := (c.find? fun f => !f.label.ref.isInt).map (·.label.ref)

def lastPos (c : Path D) : Nat := ((c.find? fun f => !f.label.ref.isInt).map (·.label.word.length)).getD 0

theorem lastData_int (internal : f.label.ref.isInt = true) (c : Path D) :
    lastData (f :: c) = lastData c ∧ lastPos (f :: c) = lastPos c := by
  simp [lastData, lastPos, internal]

theorem lastData_data {d : D} (data : f.label.ref = .data d) (c : Path D) :
    lastData (f :: c) = some f.label.ref ∧ lastPos (f :: c) = f.label.word.length := by
  simp [lastData, lastPos, data, Ref.isInt]

/-- The way to a hole that the bits of `k` take, through no data node but proper prefixes of `k`. -/
structure Along (k : List Bool) (c : Path D) : Prop where
  turns : ∀ f ∈ c, f.dir = bit k f.label.word.length
  passed : ∀ f ∈ c, ∀ d, f.label.ref = .data d → f.label.word ++ [f.dir] <+: k

theorem Along.nil (k : List Bool) : Along k ([] : Path D) := ⟨by simp, by simp⟩

theorem Along.cons {k : List Bool} (along : Along k c)
    (turn : f.dir = bit k f.label.word.length) (pass : ∀ d, f.label.ref = .data d → f.label.word ++ [f.dir] <+: k) :
    Along k (f :: c) :=
  ⟨List.forall_mem_cons.mpr ⟨turn, along.turns⟩, List.forall_mem_cons.mpr ⟨pass, along.passed⟩⟩

inductive Located (K : KeyTraits D) (T : Trie D) (k : List Bool) : Ref D ⊕ Link D × Link D × Nat → Prop
  | equal (c : Path D) (a : Cell D) (l r : Trie D) (d : D) (split : plug c (.node a l r) = T) (data : a.ref = .data d)
      (same : key K d = k) : Located K T k (.inl a.ref)
  | empty (i : Nat) (none_ : T = .empty) : Located K T k (.inr (none, none, i))
  | gap (f : Frame (Cell D)) (c : Path D) (d : D) (x : Link D) (split : plug (f :: c) .empty = T)
      (data : f.label.ref = .data d) (along : Along k (f :: c)) :
      Located K T k (.inr (x, some f.label.ref, f.label.word.length))
  | stop (c : Path D) (a : Cell D) (l r : Trie D) (d : D) (split : plug c (.node a l r) = T) (data : a.ref = .data d)
      (parts : lcp k a.word < a.word.length) (along : Along k c) :
      Located K T k (.inr (some a.ref, lastData c, lcp k a.word))

theorem Shape.findNextTurn (shape : Shape K t T) (node : D) {X : Trie D} {l : Link D} {i : Nat}
    (split : plug c X = T) (along : Along (key K node) c) (last : l = lastData c ∧ i = lastPos c)
    (resume : ∀ a ∈ X.toList, i ≤ lcp (key K node) a.word) :
    (∃ out, t.findNextTurn K node (link X none, l, i) = some (.exit out) ∧ Located K T (key K node) out) ∨
    ∃ a x y b next, X = .node a x y ∧
      t.findNextTurn K node (link X none, l, i) = some (.again (link (child b x y) none, next)) ∧
      Along (key K node) (down b a x y :: c) ∧
      (next.1 = lastData (down b a x y :: c) ∧ next.2 = lastPos (down b a x y :: c)) ∧
      ∀ e ∈ (child b x y).toList, next.2 ≤ lcp (key K node) e.word := by
  subst split
  obtain ⟨rfl, rfl⟩ := last
  cases X with
  | empty =>
    refine .inl ⟨_, rfl, ?_⟩
    cases c with
    | nil => exact .empty 0 rfl
    | cons f c =>
      cases data : f.label.ref with
      | int m =>
        have full := (wf_fill.mp (wf_focus (c := c) shape.wf).1).1.2 (by simp [data, Ref.toData])
        exact absurd rfl full.2
      | data d =>
        rw [(lastData_data data c).1, (lastData_data data c).2]
        exact .gap f c d none rfl data along
  | node a x y =>
    have wf := (wf_focus shape.wf).1
    simp only [link_node, Tree.findNextTurn, shape.read, Option.bind_eq_bind, Option.bind_some]
    cases data : a.ref with
    | int m =>
      have internal : a.ref.isInt = true := by simp [data, Ref.isInt]
      rw [if_pos (by simpa using internal)]
      rcases shape.turnDown node (lastData c, lastPos c) (fun z => Sum.inr (some z, lastData c, lastPos c)) rfl with
        again | ⟨empty, right, _⟩
      · refine .inr ⟨a, x, y, _, _, rfl, again, along.cons rfl (by simp [data]), ?_, fun e he => resume e (mem_of_child he)⟩
        have same := lastData_int (f := down (bit (key K node) a.word.length) a x y) internal c
        exact ⟨same.1.symm, same.2.symm⟩
      · have full := (cellOK_iff.mp wf.1).2 (by simp [data, Ref.toData])
        rw [right] at empty
        exact absurd empty full.2
    | data d =>
      have word : a.word = key K d := cell_of_mem wf (by simp) data
      rw [if_neg (by simp [data, Ref.isInt])]
      simp only [Ref.toData, Option.bind_some, compareFrom_eq K node d _ (word ▸ resume a (by simp))]
      by_cases equal : key K node = key K d
      · refine .inl ⟨_, by simp only [equal]; rfl, ?_⟩
        rw [← data]
        exact .equal c a x y d rfl data equal.symm
      simp only [equal, decide_false, Bool.false_eq_true, if_false]
      rw [← word]
      by_cases whole : lcp (key K node) a.word = a.word.length
      · have inside : a.word <+: key K node := prefix_iff_lcp.mpr (lcp_comm _ _ ▸ whole)
        have longer : a.word.length < (key K node).length :=
          lt_of_le_of_ne inside.length_le fun same => equal ((inside.eq_of_length same).symm.trans word)
        rw [key_length] at longer
        have pass : a.word ++ [bit (key K node) a.word.length] <+: key K node :=
          turn_of_bit inside (by rw [key_length]; exact longer)
        rw [if_neg (by simp only [nodeAt_bitpos]; omega)]
        have next : Along (key K node) (down (bit (key K node) a.word.length) a x y :: c) :=
          along.cons rfl fun _ _ => pass
        have last := lastData_data (f := down (bit (key K node) a.word.length) a x y) data c
        rw [whole, ← data]
        rcases shape.turnDown node (some a.ref, a.word.length) (fun z => Sum.inr (some z, some a.ref, a.word.length)) rfl
          with again | ⟨empty, right, z, _, exit⟩
        · refine .inr ⟨a, x, y, _, _, rfl, again, next, ⟨last.1.symm, last.2.symm⟩, fun e he => ?_⟩
          exact le_lcp inside (wf.under e (mem_of_child he))
        · refine .inl ⟨_, exit, ?_⟩
          refine .gap (down (bit (key K node) a.word.length) a x y) c d (some z) ?_ data next
          rw [← empty, plug_down]
      · rw [if_pos (.inr (by simpa using whole)), ← data]
        exact .inl ⟨_, rfl, .stop c a x y d rfl data (lt_of_le_of_ne (lcp_le_right _ _) whole) along⟩

theorem Shape.locate (shape : Shape K t T) (node : D) :
    ∃ out, loop (t.findNextTurn K node) t.turns (t.root, none, 0) = some out ∧ Located K T (key K node) out := by
  rw [shape.root]
  exact shape.descend (fun c X locals => Along (key K node) c ∧
      (locals.1 = lastData c ∧ locals.2 = lastPos c) ∧ ∀ a ∈ X.toList, locals.2 ≤ lcp (key K node) a.word) _
    (fun c X locals split inv => shape.findNextTurn node split inv.1 inv.2.1 inv.2.2) rfl
    ⟨.nil _, ⟨rfl, rfl⟩, by simp⟩

theorem Shape.resume_gap (shape : Shape K t T) (node : D)
    (split : plug (f :: c) .empty = T) (turn : f.dir = bit (key K node) f.label.word.length) :
    loop (t.resumeTurn K node f.label.word.length) t.turns (some f.label.ref, f.label.ref) =
      some (holeThread (f :: c), f.label.ref) := by
  subst split
  obtain ⟨l, r, filled, none_, _⟩ := fill_node f .empty
  rw [plug_cons, filled] at shape
  have step : t.resumeTurn K node f.label.word.length (some f.label.ref, f.label.ref) =
      t.turnDown K node (nodeAt f.label (link l none) (link r (threadRef c))) f.label.ref
        fun y => (some y, f.label.ref) := by
    simp only [Tree.resumeTurn, shape.read, Option.bind_eq_bind, Option.bind_some]
    rw [if_pos (by simp)]
  have hole : holeThread (f :: c) = if f.dir then link r (threadRef c) else link l none := by
    cases dir : f.dir <;> simp only [dir, child_true, child_false] at none_ <;> simp [holeThread, dir, none_]
  have turned := shape.move f.dir (nodeAt f.label (link l none) (link r (threadRef c))) rfl
  rw [hole]
  simp only [Tree.turnDown, follow_nodeAt, ← turn] at step
  cases turned with
  | child a' l' r' below => simp [none_] at below
  | missing _ dest moved =>
    rw [dest]
    exact (loop_again (by rw [step, moved]; rfl)).trans (loop_exit rfl)
  | thread z _ _ dest _ moved =>
    rw [dest]
    exact loop_exit (by rw [step, moved]; rfl)

theorem lastData_split {x : Ref D} (last : lastData c = some x) :
    ∃ inner g outer d, c = inner ++ g :: outer ∧ g.label.ref = x ∧ x = .data d := by
  obtain ⟨g, found, rfl⟩ := Option.map_eq_some_iff.mp last
  obtain ⟨data, inner, outer, split, _⟩ := List.find?_eq_some_iff_append.mp found
  obtain ⟨d, hd⟩ := isInt_false (by simpa using data)
  exact ⟨inner, g, outer, d, split, rfl, hd⟩

/-- Where the second loop of `FindNext` stops on the way to the node `a`: around the turn at which
the shared bits with `k` run out. -/
structure Resumed (c : Path D) (A : Trie D) (i : Nat) (out : Link D × Ref D) (inner : Path D) (f : Frame (Cell D))
    (outer : Path D) (w : Cell D) (x y : Trie D) : Prop where
  split : c = inner ++ f :: outer
  part : plug inner A = .node w x y
  out : out = (some w.ref, f.label.ref)
  shared : f.label.word.length ≤ i
  beyond : i < w.word.length

theorem Shape.resume_stop (shape : Shape K t T) (node : D) {a : Cell D} {l r : Trie D} {x : Ref D}
    (split : plug c (.node a l r) = T) (parts : lcp (key K node) a.word < a.word.length) (along : Along (key K node) c)
    (last : lastData c = some x) :
    ∃ out, loop (t.resumeTurn K node (lcp (key K node) a.word)) t.turns (some x, x) = some out ∧
      ∃ inner f outer w y z, Resumed c (.node a l r) (lcp (key K node) a.word) out inner f outer w y z := by
  obtain ⟨inner, g, outer, d, path, rfl, data⟩ := lastData_split last
  set i := lcp (key K node) a.word
  have gShared : g.label.word.length ≤ i := by
    have hg : g ∈ c := by simp [path]
    exact Nat.le_of_lt (turn_le_lcp (along.passed g hg d data)
      (((wf_focus (split ▸ shape.wf : WF K (plug c (.node a l r)))).2 g hg).1 a (by simp)))
  have top : link (plug (inner ++ [g]) (.node a l r)) none = some g.label.ref := by
    obtain ⟨x, y, filled, _⟩ := fill_node g (plug inner (.node a l r))
    rw [plug_append, plug_cons, filled]
    rfl
  rw [← top]
  refine shape.descend (c := outer) (fun c' Y l' => ∃ inner, c = inner ++ c' ∧ Y = plug inner (.node a l r) ∧
    ((∃ f c0, c' = f :: c0 ∧ l' = f.label.ref ∧ f.label.word.length ≤ i) ∨
      ∃ inner' h, inner = inner' ++ [h] ∧ h.label.word.length ≤ i)) _ ?_ ?_
    ⟨inner ++ [g], by simp [path], rfl, .inr ⟨inner, g, rfl, gShared⟩⟩
  · rintro c' Y l' part ⟨inner, path, rfl, above⟩
    rcases inner.eq_nil_or_concat' with rfl | ⟨inner', h, rfl⟩
    · refine .inl ⟨(some a.ref, l'), ?_, ?_⟩
      · have read := (part ▸ shape : Shape K t (plug c' (.node a l r))).read
        simp only [plug_nil, link_node, Tree.resumeTurn, read, Option.bind_eq_bind, Option.bind_some]
        rw [if_neg (by simpa using parts)]
        rfl
      · rcases above with ⟨f, c0, rfl, rfl, shared⟩ | ⟨inner', h, impossible, _⟩
        · exact ⟨[], f, c0, a, l, r, path, rfl, rfl, shared, parts⟩
        · simp at impossible
    · obtain ⟨x, y, filled, below, downwards⟩ := fill_node h (plug inner' (.node a l r))
      have here : plug (inner' ++ [h]) (.node a l r) = .node h.label x y := by
        rw [plug_append, plug_cons, plug_nil, filled]
      rw [here] at part ⊢
      have focused : Shape K t (plug c' (.node h.label x y)) := part ▸ shape
      simp only [link_node, Tree.resumeTurn, focused.read, Option.bind_eq_bind, Option.bind_some]
      by_cases shared : h.label.word.length ≤ i
      · rw [if_pos (by simpa using shared)]
        have turn := along.turns h (by simp [path])
        rcases focused.turnDown node h.label.ref (fun y => (some y, h.label.ref)) turn.symm with
          again | ⟨empty, _⟩
        · refine .inr ⟨h.label, x, y, h.dir, h.label.ref, rfl, again, inner', ?_, below, .inl ⟨h, c', by rw [downwards], rfl, shared⟩⟩
          rw [downwards, path, List.append_assoc]
          rfl
        · obtain ⟨b, u, v, full⟩ := plug_node inner' a l r
          rw [below, full] at empty
          cases empty
      · rw [if_neg (by simpa using shared)]
        refine .inl ⟨(some h.label.ref, l'), rfl, ?_⟩
        rcases above with ⟨f, c0, rfl, rfl, low⟩ | ⟨inner'', h', same, low⟩
        · exact ⟨inner' ++ [h], f, c0, h.label, x, y, path, here, rfl, low, Nat.lt_of_not_le shared⟩
        · obtain ⟨_, equal⟩ := List.append_inj' same rfl
          cases equal
          exact absurd low shared
  · rw [← split, path, ← plug_append]
    simp

section
variable {f : Frame (Cell D)} {c : Path D}

theorem landing_right (T : Trie D) (dir : f.dir = true) : landing T (f :: c) = landing T c := by
  simp [landing, after, dir]

theorem Shape.from_gap (shape : Shape K t T) (node : D) (split : plug (f :: c) .empty = T)
    (turn : f.label.word ++ [f.dir] <+: key K node) :
    t.findNextFrom K node f.label.word.length f.label.ref (holeThread (f :: c)) =
      some (if f.dir = true ∧ threadRef c = none then none else landing T (f :: c)) := by
  subst split
  have read := shape.focus.1.1
  have pos := frameNode_bitpos f c (link .empty (holeThread (f :: c)))
  have longer := turn_length turn
  rw [key_length] at longer
  simp only [Tree.findNextFrom, read, Option.bind_eq_bind, Option.bind_some, pos, getBit_eq, turn_bit turn]
  rw [if_neg (by omega)]
  cases dir : f.dir with
  | false =>
    have right : (frameNode f c (link .empty (holeThread (f :: c)))).right = link f.other (threadRef c) := by
      simp [frameNode, dir]
    have climbed := shape.climb_right rfl dir read pos
    rw [← right] at climbed
    simpa [holeThread, dir] using climbed
  | true =>
    simp only [holeThread, dir, if_true]
    cases up : threadRef c with
    | none => simp
    | some z =>
      have outer : Shape K t (plug c (f.fill .empty)) := shape
      obtain ⟨nz, readUp, low⟩ := outer.thread_low up
      have inside : f.label ∈ (f.fill .empty).toList := (perm_fill f .empty).mem_iff.mpr (by simp)
      have climbed := shape.climb_thread (X := f.fill .empty) rfl read ⟨f.label, inside, pos.symm⟩
      simp only [readUp, Option.bind_some]
      rw [if_pos (low _ inside), landing_right _ dir]
      simpa [up] using climbed

theorem Shape.from_stop (shape : Shape K t T) (node : D) {w : Cell D} {x y : Trie D}
    (split : plug (f :: c) (.node w x y) = T) (turn : f.dir = bit (key K node) f.label.word.length)
    (shared : f.label.word.length ≤ lcp (key K node) w.word) (beyond : lcp (key K node) w.word < w.word.length) :
    t.findNextFrom K node (lcp (key K node) w.word) f.label.ref (some w.ref) =
      some (if bit (key K node) (lcp (key K node) w.word) then landing T (f :: c)
        else first ((BinTree.node w x y).toList ++ after (f :: c))) := by
  subst split
  have read := shape.focus.1.1
  have pos := frameNode_bitpos f c (link (.node w x y) (holeThread (f :: c)))
  simp only [Tree.findNextFrom, read, Option.bind_eq_bind, Option.bind_some, pos, getBit_eq, ← turn]
  by_cases whole : K.bitLength node = f.label.word.length
  · have spent : ∀ i, f.label.word.length ≤ i → bit (key K node) i = false := fun i hi =>
      bit_past (by rw [key_length]; omega)
    rw [if_pos whole, spent _ shared]
    have dir : f.dir = false := by rw [turn, spent _ (Nat.le_refl _)]
    have outer : Shape K t (plug c (.node f.label (.node w x y) f.other)) := by
      simpa [Frame.fill, dir] using shape
    rw [outer.getNextNode]
    simp [after, dir]
  rw [if_neg whole]
  cases dir : f.dir with
  | false =>
    have right : (frameNode f c (link (.node w x y) (holeThread (f :: c)))).right = link f.other (threadRef c) := by
      simp [frameNode, dir]
    have climbed := shape.climb_right rfl dir read pos
    simp only [if_false, reduceCtorEq, false_or, right, shape.landed_child]
    split
    · exact climbed
    · rfl
  | true =>
    have lower : ¬ w.word.length < f.label.word.length := by omega
    simp only [if_true, shape.read, Option.bind_some]
    rw [if_neg (by exact lower)]
    split
    · classical
      have distinct := shape.apart.1
      have enough : (BinTree.node w x y).size < t.turns := shape.room (Int.le_refl _)
      obtain ⟨b, hb, left, run, readLast, _⟩ := rightMost_spec rfl shape.focus.2 (wf_focus shape.wf).1
        distinct shape.above enough
      simp only [run, readLast, Option.bind_some]
      exact shape.climb_thread rfl readLast ⟨b, hb, rfl⟩
    · exact shape.landed_child

end

/-- What `FindNext` returns, by where the key `k` parts from the trie. -/
inductive NextFound (K : KeyTraits D) (T : Trie D) (k : List Bool) : Link D → Prop
  | equal (c : Path D) (a : Cell D) (l r : Trie D) (d : D) (split : plug c (.node a l r) = T) (data : a.ref = .data d)
      (same : key K d = k) : NextFound K T k (first (l.toList ++ r.toList ++ after c))
  | empty (none_ : T = .empty) : NextFound K T k none
  | gap (f : Frame (Cell D)) (c : Path D) (d : D) (split : plug (f :: c) .empty = T) (data : f.label.ref = .data d)
      (along : Along k (f :: c)) :
      NextFound K T k (if f.dir = true ∧ threadRef c = none then none else landing T (f :: c))
  | bare (c : Path D) (a : Cell D) (l r : Trie D) (d : D) (split : plug c (.node a l r) = T) (data : a.ref = .data d)
      (parts : lcp k a.word < a.word.length) (along : Along k c) (above : lastData c = none) :
      NextFound K T k (if bit k (lcp k a.word) then none else some a.ref)
  | stop (f : Frame (Cell D)) (c : Path D) (w : Cell D) (x y : Trie D) (split : plug (f :: c) (.node w x y) = T)
      (along : Along k (f :: c)) (below : ∃ d ∈ stored T, key K d <+: k)
      (shared : f.label.word.length ≤ lcp k w.word) (beyond : lcp k w.word < w.word.length) :
      NextFound K T k (if bit k (lcp k w.word) then landing T (f :: c)
        else first ((BinTree.node w x y).toList ++ after (f :: c)))

theorem Along.outer {k : List Bool} {inner outer : Path D} (along : Along k (inner ++ outer)) : Along k outer :=
  ⟨fun f hf => along.turns f (List.mem_append_right _ hf), fun f hf => along.passed f (List.mem_append_right _ hf)⟩

theorem Shape.findNextNode (shape : Shape K t T) (node : D) :
    ∃ out, t.findNextNode K node = some out ∧ NextFound K T (key K node) out := by
  obtain ⟨located, run, outcome⟩ := shape.locate node
  simp only [Tree.findNextNode, run, Option.bind_eq_bind, Option.bind_some]
  cases outcome with
  | equal c a l r d split data same =>
    subst split
    exact ⟨_, shape.getNextNode, .equal c a l r d rfl data same⟩
  | empty i none_ => exact ⟨none, by simp, .empty none_⟩
  | gap f c d x split data along =>
    have turn := along.turns f (by simp)
    refine ⟨_, ?_, .gap f c d split data along⟩
    simp only [shape.resume_gap node split turn]
    exact shape.from_gap node split (along.passed f (by simp) d data)
  | stop c a l r d split data parts along =>
    cases last : lastData c with
    | none => exact ⟨_, by rw [← getBit_eq]; rfl, .bare c a l r d split data parts along last⟩
    | some x =>
      obtain ⟨_, resumed, inner, f, outer, w, y, z, path, part, rfl, shared, beyond⟩ :=
        shape.resume_stop node split parts along last
      simp only [resumed]
      have place : plug (f :: outer) (.node w y z) = T := by rw [← part, ← plug_append, ← path, split]
      have under : w.word <+: a.word := by
        have wf := (wf_focus (place ▸ shape.wf : WF K (plug (f :: outer) (.node w y z)))).1
        refine wf.under a ?_
        rw [← part]
        exact (mem_plug ..).mpr (.inl (by simp))
      have same : lcp (key K node) a.word = lcp (key K node) w.word := (lcp_shorten under beyond).symm
      rw [same] at shared beyond ⊢
      have within := path ▸ along
      refine ⟨_, shape.from_stop node place (within.outer.turns f (by simp)) shared beyond,
        .stop f outer w y z place within.outer ?_ shared beyond⟩
      obtain ⟨_, g, _, e, split', rfl, hg⟩ := lastData_split last
      have hgc : g ∈ c := by simp [split']
      refine ⟨e, mem_stored.mpr ⟨g.label, split ▸ (mem_plug ..).mpr (.inr (label_outside hgc)), hg⟩, ?_⟩
      rw [← frame_data (split ▸ shape.wf : WF K (plug c (.node a l r))) hgc hg]
      exact prefix_of_turn (along.passed g hgc e hg)

end TFCommon.Patricia
