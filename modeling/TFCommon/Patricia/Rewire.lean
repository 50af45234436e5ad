import TFCommon.Patricia.Threads

/-! The right-most node of a part: where its thread ends, and `RewireRightMost`, which moves it. -/
namespace TFCommon.Patricia
open BitString BinTree

variable {D : Type} {K : KeyTraits D} {t : Tree D}

def Above (t : Tree D) (th : Link D) (X : Trie D) : Prop :=
  ∀ z, th = some z → ∃ n, t.mem z = some n ∧ ∀ a ∈ X.toList, n.bitpos < a.word.length

variable {X Y : Trie D} {c : Path D} {a : Cell D} {th : Link D} {mem : Ref D → Option (Node D)} {u : Tree D} {x : Ref D}

theorem Shape.above (shape : Shape K t (plug c X)) : Above t (threadRef c) X :=
  fun _ h => shape.thread_low h

theorem rightMostTurn_leaf {l : Trie D} (rep : Rep t.mem th (.node a l .empty))
    (above : Above t th (.node a l .empty)) : t.rightMostTurn a.ref = some (.exit a.ref) := by
  have read := rep.1
  cases h : th with
  | none =>
    rw [h] at read
    simp [Tree.rightMostTurn, read, Tree.move]
  | some z =>
    obtain ⟨n, up, low⟩ := above z h
    have lower : n.bitpos ≤ a.word.length := Nat.le_of_lt (low a (by simp))
    rw [h] at read
    simp [Tree.rightMostTurn, read, Tree.move, up, lower]

theorem rightMostTurn_child {a b : Cell D} {l x y : Trie D}
    (rep : Rep t.mem th (.node a l (.node b x y))) (wf : WF K (.node a l (.node b x y))) :
    t.rightMostTurn a.ref = some (.again b.ref) := by
  obtain ⟨read, _, below, _⟩ := rep
  have longer : ¬ b.word.length ≤ a.word.length := Nat.not_le.mpr (turn_length ((wf.child true).2 b (by simp)))
  simp [Tree.rightMostTurn, read, Tree.move, below, longer]

theorem Shape.frame {T : Trie D} (shape : Shape K t T)
    (same : ∀ x ∈ refs T, mem x = t.mem x) (live : Live mem) : Shape K { t with mem := mem } T :=
  { shape with
    rep := shape.rep.congr same
    live := live }

theorem Shape.room (shape : Shape K t (plug c X))
    (more : t.nodes + t.intNodes ≤ u.nodes + u.intNodes) : X.size < u.turns := by
  have bound := climb_bound c X
  have total := shape.total
  rw [Tree.turns]
  omega

theorem Shape.refill (shape : Shape K t (plug c X))
    (linked : Linked u.mem u.root c (link Y (holeThread c))) (rep : Rep u.mem (threadRef c) Y) (wf : WF K Y)
    (under : ∀ f ∈ c, Under (f.label.word ++ [f.dir]) Y)
    (full : ∀ f, c.head? = some f → f.label.ref.toData = none → Y ≠ .empty)
    (distinct : (refs Y).Nodup) (apart : ∀ x ∈ refs Y, x ∉ outerRefs c)
    (nodes : u.nodes - t.nodes = (stored Y).length - (stored X).length)
    (total : u.nodes + u.intNodes - (t.nodes + t.intNodes) = Y.size - X.size)
    (young : ∀ n, Ref.int n ∈ refs Y → n < u.fresh) (older : t.fresh ≤ u.fresh) (live : Live u.mem) :
    Shape K u (plug c Y) := by
  obtain ⟨root, stands⟩ := (rep_plug c Y).mpr ⟨linked, rep⟩
  have counted : ∀ Z : Trie D, (stored (plug c Z)).length = (stored Z).length + (dataOf (outside c)).length := fun Z => by
    rw [(stored_perm_plug c Z).length_eq, List.length_append]
  have sized : ∀ Z : Trie D, (plug c Z).size = Z.size + (outside c).length := fun Z => by
    rw [size, (perm_plug c Z).length_eq, List.length_append, size]
  refine ⟨root, stands, wf_refill shape.wf wf under full, ?_, ?_, ?_, ?_, live⟩
  · rw [(refs_plug c Y).nodup_iff, List.nodup_append]
    exact ⟨distinct, shape.apart.2.1, fun x hx y hy same => apart x hx (same ▸ hy)⟩
  · have before_ := shape.nodes
    rw [counted] at before_ ⊢
    omega
  · have before_ := shape.total
    rw [sized] at before_ ⊢
    omega
  · intro n hn
    rcases List.mem_append.mp ((refs_plug c Y).mem_iff.mp hn) with inside | outside_
    · exact young n inside
    · have old := shape.young n ((refs_plug c X).mem_iff.mpr (List.mem_append_right _ outside_))
      omega

/-- The tree `u`, which holds the part `Y` beside the context `c`, before the link into the hole is written. -/
structure Ready (K : KeyTraits D) (t : Tree D) (c : Path D) (X : Trie D) (u : Tree D) (Y : Trie D) : Prop where
  linked : ∃ h, Linked u.mem u.root c h
  rep : Rep u.mem (threadRef c) Y
  wf : WF K Y
  under : ∀ f ∈ c, Under (f.label.word ++ [f.dir]) Y
  distinct : (refs Y).Nodup
  apart : ∀ x ∈ refs Y, x ∉ outerRefs c
  nodes : u.nodes - t.nodes = (stored Y).length - (stored X).length
  total : u.nodes + u.intNodes - (t.nodes + t.intNodes) = Y.size - X.size
  young : ∀ n, Ref.int n ∈ refs Y → n < u.fresh
  older : t.fresh ≤ u.fresh
  live : Live u.mem

structure NewFrame (K : KeyTraits D) (T : Trie D) (c : Path D) (X : Trie D) (g : Frame (Cell D)) : Prop where
  data : ∀ d, g.label.ref = .data d → key K d = g.label.word
  internal : g.label.ref.toData = none → g.other ≠ .empty
  other : WF K g.other
  side : Under (g.label.word ++ [!g.dir]) g.other
  under : Under (g.label.word ++ [g.dir]) X
  turns : ∀ f ∈ c, f.label.word ++ [f.dir] <+: g.label.word
  distinct : (g.label.ref :: refs g.other).Nodup
  new : ∀ x ∈ g.label.ref :: refs g.other, x ∉ refs T

theorem Shape.exchange {l r : Trie D} {b : Cell D} (shape : Shape K t (plug c (.node a l r))) (cell : CellOK K b l r)
    (word : b.word = a.word) (new : b.ref ∉ refs (plug c (.node a l r))) (linked : ∃ h, Linked u.mem u.root c h)
    (rep : Rep u.mem (threadRef c) (.node b l r))
    (nodes : u.nodes - t.nodes = (stored (.node b l r)).length - (stored (.node a l r)).length)
    (total : u.nodes + u.intNodes = t.nodes + t.intNodes) (young : ∀ n, b.ref = .int n → n < u.fresh)
    (older : t.fresh ≤ u.fresh) (live : Live u.mem) : Ready K t c (.node a l r) u (.node b l r) := by
  obtain ⟨inner, above⟩ := wf_focus shape.wf
  obtain ⟨distinct, _, apart⟩ := shape.apart
  rw [(refs_plug c _).mem_iff, List.mem_append, not_or, refs_node, List.mem_cons, not_or] at new
  rw [refs_node] at distinct apart
  exact {
    linked := linked
    rep := rep
    wf := ⟨cell, word ▸ (inner.child false).2, word ▸ (inner.child true).2, (inner.child false).1, (inner.child true).1⟩
    under := fun f hf => under_node.mpr (word ▸ under_node.mp (above f hf).1)
    distinct := refs_node b l r ▸ List.nodup_cons.mpr ⟨new.1.2, (List.nodup_cons.mp distinct).2⟩
    apart := by
      rw [refs_node]
      exact List.forall_mem_cons.mpr ⟨new.2, fun x hx => apart x (List.mem_cons_of_mem _ hx)⟩
    nodes := nodes
    total := by
      rw [total, Int.sub_self, size_node, size_node, Int.sub_self]
    young := fun n hn => by
      rcases List.mem_cons.mp (refs_node b l r ▸ hn) with same | hn
      · exact young n same.symm
      · exact Nat.lt_of_lt_of_le (shape.young_inside (refs_node a l r ▸ List.mem_cons_of_mem _ hn)) older
    older := older
    live := live }

theorem NewFrame.ready {g : Frame (Cell D)} (shape : Shape K t (plug c X))
    (frame : NewFrame K (plug c X) c X g) (full : X ≠ .empty) (linked : ∃ h, Linked u.mem u.root c h)
    (rep : Rep u.mem (threadRef c) (g.fill X))
    (nodes : u.nodes - t.nodes = (g.label.ref.toData.toList ++ stored g.other).length)
    (total : u.nodes + u.intNodes - (t.nodes + t.intNodes) = g.other.size + 1)
    (young : ∀ n, Ref.int n ∈ g.label.ref :: refs g.other → n < u.fresh) (older : t.fresh ≤ u.fresh) (live : Live u.mem) :
    Ready K t c X u (g.fill X) := by
  obtain ⟨distinct, _, apart⟩ := shape.apart
  have fresh : ∀ x ∈ g.label.ref :: refs g.other, x ∉ refs X ∧ x ∉ outerRefs c := fun x hx => by
    have missing := frame.new x hx
    rwa [(refs_plug c X).mem_iff, List.mem_append, not_or] at missing
  obtain ⟨inner, above⟩ := wf_focus shape.wf
  exact {
    linked := linked
    rep := rep
    wf := wf_fill.mpr ⟨⟨frame.data, fun h => ⟨frame.internal h, full⟩⟩, frame.under, frame.side, inner, frame.other⟩
    under := fun f hf => under_fill.mpr ⟨frame.turns f hf,
      frame.side.trans ((frame.turns f hf).trans (List.prefix_append _ _)), (above f hf).1⟩
    distinct := (refs_fill g X).nodup_iff.mpr (List.nodup_append.mpr
      ⟨frame.distinct, distinct, fun x hx y hy same => (fresh x hx).1 (same ▸ hy)⟩)
    apart := fun x hx => by
      rcases List.mem_append.mp ((refs_fill g X).mem_iff.mp hx) with hx | hx
      · exact (fresh x hx).2
      · exact apart x hx
    nodes := by
      rw [(stored_fill g X).length_eq, List.length_append]
      omega
    total := by
      rw [size_fill]
      omega
    young := fun n hn => by
      rcases List.mem_append.mp ((refs_fill g X).mem_iff.mp hn) with hx | hx
      · exact young n hx
      · exact Nat.lt_of_lt_of_le (shape.young_inside hx) older
    older := older
    live := live }

variable [DecidableEq D]

/-- The right-most node of a part: the loop finds it, its right link is the part's thread, and
writing another thread there rethreads the part. -/
theorem rightMost_spec (entry : link X none = some x) (rep : Rep t.mem th X)
    (wf : WF K X) (distinct : (refs X).Nodup) (above : Above t th X) {turns : Nat} (enough : X.size < turns) :
    ∃ b ∈ X.toList, ∃ left, loop t.rightMostTurn turns x = some b.ref ∧ t.mem b.ref = some (nodeAt b left th) ∧
      ∀ th', Rep (Function.update t.mem b.ref (some (nodeAt b left th'))) th' X := by
  induction X generalizing x turns with
  | empty => simp at entry
  | node a l r _ ih =>
    cases entry
    obtain ⟨turns, rfl⟩ : ∃ k, turns = k + 1 := ⟨turns - 1, by omega⟩
    have whole := rep
    obtain ⟨read, left, right⟩ := rep
    simp only [refs_node, List.nodup_cons, List.mem_append, not_or, List.nodup_append] at distinct
    obtain ⟨⟨notLeft, notRight⟩, _, inRight, apart⟩ := distinct
    cases r with
    | empty =>
      refine ⟨a, by simp, link l none, loop_exit (rightMostTurn_leaf whole above), read, fun th' => ?_⟩
      refine ⟨Function.update_self .., left.congr fun x hx => ?_, trivial⟩
      apply Function.update_of_ne
      rintro rfl
      exact notLeft hx
    | node b x y =>
      have smaller : (node b x y).size < turns := by
        simp only [size_node] at enough ⊢
        omega
      have lower : Above t th (.node b x y) := fun z hz => by
        obtain ⟨n, up, low⟩ := above z hz
        exact ⟨n, up, fun e he => low e (List.mem_cons_of_mem _ (List.mem_append_right _ he))⟩
      obtain ⟨m, hm, mleft, run, stored, rewired⟩ := ih rfl right (wf.child true).1 inRight lower smaller
      refine ⟨m, List.mem_cons_of_mem _ (List.mem_append_right _ hm), mleft,
        (loop_again (rightMostTurn_child whole wf)).trans run, stored, fun th' => ⟨?_, ?_, rewired th'⟩⟩
      · rw [Function.update_of_ne, read]
        · rfl
        · intro same
          exact notRight (same ▸ mem_refs hm)
      · apply left.congr
        intro z hz
        apply Function.update_of_ne
        intro same
        exact apart z hz m.ref (mem_refs hm) same

@[simp] theorem write_read (t : Tree D) (x : Ref D) (n : Node D) : (t.write x n).mem x = some n := Function.update_self ..

@[simp] theorem write_write (t : Tree D) (x : Ref D) (n m : Node D) : (t.write x n).write x m = t.write x m := by
  simp [Tree.write]

theorem write_other (t : Tree D) {x y : Ref D} (n : Node D) (ne : y ≠ x) : (t.write x n).mem y = t.mem y :=
  Function.update_of_ne ne ..

theorem setLeft_nodeAt {left right : Link D} (read : t.mem a.ref = some (nodeAt a left right)) (v : Link D) :
    t.setLeft a.ref v = some (t.write a.ref (nodeAt a v right)) := by
  simp [Tree.setLeft, read, nodeAt]

theorem setRight_nodeAt {left right : Link D} (read : t.mem a.ref = some (nodeAt a left right)) (v : Link D) :
    t.setRight a.ref v = some (t.write a.ref (nodeAt a left v)) := by
  simp [Tree.setRight, read, nodeAt]

theorem deleteInternal_int {n : Nat} (internal : x = .int n) : t.deleteInternal x =
    some { t with mem := Function.update t.mem x none, intNodes := t.intNodes - 1 } := by
  subst internal
  rfl

theorem Rep.update (rep : Rep mem th X)
    (apart : x ∉ refs X) (n : Option (Node D)) : Rep (Function.update mem x n) th X := by
  apply rep.congr
  intro y hy
  apply Function.update_of_ne
  rintro rfl
  exact apart hy

theorem Linked.update {root h : Link D} (linked : Linked mem root c h)
    (apart : x ∉ outerRefs c) (n : Option (Node D)) : Linked (Function.update mem x n) root c h := by
  apply linked.congr
  intro y hy
  apply Function.update_of_ne
  rintro rfl
  exact apart hy

theorem Live.update (live : Live mem) {n : Node D}
    (kind : n.intnode = x.isInt) : Live (Function.update mem x (some n)) := by
  intro d
  by_cases here : Ref.data d = x
  · subst here
    exact ⟨n, Function.update_self .., kind⟩
  · rw [Function.update_of_ne here]
    exact live d

theorem Live.free (live : Live mem) (n : Nat) :
    Live (Function.update mem (.int n) none) := by
  intro d
  exact live d

structure Changed (t : Tree D) (inside : List (Ref D)) (mem : Ref D → Option (Node D)) : Prop where
  same : ∀ x, x ∉ inside → mem x = t.mem x
  live : Live t.mem → Live mem

theorem rewire_spec (rep : Rep t.mem th X) (wf : WF K X) (distinct : (refs X).Nodup)
    (above : Above t th X) (enough : X.size < t.turns) (p : Link D) :
    ∃ mem out, t.rewireRightMost p (link X none) = some (out, { t with mem := mem }) ∧ Rep mem p X ∧
      Changed t (refs X) mem ∧ (X ≠ .empty → out = th) := by
  cases entry : link X none with
  | none =>
    cases X with
    | empty => exact ⟨t.mem, none, rfl, trivial, ⟨fun _ _ => rfl, id⟩, fun h => absurd rfl h⟩
    | node a l r => simp at entry
  | some x =>
    obtain ⟨b, hb, left, run, read, rewired⟩ := rightMost_spec entry rep wf distinct above enough
    refine ⟨_, th, ?_, rewired p, ⟨fun y hy => ?_, fun live => live.update rfl⟩, fun _ => rfl⟩
    · simp [Tree.rewireRightMost, run, read]
      rfl
    · apply Function.update_of_ne
      rintro rfl
      exact hy (mem_refs hb)

theorem Shape.rethread (shape : Shape K t (plug c X))
    (entry : link X none = some x) (same : ∀ y ∈ refs X ++ outerRefs c, u.mem y = t.mem y)
    (more : t.nodes + t.intNodes ≤ u.nodes + u.intNodes) (p : Link D) :
    ∃ mem, u.rewireRightMost p (some x) = some (threadRef c, { u with mem := mem }) ∧ Rep mem p X ∧
      Changed u (refs X) mem := by
  have above : Above u (threadRef c) X := by
    intro z hz
    obtain ⟨n, read, low⟩ := shape.above z hz
    exact ⟨n, (same z (List.mem_append_right _ (threadRef_outer hz))).trans read, low⟩
  have rep := shape.focus.2.congr fun y hy => same y (List.mem_append_left _ hy)
  obtain ⟨mem, out, run, rethreaded, changed, thread⟩ := rewire_spec rep (wf_focus shape.wf).1 shape.apart.1 above
    (shape.room more) p
  rw [entry, thread (full_of_entry entry)] at run
  exact ⟨mem, run, rethreaded, changed⟩

theorem Shape.rethreadLeft {l r : Trie D} (shape : Shape K t (plug c (.node a l r))) {left right : Link D}
    (read : u.mem a.ref = some (nodeAt a left right)) (rep : Rep u.mem (some a.ref) l)
    (more : t.nodes + t.intNodes ≤ u.nodes + u.intNodes) (p : Link D) :
    ∃ mem out, u.rewireRightMost p (link l none) = some (out, { u with mem := mem }) ∧ Rep mem p l ∧
      Changed u (refs l) mem := by
  obtain ⟨wf, under⟩ := (wf_focus shape.wf).1.child false
  have distinct := shape.apart.1
  rw [refs_node, List.nodup_cons, List.nodup_append] at distinct
  have above : Above u (some a.ref) l := by
    rintro z ⟨⟩
    exact ⟨_, read, fun e he => turn_length (under e he)⟩
  have room : l.size < u.turns := by
    have whole := shape.room more
    simp only [size_node] at whole
    omega
  obtain ⟨mem, out, run, rethreaded, changed, _⟩ := rewire_spec rep wf distinct.2.1 above room p
  exact ⟨mem, out, run, rethreaded, changed⟩

def headRef (c : Path D) : Link D := c.head?.map (·.label.ref)

theorem attach_spec {h : Link D} (linked : Linked t.mem t.root c h) (distinct : (outerRefs c).Nodup)
    (node : D) (turns : ∀ f ∈ c, f.label.word ++ [f.dir] <+: key K node) (v : Link D) :
    ∃ root mem, t.attach K node (headRef c) v = some { t with root := root, mem := mem } ∧ Linked mem root c v ∧
      Changed t (outerRefs c) mem := by
  cases c with
  | nil => exact ⟨v, t.mem, rfl, rfl, fun _ _ => rfl, id⟩
  | cons f c =>
    obtain ⟨read, other, outer⟩ := linked
    have side := turn_bit (turns f (by simp))
    have apart := (outerRefs_cons f c).nodup_iff.mp distinct
    simp only [List.nodup_cons, List.mem_append, not_or] at apart
    have elsewhere : ∀ n, ∀ x, x ≠ f.label.ref → Function.update t.mem f.label.ref n x = t.mem x := fun n x ne =>
      Function.update_of_ne ne n t.mem
    refine ⟨t.root, Function.update t.mem f.label.ref (some (frameNode f c v)), ?_, ⟨Function.update_self .., ?_, ?_⟩, ?_, ?_⟩
    · simp only [Tree.attach, headRef, List.head?_cons, Option.map_some, read, Option.bind_eq_bind, Option.bind_some,
        getBit_eq, frameNode_bitpos, side, Tree.setRight, Tree.setLeft]
      cases dir : f.dir <;> simp [frameNode, dir, Tree.write, nodeAt]
    · exact other.congr fun x hx => elsewhere _ x fun same => apart.1.1 (same ▸ hx)
    · exact outer.congr fun x hx => elsewhere _ x fun same => apart.1.2 (same ▸ hx)
    · intro x hx
      apply elsewhere
      rintro rfl
      exact hx ((outerRefs_cons f c).mem_iff.mpr (by simp))
    · exact fun live => live.update (frameNode_intnode f c v)

theorem Shape.attachAt {u v : Tree D} (shape : Shape K t (plug c X)) (ready : Ready K t c X v Y)
    (mem : v.mem = u.mem) (root : v.root = u.root) (node : D) (turns : ∀ f ∈ c, f.label.word ++ [f.dir] <+: key K node)
    (full : ∀ f, c.head? = some f → f.label.ref.toData = none → Y ≠ .empty) :
    ∃ root mem, u.attach K node (headRef c) (link Y (holeThread c)) = some { u with root := root, mem := mem } ∧
      Shape K { v with root := root, mem := mem } (plug c Y) ∧ Changed u (outerRefs c) mem := by
  obtain ⟨h, linked⟩ := ready.linked
  have rep := ready.rep
  have live := ready.live
  rw [mem] at linked rep live
  rw [root] at linked
  obtain ⟨root, mem, run, linked', changed⟩ := attach_spec linked shape.apart.2.1 node turns (link Y (holeThread c))
  refine ⟨root, mem, run, ?_, changed⟩
  exact shape.refill linked'
    (rep.congr fun x hx => changed.same x (ready.apart x hx)) ready.wf ready.under full ready.distinct ready.apart
    ready.nodes ready.total ready.young ready.older (changed.live live)

theorem Shape.attach (shape : Shape K t (plug c X)) (ready : Ready K t c X u Y)
    (node : D) (turns : ∀ f ∈ c, f.label.word ++ [f.dir] <+: key K node)
    (full : ∀ f, c.head? = some f → f.label.ref.toData = none → Y ≠ .empty) :
    ∃ t', u.attach K node (headRef c) (link Y (holeThread c)) = some t' ∧ Shape K t' (plug c Y) := by
  obtain ⟨root, mem, run, shape', _⟩ := shape.attachAt ready rfl rfl node turns full
  exact ⟨_, run, shape'⟩

end TFCommon.Patricia
