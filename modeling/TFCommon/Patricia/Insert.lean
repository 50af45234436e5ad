import TFCommon.Patricia.Lookup
import TFCommon.Patricia.Rewire

/-! `InsertNode`: the two descents find where the key parts from the trie, and the four
attachments put the node there. -/
namespace TFCommon.Patricia
open BitString BinTree

variable {D : Type} {K : KeyTraits D} {t : Tree D} {T : Trie D}

/-- No word outside the hole shares more with `k` than the words inside, or than the frame above it. -/
def Nearest (k : List Bool) (c : Path D) (X : Trie D) : Prop :=
  ∀ e ∈ outside c, (∀ a ∈ X.toList, lcp k e.word ≤ lcp k a.word) ∧
    ∀ f, c.head? = some f → lcp k e.word ≤ lcp k f.label.word

variable {a : Cell D} {c : Path D} {k : List Bool} {l r : Trie D} {d node : D} {i : Nat}

theorem Nearest.down (wf : WF K (plug c (.node a l r)))
    (near : Nearest k c (.node a l r)) :
    Nearest k (down (bit k a.word.length) a l r :: c) (child (bit k a.word.length) l r) := by
  have inner := (wf_focus wf).1
  have bound : ∀ e ∈ outside (BinTree.down (bit k a.word.length) a l r :: c), lcp k e.word ≤ lcp k a.word := by
    intro e he
    rcases List.mem_cons.mp ((outside_cons _ c).mem_iff.mp he) with rfl | he
    · exact Nat.le_refl _
    · rcases List.mem_append.mp he with other | above
      · exact lcp_sibling ((inner.child _).2 e other) (by simp)
      · exact (near e above).1 a (by simp)
  intro e he
  refine ⟨fun b hb => (bound e he).trans (lcp_mono (prefix_of_turn ((inner.child _).2 b hb))), fun f hf => ?_⟩
  cases hf
  exact bound e he

def Closest (K : KeyTraits D) (k : List Bool) (T : Trie D) (d : D) : Prop :=
  d ∈ stored T ∧ ∀ e ∈ stored T, lcp k (key K e) ≤ lcp k (key K d)

theorem closest_of_cell (wf : WF K T) (ha : a ∈ T.toList) (data : a.ref = .data d)
    (most : ∀ e ∈ T.toList, lcp k e.word ≤ lcp k a.word) : Closest K k T d := by
  refine ⟨mem_stored.mpr ⟨a, ha, data⟩, fun e he => ?_⟩
  obtain ⟨b, hb, other⟩ := mem_stored.mp he
  rw [← cell_of_mem wf ha data, ← cell_of_mem wf hb other]
  exact most b hb

theorem Nearest.ended {f : Frame (Cell D)} (wf : WF K (plug (f :: c) .empty))
    (near : Nearest k (f :: c) .empty) :
    ∃ d, f.label.ref = .data d ∧ Closest K k (plug (f :: c) .empty) d := by
  cases data : f.label.ref with
  | int n =>
    have full := ((wf_fill.mp (wf_focus (c := c) wf).1).1.2 (by simp [data, Ref.toData])).2
    exact absurd rfl full
  | data d =>
    have inside : f.label ∈ (plug (f :: c) (.empty : Trie D)).toList :=
      (mem_plug ..).mpr (.inr (label_outside (List.mem_cons_self ..)))
    refine ⟨d, rfl, closest_of_cell wf inside data fun e he => ?_⟩
    rcases (mem_plug ..).mp he with impossible | above
    · simp at impossible
    · exact (near e above).2 f rfl

/-- How the first descent ends: in an empty tree, or at the closest stored node as `x` or as `p`,
which is the node with the key itself if that is stored. -/
inductive Sought (K : KeyTraits D) (T : Trie D) (k : List Bool) (out : Link D × Link D) : Prop
  | nothing (empty : T = .empty) (null : out = (none, none))
  | closest (d : D) (last : (out.1 <|> out.2) = some (.data d)) (most : Closest K k T d)
      (only : ∀ e ∈ stored T, key K e = k → d = e)

theorem Nearest.sought (wf : WF K (plug c .empty)) (near : Nearest k c .empty)
    (missing : ∀ e ∈ stored (plug c .empty), key K e ≠ k) : Sought K (plug c .empty) k (none, headRef c) := by
  cases c with
  | nil => exact .nothing rfl rfl
  | cons f c =>
    obtain ⟨d, data, closest⟩ := near.ended wf
    exact .closest d (by simp [headRef, data]) closest fun e he same => absurd same (missing e he)

theorem Shape.seek (shape : Shape K t T) (node : D) :
    ∃ out, loop (t.seekTurn K node) t.turns (t.root, none) = some out ∧ Sought K T (key K node) out := by
  rw [shape.root]
  refine shape.descend (c := []) (fun c X p => p = headRef c ∧ Nearest (key K node) c X ∧
    ∀ e ∈ stored T, key K e = key K node → e ∈ stored X) _ ?_ rfl
    ⟨rfl, by simp [Nearest, outside, before, after], fun e he _ => he⟩
  rintro c X p rfl ⟨rfl, near, keep⟩
  cases X with
  | empty => exact .inl ⟨_, rfl, near.sought shape.wf fun e he same => absurd (keep e he same) (by simp)⟩
  | node a l r =>
    have read := shape.read
    have inner := (wf_focus shape.wf).1
    simp only [link_node, Tree.seekTurn, read, Option.bind_eq_bind, Option.bind_some, nodeAt_bitpos, nodeAt_intnode]
    by_cases stop : K.bitLength node ≤ a.word.length ∧ a.ref.isInt = false
    · obtain ⟨d, data⟩ := isInt_false stop.2
      have inside : a ∈ (plug c (.node a l r)).toList := (mem_plug ..).mpr (.inl (by simp))
      refine .inl ⟨_, if_pos stop, .closest d (by simp [data]) (closest_of_cell shape.wf inside data fun e he => ?_)
        fun e he same => ?_⟩
      · rcases (mem_plug ..).mp he with below | above
        · exact lcp_short (inner.under e below) (by simpa using stop.1)
        · exact (near e above).1 a (by simp)
      · have within := stored_extends inner inner.under (keep e he same)
        have word : a.word = key K e := within.eq_of_length_le (by rw [same, key_length]; exact stop.1)
        exact stored_unique shape.wf (mem_stored.mpr ⟨a, inside, data⟩) he ((cell_of_mem inner (by simp) data).symm.trans word)
    · have next := near.down shape.wf
      have stays : ∀ e ∈ stored (plug c (.node a l r)), key K e = key K node →
          e ∈ stored (child (bit (key K node) a.word.length) l r) := by
        intro e he same
        rw [← same]
        refine (stored_child inner (keep e he same) fun data => stop ⟨?_, by simp [data, Ref.isInt]⟩).2
        rw [cell_of_mem inner (by simp) data, same, key_length]
      simp only [stop]
      rcases shape.turnDown node (some a.ref) (fun _ => ((none : Link D), some a.ref)) rfl with
        again | ⟨empty, _, z, _, exit⟩
      · exact .inr ⟨a, l, r, _, _, rfl, again, rfl, next, stays⟩
      · refine .inl ⟨_, exit, ?_⟩
        rw [empty] at next stays
        have place := plug_down (bit (key K node) a.word.length) a l r c
        rw [empty] at place
        rw [← place] at stays ⊢
        exact next.sought (place ▸ shape.wf) fun e he same => absurd (stays e he same) (by simp)

/-- The hole where `k`, which shares `i` bits with the trie, parts from it. -/
structure Parting (K : KeyTraits D) (k : List Bool) (i : Nat) (c : Path D) (X : Trie D) : Prop where
  turns : ∀ f ∈ c, f.label.word ++ [f.dir] <+: k
  sharing : X = .empty ∨ ∃ d ∈ stored X, lcp k (key K d) = i

theorem Parting.down (wf : WF K (plug c (.node a l r)))
    (most : ∀ e ∈ stored (plug c (.node a l r)), lcp k (key K e) ≤ i) (parting : Parting K k i c (.node a l r))
    (shared : a.word.length ≤ i) (inside : a.word.length < k.length) :
    Parting K k i (down (bit k a.word.length) a l r :: c) (child (bit k a.word.length) l r) := by
  obtain ⟨turns, sharing⟩ := parting
  have inner := (wf_focus wf).1
  obtain ⟨d, hd, exact_⟩ : ∃ d ∈ stored (.node a l r), lcp k (key K d) = i := by simpa using sharing
  have extends_ := stored_extends inner inner.under hd
  have turn := turn_of_bit (prefix_of_le_lcp extends_ (exact_ ▸ shared)) inside
  refine ⟨List.forall_mem_cons.mpr ⟨turn, turns⟩, ?_⟩
  cases below : child (bit k a.word.length) l r with
  | empty => exact .inl rfl
  | node b x y =>
    refine .inr ?_
    rw [← below]
    obtain ⟨e, he⟩ := stored_nonempty (inner.child (bit k a.word.length)).1 (by simp [below])
    have outer : e ∈ stored (plug c (.node a l r)) := by
      obtain ⟨f, hf, data⟩ := mem_stored.mp he
      exact mem_stored.mpr ⟨f, (mem_plug ..).mpr (.inl (mem_of_child hf)), data⟩
    have longer := turn_le_lcp turn (stored_extends (inner.child _).1 (inner.child _).2 he)
    have less : a.word.length < lcp k (key K d) := exact_ ▸ Nat.lt_of_lt_of_le longer (most e outer)
    have other : a.ref ≠ .data d := by
      intro data
      have bound := lcp_le_right k (key K d)
      rw [← cell_of_mem inner (by simp) data] at bound less
      omega
    rw [bit_eq_of_lt_lcp less]
    exact ⟨d, (stored_child inner hd other).2, exact_⟩

structure Placed (K : KeyTraits D) (T : Trie D) (k : List Bool) (i : Nat) (c : Path D) (X : Trie D) : Prop where
  split : plug c X = T
  parting : Parting K k i c X
  beyond : ∀ a l r, X = .node a l r → a.word.length ≤ i → k.length ≤ a.word.length

theorem Shape.place (shape : Shape K t T) (node : D) (most : ∀ e ∈ stored T, lcp (key K node) (key K e) ≤ i)
    (sharing : ∃ d ∈ stored T, lcp (key K node) (key K d) = i) :
    ∃ out, loop (t.placeTurn K node i) t.turns (t.root, none) = some out ∧
      ∃ c X, out = (link X none, headRef c) ∧ Placed K T (key K node) i c X := by
  rw [shape.root]
  refine shape.descend (c := []) (fun c X p => p = headRef c ∧ Parting K (key K node) i c X) _ ?_ rfl
    ⟨rfl, by simp, .inr sharing⟩
  rintro c X p rfl ⟨rfl, parting⟩
  cases X with
  | empty => exact .inl ⟨_, rfl, c, .empty, rfl, rfl, parting, by simp⟩
  | node a l r =>
    have read := shape.read
    simp only [link_node, Tree.placeTurn, read, Option.bind_eq_bind, Option.bind_some, nodeAt_bitpos]
    by_cases goOn : a.word.length ≤ i ∧ a.word.length < K.bitLength node
    · have next := parting.down shape.wf most goOn.1 (by simpa using goOn.2)
      simp only [goOn]
      rcases shape.turnDown node (some a.ref) (fun _ => ((none : Link D), some a.ref)) rfl with
        again | ⟨empty, _, z, _, exit⟩
      · exact .inr ⟨a, l, r, _, _, rfl, again, rfl, next⟩
      · refine .inl ⟨_, exit, _, child (bit (key K node) a.word.length) l r, ?_, plug_down _ a l r c, next, ?_⟩
        · rw [empty]
          rfl
        · simp [empty]
    · refine .inl ⟨_, if_neg goOn, c, .node a l r, rfl, rfl, parting, ?_⟩
      rintro a' l' r' ⟨⟩ shared
      rw [key_length]
      omega

theorem absent_ref (absent : ∀ e ∈ stored T, key K e ≠ key K node) : Ref.data node ∉ refs T := by
  intro h
  obtain ⟨a, ha, data⟩ := List.mem_map.mp h
  exact absent node (mem_stored.mpr ⟨a, ha, data⟩) rfl

def leafCell (K : KeyTraits D) (d : D) : Cell D := ⟨.data d, key K d⟩

theorem wf_leaf (node : D) : WF K (.node (leafCell K node) .empty .empty) :=
  ⟨rfl, under_empty _, under_empty _, trivial, trivial⟩

theorem Linked.leaf_thread {mem : Ref D → Option (Node D)} {root : Link D} {f : Frame (Cell D)}
    (linked : Linked mem root (f :: c) (holeThread (f :: c))) :
    ∃ n, mem f.label.ref = some n ∧ n.bitpos = f.label.word.length ∧
      (if f.dir then n.right else some f.label.ref) = threadRef (f :: c) := by
  refine ⟨_, linked.1, frameNode_bitpos .., ?_⟩
  cases dir : f.dir <;> simp [frameNode, holeThread, threadRef_cons, dir]

def aboveFrame (K : KeyTraits D) (node : D) (b : Bool) : Frame (Cell D) := ⟨leafCell K node, b, .empty⟩

theorem aboveFrame_new {X : Trie D} {b : Bool} (absent : ∀ e ∈ stored (plug c X), key K e ≠ key K node)
    (turns : ∀ f ∈ c, f.label.word ++ [f.dir] <+: key K node) (under : Under (key K node ++ [b]) X) :
    NewFrame K (plug c X) c X (aboveFrame K node b) where
  data := by
    rintro d ⟨⟩
    rfl
  internal := by simp [aboveFrame, leafCell, Ref.toData]
  other := trivial
  side := under_empty _
  under := under
  turns := turns
  distinct := by simp [aboveFrame]
  new := by
    intro x hx
    obtain rfl : x = .data node := by simpa [aboveFrame, leafCell] using hx
    exact absent_ref absent

def besideFrame (K : KeyTraits D) (node : D) (m i : Nat) (b : Bool) : Frame (Cell D) :=
  ⟨⟨.int m, (key K node).take i⟩, !b, .node (leafCell K node) .empty .empty⟩

theorem Shape.besideFrame_new {X : Trie D} (shape : Shape K t (plug c X))
    (absent : ∀ e ∈ stored (plug c X), key K e ≠ key K node)
    (turns : ∀ f ∈ c, f.label.word ++ [f.dir] <+: (key K node).take i) (inside : i < (key K node).length)
    (under : Under ((key K node).take i ++ [!bit (key K node) i]) X) :
    NewFrame K (plug c X) c X (besideFrame K node t.fresh i (bit (key K node) i)) where
  data := by simp [besideFrame]
  internal := by simp [besideFrame]
  other := wf_leaf node
  side := by
    have self := turn_of_bit (List.take_prefix i (key K node)) (by rw [List.length_take]; omega)
    rw [List.length_take, Nat.min_eq_left (Nat.le_of_lt inside)] at self
    simpa [besideFrame, under_node, leafCell] using self
  under := under
  turns := turns
  distinct := by simp [besideFrame, leafCell]
  new := by
    intro x hx
    rcases (show x = .int t.fresh ∨ x = .data node by simpa [besideFrame, leafCell] using hx) with rfl | rfl
    · exact fun h => absurd (shape.young _ h) (Nat.lt_irrefl _)
    · exact absent_ref absent

section attachments
variable [DecidableEq D] {c : Path D} {X : Trie D} {node : D}

def Tree.entered (K : KeyTraits D) (t : Tree D) (d : D) : Tree D :=
  { t with nodes := t.nodes + 1 }.write (.data d) (nodeAt (leafCell K d) none none)

theorem entered_read (t : Tree D) (d : D) :
    (t.entered K d).mem (.data d) = some (nodeAt (leafCell K d) none none) := Function.update_self ..

variable {x : Ref D}

theorem entered_other (t : Tree D) (ne : x ≠ .data d) : (t.entered K d).mem x = t.mem x :=
  Function.update_of_ne ne ..

structure Entered (K : KeyTraits D) (t : Tree D) (d : D) (c : Path D) (X : Trie D) : Prop where
  linked : Linked (t.entered K d).mem t.root c (link X (holeThread c))
  rep : Rep (t.entered K d).mem (threadRef c) X
  inside : Ref.data d ∉ refs X
  outside : Ref.data d ∉ outerRefs c
  distinct : (refs X).Nodup
  apart : ∀ x ∈ refs X, x ∉ outerRefs c
  live : Live (t.entered K d).mem

theorem Shape.enter (shape : Shape K t (plug c X)) (absent : ∀ e ∈ stored (plug c X), key K e ≠ key K node) :
    Entered K t node c X := by
  have missing := absent_ref absent
  rw [(refs_plug c X).mem_iff, List.mem_append, not_or] at missing
  obtain ⟨distinct, _, apart⟩ := shape.apart
  obtain ⟨linked, rep⟩ := shape.focus
  exact ⟨linked.update missing.2 _, rep.update missing.1 _, missing.1, missing.2, distinct, apart,
    shape.live.update rfl⟩

theorem insertAt_entered (live : Live t.mem) (node : D) (l : Link D) (i : Nat) (p x : Link D) :
    t.insertAt K node l i p x = Tree.insertFrom K (t.entered K node) node l i p x := by
  obtain ⟨n, read, kind⟩ := live node
  simp only [Tree.insertAt, read, Option.bind_eq_bind, Option.bind_some]
  have reset : ({ n with left := none, right := none, bitpos := K.bitLength node } : Node D) =
      nodeAt (leafCell K node) none none := by
    simp [nodeAt, leafCell, kind, Ref.isInt]
  rw [reset]
  rfl

theorem Shape.insertLeaf (shape : Shape K t (plug c .empty)) (absent : ∀ e ∈ stored (plug c .empty), key K e ≠ key K node)
    (turns : ∀ f ∈ c, f.label.word ++ [f.dir] <+: key K node) :
    ∃ t', (t.entered K node).insertLeaf K node (headRef c) = some t' ∧
      Shape K t' (plug c (.node (leafCell K node) .empty .empty)) := by
  have entered := shape.enter absent
  have ready : Ready K t c .empty ((t.entered K node).write (.data node) (nodeAt (leafCell K node) none (threadRef c)))
      (.node (leafCell K node) .empty .empty) := by
    refine ⟨⟨_, entered.linked.update entered.outside _⟩, ⟨Function.update_self .., trivial, trivial⟩, wf_leaf node, ?_, ?_, ?_,
      ?_, ?_, ?_, Nat.le_refl _, entered.live.update rfl⟩
    · intro f hf
      simpa [under_node, leafCell] using turns f hf
    · simp
    · simpa [leafCell] using entered.outside
    · simp [stored_node, leafCell, Ref.toData, Tree.write, Tree.entered]
    · simp [Tree.write, Tree.entered]
    · simp [leafCell]
  obtain ⟨t', run, shape'⟩ := shape.attach ready node turns (by simp)
  refine ⟨t', ?_, shape'⟩
  cases c with
  | nil =>
    have same : (t.entered K node).write (.data node) (nodeAt (leafCell K node) none (threadRef [])) = t.entered K node := by
      simp [Tree.entered, threadRef]
    rw [same] at run
    exact run
  | cons f c =>
    obtain ⟨n, read, pos, right⟩ := entered.linked.leaf_thread
    have side := turn_bit (turns f (by simp))
    simp only [Tree.insertLeaf, headRef, List.head?_cons, Option.map_some, read, Option.bind_eq_bind, Option.bind_some,
      getBit_eq, pos, side, right, Tree.setRight, entered_read]
    exact run

theorem leaf_setRight {u : Tree D} {left right : Link D}
    (read : u.mem (.data d) = some (nodeAt (leafCell K d) left right)) (v : Link D) :
    u.setRight (.data d) v = some (u.write (.data d) (nodeAt (leafCell K d) left v)) :=
  setRight_nodeAt (a := leafCell K d) read v

theorem leaf_setLeft {u : Tree D} {left right : Link D}
    (read : u.mem (.data d) = some (nodeAt (leafCell K d) left right)) (v : Link D) :
    u.setLeft (.data d) v = some (u.write (.data d) (nodeAt (leafCell K d) v right)) :=
  setLeft_nodeAt (a := leafCell K d) read v

theorem Shape.replaceInternal {m : Nat} (shape : Shape K t (plug c (.node a l r)))
    (absent : ∀ e ∈ stored (plug c (.node a l r)), key K e ≠ key K node)
    (turns : ∀ f ∈ c, f.label.word ++ [f.dir] <+: key K node) (internal : a.ref = .int m)
    (word : a.word = key K node) : ∃ t', (t.entered K node).replaceInternal K node (headRef c) a.ref
        (nodeAt a (link l none) (link r (threadRef c))) = some t' ∧
      Shape K t' (plug c (.node (leafCell K node) l r)) := by
  have entered := shape.enter absent
  obtain ⟨read, left, right⟩ := entered.rep
  have missing := entered.inside
  have distinct := entered.distinct
  simp only [refs_node, List.mem_cons, List.mem_append, not_or, List.nodup_cons, List.nodup_append] at missing distinct
  obtain ⟨⟨aLeft, aRight⟩, dLeft, dRight, across⟩ := distinct
  set u := (t.entered K node).write (.data node) (nodeAt (leafCell K node) (link l none) (link r (threadRef c))) with hu
  have readA : u.mem a.ref = some (nodeAt a (link l none) (link r (threadRef c))) :=
    (write_other _ _ (by simp [internal])).trans read
  obtain ⟨mem, out, run, rethreaded, changed⟩ := shape.rethreadLeft readA (left.update missing.2.1 _)
    (by simp [hu, Tree.write, Tree.entered]) (some (.data node))
  have elsewhere : ∀ x, x ≠ .data node → x ∉ refs l → x ≠ a.ref →
      Function.update mem a.ref none x = (t.entered K node).mem x := by
    intro x notSelf notLeft notA
    rw [Function.update_of_ne notA, changed.same x notLeft]
    exact write_other _ _ notSelf
  have self : Function.update mem a.ref none (.data node) =
      some (nodeAt (leafCell K node) (link l none) (link r (threadRef c))) := by
    rw [Function.update_of_ne missing.1, changed.same _ missing.2.1]
    exact write_read ..
  have rightPart : Rep (Function.update mem a.ref none) (threadRef c) r := right.congr fun x hx =>
    elsewhere x (fun same => missing.2.2 (same ▸ hx)) (fun h => across x h x hx rfl) (fun same => aRight (same ▸ hx))
  have around : Linked (Function.update mem a.ref none) t.root c (some a.ref) := entered.linked.congr fun x hx =>
    elsewhere x (fun same => entered.outside (same ▸ hx)) (fun h => entered.apart x (by simp [h]) hx)
      (fun same => entered.apart a.ref (by simp) (same ▸ hx))
  have ready : Ready K t c (.node a l r)
      { u with mem := Function.update mem a.ref none, intNodes := u.intNodes - 1 } (.node (leafCell K node) l r) :=
    shape.exchange rfl word.symm (absent_ref absent) ⟨_, around⟩ ⟨self, rethreaded.update aLeft _, rightPart⟩
      (by simp [hu, stored_node, leafCell, internal, Ref.toData, Tree.write, Tree.entered])
      (by simp [hu, Tree.write, Tree.entered]) (by simp [leafCell]) (Nat.le_refl _)
      (internal ▸ (changed.live (entered.live.update rfl)).free m)
  obtain ⟨t', attached, shape'⟩ := shape.attach ready node turns (by simp)
  refine ⟨t', ?_, shape'⟩
  simp only [Tree.replaceInternal, Option.bind_eq_bind, Option.bind_some, leaf_setRight (entered_read t node), nodeAt_left,
    nodeAt_right, leaf_setLeft (write_read ..), write_write, ← hu, run, deleteInternal_int internal]
  exact attached

theorem Shape.insertAbove {b : Bool} {e : D} (shape : Shape K t (plug c X))
    (absent : ∀ e ∈ stored (plug c X), key K e ≠ key K node) (turns : ∀ f ∈ c, f.label.word ++ [f.dir] <+: key K node)
    (under : Under (key K node ++ [b]) X) (entry : link X none = some x)
    (side : bit (key K e) (K.bitLength node) = b) :
    ∃ t', (t.entered K node).insertAbove K node (some (.data e)) (K.bitLength node) (headRef c) x = some t' ∧
      Shape K t' (plug c ((aboveFrame K node b).fill X)) := by
  have entered := shape.enter absent
  have full := full_of_entry entry
  have attached : ∀ th, link ((aboveFrame K node b).fill X) th = some (.data node) := by
    intro th
    cases b <;> rfl
  cases b with
  | true =>
    have ready : Ready K t c X ((t.entered K node).write (.data node) (nodeAt (leafCell K node) none (some x)))
        ((aboveFrame K node true).fill X) := by
      apply (aboveFrame_new absent turns under).ready shape full ⟨_, entered.linked.update entered.outside _⟩
      · refine ⟨?_, trivial, entered.rep.update entered.inside _⟩
        rw [link_of_entry entry]
        exact write_read ..
      · simp [Tree.write, Tree.entered, aboveFrame, leafCell, Ref.toData]
      · simp [Tree.write, Tree.entered, aboveFrame]
      · simp [aboveFrame, leafCell]
      · exact Nat.le_refl _
      · exact entered.live.update rfl
    obtain ⟨t', run, shape'⟩ := shape.attach ready node turns (by simp [aboveFrame, Frame.fill])
    refine ⟨t', ?_, shape'⟩
    simp only [Tree.insertAbove, Option.bind_eq_bind, Option.bind_some, Ref.toData, getBit_eq, side, if_true,
      leaf_setRight (entered_read t node)]
    rwa [attached] at run
  | false =>
    set u := (t.entered K node).write (.data node) (nodeAt (leafCell K node) (some x) none) with hu
    have same : ∀ y ∈ refs X ++ outerRefs c, u.mem y = t.mem y := by
      intro y hy
      have other : y ≠ .data node := by
        rintro rfl
        rcases List.mem_append.mp hy with hy | hy
        · exact entered.inside hy
        · exact entered.outside hy
      exact (write_other _ _ other).trans (entered_other t other)
    obtain ⟨mem, rewire, rethreaded, changed⟩ := shape.rethread entry same
      (by simp [hu, Tree.write, Tree.entered]) (some (.data node))
    have self : mem (.data node) = some (nodeAt (leafCell K node) (some x) none) :=
      (changed.same _ entered.inside).trans (write_read ..)
    have around : Linked mem t.root c (link X (holeThread c)) := entered.linked.congr fun y hy => by
      rw [changed.same y fun h => entered.apart y h hy]
      exact write_other _ _ fun same => entered.outside (same ▸ hy)
    have ready : Ready K t c X
        ({ u with mem := mem }.write (.data node) (nodeAt (leafCell K node) (some x) (threadRef c)))
        ((aboveFrame K node false).fill X) := by
      apply (aboveFrame_new absent turns under).ready shape full ⟨_, around.update entered.outside _⟩
      · refine ⟨?_, rethreaded.update entered.inside _, trivial⟩
        rw [link_of_entry entry]
        exact write_read ..
      · simp [hu, Tree.write, Tree.entered, aboveFrame, leafCell, Ref.toData]
      · simp [hu, Tree.write, Tree.entered, aboveFrame]
      · simp [aboveFrame, leafCell]
      · exact Nat.le_refl _
      · exact (changed.live (entered.live.update rfl)).update rfl
    obtain ⟨t', run, shape'⟩ := shape.attach ready node turns (by simp [aboveFrame, Frame.fill])
    refine ⟨t', ?_, shape'⟩
    simp only [Tree.insertAbove, Option.bind_eq_bind, Option.bind_some, Ref.toData, getBit_eq, side, Bool.false_eq_true,
      if_false, leaf_setLeft (entered_read t node), ← hu, rewire]
    rw [leaf_setRight (by exact self)]
    rwa [attached] at run

def splitCell (K : KeyTraits D) (t : Tree D) (node : D) (i : Nat) : Cell D := ⟨.int t.fresh, (key K node).take i⟩

def Tree.created (K : KeyTraits D) (t : Tree D) (node : D) (i : Nat) (left right : Link D) : Tree D :=
  ({ t.entered K node with intNodes := t.intNodes + 1, fresh := t.fresh + 1 } : Tree D).write (splitCell K t node i).ref
    (nodeAt (splitCell K t node i) left right)

theorem newInternal_entered (t : Tree D) (node : D) (i : Nat) (inside : i ≤ (key K node).length) :
    (t.entered K node).newInternal i = ((splitCell K t node i).ref, t.created K node i none none) := by
  simp only [Tree.created, splitCell, nodeAt, List.length_take, Nat.min_eq_left inside]
  rfl

theorem created_setLeft (t : Tree D) (node : D) (i : Nat) (left right v : Link D) :
    (t.created K node i left right).setLeft (splitCell K t node i).ref v = some (t.created K node i v right) :=
  (setLeft_nodeAt (write_read ..) v).trans (congrArg some (write_write ..))

theorem created_setRight (t : Tree D) (node : D) (i : Nat) (left right v : Link D) :
    (t.created K node i left right).setRight (splitCell K t node i).ref v = some (t.created K node i left v) :=
  (setRight_nodeAt (write_read ..) v).trans (congrArg some (write_write ..))

theorem created_self (t : Tree D) (node : D) (i : Nat) (left right : Link D) :
    (t.created K node i left right).mem (.data node) = some (nodeAt (leafCell K node) none none) :=
  (write_other _ _ (by simp [splitCell])).trans (entered_read t node)

structure Created (K : KeyTraits D) (t : Tree D) (node : D) (i : Nat) (c : Path D) (X : Trie D) (left right : Link D) :
    Prop where
  linked : Linked (t.created K node i left right).mem t.root c (link X (holeThread c))
  rep : Rep (t.created K node i left right).mem (threadRef c) X
  same : ∀ y ∈ refs X ++ outerRefs c, (t.created K node i left right).mem y = t.mem y
  inside : (splitCell K t node i).ref ∉ refs X
  live : Live (t.created K node i left right).mem

section
variable (shape : Shape K t (plug c X))
include shape

section
variable (absent : ∀ e ∈ stored (plug c X), key K e ≠ key K node)
include absent

theorem Shape.create (i : Nat) (left right : Link D) : Created K t node i c X left right := by
  have entered := shape.enter absent
  have fresh : Ref.int t.fresh ∉ refs (plug c X) := fun h => absurd (shape.young _ h) (Nat.lt_irrefl _)
  rw [(refs_plug c X).mem_iff, List.mem_append, not_or] at fresh
  refine ⟨entered.linked.update fresh.2 _, entered.rep.update fresh.1 _, fun y hy => ?_, fresh.1, entered.live.update rfl⟩
  have other : y ≠ .data node ∧ y ≠ .int t.fresh := by
    constructor <;> rintro rfl <;> rcases List.mem_append.mp hy with hy | hy
    · exact entered.inside hy
    · exact entered.outside hy
    · exact fresh.1 hy
    · exact fresh.2 hy
  exact (write_other _ _ other.2).trans (entered_other t other.1)

theorem Shape.besideRight
    (frame : NewFrame K (plug c X) c X (besideFrame K node t.fresh i true)) (entry : link X none = some x) :
    ∃ mem, (t.created K node i (some x) (some (.data node))).rewireRightMost (some (splitCell K t node i).ref) (some x) =
        some (threadRef c, { t.created K node i (some x) (some (.data node)) with mem := mem }) ∧
      mem (.data node) = some (nodeAt (leafCell K node) none none) ∧
      Ready K t c X ({ t.created K node i (some x) (some (.data node)) with mem := mem }.write (.data node)
        (nodeAt (leafCell K node) none (threadRef c))) ((besideFrame K node t.fresh i true).fill X) := by
  have entered := shape.enter absent
  have created := shape.create absent i (some x) (some (.data node))
  have full := full_of_entry entry
  obtain ⟨mem, rewire, rethreaded, changed⟩ := shape.rethread entry created.same
    (by simp [Tree.created, Tree.write, Tree.entered]; omega) (some (splitCell K t node i).ref)
  have readCell : mem (splitCell K t node i).ref = some (nodeAt (splitCell K t node i) (some x) (some (.data node))) :=
    (changed.same _ created.inside).trans (write_read ..)
  have around : Linked mem t.root c (link X (holeThread c)) := created.linked.congr fun y hy =>
    changed.same y fun h => entered.apart y h hy
  refine ⟨mem, rewire, (changed.same _ entered.inside).trans (created_self ..), ?_⟩
  apply frame.ready shape full ⟨_, around.update entered.outside _⟩
  · refine ⟨?_, rethreaded.update entered.inside _, write_read .., trivial, trivial⟩
    rw [link_of_entry entry]
    exact (write_other _ _ (by simp [besideFrame])).trans readCell
  · simp [Tree.created, Tree.write, Tree.entered, besideFrame, leafCell, Ref.toData, stored_node]
  · simp [Tree.created, Tree.write, Tree.entered, besideFrame]
    omega
  · simp [Tree.created, Tree.write, besideFrame, leafCell]
  · exact Nat.le_succ _
  · exact (changed.live created.live).update rfl

theorem Shape.besideLeft
    (frame : NewFrame K (plug c X) c X (besideFrame K node t.fresh i false)) (entry : link X none = some x) :
    Ready K t c X ((t.created K node i (some (.data node)) (some x)).write (.data node)
      (nodeAt (leafCell K node) none (some (splitCell K t node i).ref))) ((besideFrame K node t.fresh i false).fill X) := by
  have entered := shape.enter absent
  have created := shape.create absent i (some (.data node)) (some x)
  have full := full_of_entry entry
  apply frame.ready shape full ⟨_, created.linked.update entered.outside _⟩
  · refine ⟨?_, ⟨write_read .., trivial, trivial⟩, created.rep.update entered.inside _⟩
    rw [link_of_entry entry]
    exact (write_other _ _ (by simp [besideFrame])).trans (write_read ..)
  · simp [Tree.created, Tree.write, Tree.entered, besideFrame, leafCell, Ref.toData, stored_node]
  · simp [Tree.created, Tree.write, Tree.entered, besideFrame]
    omega
  · simp [Tree.created, Tree.write, besideFrame, leafCell]
  · exact Nat.le_succ _
  · exact created.live.update rfl

theorem Shape.insertBeside
    (turns : ∀ f ∈ c, f.label.word ++ [f.dir] <+: (key K node).take i) (inside : i < (key K node).length)
    (under : Under ((key K node).take i ++ [!bit (key K node) i]) X) (entry : link X none = some x) :
    ∃ t', (t.entered K node).insertBeside K node i (headRef c) x = some t' ∧
      Shape K t' (plug c ((besideFrame K node t.fresh i (bit (key K node) i)).fill X)) := by
  have longer : ∀ f ∈ c, f.label.word ++ [f.dir] <+: key K node := fun f hf =>
    (turns f hf).trans (List.take_prefix i _)
  have frame := shape.besideFrame_new absent turns inside under
  have create := newInternal_entered t node i (Nat.le_of_lt inside)
  simp only [Tree.insertBeside, create, getBit_eq]
  cases side : bit (key K node) i with
  | true =>
    rw [side] at frame
    obtain ⟨mem, rewire, self, ready⟩ := shape.besideRight absent frame entry
    obtain ⟨t', run, shape'⟩ := shape.attach ready node longer (by simp [besideFrame, Frame.fill])
    refine ⟨t', ?_, shape'⟩
    simp only [created_setLeft, created_setRight, Option.bind_eq_bind, Option.bind_some, rewire]
    rw [leaf_setRight (by exact self)]
    exact run
  | false =>
    rw [side] at frame
    obtain ⟨t', run, shape'⟩ := shape.attach (shape.besideLeft absent frame entry) node longer
      (by simp [besideFrame, Frame.fill])
    refine ⟨t', ?_, shape'⟩
    simp only [Bool.false_eq_true, if_false, created_setLeft, created_setRight, Option.bind_eq_bind, Option.bind_some,
      leaf_setRight (created_self ..)]
    exact run

theorem Shape.insertFrom {e : D} (he : e ∈ stored (plug c X))
    (shared : lcp (key K node) (key K e) = i) (placed : Placed K (plug c X) (key K node) i c X) :
    ∃ t' Y, (t.entered K node).insertFrom K node (some (.data e)) i (headRef c) (link X none) = some t' ∧
      Shape K t' (plug c Y) ∧ ∀ d, d ∈ stored Y ↔ d = node ∨ d ∈ stored X := by
  have turns := placed.parting.turns
  have bound : i ≤ (key K node).length := shared ▸ lcp_le_left ..
  cases X with
  | empty =>
    obtain ⟨t', run, shape'⟩ := shape.insertLeaf absent turns
    exact ⟨t', _, run, shape', by simp [stored_node, leafCell, Ref.toData]⟩
  | node a l r =>
    have inner := (wf_focus shape.wf).1
    have read := (shape.enter absent).rep.1
    obtain ⟨d, hd, sharing⟩ : ∃ d ∈ stored (.node a l r), lcp (key K node) (key K d) = i := by
      simpa using placed.parting.sharing
    have within := stored_extends inner inner.under hd
    simp only [link_node, Tree.insertFrom, read, Option.bind_eq_bind, Option.bind_some]
    by_cases here : a.word.length = i
    · have whole := placed.beyond a l r rfl (Nat.le_of_eq here)
      have word : a.word = key K node := (prefix_of_le_lcp within (by omega)).eq_of_length (by omega)
      obtain ⟨m, internal⟩ : ∃ m, a.ref = .int m := by
        cases data : a.ref with
        | int m => exact ⟨m, rfl⟩
        | data d' =>
          have stored_ : d' ∈ stored (plug c (.node a l r)) := stored_focus data
          exact absurd ((cell_of_mem inner (by simp) data).symm.trans word) (absent d' stored_)
      obtain ⟨t', run, shape'⟩ := shape.replaceInternal absent turns internal word
      refine ⟨t', _, (if_pos (by exact here)).trans run, shape', ?_⟩
      simp [stored_node, leafCell, internal, Ref.toData]
    · have later : i < a.word.length := by
        by_contra less
        have := placed.beyond a l r rfl (by omega)
        omega
      have parts : lcp (key K node) a.word = i := sharing ▸ lcp_shorten within (sharing.symm ▸ later)
      rw [if_neg (by exact here)]
      by_cases above : i = K.bitLength node
      · have length : i = (key K node).length := by rw [key_length]; exact above
        have prefixA : key K node <+: a.word := prefix_iff_lcp.mpr (parts.trans length)
        have prefixE : key K node <+: key K e := prefix_iff_lcp.mpr (shared.trans length)
        have turn := turn_of_bit prefixA (by omega)
        have inside := stored_inside shape.wf he fun f hf => (turns f hf).trans prefixE
        have side := bit_prefix_eq (stored_extends inner inner.under inside) (by omega : (key K node).length < _)
        rw [key_length] at side turn
        obtain ⟨t', run, shape'⟩ := shape.insertAbove absent turns (inner.under.trans turn) rfl side.symm
        subst above
        refine ⟨t', _, (if_pos rfl).trans run, shape', fun d => ?_⟩
        rw [(stored_fill _ _).mem_iff]
        simp [aboveFrame, leafCell, Ref.toData]
      · rw [if_neg above]
        have inK : i < (key K node).length := by
          have := key_length K node
          omega
        have fork := (lcp_parts (parts.symm ▸ inK) (parts.symm ▸ later)).2
        rw [parts] at fork
        have shorter : ∀ f ∈ c, f.label.word ++ [f.dir] <+: (key K node).take i := by
          intro f hf
          have both := le_lcp (turns f hf) (((wf_focus shape.wf).2 f hf).1 a (by simp))
          rw [parts] at both
          exact List.prefix_take_iff.mpr ⟨turns f hf, both⟩
        obtain ⟨t', run, shape'⟩ := shape.insertBeside absent shorter inK (inner.under.trans fork) rfl
        refine ⟨t', _, run, shape', fun d => ?_⟩
        rw [(stored_fill _ _).mem_iff]
        simp [besideFrame, leafCell, Ref.toData, stored_node]

end

end

theorem Shape.insertNode (shape : Shape K t T) (node : D) :
    (∃ d ∈ stored T, key K d = key K node) ∧ t.insertNode K node = some (false, t) ∨
    (∀ d ∈ stored T, key K d ≠ key K node) ∧ ∃ t' T', t.insertNode K node = some (true, t') ∧ Shape K t' T' ∧
      ∀ d, d ∈ stored T' ↔ d = node ∨ d ∈ stored T := by
  obtain ⟨⟨x, p⟩, seek, sought⟩ := shape.seek node
  simp only [Tree.insertNode, seek, Option.bind_eq_bind]
  cases sought with
  | nothing empty null =>
    subst empty
    cases null
    have leaf : ∃ t', (t.entered K node).insertLeaf K node (headRef []) = some t' ∧
        Shape K t' (plug [] (.node (leafCell K node) .empty .empty)) :=
      Shape.insertLeaf shape (by simp) (by simp)
    obtain ⟨t', run, shape'⟩ := leaf
    refine .inr ⟨by simp, t', _, ?_, shape', by simp [stored_node, leafCell, Ref.toData]⟩
    have attached : (t.entered K node).insertFrom K node none 0 none none = some t' := run
    simp [insertAt_entered shape.live, attached]
  | closest e last most only =>
    obtain ⟨left, right, read⟩ := shape.stored_read most.1
    have lengths := key_length K node
    simp only [last, read, Option.bind_some, Ref.toData, compareFrom_eq K node e 0 (Nat.zero_le _)]
    by_cases equal : key K node = key K e
    · exact .inl ⟨⟨e, most.1, equal.symm⟩, by simp [equal]⟩
    · have absent : ∀ d ∈ stored T, key K d ≠ key K node := by
        intro d hd same
        rw [only d hd same, same] at equal
        exact equal rfl
      have apart : lcp (key K node) (key K e) ≠ K.bitLength node ∨ lcp (key K node) (key K e) ≠ (key K e).length := by
        by_contra both
        exact equal (eq_iff_lcp.mpr ⟨by omega, by omega⟩)
      obtain ⟨out, place, c, X, rfl, placed⟩ := shape.place node most.2 ⟨e, most.1, rfl⟩
      obtain rfl := placed.split
      obtain ⟨t', Y, run, shape', members⟩ := shape.insertFrom absent most.1 rfl placed
      refine .inr ⟨absent, t', plug c Y, ?_, shape', fun d => ?_⟩
      · simp only [equal, decide_false, Bool.false_eq_true, if_false]
        rw [if_pos (by exact apart), place]
        simp [insertAt_entered shape.live, run]
      · rw [(stored_perm_plug c Y).mem_iff, (stored_perm_plug c X).mem_iff, List.mem_append, List.mem_append, members]
        exact or_assoc

end attachments

end TFCommon.Patricia
