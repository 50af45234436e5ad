import TFCommon.Patricia.Lookup
import TFCommon.Patricia.Rewire

/-! `RemoveNode`: the found node is replaced by an internal node, by its only child, or taken
away with the internal node above it. -/
namespace TFCommon.Patricia
open BitString BinTree

variable {D : Type} {K : KeyTraits D} {t : Tree D} {T : Trie D}

theorem Shape.removeTurn [DecidableEq D] (shape : Shape K t T) (node : D) :
    ∃ out, loop (t.removeTurn K node) t.turns (t.root, none, none) = some out ∧
      Matched K T node (fun c locals => locals = (headRef c, headRef c.tail)) out := by
  apply shape.matched node _ (none, none)
  · rfl
  · rintro c a l r locals split rfl
    rfl

section
variable {c : Path D} {a : Cell D} {l r : Trie D} {d : D}

theorem found_turns (wf : WF K (plug c (.node a l r))) (data : a.ref = .data d) :
    ∀ f ∈ c, f.label.word ++ [f.dir] <+: key K d := fun f hf =>
  cell_of_mem (wf_focus wf).1 (by simp) data ▸ ((wf_focus wf).2 f hf).1 a (by simp)

theorem members_of_perm (wf : WF K T) {T' : Trie D} (perm : (stored T).Perm (d :: stored T')) :
    ∀ e, e ∈ stored T' ↔ e ∈ stored T ∧ e ≠ d := by
  have distinct := List.nodup_cons.mp (perm.nodup_iff.mp (stored_nodup wf))
  intro e
  rw [perm.mem_iff, List.mem_cons]
  constructor
  · intro inside
    refine ⟨.inr inside, ?_⟩
    rintro rfl
    exact distinct.1 inside
  · rintro ⟨same | inside, ne⟩
    · exact absurd same ne
    · exact inside

theorem detached_members (wf : WF K (plug c (.node a l r))) (data : a.ref = .data d) {Y : Trie D}
    (rest : stored Y = stored l ++ stored r) :
    ∀ e, e ∈ stored (plug c Y) ↔ e ∈ stored (plug c (.node a l r)) ∧ e ≠ d := by
  apply members_of_perm wf
  have inside : stored (.node a l r) = d :: stored Y := by simp [stored_node, data, Ref.toData, rest]
  refine (stored_perm_plug c _).trans ?_
  rw [inside]
  exact (stored_perm_plug c Y).symm.cons d

theorem Shape.hasChild (shape : Shape K t (plug c (.node a l r))) :
    t.hasChild (nodeAt a (link l none) (link r (threadRef c))) (link r (threadRef c)) = some (link r none).isSome := by
  cases shape.move true (nodeAt a (link l none) (link r (threadRef c))) rfl with
  | child a' l' r' below dest moved =>
    simp only [if_true] at moved
    rw [Tree.hasChild, moved, (show r = _ from below)]
    rfl
  | missing none _ moved | thread _ none _ _ _ moved =>
    simp only [if_true] at moved
    rw [Tree.hasChild, moved, (show r = _ from none)]
    rfl

section drop
variable {f : Frame (Cell D)}

theorem drop_members (wf : WF K (plug (f :: c) (.node a .empty .empty))) (data : a.ref = .data d)
    (internal : f.label.ref.toData = none) :
    ∀ e, e ∈ stored (plug c f.other) ↔ e ∈ stored (plug (f :: c) (.node a .empty .empty)) ∧ e ≠ d := by
  apply members_of_perm wf
  have inside : (stored (f.fill (.node a .empty .empty))).Perm (d :: stored f.other) := by
    refine (stored_fill f _).trans ?_
    rw [internal, stored_node, data]
    exact List.perm_append_singleton d (stored f.other)
  exact ((stored_perm_plug c _).trans (inside.append_right _)).trans ((stored_perm_plug c f.other).symm.cons d)

theorem Shape.dropReady (shape : Shape K t (plug (f :: c) (.node a .empty .empty))) (data : a.ref = .data d)
    (internal : f.label.ref.toData = none) {mem : Ref D → Option (Node D)} (rep : Rep mem (threadRef c) f.other)
    (linked : Linked mem t.root c (some f.label.ref)) (live : Live mem) :
    Ready K t c (f.fill (.node a .empty .empty)) { t with mem := mem, nodes := t.nodes - 1, intNodes := t.intNodes - 1 }
      f.other := by
  obtain ⟨inner, above⟩ := wf_focus (c := c) shape.wf
  obtain ⟨_, _, _, _, wfO⟩ := wf_fill.mp inner
  obtain ⟨distinct, _, apart⟩ := Shape.apart (c := c) shape
  have part : ∀ x ∈ refs f.other, x ∈ refs (f.fill (.node a .empty .empty)) := fun x hx =>
    (refs_fill f _).mem_iff.mpr (by simp [hx])
  exact {
    linked := ⟨_, linked⟩
    rep := rep
    wf := wfO
    under := fun g hg => (under_fill.mp (above g hg).1).2.1
    distinct := by
      have both := (List.nodup_append.mp ((refs_fill f _).nodup_iff.mp distinct)).1
      exact (List.nodup_cons.mp both).2
    apart := fun x hx => apart x (part x hx)
    nodes := by
      rw [(stored_fill f _).length_eq, internal]
      simp [stored_node, data, Ref.toData]
    total := by
      simp [size_fill]
      omega
    young := fun n hn => Shape.young_inside (t := t) (c := c) shape (part _ hn)
    older := Nat.le_refl _
    live := live }

theorem Shape.dropRefs (shape : Shape K t (plug (f :: c) (.node a .empty .empty))) :
    (refs f.other).Nodup ∧ (∀ x ∈ refs f.other, x ∉ outerRefs c) ∧ f.label.ref ∉ refs (plug c f.other) := by
  obtain ⟨inside, _, apart⟩ := Shape.apart (c := c) shape
  have member : ∀ x ∈ f.label.ref :: refs f.other, x ∉ outerRefs c := fun x hx =>
    apart x ((refs_fill f _).mem_iff.mpr (List.mem_append_left _ hx))
  have distinct := List.nodup_cons.mp (List.nodup_append.mp ((refs_fill f _).nodup_iff.mp inside)).1
  refine ⟨distinct.2, fun x hx => member x (List.mem_cons_of_mem _ hx), fun h => ?_⟩
  rcases List.mem_append.mp ((refs_plug c f.other).mem_iff.mp h) with other | outer
  · exact distinct.1 other
  · exact member _ (List.mem_cons_self ..) outer

end drop

end

section detachments
variable [DecidableEq D] {c : Path D} {f : Frame (Cell D)} {a : Cell D} {l r : Trie D} {d : D}

def Detached (K : KeyTraits D) (T : Trie D) (d : D) (u : Tree D) : Prop :=
  ∃ T', Shape K { u with nodes := u.nodes - 1 } T' ∧ ∀ e, e ∈ stored T' ↔ e ∈ stored T ∧ e ≠ d

theorem Shape.liftRight (shape : Shape K t (plug c (.node a .empty r))) (data : a.ref = .data d)
    (full : ∀ f, c.head? = some f → f.label.ref.toData = none → r ≠ .empty) :
    ∃ u, t.attach K d (headRef c) (link r (holeThread c)) = some u ∧ Detached K (plug c (.node a .empty r)) d u := by
  obtain ⟨inner, above⟩ := wf_focus shape.wf
  obtain ⟨linked, rep⟩ := shape.focus
  obtain ⟨distinct, _, apart⟩ := shape.apart
  have ready : Ready K t c (.node a .empty r) { t with nodes := t.nodes - 1 } r :=
    { linked := ⟨_, linked⟩
      rep := rep.2.2
      wf := (inner.child true).1
      under := fun f hf => (under_node.mp (above f hf).1).2.2
      distinct := by
        simp only [refs_node, List.nodup_cons] at distinct
        simpa using distinct.2
      apart := fun x hx => apart x (by simp [hx])
      nodes := by
        simp [stored_node, data, Ref.toData]
      total := by
        simp
      young := fun n hn => shape.young_inside (by simp [hn])
      older := Nat.le_refl _
      live := shape.live }
  obtain ⟨root, mem, run, shape', _⟩ := shape.attachAt (u := t) ready rfl rfl d (found_turns shape.wf data) full
  exact ⟨_, run, plug c r, shape', detached_members shape.wf data (by simp)⟩

theorem Shape.liftLeft (shape : Shape K t (plug c (.node a l .empty))) (data : a.ref = .data d) (full : l ≠ .empty) :
    ∃ u, t.liftLeft K (headRef c) a.ref d (nodeAt a (link l none) (threadRef c)) = some u ∧
      Detached K (plug c (.node a l .empty)) d u := by
  obtain ⟨inner, above⟩ := wf_focus shape.wf
  obtain ⟨linked, read, left, _⟩ := shape.focus
  obtain ⟨distinct, outer, apart⟩ := shape.apart
  simp only [refs_node, refs_empty, List.append_nil, List.nodup_cons, List.mem_cons] at distinct apart
  obtain ⟨root, mem, run, linked', changed⟩ := attach_spec linked outer d (found_turns shape.wf data) (link l none)
  set u : Tree D := { t with root := root, mem := mem } with hu
  have readA : u.mem a.ref = some (nodeAt a (link l none) (threadRef c)) :=
    (changed.same _ (apart a.ref (.inl rfl))).trans read
  have leftRep : Rep u.mem (some a.ref) l := left.congr fun x hx => changed.same x (apart x (.inr hx))
  obtain ⟨mem', out, rewire, rethreaded, changed'⟩ := shape.rethreadLeft readA leftRep (Int.le_refl _) (threadRef c)
  refine ⟨{ u with mem := mem' }, ?_, plug c l, ?_, detached_members shape.wf data (by simp)⟩
  · simp [Tree.liftLeft, run, readA, rewire]
  · apply shape.refill (u := { t with root := root, mem := mem', nodes := t.nodes - 1 })
    · rw [link_full full _ none]
      exact linked'.congr fun x hx => changed'.same x fun h => apart x (.inr h) hx
    · exact rethreaded
    · exact (inner.child false).1
    · exact fun f hf => (under_node.mp (above f hf).1).2.1
    · exact fun _ _ _ => full
    · exact distinct.2
    · exact fun x hx => apart x (.inr hx)
    · simp [stored_node, data, Ref.toData]
    · simp
    · exact fun n hn => shape.young_inside (by simp [hn])
    · exact Nat.le_refl _
    · exact changed'.live (changed.live shape.live)

def internalCell (t : Tree D) (a : Cell D) : Cell D := ⟨.int t.fresh, a.word⟩

def Tree.internal (t : Tree D) (a : Cell D) (left right : Link D) : Tree D :=
  ({ t with intNodes := t.intNodes + 1, fresh := t.fresh + 1 } : Tree D).write (internalCell t a).ref
    (nodeAt (internalCell t a) left right)

theorem Shape.replaceByInternal (shape : Shape K t (plug c (.node a l r))) (data : a.ref = .data d) (fullL : l ≠ .empty)
    (fullR : r ≠ .empty) :
    ∃ u, t.replaceByInternal K (headRef c) d (nodeAt a (link l none) (link r (threadRef c))) = some u ∧
      Detached K (plug c (.node a l r)) d u := by
  obtain ⟨linked, read, left, right⟩ := shape.focus
  have fresh : Ref.int t.fresh ∉ refs (plug c (.node a l r)) := fun h => absurd (shape.young _ h) (Nat.lt_irrefl _)
  have inFresh := fresh
  obtain ⟨distinct, outer, apart⟩ := shape.apart
  rw [(refs_plug c _).mem_iff] at fresh
  simp only [refs_node, List.nodup_cons, List.nodup_append, List.mem_cons, List.mem_append, not_or] at distinct apart fresh
  obtain ⟨⟨aLeft, aRight⟩, dLeft, dRight, across⟩ := distinct
  obtain ⟨⟨freshA, freshLeft, freshRight⟩, freshOuter⟩ := fresh
  set u := t.internal a (link l none) (link r (threadRef c)) with hu
  have readA : u.mem a.ref = some (nodeAt a (link l none) (link r (threadRef c))) :=
    (write_other _ _ (Ne.symm freshA)).trans read
  obtain ⟨mem, out, rewire, rethreaded, changed⟩ := shape.rethreadLeft readA (left.update freshLeft _)
    (by simp [hu, Tree.internal, Tree.write]) (some (internalCell t a).ref)
  have notFresh : ∀ x, x ≠ Ref.int t.fresh → x ≠ (internalCell t a).ref := fun _ h => h
  have ready : Ready K t c (.node a l r) { u with mem := mem, nodes := u.nodes - 1 } (.node (internalCell t a) l r) :=
    shape.exchange ⟨fullL, fullR⟩ rfl inFresh
      ⟨_, linked.congr fun x hx => (changed.same x fun h => apart x (.inr (.inl h)) hx).trans
        (write_other _ _ (notFresh x fun h => freshOuter (h ▸ hx)))⟩
      ⟨(changed.same _ freshLeft).trans (write_read ..), rethreaded,
        right.congr fun x hx => (changed.same x fun h => across x h x hx rfl).trans
          (write_other _ _ (notFresh x fun h => freshRight (h ▸ hx)))⟩
      (by simp [hu, Tree.internal, Tree.write, stored_node, data, internalCell, Ref.toData])
      (by simp [hu, Tree.internal, Tree.write]) (by rintro n ⟨⟩; exact Nat.lt_succ_self _) (Nat.le_succ _)
      (changed.live (shape.live.update rfl))
  obtain ⟨root, mem', run, shape', _⟩ := shape.attachAt (u := { u with mem := mem }) ready rfl rfl d
    (found_turns shape.wf data) (by simp)
  refine ⟨{ u with root := root, mem := mem' }, ?_, plug c (.node (internalCell t a) l r), shape',
    detached_members shape.wf data (by simp [stored_node, internalCell, Ref.toData])⟩
  have create : t.newInternal a.word.length = ((internalCell t a).ref, t.internal a none none) := rfl
  have setL : (t.internal a none none).setLeft (internalCell t a).ref (link l none) = some (t.internal a (link l none) none) :=
    (setLeft_nodeAt (write_read ..) _).trans (congrArg some (write_write ..))
  have setR : (t.internal a (link l none) none).setRight (internalCell t a).ref (link r (threadRef c)) = some u :=
    (setRight_nodeAt (write_read ..) _).trans (congrArg some (write_write ..))
  simp only [Tree.replaceByInternal, nodeAt_bitpos, nodeAt_left, nodeAt_right, create, setL, setR, Option.bind_eq_bind,
    Option.bind_some, rewire]
  exact run

section
variable (shape : Shape K t (plug (f :: c) (.node a .empty .empty)))
include shape

theorem Shape.dropAttach {m : Nat} (data : a.ref = .data d)
    (internal : f.label.ref = .int m) {mem : Ref D → Option (Node D)} (rep : Rep mem (threadRef c) f.other)
    (linked : Linked mem t.root c (some f.label.ref)) (live : Live mem) :
    ∃ u, (do
      let t ← { t with mem := mem }.attach K d (headRef c) (link f.other none)
      t.deleteInternal f.label.ref) = some u ∧ Detached K (plug (f :: c) (.node a .empty .empty)) d u := by
  have noData : f.label.ref.toData = none := by rw [internal]; rfl
  have full := frame_int shape.wf (List.mem_cons_self ..) noData
  have turns : ∀ g ∈ c, g.label.word ++ [g.dir] <+: key K d := fun g hg =>
    found_turns shape.wf data g (List.mem_cons_of_mem _ hg)
  have ready := shape.dropReady data noData rep linked live
  obtain ⟨root, mem', run, shape', changed⟩ := Shape.attachAt (c := c) (u := { t with mem := mem }) shape ready rfl rfl d turns
    fun _ _ _ => full
  rw [link_full full _ none] at run
  refine ⟨_, by simp only [run]; exact deleteInternal_int internal, plug c f.other, ?_,
    drop_members shape.wf data noData⟩
  refine shape'.frame (fun x hx => ?_) ?_
  · apply Function.update_of_ne
    rintro rfl
    exact shape.dropRefs.2.2 hx
  · rw [internal]
    exact shape'.live.free m

theorem Shape.dropInternal {m : Nat} (data : a.ref = .data d) (internal : f.label.ref = .int m) :
    ∃ u, t.dropInternal K (headRef c) f.label.ref (frameNode f c (some a.ref)) d
        (nodeAt a none (threadRef (f :: c))) = some u ∧
      Detached K (plug (f :: c) (.node a .empty .empty)) d u := by
  obtain ⟨⟨read, rep, linked⟩, _⟩ := shape.focus
  obtain ⟨distinct, apart, _⟩ := shape.dropRefs
  obtain ⟨_, away, wfO⟩ := (wf_focus shape.wf).2 f (List.mem_cons_self ..)
  have side := turn_bit (found_turns shape.wf data f (List.mem_cons_self ..))
  simp only [Tree.dropInternal, getBit_eq, frameNode_bitpos, side]
  cases dir : f.dir with
  | true =>
    simp only [dir] at rep
    have up : Above t (some f.label.ref) f.other := by
      rintro z ⟨⟩
      exact ⟨_, read, fun e he => frameNode_bitpos f c _ ▸ turn_length (away e he)⟩
    have room : f.other.size < t.turns := by
      have whole := Shape.room (c := c) shape (Int.le_refl _)
      rw [size_fill] at whole
      omega
    obtain ⟨mem, out, rewire, rethreaded, changed, _⟩ := rewire_spec rep wfO distinct up room (threadRef c)
    obtain ⟨u, run, detached⟩ := shape.dropAttach data internal rethreaded
      (linked.congr fun x hx => changed.same x fun h => apart x h hx) (changed.live shape.live)
    refine ⟨u, ?_, detached⟩
    rw [← run]
    simp only [if_true, frameNode, dir, nodeAt_left, nodeAt_right, threadRef_cons, rewire, Option.bind_eq_bind,
      Option.bind_some]
  | false =>
    simp only [dir] at rep
    obtain ⟨u, run, detached⟩ := shape.dropAttach data internal rep linked shape.live
    refine ⟨u, ?_, detached⟩
    rw [← run]
    have full := frame_int shape.wf (List.mem_cons_self ..) (by rw [internal]; rfl)
    simp [frameNode, dir, link_full full (threadRef c) none]

theorem Shape.dropLeaf (data : a.ref = .data d) {e : D} (above : f.label.ref = .data e) :
    ∃ u, (if getBit K d f.label.word.length then t.setRight f.label.ref (threadRef (f :: c))
        else t.setLeft f.label.ref none) = some u ∧ Detached K (plug (f :: c) (.node a .empty .empty)) d u := by
  obtain ⟨u, run, detached⟩ := shape.liftRight data (by rintro g ⟨⟩; simp [above, Ref.toData])
  refine ⟨u, ?_, detached⟩
  rw [← run]
  have side := turn_bit (found_turns shape.wf data f (List.mem_cons_self ..))
  have read := shape.focus.1.1
  cases dir : f.dir <;>
    simp [Tree.attach, headRef, read, frameNode_bitpos, getBit_eq, side, dir, holeThread, threadRef_cons]

end

theorem Shape.detach (shape : Shape K t (plug c (.node a l r))) (data : a.ref = .data d) :
    ∃ u, t.detach K (headRef c.tail) (headRef c) a.ref d (nodeAt a (link l none) (link r (threadRef c))) = some u ∧
      Detached K (plug c (.node a l r)) d u := by
  simp only [Tree.detach, nodeAt_right, shape.hasChild, nodeAt_left]
  cases l with
  | node b x y =>
    cases r with
    | node b' x' y' => simpa using shape.replaceByInternal data (by simp) (by simp)
    | empty => simpa using shape.liftLeft data (by simp)
  | empty =>
    cases r with
    | node b' x' y' => simpa using shape.liftRight data (by simp)
    | empty =>
      cases c with
      | nil => simpa [headRef, holeThread] using shape.liftRight data (by simp)
      | cons f c =>
        have read := shape.focus.1.1
        cases above : f.label.ref with
        | int m =>
          have drop := shape.dropInternal data above
          rw [above] at read drop
          simpa [headRef, above, read, frameNode_intnode, Ref.isInt] using drop
        | data e =>
          have drop := shape.dropLeaf data above
          rw [above] at read drop
          simpa [headRef, above, read, frameNode_intnode, frameNode_bitpos, Ref.isInt] using drop

theorem Shape.removeNode (shape : Shape K t T) (node : D) :
    (∀ d ∈ stored T, key K d ≠ key K node) ∧ t.removeNode K node = some (false, t) ∨
    (∃ d ∈ stored T, key K d = key K node) ∧ ∃ t' T', t.removeNode K node = some (true, t') ∧ Shape K t' T' ∧
      ∀ e, e ∈ stored T' ↔ e ∈ stored T ∧ key K e ≠ key K node := by
  obtain ⟨out, run, outcome⟩ := shape.removeTurn node
  cases outcome with
  | absent locals missing => exact .inl ⟨missing, by simp [Tree.removeNode, run]⟩
  | found locals c a l r d split data only kept =>
    subst split kept
    have self : d ∈ stored (plug c (.node a l r)) := stored_focus data
    have object : a.ref.toData = some d := toData_eq.mpr data
    simp only [Tree.removeNode, run, Option.bind_eq_bind, Option.bind_some, shape.read, object, compare_eq]
    by_cases same : key K node = key K d
    · obtain ⟨u, detach, T', shape', members⟩ := shape.detach data
      obtain ⟨n, own, kind⟩ := shape'.live node
      have others : ∀ e, e ∈ stored T' ↔ e ∈ stored (plug c (.node a l r)) ∧ key K e ≠ key K node := by
        intro e
        rw [members]
        refine and_congr_right fun inside => not_congr ⟨?_, fun equal => (only e inside equal).symm⟩
        rintro rfl
        exact same.symm
      refine .inr ⟨⟨d, self, same.symm⟩, _, T',
        by simp only [detach, same, Option.bind_some, show u.mem (.data node) = some n from own]; rfl,
        ?_, others⟩
      refine shape'.frame (fun x hx => ?_) (shape'.live.update kind)
      apply Function.update_of_ne
      rintro rfl
      obtain ⟨b, hb, ref⟩ := List.mem_map.mp hx
      exact ((others node).mp (mem_stored.mpr ⟨b, hb, ref⟩)).2 rfl
    · refine .inl ⟨fun e he equal => same ?_, by simp [same]⟩
      rw [only e he equal, equal]

end detachments

end TFCommon.Patricia
