import TFCommon.Patricia.Lookup

/-! The stackless walk: `GetNext` goes through the stored nodes in preorder, `GetLast` to their end. -/
namespace TFCommon.Patricia
open BitString BinTree

variable {D : Type} {K : KeyTraits D} {t : Tree D} {T : Trie D}

def first (cells : List (Cell D)) : Link D := (dataOf cells).head?.map .data

variable {a : Cell D} {d : D} {c : Path D} {past rest : List D}

theorem first_data (data : a.ref = .data d) (rest : List (Cell D)) :
    first (a :: rest) = some a.ref := by
  simp [first, dataOf, data, Ref.toData]

theorem first_int (internal : a.ref.isInt = true) (rest : List (Cell D)) :
    first (a :: rest) = first rest := by
  simp [first, dataOf, (isInt_iff a.ref).mp internal]

inductive Walk (t : Tree D) (T : Trie D) (answer : Link D) : Nat → Link D × Ref D → Prop
  | ended (n : Nat) (l : Ref D) (spent : answer = none) : Walk t T answer n (none, l)
  | down (c : Path D) (a : Cell D) (l r : Trie D) (from_ : Ref D) (nl : Node D) (split : plug c (.node a l r) = T)
      (read : t.mem from_ = some nl) (above : nl.bitpos ≤ a.word.length)
      (here : answer = first (l.toList ++ r.toList ++ after c)) :
      Walk t T answer (2 * (node a l r).size + climb c) (some a.ref, from_)
  | up (c : Path D) (X : Trie D) (z from_ : Ref D) (nz nl : Node D) (split : plug c X = T) (thread : threadRef c = some z)
      (readUp : t.mem z = some nz) (read : t.mem from_ = some nl) (below : nz.bitpos < nl.bitpos)
      (here : answer = first (after c)) : Walk t T answer (climb c) (some z, from_)

section
variable {c : Path D} {a : Cell D} {l r X : Trie D} {answer : Link D} {n : Nat} {from_ : Ref D} {nl : Node D}

def Walks (t : Tree D) (T : Trie D) (answer : Link D) (n : Nat) (turn : Option (Turn (Link D × Ref D) (Link D))) : Prop :=
  (∃ out, turn = some (.exit out) ∧ out = answer) ∨
    ∃ next m, turn = some (.again next) ∧ m < n ∧ Walk t T answer m next

theorem Shape.arrive_child (shape : Shape K t T) (split : plug c (.node a l r) = T) (read : t.mem from_ = some nl)
    (below : nl.bitpos < a.word.length) (here : answer = first ((node a l r).toList ++ after c))
    (less : 2 * (node a l r).size + climb c < n) : Walks t T answer n (t.arrive from_ nl (some a.ref)) := by
  subst split
  simp only [Tree.arrive, shape.read]
  cases kind : a.ref.isInt with
  | false =>
    obtain ⟨d, data⟩ := isInt_false kind
    refine .inl ⟨some a.ref, if_pos ⟨below, kind⟩, ?_⟩
    rw [here, toList_node, List.cons_append, first_data data]
  | true =>
    refine .inr ⟨_, _, if_neg (by simp [kind]), less, .down c a l r from_ nl rfl read (by omega) ?_⟩
    rw [here, toList_node, List.cons_append, first_int kind]

theorem Shape.arrive_thread (shape : Shape K t T) (split : plug c X = T) (read : t.mem from_ = some nl)
    (inside : ∃ b ∈ X.toList, b.word.length = nl.bitpos) (here : answer = first (after c))
    (less : climb c < n) : Walks t T answer n (t.arrive from_ nl (threadRef c)) := by
  subst split
  cases thread : threadRef c with
  | none =>
    have stop := (thread_none (Option.map_eq_none_iff.mp thread)).2
    exact .inr ⟨_, 0, rfl, by omega, .ended 0 from_ (by simp [here, stop, first])⟩
  | some z =>
    obtain ⟨nz, readUp, low⟩ := shape.thread_low thread
    obtain ⟨b, hb, pos⟩ := inside
    have lower := low b hb
    simp only [Tree.arrive, readUp]
    exact .inr ⟨_, _, if_neg (by omega), less, .up c X z from_ nz nl rfl thread readUp read (by omega) here⟩

theorem Shape.walk_down (shape : Shape K t T) (split : plug c (.node a l r) = T) (read : t.mem from_ = some nl)
    (above : nl.bitpos ≤ a.word.length) (here : answer = first (l.toList ++ r.toList ++ after c)) :
    Walks t T answer (2 * (node a l r).size + climb c) (t.nextTurn (some a.ref, from_)) := by
  subst split
  have self := shape.read
  simp only [Tree.nextTurn, self, read, Option.bind_eq_bind, Option.bind_some]
  rw [if_neg (by simpa [nodeAt] using above)]
  have longer : ∀ b, ∀ a' ∈ (child b l r).toList, a.word.length < a'.word.length := fun b a' ha' =>
    turn_length (((wf_focus shape.wf).1.child b).2 a' ha')
  cases l with
  | node a' l' r' =>
    apply shape.arrive_child (c := down false a (.node a' l' r') r :: c) rfl self (longer false a' (by simp))
    · simp [here, after, down]
    · simp [climb, down]
      omega
  | empty =>
    cases r with
    | node a' l' r' =>
      apply shape.arrive_child (c := down true a .empty (.node a' l' r') :: c) rfl self (longer true a' (by simp))
      · simp [here, after]
      · simp [climb]
    | empty =>
      apply shape.arrive_thread rfl self ⟨a, by simp, rfl⟩ (by simpa using here)
      simp

theorem Shape.walk_up (shape : Shape K t T) {z : Ref D} {nz : Node D} (split : plug c X = T)
    (thread : threadRef c = some z) (readUp : t.mem z = some nz) (read : t.mem from_ = some nl)
    (below : nz.bitpos < nl.bitpos) (here : answer = first (after c)) :
    Walks t T answer (climb c) (t.nextTurn (some z, from_)) := by
  obtain ⟨f, outer, Y, rfl, above, rest, weight⟩ := thread_focus thread X
  rw [split] at above
  have self := (above ▸ shape : Shape K t _).read
  rw [self] at readUp
  cases readUp
  simp only [Tree.nextTurn, self, read, Option.bind_eq_bind, Option.bind_some]
  rw [if_pos below, here, rest]
  cases other : f.other with
  | node a' l' r' =>
    have under := (above ▸ shape : Shape K t _).wf
    have longer := turn_length (((wf_focus under).1.child true).2 a' (by simp [other]))
    apply shape.arrive_child (c := down true f.label Y f.other :: outer) (l := l') (r := r') ?_ self longer
    · simp [after]
    · rw [other] at weight
      simp only [climb, down, if_true] at weight ⊢
      omega
    · rw [← other]
      exact (plug_down true f.label Y f.other outer).trans above
  | empty =>
    apply shape.arrive_thread above self ⟨f.label, by simp, rfl⟩ (by simp)
    omega

end

theorem Shape.walk (shape : Shape K t T) {answer : Link D} {n turns : Nat} {s : Link D × Ref D}
    (walk : Walk t T answer n s) (enough : n < turns) : loop t.nextTurn turns s = some answer := by
  have turn : ∀ n s, Walk t T answer n s → Walks t T answer n (t.nextTurn s) := by
    intro n s walk
    cases walk with
    | ended n l spent => exact .inl ⟨_, rfl, spent.symm⟩
    | down c a l r from_ nl split read above here => exact shape.walk_down split read above here
    | up c X z from_ nz nl split thread readUp read below here => exact shape.walk_up split thread readUp read below here
  obtain ⟨out, run, rfl⟩ := loop_total (Walk t T answer) (· = answer) turn n turns s walk enough
  exact run

theorem Shape.getNextNode {l r : Trie D} (shape : Shape K t (plug c (.node a l r))) :
    t.getNextNode (some a.ref) = some (first (l.toList ++ r.toList ++ after c)) := by
  obtain ⟨b, x, y, top⟩ := plug_node c a l r
  have root : t.root = some b.ref := by rw [shape.root, top]; rfl
  have read : t.mem b.ref = some _ := (top ▸ shape : Shape K t (plug [] (.node b x y))).read
  simp only [Tree.getNextNode, root, read]
  apply shape.walk (.down c a l r a.ref _ rfl shape.read (by simp) rfl)
  have bound := climb_bound c (.node a l r)
  rw [shape.turns]
  omega

theorem Shape.getNextNode_begin (shape : Shape K t T) : t.getNextNode none = some (first T.toList) := by
  cases T with
  | empty =>
    have root : t.root = none := shape.root
    simp [Tree.getNextNode, root, first]
  | node a l r =>
    have root : t.root = some a.ref := shape.root
    have read : t.mem a.ref = some _ := shape.read (c := [])
    simp only [Tree.getNextNode, root, read, Option.bind_eq_bind, Option.bind_some]
    cases kind : a.ref.isInt with
    | false =>
      obtain ⟨d, data⟩ := isInt_false kind
      rw [toList_node, first_data data]
      simp [kind]
    | true =>
      rw [if_pos (by simpa [nodeAt] using kind), toList_node, first_int kind]
      apply shape.walk (.down [] a l r a.ref _ rfl read (by simp) (by simp [after]))
      rw [shape.turns]
      simp [climb]

theorem nodeToData_data (out : Option D) : nodeToData (out.map Ref.data) = some out := by
  cases out <;> rfl

theorem Shape.getNext_begin (shape : Shape K t T) : t.getNext none = some (stored T).head? := by
  rw [Tree.getNext, Option.map_none, shape.getNextNode_begin]
  exact nodeToData_data _

theorem stored_plug (c : Path D) (a : Cell D) (l r : Trie D) (data : a.ref = .data d) :
    stored (plug c (.node a l r)) = dataOf (before c) ++ d :: dataOf (l.toList ++ r.toList ++ after c) := by
  simp [stored, dataOf, toList_plug, data, Ref.toData]

theorem order_unique {l r : Trie D}
    (wf : WF K (plug c (.node a l r))) (order : stored (plug c (.node a l r)) = past ++ d :: rest)
    (data : a.ref = .data d) : past = dataOf (before c) ∧ rest = dataOf (l.toList ++ r.toList ++ after c) := by
  have distinct := order ▸ stored_nodup wf
  rw [stored_plug c a l r data] at order
  obtain ⟨_, tail, apart⟩ := List.nodup_append.mp distinct
  have notPast : d ∉ past := fun h => apart d h d (by simp) rfl
  obtain ⟨left, _, right⟩ := (List.append_cons_inj_of_notMem notPast (List.nodup_cons.mp tail).1).mp order.symm
  exact ⟨left, right⟩

theorem Shape.getNext_stored (shape : Shape K t T) (order : stored T = past ++ d :: rest) :
    t.getNext (some d) = some rest.head? := by
  obtain ⟨a, ha, data⟩ := mem_stored.mp (order ▸ (by simp) : d ∈ stored T)
  obtain ⟨c, l, r, rfl⟩ := mem_focus ha
  rw [Tree.getNext, Option.map_some, ← data, shape.getNextNode, (order_unique shape.wf order data).2]
  exact nodeToData_data _

/-- The data that `begin()` and repeated increments of the iterator visit before `end()`. -/
def Tree.visits (t : Tree D) : Nat → Option D → Option (List D)
  | 0, _ => none
  | n + 1, at_ => do
    match ← t.getNext at_ with
    | none => return []
    | some d => return d :: (← t.visits n (some d))

theorem Shape.visits_rest (shape : Shape K t T) (order : stored T = past ++ d :: rest) :
    t.visits (rest.length + 1) (some d) = some rest := by
  induction rest generalizing past d with
  | nil => simp [Tree.visits, shape.getNext_stored order]
  | cons e rest ih =>
    have later : stored T = (past ++ [d]) ++ e :: rest := by simp [order]
    have tail := ih later
    rw [Tree.visits, shape.getNext_stored order]
    simp [tail]

theorem Shape.visits (shape : Shape K t T) : t.visits ((stored T).length + 1) none = some (stored T) := by
  cases order : stored T with
  | nil => simp [Tree.visits, shape.getNext_begin, order]
  | cons d rest =>
    have tail := shape.visits_rest (show stored T = [] ++ d :: rest from order)
    rw [Tree.visits, shape.getNext_begin, order]
    simp [tail]

theorem stored_ne_nil (wf : WF K T) (full : T ≠ .empty) : stored T ≠ [] := by
  obtain ⟨d, hd⟩ := stored_nonempty wf full
  exact List.ne_nil_of_mem hd

structure GoesRight (t : Tree D) (T : Trie D) (body : Link D × Unit → Option (Turn (Link D × Unit) (Link D))) : Prop where
  right : ∀ c a l a' l' r', plug c (.node a l (.node a' l' r')) = T → body (some a.ref, ()) = some (.again (some a'.ref, ()))
  left : ∀ c a a' l' r', plug c (.node a (.node a' l' r') .empty) = T → body (some a.ref, ()) = some (.again (some a'.ref, ()))
  leaf : ∀ c a, plug c (.node a .empty .empty) = T → body (some a.ref, ()) = some (.exit (some a.ref))

theorem Shape.goRight {body : Link D × Unit → Option (Turn (Link D × Unit) (Link D))} (shape : Shape K t T)
    (goes : GoesRight t T body) {X : Trie D} (split : plug c X = T) (full : X ≠ .empty) :
    loop body t.turns (link X none, ()) = some ((stored X).getLast?.map .data) := by
  suffices h : ∃ out, loop body t.turns (link X none, ()) = some out ∧ out = (stored X).getLast?.map .data by
    obtain ⟨out, run, rfl⟩ := h
    exact run
  refine shape.descend (fun _ Y _ => Y ≠ .empty ∧ (stored Y).getLast? = (stored X).getLast?) _ ?_ split ⟨full, rfl⟩
  rintro c Y ⟨⟩ split ⟨full, same⟩
  have wf := (wf_focus (split ▸ shape.wf)).1
  cases Y with
  | empty => exact absurd rfl full
  | node a l r =>
    cases r with
    | node a' l' r' =>
      have below : stored (.node a' l' r') ≠ [] := stored_ne_nil (wf.child true).1 (by simp)
      refine .inr ⟨a, l, _, true, (), rfl, goes.right c a l a' l' r' split, by simp, ?_⟩
      rw [← same, stored_node a, child_true, ← List.append_assoc, List.getLast?_append_of_ne_nil _ below]
    | empty =>
      cases l with
      | node a' l' r' =>
        have below : stored (.node a' l' r') ≠ [] := stored_ne_nil (wf.child false).1 (by simp)
        refine .inr ⟨a, _, _, false, (), rfl, goes.left c a a' l' r' split, by simp, ?_⟩
        rw [← same, stored_node a, child_false, stored_empty, List.append_nil, List.getLast?_append_of_ne_nil _ below]
      | empty =>
        refine .inl ⟨_, goes.leaf c a split, ?_⟩
        cases data : a.ref with
        | data d => simp [← same, stored_node, data, Ref.toData]
        | int n => simp [wf_node, CellOK, data] at wf

theorem Shape.lastTurn (shape : Shape K t T) : GoesRight t T t.lastTurn := by
  constructor
  · rintro c a l a' l' r' rfl
    have child : Shape K t (plug (down true a l (.node a' l' r') :: c) (.node a' l' r')) := shape
    have longer := turn_length (((wf_focus shape.wf).1.child true).2 a' (by simp))
    simp [Tree.lastTurn, shape.read, nodeAt, child.read, Nat.le_of_lt longer]
  · rintro c a a' l' r' rfl
    cases thread : threadRef c with
    | none => simp [Tree.lastTurn, shape.read, nodeAt, thread]
    | some z =>
      obtain ⟨n, read, low⟩ := shape.thread_low thread
      simp [Tree.lastTurn, shape.read, thread, read, low a (by simp)]
  · rintro c a rfl
    cases thread : threadRef c with
    | none => simp [Tree.lastTurn, shape.read, nodeAt, thread]
    | some z =>
      obtain ⟨n, read, low⟩ := shape.thread_low thread
      simp [Tree.lastTurn, shape.read, thread, read, low a (by simp)]

theorem Shape.getLast (shape : Shape K t T) : t.getLast = some (stored T).getLast? := by
  cases T with
  | empty =>
    have root : t.root = none := shape.root
    simp [Tree.getLast, Tree.getLastNode, root, nodeToData]
  | node a l r =>
    have root : t.root = some a.ref := shape.root
    have run := shape.goRight shape.lastTurn (c := []) rfl (by simp)
    rw [link_node] at run
    rw [Tree.getLast, Tree.getLastNode, root]
    simp only [run]
    exact nodeToData_data _

end TFCommon.Patricia
