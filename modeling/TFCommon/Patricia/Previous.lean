import TFCommon.Patricia.Iterate

/-! `GetPrev`: the greatest smaller key, except where the last right turn was made at a stored
prefix of the key that has no left subtree. -/
namespace TFCommon.Patricia
open BitString BinTree

variable {D : Type} {K : KeyTraits D} {t : Tree D} {T : Trie D}

/-- The stored node with the greatest key below `k`, if any. -/
def IsPredecessor (K : KeyTraits D) (S : Set D) (k : List Bool) : Option D → Prop
  | some d => d ∈ S ∧ key K d < k ∧ ∀ e ∈ S, key K e < k → key K e ≤ key K d
  | none => ∀ e ∈ S, ¬ key K e < k

def rightTurn : Path D → Option (Frame (Cell D))
  | [] => none
  | f :: c => if f.dir then some f else rightTurn c

def partialTurn : Path D → Option (Frame (Cell D))
  | [] => none
  | f :: c => if f.dir = false ∧ f.label.ref.isInt = false then some f else partialTurn c

theorem Shape.prevTurn (shape : Shape K t T) (node : D) :
    ∃ out, loop (t.prevTurn K node) t.turns (t.root, none, none) = some out ∧
      Matched K T node (fun c locals => locals = ((rightTurn c).map (·.label.ref), (partialTurn c).map (·.label.ref))) out := by
  apply shape.matched node _ (none, none)
  · rfl
  · rintro c a l r locals split rfl
    rw [getBit_eq]
    cases turn : bit (key K node) a.word.length with
    | true => simp [nodeAt, turn, rightTurn, partialTurn]
    | false => cases kind : a.ref.isInt <;> simp [nodeAt, turn, rightTurn, partialTurn, kind]

inductive LastTurn (c : Path D) : Prop
  | nothing (right : rightTurn c = none) (part : partialTurn c = none) (earlier : dataOf (before c) = [])
  | right (f : Frame (Cell D)) (inner outer : Path D) (split : c = inner ++ f :: outer) (dir : f.dir = true)
      (right : rightTurn c = some f) (part : partialTurn c = partialTurn outer)
      (earlier : dataOf (before c) = dataOf (before outer) ++ f.label.ref.toData.toList ++ stored f.other)
  | partly (f : Frame (Cell D)) (inner outer : Path D) (d : D) (split : c = inner ++ f :: outer) (dir : f.dir = false)
      (data : f.label.ref = .data d) (right : rightTurn c = rightTurn outer) (part : partialTurn c = some f)
      (earlier : dataOf (before c) = dataOf (before outer) ++ [d])

theorem last_turn (c : Path D) : LastTurn c := by
  induction c with
  | nil => exact .nothing rfl rfl rfl
  | cons f c ih =>
    cases dir : f.dir with
    | true =>
      refine .right f [] c rfl dir (by simp [rightTurn, dir]) (by simp [partialTurn, dir]) ?_
      cases h : f.label.ref <;> simp [before, dir, dataOf, stored, h, Ref.toData]
    | false =>
      cases data : f.label.ref with
      | data d =>
        refine .partly f [] c d rfl dir data (by simp [rightTurn, dir]) ?_ ?_
        · simp [partialTurn, dir, data, Ref.isInt]
        · simp [before, dir, dataOf, data, Ref.toData]
      | int n =>
        have right : rightTurn (f :: c) = rightTurn c := by simp [rightTurn, dir]
        have part : partialTurn (f :: c) = partialTurn c := by simp [partialTurn, data, Ref.isInt]
        have same : dataOf (before (f :: c)) = dataOf (before c) := by simp [before, dir, dataOf, data, Ref.toData]
        cases ih with
        | nothing r p e => exact .nothing (right.trans r) (part.trans p) (same.trans e)
        | right g inner outer split d r p e =>
          exact .right g (f :: inner) outer (by rw [split]; rfl) d (right.trans r) (part.trans p) (same.trans e)
        | partly g inner outer d split dir data r p e =>
          exact .partly g (f :: inner) outer d (by rw [split]; rfl) dir data (right.trans r) (part.trans p) (same.trans e)

variable {c : Path D} {f : Frame (Cell D)} {past rest : List D}

theorem partialTurn_mem (h : partialTurn c = some f) : f ∈ c := by
  induction c with
  | nil => simp [partialTurn] at h
  | cons g c ih =>
    rw [partialTurn] at h
    split at h
    · simp_all
    · exact List.mem_cons_of_mem g (ih h)

theorem rightTurn_mem (h : rightTurn c = some f) : f ∈ c := by
  induction c with
  | nil => simp [rightTurn] at h
  | cons g c ih =>
    rw [rightTurn] at h
    split at h
    · simp_all
    · exact List.mem_cons_of_mem g (ih h)

theorem outer_shorter {inner outer : Path D} {f g : Frame (Cell D)} {X : Trie D}
    (wf : WF K (plug (inner ++ f :: outer) X)) (hg : g ∈ outer) : g.label.word.length < f.label.word.length := by
  rw [plug_append, plug_cons] at wf
  exact turn_length (under_fill.mp ((wf_focus wf).2 g hg).1).1

theorem Shape.greatestTurn (shape : Shape K t T) : GoesRight t T t.greatestTurn := by
  constructor
  · rintro c a l a' l' r' rfl
    have child : Shape K t (plug (down true a l (.node a' l' r') :: c) (.node a' l' r')) := shape
    have longer := turn_length (((wf_focus shape.wf).1.child true).2 a' (by simp))
    simp [Tree.greatestTurn, Tree.move, shape.read, child.read, Nat.not_le.mpr longer]
  · rintro c a a' l' r' rfl
    cases thread : threadRef c with
    | none => simp [Tree.greatestTurn, Tree.move, shape.read, nodeAt, thread]
    | some z =>
      obtain ⟨n, read, low⟩ := shape.thread_low thread
      simp [Tree.greatestTurn, Tree.move, shape.read, thread, read, Nat.le_of_lt (low a (by simp))]
  · rintro c a rfl
    cases thread : threadRef c with
    | none => simp [Tree.greatestTurn, Tree.move, shape.read, nodeAt, thread]
    | some z =>
      obtain ⟨n, read, low⟩ := shape.thread_low thread
      simp [Tree.greatestTurn, Tree.move, shape.read, thread, read, Nat.le_of_lt (low a (by simp))]

theorem predecessor_unique {S : Set D} (distinct : ∀ d ∈ S, ∀ e ∈ S, key K d = key K e → d = e) {k : List Bool}
    {x y : Option D} (hx : IsPredecessor K S k x) (hy : IsPredecessor K S k y) : x = y := by
  cases x with
  | none =>
    cases y with
    | none => rfl
    | some e => exact absurd hy.2.1 (hx e hy.1)
  | some d =>
    cases y with
    | none => exact absurd hx.2.1 (hy d hx.1)
    | some e =>
      have same := le_antisymm (hy.2.2 d hx.1 hx.2.1) (hx.2.2 e hy.1 hy.2.1)
      exact congrArg some (distinct d hx.1 e hy.1 same)

theorem predecessor_last (wf : WF K T) {d : D} (order : stored T = past ++ d :: rest) :
    IsPredecessor K (held T) (key K d) past.getLast? := by
  have sorted := order ▸ stored_sorted wf
  obtain ⟨inPast, tail, across⟩ := List.pairwise_append.mp sorted
  have later := (List.pairwise_cons.mp tail).1
  have earlier : ∀ e ∈ held T, key K e < key K d → e ∈ past := by
    intro e he lt
    rw [mem_held, order, List.mem_append, List.mem_cons] at he
    rcases he with he | rfl | he
    · exact he
    · exact absurd lt (lt_irrefl _)
    · exact absurd (later e he) (lt_asymm lt)
  rcases past.eq_nil_or_concat' with rfl | ⟨past, p, rfl⟩
  · intro e he lt
    exact absurd (earlier e he lt) (by simp)
  · rw [List.getLast?_concat]
    refine ⟨by simp [order], across p (by simp) d (by simp), fun e he lt => ?_⟩
    have inside := earlier e he lt
    rcases List.mem_append.mp inside with before_ | last
    · exact le_of_lt ((List.pairwise_append.mp inPast).2.2 e before_ p (by simp))
    · rw [List.mem_singleton.mp last]

/-- Where `GetPrev` is right: a stored prefix that `k` leaves by a right turn is not `k`'s predecessor. -/
def GetPrevHolds (K : KeyTraits D) (S : Set D) (k : List Bool) : Prop :=
  ∀ q ∈ S, key K q ++ [true] <+: k → ∃ e ∈ S, key K q < key K e ∧ key K e < k

theorem getPrevHolds_iff (wf : WF K T) {d : D} (order : stored T = past ++ d :: rest) :
    GetPrevHolds K (held T) (key K d) ↔ ∀ p, past.getLast? = some p → ¬ key K p ++ [true] <+: key K d := by
  have predecessor := predecessor_last wf order
  constructor
  · intro holds p last turn
    rw [last] at predecessor
    obtain ⟨e, he, above, below⟩ := holds p predecessor.1 turn
    exact absurd above (not_lt_of_ge (predecessor.2.2 e he below))
  · intro last q hq turn
    have smaller := lt_of_turn turn
    cases pred : past.getLast? with
    | none =>
      rw [pred] at predecessor
      exact absurd smaller (predecessor q hq)
    | some p =>
      rw [pred] at predecessor
      refine ⟨p, predecessor.1, lt_of_le_of_ne (predecessor.2.2 q hq smaller) fun same => ?_, predecessor.2.1⟩
      exact last p pred (same ▸ turn)

theorem Shape.read_right {c inner outer : Path D} {X : Trie D} (shape : Shape K t (plug c X))
    (split : c = inner ++ f :: outer) (dir : f.dir = true) :
    t.mem f.label.ref = some (nodeAt f.label (link f.other none) (link (plug inner X) (threadRef outer))) := by
  rw [split, plug_append, plug_cons f, Frame.fill, if_pos dir] at shape
  exact shape.read

theorem Shape.prevFrom {a : Cell D} {l r : Trie D} {d : D} (shape : Shape K t (plug c (.node a l r)))
    (data : a.ref = .data d) :
    ∃ out, t.prevFrom ((rightTurn c).map (·.label.ref)) ((partialTurn c).map (·.label.ref)) = some (out.map .data) ∧
      (out = (dataOf (before c)).getLast? ↔
        ∀ p, (dataOf (before c)).getLast? = some p → ¬ key K p ++ [true] <+: key K d) := by
  have linked := shape.focus.1
  have word : a.word = key K d := cell_of_mem shape.wf ((mem_plug ..).mpr (.inl (by simp))) data
  have above : ∀ f ∈ c, f.label.word ++ [f.dir] <+: key K d := fun f hf =>
    word ▸ ((wf_focus shape.wf).2 f hf).1 a (by simp)
  cases last_turn c with
  | nothing right part earlier =>
    refine ⟨none, by simp [Tree.prevFrom, right, part], ?_⟩
    simp [earlier]
  | partly f inner outer e split dir fdata right part earlier =>
    have hf : f ∈ c := by simp [split]
    obtain ⟨_, _, read⟩ := linked.frame hf
    refine ⟨some e, ?_, ?_⟩
    · cases further : rightTurn outer with
      | none => simp [Tree.prevFrom, right, part, further, fdata]
      | some g =>
        have hg := rightTurn_mem further
        obtain ⟨_, _, readG⟩ := linked.frame (show g ∈ c by simp [split, hg])
        have shorter := outer_shorter (split ▸ shape.wf) hg
        rw [fdata] at read
        simp [Tree.prevFrom, right, part, further, readG, read, shorter, fdata]
    · have turn := above f hf
      rw [dir, frame_data shape.wf hf fdata] at turn
      simp only [earlier, List.getLast?_concat, true_iff]
      rintro p ⟨⟩ right
      exact absurd (turn_unique turn right) (by simp)
  | right f inner outer split dir right part earlier =>
    have hf : f ∈ c := by simp [split]
    have turn := above f hf
    rw [dir] at turn
    have greatest : t.prevFrom ((rightTurn c).map (·.label.ref)) ((partialTurn c).map (·.label.ref)) =
        loop t.greatestTurn t.turns (link f.other none, ()) := by
      have read := shape.read_right split dir
      cases further : partialTurn outer with
      | none => simp [Tree.prevFrom, right, part, further, read, nodeAt]
      | some g =>
        have hg := partialTurn_mem further
        obtain ⟨_, _, readG⟩ := linked.frame (show g ∈ c by simp [split, hg])
        have shorter := outer_shorter (split ▸ shape.wf) hg
        simp [Tree.prevFrom, right, part, further, read, readG, Nat.lt_asymm shorter]
    rw [greatest, earlier]
    cases other : f.other with
    | empty =>
      have ended : loop t.greatestTurn t.turns (link .empty none, ()) = some none := by
        exact loop_exit rfl
      obtain ⟨q, fdata⟩ : ∃ q, f.label.ref = .data q := by
        apply isInt_false
        cases kind : f.label.ref.isInt with
        | false => rfl
        | true => exact absurd other (frame_int shape.wf hf ((isInt_iff _).mp kind))
      refine ⟨none, ended, ?_⟩
      rw [frame_data shape.wf hf fdata] at turn
      simp [fdata, Ref.toData, turn]
    | node b x y =>
      obtain ⟨_, left, wfO⟩ := (wf_focus shape.wf).2 f hf
      have full := stored_ne_nil wfO (by simp [other])
      have place : plug (down false f.label f.other (plug inner (.node a l r)) :: outer) f.other =
          plug c (.node a l r) := by
        rw [split, plug_append, plug_cons f, Frame.fill, if_pos dir]
        exact plug_down false f.label f.other _ outer
      rw [← other]
      refine ⟨_, shape.goRight shape.greatestTurn place (by simp [other]), ?_⟩
      rw [List.getLast?_append_of_ne_nil _ full]
      simp only [true_iff]
      intro p hp right
      have below := (stored_extends wfO left (List.mem_of_getLast? hp)).trans (prefix_of_turn right)
      rw [dir] at below
      exact absurd (turn_unique turn below) (by simp)

theorem Shape.getPrev (shape : Shape K t T) {d node : D} (order : stored T = past ++ d :: rest)
    (same : key K node = key K d) : ∃ out, t.getPrev K node = some out ∧
      (out = past.getLast? ↔ GetPrevHolds K (held T) (key K d)) := by
  obtain ⟨out, run, outcome⟩ := shape.prevTurn node
  have self : d ∈ stored T := order ▸ (by simp)
  cases outcome with
  | absent _ missing => exact absurd same.symm (missing d self)
  | found _ c a l r e split data only kept =>
    subst split kept
    obtain rfl := only d self same.symm
    rw [getPrevHolds_iff shape.wf order, (order_unique shape.wf order data).1]
    obtain ⟨out, result, holds⟩ := shape.prevFrom data
    refine ⟨out, ?_, holds⟩
    simp only [Tree.getPrev, Tree.getPrevNode, run, Option.bind_eq_bind, Option.bind_some, data, Ref.toData, compare_eq,
      same, decide_true, if_true, result]
    exact nodeToData_data out

end TFCommon.Patricia
