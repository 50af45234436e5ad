import TFCommon.Patricia.FindNext

/-! `FindNext` against the strict successor: the keys for which it returns it. -/
namespace TFCommon.Patricia
open BitString BinTree

variable {D : Type} {K : KeyTraits D} {t : Tree D} {T : Trie D}

/-- The stored node with the least key above `k`, if any. -/
def IsSuccessor (K : KeyTraits D) (S : Set D) (k : List Bool) : Option D → Prop
  | some d => d ∈ S ∧ k < key K d ∧ ∀ e ∈ S, k < key K e → key K d ≤ key K e
  | none => ∀ e ∈ S, ¬ k < key K e

/-- The key `k` leaves the stored keys to the right of the node `p`, reached by right turns only
at stored nodes. -/
def RightEdge (K : KeyTraits D) (S : Set D) (k : List Bool) : Prop :=
  ∃ p ∈ S, key K p ++ [true] <+: k ∧ (∀ e ∈ S, ¬ key K p ++ [true] <+: key K e) ∧
    ∀ q ∈ S, key K q <+: key K p → key K q ≠ key K p → key K q ++ [true] <+: key K p

/-- The keys for which `FindNext` is the strict successor: stored ones; those with a stored prefix
and either a successor or at the right edge; and those without one that agree with the successor
at every bit where another stored key leaves it. -/
def FindNextHolds (K : KeyTraits D) (S : Set D) (k : List Bool) : Prop :=
  (∃ d ∈ S, key K d = k) ∨
  (∃ p ∈ S, key K p <+: k) ∧ ((∃ s ∈ S, k < key K s) ∨ RightEdge K S k) ∨
  (∀ p ∈ S, ¬ key K p <+: k) ∧ ∀ m, IsSuccessor K S k (some m) → ∀ e ∈ S, ¬ key K m <+: key K e →
    bit k (lcp (key K m) (key K e)) = bit (key K m) (lcp (key K m) (key K e))

section
variable {k : List Bool}

theorem successor_unique {S : Set D} (distinct : ∀ d ∈ S, ∀ e ∈ S, key K d = key K e → d = e)
    {x y : Option D} (hx : IsSuccessor K S k x) (hy : IsSuccessor K S k y) : x = y := by
  cases x with
  | none =>
    cases y with
    | none => rfl
    | some e => exact absurd hy.2.1 (hx e hy.1)
  | some d =>
    cases y with
    | none => exact absurd hx.2.1 (hy d hx.1)
    | some e =>
      have same := le_antisymm (hx.2.2 e hy.1 hy.2.1) (hy.2.2 d hx.1 hx.2.1)
      exact congrArg some (distinct d hx.1 e hy.1 same)

theorem successor_first (wf : WF K T) {past rest : List D} (order : stored T = past ++ rest)
    (low : ∀ d ∈ past, ¬ k < key K d) (high : ∀ d ∈ rest, k < key K d) : IsSuccessor K (held T) k rest.head? := by
  have member : ∀ e, e ∈ held T ↔ e ∈ past ∨ e ∈ rest := fun e => by rw [mem_held, order, List.mem_append]
  have sorted := (List.pairwise_append.mp (order ▸ stored_sorted wf)).2.1
  cases rest with
  | nil =>
    intro e he
    exact low e (by simpa using (member e).mp he)
  | cons d rest =>
    refine ⟨(member d).mpr (.inr (by simp)), high d (by simp), fun e he above => ?_⟩
    rcases (member e).mp he with early | late
    · exact absurd above (low e early)
    · rcases List.mem_cons.mp late with rfl | late
      · exact le_refl _
      · exact le_of_lt ((List.pairwise_cons.mp sorted).1 e late)

theorem successor_exists (wf : WF K T) (k : List Bool) : ∃ out, IsSuccessor K (held T) k out := by
  cases found : (stored T).find? fun d => k < key K d with
  | none => exact ⟨none, fun e he above => List.find?_eq_none.mp found e he (by simpa using above)⟩
  | some d =>
    obtain ⟨high, past, rest, order, low⟩ := List.find?_eq_some_iff_append.mp found
    have above : k < key K d := of_decide_eq_true high
    have later := (List.pairwise_cons.mp (List.pairwise_append.mp (order ▸ stored_sorted wf)).2.1).1
    refine ⟨_, successor_first wf order (fun e he => by simpa using low e he) ?_⟩
    exact List.forall_mem_cons.mpr ⟨above, fun e he => lt_trans above (later e he)⟩

variable {d : D} {c : Path D} {X : Trie D}

theorem mem_dataOf {cells : List (Cell D)} : d ∈ dataOf cells ↔ ∃ a ∈ cells, a.ref = .data d := by
  simp [dataOf, toData_eq]

theorem mem_before (h : d ∈ dataOf (before c)) :
    ∃ f ∈ c, f.label.ref = .data d ∨ f.dir = true ∧ d ∈ stored f.other := by
  obtain ⟨a, ha, data⟩ := mem_dataOf.mp h
  obtain ⟨f, hf, rfl | ⟨dir, other⟩⟩ := (BinTree.mem_before c a).mp ha
  · exact ⟨f, hf, .inl data⟩
  · exact ⟨f, hf, .inr ⟨dir, mem_stored.mpr ⟨a, other, data⟩⟩⟩

theorem mem_after : d ∈ dataOf (after c) ↔ ∃ f ∈ c, f.dir = false ∧ d ∈ stored f.other := by
  simp only [mem_dataOf, BinTree.mem_after, mem_stored]
  tauto

theorem after_data (wf : WF K (plug c X)) (spent : dataOf (after c) = []) : after c = [] := by
  refine List.eq_nil_iff_forall_not_mem.mpr fun a ha => ?_
  obtain ⟨f, hf, dir, inside⟩ := (BinTree.mem_after c a).mp ha
  obtain ⟨d, hd⟩ := stored_nonempty ((wf_focus wf).2 f hf).2.2 fun empty => by simp [empty] at inside
  have some_ := mem_after.mpr ⟨f, hf, dir, hd⟩
  simp [spent] at some_

theorem stored_hole (c : Path D) (X : Trie D) :
    stored (plug c X) = dataOf (before c) ++ (stored X ++ dataOf (after c)) := by
  rw [stored, toList_plug, dataOf_append, dataOf_append, stored]

theorem sides (wf : WF K (plug c X)) (along : Along k c)
    (reach : ∀ f ∈ c, f.label.word <+: k) :
    (∀ d ∈ dataOf (before c), key K d < k) ∧ ∀ d ∈ dataOf (after c), k < key K d := by
  have other : ∀ f ∈ c, ∀ d ∈ stored f.other, f.label.word ++ [!f.dir] <+: key K d := fun f hf d hd =>
    stored_extends ((wf_focus wf).2 f hf).2.2 ((wf_focus wf).2 f hf).2.1 hd
  constructor
  · intro d hd
    obtain ⟨f, hf, data | ⟨dir, below⟩⟩ := mem_before hd
    · have turn := along.passed f hf d data
      rw [← frame_data wf hf data]
      exact lt_of_turn turn
    · have side := other f hf d below
      have bitK := along.turns f hf
      rw [dir] at side bitK
      have longer : f.label.word.length < k.length := by
        by_contra short
        rw [bit_past (Nat.le_of_not_lt short)] at bitK
        cases bitK
      have turn := turn_of_bit (reach f hf) longer
      rw [← bitK] at turn
      exact lt_of_branch side turn
  · intro d hd
    obtain ⟨f, hf, dir, below⟩ := mem_after.mp hd
    have side := other f hf d below
    rw [dir] at side
    rcases Nat.lt_or_ge f.label.word.length k.length with longer | short
    · have turn := turn_of_bit (reach f hf) longer
      rw [← along.turns f hf, dir] at turn
      exact lt_of_branch turn side
    · have whole := (reach f hf).eq_of_length (Nat.le_antisymm (reach f hf).length_le short)
      rw [← whole]
      exact lt_of_turn side

theorem part_side {w a : List Bool} (beyond : lcp k w < w.length) (extends_ : w <+: a) :
    if bit k (lcp k w) then a < k else k < a := by
  rcases Nat.lt_or_ge (lcp k w) k.length with inside | spent
  · obtain ⟨inK, inW⟩ := lcp_parts inside beyond
    cases side : bit k (lcp k w) with
    | true =>
      rw [side] at inK inW
      exact lt_of_branch (inW.trans extends_) inK
    | false =>
      rw [side] at inK inW
      exact lt_of_branch inK (inW.trans extends_)
  · rw [bit_past spent]
    have whole : k <+: w := prefix_iff_lcp.mpr (Nat.le_antisymm (lcp_le_left k w) spent)
    refine prefix_lt (whole.trans extends_) ?_
    rintro rfl
    have longer := extends_.length_le
    omega

theorem prefix_frame (wf : WF K (plug c X)) (turns : ∀ f ∈ c, f.dir = bit k f.label.word.length)
    {q : D} (hq : q ∈ stored (plug c X)) (below : key K q <+: k) :
    q ∈ stored X ∨ ∃ f ∈ c, f.label.ref = .data q := by
  obtain ⟨a, ha, data⟩ := mem_stored.mp hq
  rcases (mem_plug ..).mp ha with inside | above
  · exact .inl (mem_stored.mpr ⟨a, inside, data⟩)
  · obtain ⟨f, hf, rfl | other⟩ := (mem_outside ..).mp above
    · exact .inr ⟨f, hf, data⟩
    · have away := ((wf_focus wf).2 f hf).2.1 a other
      rw [cell_of_mem wf ha data] at away
      have side := turn_bit (away.trans below)
      rw [← turns f hf] at side
      simp at side

theorem reach_head {f : Frame (Cell D)} (wf : WF K (plug (f :: c) X))
    (head : f.label.word <+: k) : ∀ g ∈ f :: c, g.label.word <+: k :=
  List.forall_mem_cons.mpr ⟨head, fun g hg =>
    (prefix_of_turn (under_fill.mp ((wf_focus (c := c) wf).2 g hg).1).1).trans head⟩

theorem frame_mem {f : Frame (Cell D)} (hf : f ∈ c) (data : f.label.ref = .data d) :
    d ∈ stored (plug c X) :=
  mem_stored.mpr ⟨f.label, (mem_plug ..).mpr (.inr (label_outside hf)), data⟩

section
variable {f : Frame (Cell D)} {c : Path D} {X : Trie D}

theorem rightEdge_hole (wf : WF K (plug (f :: c) X)) (along : Along k (f :: c)) (apart : ∀ d ∈ stored X, ¬ key K d <+: k)
    (spent : after (f :: c) = []) (edge : RightEdge K (held (plug (f :: c) X)) k) :
    X = .empty ∧ f.dir = true ∧ threadRef c = none := by
  obtain ⟨p, hp, turn, bare, only⟩ := edge
  rcases prefix_frame wf along.turns hp (prefix_of_turn turn) with inside | ⟨g, hg, data⟩
  · exact absurd (prefix_of_turn turn) (apart p inside)
  have word : g.label.word = key K p := frame_data wf hg data
  have right : g.dir = true := by rw [along.turns g hg, word, turn_bit turn]
  -- nothing is stored to the right of `p`, so its frame is the innermost one
  obtain ⟨inner, outer, path⟩ := List.append_of_mem hg
  have nothing : plug inner X = .empty := by
    by_contra full
    rw [path, plug_append] at wf bare
    obtain ⟨wfIn, above⟩ := wf_focus wf
    obtain ⟨e, he⟩ := stored_nonempty wfIn full
    have under := stored_extends wfIn (above g (by simp)).1 he
    rw [word, right] at under
    exact bare e (by rw [mem_held, stored_hole]; simp [he]) under
  cases inner with
  | cons h inner =>
    obtain ⟨l, r, filled, _⟩ := fill_node h X
    obtain ⟨b, u, v, full⟩ := plug_node inner h.label l r
    rw [plug_cons, filled, full] at nothing
    cases nothing
  | nil =>
    obtain ⟨rfl, rfl⟩ := List.cons.inj path
    refine ⟨nothing, right, ?_⟩
    by_contra some_
    obtain ⟨z, up⟩ := Option.ne_none_iff_exists'.mp some_
    obtain ⟨b, found, rfl⟩ := Option.map_eq_some_iff.mp up
    obtain ⟨inner, h, outer', rfl, rfl, left, _, rest⟩ := thread_frame found
    have hh : h ∈ inner ++ h :: outer' := by simp
    have below : h.label.word ++ [false] <+: key K p := by
      rw [← word, ← left]
      exact (under_fill.mp ((wf_focus (c := inner ++ h :: outer') wf).2 h hh).1).1
    cases kind : h.label.ref with
    | data q =>
      have hq := frame_data wf (List.mem_cons_of_mem f hh) kind
      rw [hq] at below
      have away := only q (frame_mem (List.mem_cons_of_mem f hh) kind) (prefix_of_turn below)
        fun same => absurd (turn_length below) (by simp [same])
      exact absurd (turn_unique below away) (by simp)
    | int m =>
      have full := frame_int wf (List.mem_cons_of_mem f hh) (by simp [kind, Ref.toData])
      rw [after, rest] at spent
      cases other : h.other with
      | empty => exact full other
      | node a l r => simp [other] at spent

theorem rightEdge_gap (wf : WF K (plug (f :: c) .empty)) {p : D} (data : f.label.ref = .data p)
    (along : Along k (f :: c)) (right : f.dir = true) (spent : threadRef c = none) :
    RightEdge K (held (plug (f :: c) .empty)) k := by
  have word : f.label.word = key K p := frame_data wf (by simp) data
  have turn := along.passed f (by simp) p data
  have under : ∀ g ∈ c, g.label.word ++ [g.dir] <+: f.label.word := fun g hg =>
    (under_fill.mp ((wf_focus (c := c) wf).2 g hg).1).1
  rw [word, right] at turn
  refine ⟨p, frame_mem (by simp) data, turn, fun e he below => ?_, fun q hq below differ => ?_⟩
  · rw [← word, ← right] at below
    have inside := stored_inside wf he (List.forall_mem_cons.mpr ⟨below, fun g hg => (under g hg).trans (prefix_of_turn below)⟩)
    simp at inside
  · rw [← word] at below differ ⊢
    rcases prefix_frame (c := c) wf (fun g hg => (turn_bit (under g hg)).symm) hq below with inside | ⟨g, hg, self⟩
    · obtain ⟨a, ha, here⟩ := mem_stored.mp inside
      have wordA := cell_of_mem (wf_focus (c := c) wf).1 ha here
      rcases List.mem_cons.mp ((perm_fill f .empty).mem_iff.mp ha) with rfl | other
      · exact absurd wordA.symm differ
      · have side := (wf_focus wf).2 f (by simp)
        have longer := turn_length (side.2.1 a (by simpa using other))
        have shorter := below.length_le
        rw [wordA] at longer
        omega
    · have straight := (thread_none (Option.map_eq_none_iff.mp spent)).1 g hg
      rw [← frame_data wf (List.mem_cons_of_mem f hg) self, ← straight]
      exact under g hg

/-- The hole that `k` leads to past a stored prefix, where everything inside lies on one side of `k`. -/
structure Gap (K : KeyTraits D) (k : List Bool) (f : Frame (Cell D)) (c : Path D) (X : Trie D) : Prop where
  wf : WF K (plug (f :: c) X)
  along : Along k (f :: c)
  reach : f.label.word <+: k
  passed : ∃ d ∈ stored (plug (f :: c) X), key K d <+: k
  apart : ∀ d ∈ stored X, ¬ key K d <+: k

theorem Gap.successor (gap : Gap K k f c X) {past rest : List D} (order : stored (plug (f :: c) X) = past ++ rest)
    (low : ∀ d ∈ past, key K d < k) (high : ∀ d ∈ rest, k < key K d) (more : rest ≠ []) :
    IsSuccessor K (held (plug (f :: c) X)) k rest.head? ∧ FindNextHolds K (held (plug (f :: c) X)) k := by
  refine ⟨successor_first gap.wf order (fun d hd => lt_asymm (low d hd)) high, .inr (.inl ⟨gap.passed, .inl ?_⟩)⟩
  obtain ⟨s, rest, rfl⟩ := List.exists_cons_of_ne_nil more
  exact ⟨s, by rw [mem_held, order]; simp, high s (by simp)⟩

theorem Gap.ended (gap : Gap K k f c X) (low : ∀ d ∈ stored (plug (f :: c) X), key K d < k) (out : Option D) :
    (IsSuccessor K (held (plug (f :: c) X)) k out ↔ out = none) ∧
      (FindNextHolds K (held (plug (f :: c) X)) k ↔ RightEdge K (held (plug (f :: c) X)) k) := by
  have nothing : IsSuccessor K (held (plug (f :: c) X)) k none := fun e he => lt_asymm (low e he)
  refine ⟨⟨fun h => successor_unique (held_distinct gap.wf) h nothing, fun h => h ▸ nothing⟩, ⟨?_, ?_⟩⟩
  · rintro (⟨d, hd, same⟩ | ⟨_, ⟨s, hs, above⟩ | edge⟩ | ⟨none_, _⟩)
    · exact absurd (low d hd) (by simp [same])
    · exact absurd above (nothing s hs)
    · exact edge
    · obtain ⟨p, hp, below⟩ := gap.passed
      exact absurd below (none_ p hp)
  · exact fun edge => .inr (.inl ⟨gap.passed, .inr edge⟩)

theorem Gap.landing (gap : Gap K k f c X) (inside : ∀ d ∈ stored X, key K d < k) {answer : Link D}
    (result : answer = landing (plug (f :: c) X) (f :: c)) (straight : ¬ (X = .empty ∧ f.dir = true ∧ threadRef c = none)) :
    ∃ out, nodeToData answer = some out ∧
      (IsSuccessor K (held (plug (f :: c) X)) k out ↔ FindNextHolds K (held (plug (f :: c) X)) k) := by
  obtain ⟨earlier, later⟩ := sides gap.wf gap.along (reach_head gap.wf gap.reach)
  have order : stored (plug (f :: c) X) = (dataOf (before (f :: c)) ++ stored X) ++ dataOf (after (f :: c)) := by
    rw [stored_hole, List.append_assoc]
  have low : ∀ d ∈ dataOf (before (f :: c)) ++ stored X, key K d < k := fun d hd =>
    (List.mem_append.mp hd).elim (earlier d) (inside d)
  by_cases spent : dataOf (after (f :: c)) = []
  · have empty := after_data gap.wf spent
    rw [spent, List.append_nil] at order
    obtain ⟨right, edge⟩ := gap.ended (order ▸ low) (stored (plug (f :: c) X)).head?
    refine ⟨(stored (plug (f :: c) X)).head?, ?_, ?_⟩
    · rw [result, Patricia.landing, if_pos empty]
      exact nodeToData_data _
    · rw [right, edge]
      obtain ⟨p, hp, _⟩ := gap.passed
      constructor
      · intro none_
        rw [List.head?_eq_none_iff.mp none_] at hp
        simp at hp
      · exact fun here => absurd (rightEdge_hole gap.wf gap.along gap.apart empty here) straight
  · refine ⟨(dataOf (after (f :: c))).head?, ?_, ?_⟩
    · have full : after (f :: c) ≠ [] := fun empty => spent (by rw [empty]; rfl)
      rw [result, Patricia.landing, if_neg full]
      exact nodeToData_data _
    · obtain ⟨found, holds⟩ := gap.successor order low later spent
      exact ⟨fun _ => holds, fun _ => found⟩

end

section
variable {c : Path D} {a : Cell D} {l r : Trie D} {d : D}

theorem lastData_none (none_ : lastData c = none) : ∀ f ∈ c, f.label.ref.toData = none := by
  intro f hf
  have internal := List.find?_eq_none.mp (Option.map_eq_none_iff.mp none_) f hf
  exact (isInt_iff _).mp (by simpa using internal)

theorem bare_side (wf : WF K (plug c (.node a l r))) (data : a.ref = .data d) (above : lastData c = none) {e : D}
    (he : e ∈ stored (plug c (.node a l r))) : key K d <+: key K e ∨
      ∃ f ∈ c, f.label.word ++ [f.dir] <+: key K d ∧ f.label.word ++ [!f.dir] <+: key K e := by
  have word : a.word = key K d := cell_of_mem wf ((mem_plug ..).mpr (.inl (by simp))) data
  obtain ⟨b, hb, self⟩ := mem_stored.mp he
  rcases (mem_plug ..).mp hb with inside | outer
  · refine .inl ?_
    rw [← word]
    exact stored_extends (wf_focus wf).1 (wf_focus wf).1.under (mem_stored.mpr ⟨b, inside, self⟩)
  · obtain ⟨f, hf, rfl | other⟩ := (mem_outside ..).mp outer
    · have internal := lastData_none above f hf
      rw [self] at internal
      cases internal
    · refine .inr ⟨f, hf, word ▸ ((wf_focus wf).2 f hf).1 a (by simp), ?_⟩
      rw [← cell_of_mem wf hb self]
      exact ((wf_focus wf).2 f hf).2.1 b other

theorem bare_holds (wf : WF K (plug c (.node a l r))) (data : a.ref = .data d) (parts : lcp k a.word < a.word.length)
    (along : Along k c) (above : lastData c = none) :
    IsSuccessor K (held (plug c (.node a l r))) k (if bit k (lcp k a.word) then none else some d) ↔
      FindNextHolds K (held (plug c (.node a l r))) k := by
  set S := held (plug c (.node a l r)) with hS
  have hd : d ∈ S := stored_focus data
  have word : a.word = key K d := cell_of_mem wf ((mem_plug ..).mpr (.inl (by simp))) data
  have away : ¬ a.word <+: k := fun h => by
    rw [lcp_comm, lcp_prefix_left h] at parts
    omega
  have unmatched : ∀ p ∈ S, ¬ key K p <+: k := by
    intro p hp below
    rcases prefix_frame wf along.turns hp below with inside | ⟨f, hf, self⟩
    · exact away ((stored_extends (wf_focus wf).1 (wf_focus wf).1.under inside).trans below)
    · have internal := lastData_none above f hf
      rw [self] at internal
      cases internal
  have reduced : FindNextHolds K S k ↔ ∀ m, IsSuccessor K S k (some m) → ∀ e ∈ S, ¬ key K m <+: key K e →
      bit k (lcp (key K m) (key K e)) = bit (key K m) (lcp (key K m) (key K e)) := by
    constructor
    · rintro (⟨e, he, same⟩ | ⟨⟨p, hp, below⟩, _⟩ | ⟨_, agree⟩)
      · exact absurd (same ▸ List.prefix_refl _) (unmatched e he)
      · exact absurd below (unmatched p hp)
      · exact agree
    · exact fun agree => .inr (.inr ⟨unmatched, agree⟩)
  rw [reduced]
  constructor
  · intro right m least e he leaves
    have found := successor_unique (held_distinct wf) right least
    split at found
    · cases found
    cases found
    rcases bare_side wf data above he with extends_ | ⟨f, hf, inD, inE⟩
    · exact absurd extends_ leaves
    · rw [lcp_of_branch inD inE, turn_bit inD, ← along.turns f hf]
  · intro agree
    obtain ⟨out, least⟩ := successor_exists wf k
    have under : ∀ m, out = some m → key K d <+: key K m := by
      rintro m rfl
      rcases bare_side wf data above least.1 with extends_ | ⟨f, hf, inD, inM⟩
      · exact extends_
      · have branch : lcp (key K m) (key K d) = f.label.word.length := by rw [lcp_comm, lcp_of_branch inD inM]
        have leaves : ¬ key K m <+: key K d := fun h => by
          have longer := turn_length inM
          rw [← lcp_prefix_left h] at longer
          omega
        have same := agree m least d hd leaves
        rw [branch, turn_bit inM, ← along.turns f hf] at same
        simp at same
    have side : ∀ e, a.word <+: e → if bit k (lcp k a.word) then e < k else k < e := fun e he => part_side parts he
    cases turn : bit k (lcp k a.word) with
    | true =>
      cases out with
      | none => exact least
      | some m =>
        have below := side (key K m) (word ▸ under m rfl)
        rw [turn] at below
        exact absurd least.2.1 (lt_asymm below)
    | false =>
      have higher := side (key K d) (word ▸ List.prefix_refl _)
      rw [turn] at higher
      cases out with
      | none => exact absurd higher (least d hd)
      | some m =>
        have smaller := least.2.2 d hd higher
        have same : key K d = key K m := (under m rfl).eq_of_length_le ?_
        · rw [held_distinct wf d hd m least.1 same]
          exact least
        · by_contra longer
          refine absurd smaller (not_le_of_gt (prefix_lt (under m rfl) fun equal => longer ?_))
          rw [equal]

end

/-- `FindNext` returns a result for every key, and it is the strict successor under `FindNextHolds` only. -/
theorem Shape.findNext (shape : Shape K t T) (node : D) : ∃ out, t.findNext K node = some out ∧
    (IsSuccessor K (held T) (key K node) out ↔ FindNextHolds K (held T) (key K node)) := by
  obtain ⟨link, run, found⟩ := shape.findNextNode node
  suffices answered : ∃ out, nodeToData link = some out ∧
      (IsSuccessor K (held T) (key K node) out ↔ FindNextHolds K (held T) (key K node)) by
    obtain ⟨out, data, right⟩ := answered
    exact ⟨out, by rw [Tree.findNext, run]; exact data, right⟩
  have wf := shape.wf
  cases found with
  | equal c a l r d split data same =>
    subst split
    have order : stored (plug c (.node a l r)) = (dataOf (before c) ++ [d]) ++ dataOf (l.toList ++ r.toList ++ after c) := by
      rw [stored_plug c a l r data]
      simp
    have sorted := order ▸ stored_sorted wf
    have across := (List.pairwise_append.mp sorted).2.2
    refine ⟨_, nodeToData_data _, fun _ => .inl ⟨d, ?_, same⟩, fun _ => successor_first wf order ?_ ?_⟩
    · rw [mem_held, order]
      simp
    · rw [← same]
      exact List.forall_mem_append.mpr ⟨fun e early => lt_asymm ((List.pairwise_append.mp (List.pairwise_append.mp sorted).1).2.2
        e early d (by simp)), List.forall_mem_singleton.mpr (lt_irrefl _)⟩
    · intro e he
      rw [← same]
      exact across d (by simp) e he
  | empty none_ =>
    subst none_
    refine ⟨none, rfl, fun _ => .inr (.inr ⟨by simp, ?_⟩), fun _ => by simp [IsSuccessor, held]⟩
    simp
  | gap f c d split data along =>
    subst split
    have turn := along.passed f (by simp) d data
    have gap : Gap K (key K node) f c .empty := by
      refine ⟨wf, along, prefix_of_turn turn, ⟨d, frame_mem (by simp) data, ?_⟩, by simp⟩
      rw [← frame_data wf (by simp) data]
      exact prefix_of_turn turn
    split
    · rename_i edge
      obtain ⟨dir, thread⟩ := edge
      refine ⟨none, rfl, fun _ => .inr (.inl ⟨gap.passed, .inr (rightEdge_gap wf data along dir thread)⟩), fun _ => ?_⟩
      have spent : after (f :: c) = [] := by
        simp [after, dir, (thread_none (Option.map_eq_none_iff.mp thread)).2]
      intro e he
      rw [mem_held, stored_hole, spent] at he
      exact lt_asymm ((sides wf along (reach_head wf gap.reach)).1 e (by simpa using he))
    · rename_i straight
      exact gap.landing (by simp) rfl fun edge => straight edge.2
  | bare c a l r d split data parts along above =>
    subst split
    refine ⟨_, ?_, bare_holds wf data parts along above⟩
    split
    · rfl
    · rw [data]
      rfl
  | stop f c w x y split along below shared beyond =>
    subst split
    have inner := (wf_focus wf).1
    have extends_ : ∀ d ∈ stored (.node w x y), w.word <+: key K d := fun d hd => stored_extends inner inner.under hd
    have head : f.label.word <+: w.word := prefix_of_turn (((wf_focus wf).2 f (by simp)).1 w (by simp))
    have away : ¬ w.word <+: key K node := fun h => by
      rw [lcp_comm, lcp_prefix_left h] at beyond
      omega
    have gap : Gap K (key K node) f c (.node w x y) :=
      ⟨wf, along, prefix_of_le_lcp head shared, below, fun d hd h => away ((extends_ d hd).trans h)⟩
    have side : ∀ d ∈ stored (.node w x y), _ := fun d hd => part_side beyond (extends_ d hd)
    split
    · rename_i turn
      simp only [turn] at side
      exact gap.landing side rfl fun edge => by cases edge.1
    · rename_i turn
      simp only [turn] at side
      obtain ⟨earlier, later⟩ := sides wf along (reach_head wf gap.reach)
      obtain ⟨d, hd⟩ := stored_nonempty inner (by simp)
      have order := stored_hole (f :: c) (.node w x y)
      obtain ⟨found, holds⟩ := gap.successor order earlier
        (fun e he => (List.mem_append.mp he).elim (side e) (later e)) (List.append_ne_nil_of_left_ne_nil (List.ne_nil_of_mem hd) _)
      refine ⟨_, ?_, fun _ => holds, fun _ => found⟩
      rw [stored, ← dataOf_append]
      exact nodeToData_data _

end

end TFCommon.Patricia
