import TFCommon.Patricia.Threads

/-! Exact and longest-prefix lookups. -/
namespace TFCommon.Patricia
open BitString BinTree

variable {D : Type} {K : KeyTraits D} {t : Tree D} {T : Trie D}
  {a : Cell D} {d : D} {l r X : Trie D} {i : Nat} {k : List Bool} {cand : Link D}

theorem stored_child (wf : WF K (.node a l r)) (hd : d ∈ stored (.node a l r))
    (other : a.ref ≠ .data d) : a.word.length < (key K d).length ∧ d ∈ stored (child (bit (key K d) a.word.length) l r) := by
  have side : ∀ b, d ∈ stored (child b l r) →
      a.word.length < (key K d).length ∧ d ∈ stored (child (bit (key K d) a.word.length) l r) := by
    intro b hb
    obtain ⟨e, he, data⟩ := mem_stored.mp hb
    have turn := (wf.child b).2 e he
    rw [cell_of_mem (wf.child b).1 he data] at turn
    exact ⟨turn_length turn, (turn_bit turn).symm ▸ hb⟩
  rw [stored_node] at hd
  rcases List.mem_append.mp hd with self | below
  · exact absurd (toData_eq.mp (by simpa using self)) other
  · rcases List.mem_append.mp below with left | right
    · exact side false left
    · exact side true right

theorem stored_extends {w : List Bool} (wf : WF K X) (under : Under w X) (hd : d ∈ stored X) :
    w <+: key K d := by
  obtain ⟨e, he, data⟩ := mem_stored.mp hd
  rw [← cell_of_mem wf he data]
  exact under e he

theorem stored_inside {c : Path D} (wf : WF K (plug c X)) (hd : d ∈ stored (plug c X))
    (turns : ∀ f ∈ c, f.label.word ++ [f.dir] <+: key K d) : d ∈ stored X := by
  obtain ⟨a, ha, data⟩ := mem_stored.mp hd
  have word := cell_of_mem wf ha data
  rcases (mem_plug ..).mp ha with inside | above
  · exact mem_stored.mpr ⟨a, inside, data⟩
  · obtain ⟨f, hf, label | other⟩ := (mem_outside ..).mp above
    · have longer := turn_length (turns f hf)
      rw [← word, label] at longer
      exact absurd longer (Nat.lt_irrefl _)
    · have away := ((wf_focus wf).2 f hf).2.1 a other
      rw [word] at away
      exact absurd (turn_unique (turns f hf) away) (by simp)

theorem Shape.stored_read (shape : Shape K t T) (hd : d ∈ stored T) :
    ∃ left right, t.mem (.data d) = some (nodeAt ⟨.data d, key K d⟩ left right) := by
  obtain ⟨a, ha, data⟩ := mem_stored.mp hd
  obtain ⟨c, l, r, rfl⟩ := mem_focus ha
  refine ⟨link l none, link r (threadRef c), ?_⟩
  rw [← data, shape.read, nodeAt, nodeAt, cell_of_mem shape.wf ha data]

inductive Matched {A : Type} (K : KeyTraits D) (T : Trie D) (node : D) (J : Path D → A → Prop) : Link D × A → Prop
  | absent (locals : A) (missing : ∀ d ∈ stored T, key K d ≠ key K node) : Matched K T node J (none, locals)
  | found (locals : A) (c : Path D) (a : Cell D) (l r : Trie D) (d : D) (split : plug c (.node a l r) = T)
      (data : a.ref = .data d) (only : ∀ e ∈ stored T, key K e = key K node → d = e) (kept : J c locals) :
      Matched K T node J (some a.ref, locals)

theorem Shape.matched {A : Type} (shape : Shape K t T) (node : D) (next : Ref D → Node D → A → A) (start : A)
    (J : Path D → A → Prop) (initial : J [] start)
    (step : ∀ c a l r locals, plug c (.node a l r) = T → J c locals →
      J (down (bit (key K node) a.word.length) a l r :: c)
        (next a.ref (nodeAt a (link l none) (link r (threadRef c))) locals)) :
    ∃ out, loop (t.matchTurn K node next) t.turns (t.root, start) = some out ∧ Matched K T node J out := by
  rw [shape.root]
  refine shape.descend
    (fun c X locals => (∀ d ∈ stored T, key K d = key K node → d ∈ stored X) ∧ J c locals) _ ?_ rfl
    ⟨fun d hd _ => hd, initial⟩
  rintro c X locals rfl ⟨keep, inv⟩
  cases X with
  | empty =>
    refine .inl ⟨_, rfl, .absent _ fun d hd same => ?_⟩
    exact absurd (keep d hd same) (by simp)
  | node a l r =>
    have wf := (wf_focus shape.wf).1
    have under := wf.under
    set n := nodeAt a (link l none) (link r (threadRef c)) with hn
    have read : t.mem a.ref = some n := shape.read
    simp only [link_node, Tree.matchTurn, read, Tree.matchStop, Option.bind_eq_bind, Option.bind_some]
    have pos : n.bitpos = a.word.length := rfl
    rw [pos]
    by_cases past : K.bitLength node < a.word.length
    · refine .inl ⟨_, by rw [if_pos past]; rfl, .absent _ fun d hd same => ?_⟩
      have longer := (stored_extends wf under (keep d hd same)).length_le
      rw [same, key_length] at longer
      omega
    rw [if_neg past]
    by_cases here : a.word.length = K.bitLength node ∧ n.intnode = false
    · rw [if_pos here]
      cases data : a.ref with
      | int m => simp [hn, nodeAt, data, Ref.isInt] at here
      | data d =>
        refine .inl ⟨_, rfl, ?_⟩
        rw [← data]
        refine .found _ c a l r d rfl data (fun e he same => ?_) inv
        have within := stored_extends wf under (keep e he same)
        have word : a.word = key K e := within.eq_of_length (by rw [same, key_length]; exact here.1)
        have self : d ∈ stored (plug c (.node a l r)) := stored_focus data
        exact stored_unique shape.wf self he ((cell_of_mem wf (by simp) data).symm.trans word)
    rw [if_neg here]
    have down : ∀ d ∈ stored (plug c (.node a l r)), key K d = key K node →
        d ∈ stored (child (bit (key K node) a.word.length) l r) := by
      intro d hd same
      rw [← same]
      refine (stored_child wf (keep d hd same) fun data => here ⟨?_, ?_⟩).2
      · rw [cell_of_mem wf (by simp) data, same, key_length]
      · simp [hn, data, Ref.isInt]
    rcases shape.turnDown node (next a.ref n locals) (fun _ => ((none : Link D), next a.ref n locals)) rfl with
      again | ⟨empty, _, z, _, exit⟩
    · exact .inr ⟨a, l, r, _, _, rfl, again, down, step c a l r locals rfl inv⟩
    · refine .inl ⟨_, exit, .absent _ fun d hd same => ?_⟩
      have stays := down d hd same
      rw [empty] at stays
      exact absurd stays (by simp)

theorem Shape.find (shape : Shape K t T) (node : D) : ∃ out, t.find K node = some out ∧
    match out with
    | some d => d ∈ stored T ∧ key K d = key K node
    | none => ∀ d ∈ stored T, key K d ≠ key K node := by
  obtain ⟨out, run, outcome⟩ := shape.matched node (fun _ _ locals => locals) () (fun _ _ => True) trivial
    fun _ _ _ _ _ _ _ => trivial
  simp only [Tree.find, Tree.findNode, Tree.findTurn, run]
  cases outcome with
  | absent _ missing => exact ⟨none, rfl, missing⟩
  | found _ c a l r d split data only _ =>
    have self : d ∈ stored T := split ▸ stored_focus data
    simp only [data, Ref.toData, compare_eq]
    by_cases same : key K node = key K d
    · exact ⟨some d, by simp [same, nodeToData, Ref.toData], self, same.symm⟩
    · refine ⟨none, by simp [same, nodeToData], fun e he equal => same ?_⟩
      rw [← equal, only e he equal]

/-- The longest stored prefix of `k`, if any. -/
def IsLongestPrefix (K : KeyTraits D) (S : Set D) (k : List Bool) : Option D → Prop
  | some d => d ∈ S ∧ key K d <+: k ∧ ∀ e ∈ S, key K e <+: k → (key K e).length ≤ (key K d).length
  | none => ∀ e ∈ S, ¬ key K e <+: k

/-- Between the turns of the longest-prefix descent at the part `X`: `l` is the best match above it. -/
structure Best (K : KeyTraits D) (T : Trie D) (k : List Bool) (X : Trie D) (l : Link D) (i : Nat) : Prop where
  resume : ∀ a ∈ X.toList, i ≤ lcp k a.word
  candidate : ∀ x, l = some x → ∃ d, x = .data d ∧ d ∈ stored T ∧ key K d <+: k ∧ Under (key K d) X
  covered : ∀ e ∈ stored T, key K e <+: k → e ∈ stored X ∨ ∃ d, l = some (.data d) ∧ key K e <+: key K d

theorem Best.done {l : Link D} (best : Best K T k X l i)
    (rest : ∀ e ∈ stored X, ¬ key K e <+: k) : ∃ out, nodeToData l = some out ∧ IsLongestPrefix K (held T) k out := by
  cases l with
  | none =>
    refine ⟨none, rfl, fun e he match_ => ?_⟩
    rcases best.covered e he match_ with inside | ⟨d, impossible, _⟩
    · exact rest e inside match_
    · simp at impossible
  | some x =>
    obtain ⟨d, rfl, hd, here, _⟩ := best.candidate x rfl
    refine ⟨some d, rfl, hd, here, fun e he match_ => ?_⟩
    rcases best.covered e he match_ with inside | ⟨d', same, shorter⟩
    · exact absurd match_ (rest e inside)
    · cases same
      exact shorter.length_le

theorem Best.pass (wf : WF K (.node a l r))
    (best : Best K T k (.node a l r) cand i) (own : ∀ d, a.ref = .data d → key K d <+: k → cand = some (.data d)) :
    Best K T k (child (bit k a.word.length) l r) cand i := by
  refine ⟨fun e he => best.resume e (mem_of_child he), fun x hx => ?_, fun e he match_ => ?_⟩
  · obtain ⟨d, data, hd, here, under⟩ := best.candidate x hx
    exact ⟨d, data, hd, here, fun e he => under e (mem_of_child he)⟩
  · rcases best.covered e he match_ with below | above
    · by_cases self : a.ref = .data e
      · exact .inr ⟨e, own e self match_, List.prefix_refl _⟩
      · obtain ⟨longer, side⟩ := stored_child wf below self
        rw [bit_prefix_eq match_ longer] at side
        exact .inl side
    · exact .inr above

theorem Best.compared
    (wf : WF K (.node a l r)) (best : Best K T k (.node a l r) cand i) (data : a.ref = .data d) (hd : d ∈ stored T) :
    Best K T k (.node a l r) (if lcp k a.word = a.word.length then some a.ref else cand) (lcp k a.word) := by
  have word : a.word = key K d := cell_of_mem wf (by simp) data
  refine ⟨fun e he => lcp_mono (wf.under e he), fun x hx => ?_, fun e he match_ => ?_⟩
  · split at hx
    · rename_i whole
      cases hx
      refine ⟨d, data, hd, ?_, word ▸ wf.under⟩
      rw [← word, prefix_iff_lcp, lcp_comm, whole]
    · exact best.candidate x hx
  · rcases best.covered e he match_ with below | ⟨d', same, shorter⟩
    · exact .inl below
    · refine .inr ?_
      split
      · obtain ⟨_, old, _, _, under⟩ := best.candidate _ same
        cases old
        exact ⟨d, by rw [data], shorter.trans (word ▸ under a (by simp))⟩
      · exact ⟨d', same, shorter⟩

theorem Shape.bestTurn (shape : Shape K t T) (node : D) {c : Path D}
    (split : plug c X = T) (best : Best K T (key K node) X cand i) :
    (∃ out, t.bestTurn K node (link X none, cand, i) = some (.exit out) ∧
      ∃ d, nodeToData out = some d ∧ IsLongestPrefix K (held T) (key K node) d) ∨
    ∃ a l r b next, X = .node a l r ∧
      t.bestTurn K node (link X none, cand, i) = some (.again (link (child b l r) none, next)) ∧
      Best K T (key K node) (child b l r) next.1 next.2 := by
  subst split
  cases X with
  | empty => exact .inl ⟨cand, rfl, best.done (by simp)⟩
  | node a l r =>
    have wf := (wf_focus shape.wf).1
    have descend : ∀ cand i, Best K (plug c (.node a l r)) (key K node) (.node a l r) cand i →
        (∀ d, a.ref = .data d → key K d <+: key K node → cand = some (.data d)) →
        (∃ out, Tree.bestTurn.descend K t node (nodeAt a (link l none) (link r (threadRef c))) cand i = some (.exit out) ∧
          ∃ d, nodeToData out = some d ∧ IsLongestPrefix K (held (plug c (.node a l r))) (key K node) d) ∨
        ∃ next, Tree.bestTurn.descend K t node (nodeAt a (link l none) (link r (threadRef c))) cand i =
            some (.again (link (child (bit (key K node) a.word.length) l r) none, next)) ∧
          Best K (plug c (.node a l r)) (key K node) (child (bit (key K node) a.word.length) l r) next.1 next.2 := by
      intro cand i best own
      rw [Tree.bestTurn.descend]
      by_cases past : K.bitLength node < a.word.length
      · refine .inl ⟨cand, by rw [if_pos (by exact past)], best.done fun e he match_ => ?_⟩
        have longer := ((stored_extends wf wf.under he).trans match_).length_le
        rw [key_length] at longer
        omega
      · rw [if_neg (by exact past)]
        have next := best.pass wf own
        rcases shape.turnDown node (cand, i) (fun _ => cand) rfl with again | ⟨empty, _, z, _, exit⟩
        · exact .inr ⟨(cand, i), again, next⟩
        · rw [empty] at next
          exact .inl ⟨cand, exit, next.done (by simp)⟩
    simp only [link_node, Tree.bestTurn, shape.read, Option.bind_eq_bind, Option.bind_some]
    cases data : a.ref with
    | int m =>
      rw [if_pos (by simp [data, Ref.isInt])]
      rcases descend cand i best (by simp [data]) with exit | ⟨next, again, later⟩
      · exact .inl exit
      · exact .inr ⟨a, l, r, _, next, rfl, again, later⟩
    | data d =>
      have word : a.word = key K d := cell_of_mem wf (by simp) data
      have hd : d ∈ stored (plug c (.node a l r)) := stored_focus data
      rw [if_neg (by simp [data, Ref.isInt])]
      simp only [Ref.toData, Option.bind_some, compareFrom_eq K node d i (word ▸ best.resume a (by simp))]
      by_cases equal : key K node = key K d
      · refine .inl ⟨_, by simp only [equal]; rfl, some d, rfl, hd, ?_, fun e _ match_ => ?_⟩
        · exact equal ▸ List.prefix_refl _
        · exact equal ▸ match_.length_le
      · simp only [equal]
        have compared := best.compared wf data hd
        rw [data, word] at compared
        have own : ∀ e, a.ref = .data e → key K e <+: key K node →
            (if lcp (key K node) (key K d) = (key K d).length then some (Ref.data d) else cand) = some (.data e) := by
          intro e self match_
          rw [data] at self
          cases self
          rw [if_pos (by rw [lcp_comm]; exact lcp_prefix_left match_)]
        have pos : (nodeAt a (link l none) (link r (threadRef c))).bitpos = (key K d).length := by rw [← word]; rfl
        rw [pos]
        rcases descend _ _ compared own with exit | ⟨next, again, later⟩
        · exact .inl exit
        · exact .inr ⟨a, l, r, _, next, rfl, again, later⟩

theorem Shape.lpmFind (shape : Shape K t T) (node : D) :
    ∃ out, t.lpmFind K node = some out ∧ IsLongestPrefix K (held T) (key K node) out := by
  have start : Best K T (key K node) T none 0 := ⟨by simp, by simp, fun e he _ => .inl he⟩
  have search : ∃ out, loop (t.bestTurn K node) t.turns (link T none, none, 0) = some out ∧
      ∃ d, nodeToData out = some d ∧ IsLongestPrefix K (held T) (key K node) d :=
    shape.descend (c := []) (fun _ X locals => Best K T (key K node) X locals.1 locals.2) _
      (fun c X locals split best => shape.bestTurn node split best) rfl start
  obtain ⟨out, run, d, data, longest⟩ := search
  refine ⟨d, ?_, longest⟩
  rw [Tree.lpmFind, Tree.findBestMatchNode, shape.root, run]
  exact data

end TFCommon.Patricia
