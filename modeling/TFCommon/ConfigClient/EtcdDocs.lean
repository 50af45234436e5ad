import TFCommon.ConfigClient.Etcd

/-! What the walks over the members of a document do, member by member. -/
namespace TFCommon.ConfigClient.Etcd

def isField (k : Str) : Bool := !isName k && !skipProperties.contains k

/-! ### Shapes -/

def shapedRef (r : Ref) : Bool :=
  match r.fqName with
  | none => true
  | some (.parts l) => l ≠ []
  | some (.whole _) => false

/-- The members that the client looks into have the kind of value that it expects. -/
def shapedField (key : Str) (v : Val) : Bool :=
  if key = typeKey ∨ key = parentTypeKey ∨ key = parentUuidKey ∨ key = draftKey then
    match v with
    | .text _ => true
    | _ => false
  else if key = fqNameKey then
    match v with
    | .names l => l ≠ []
    | _ => false
  else if isRefs key then
    match v with
    | .refs l => l.all shapedRef
    | _ => false
  else true

variable {key : Str} {v : Val}

theorem shaped_text (shaped : shapedField key v = true)
    (named : key = typeKey ∨ key = parentTypeKey ∨ key = parentUuidKey ∨ key = draftKey) : ∃ s, v = .text s := by
  unfold shapedField at shaped
  rw [if_pos named] at shaped
  cases v with
  | text s => exact ⟨s, rfl⟩
  | names l | refs l | other json => cases shaped

theorem shaped_name (shaped : shapedField fqNameKey v = true) : ∃ l, v = .names l ∧ l ≠ [] := by
  cases v with
  | names l => exact ⟨l, rfl, of_decide_eq_true shaped⟩
  | text s | refs l | other json => cases shaped

theorem shaped_refs (shaped : shapedField key v = true) (refs : isRefs key = true) :
    ∃ l, v = .refs l ∧ ∀ r ∈ l, shapedRef r = true := by
  have other : ¬ (key = typeKey ∨ key = parentTypeKey ∨ key = parentUuidKey ∨ key = draftKey) ∧ key ≠ fqNameKey := by
    constructor
    · rintro (rfl | rfl | rfl | rfl) <;> exact absurd refs (by decide)
    · rintro rfl
      exact absurd refs (by decide)
  unfold shapedField at shaped
  rw [if_neg other.1, if_neg other.2, if_pos refs] at shaped
  cases v with
  | refs l => exact ⟨l, rfl, List.all_eq_true.mp shaped⟩
  | text s | names l | other json => cases shaped

/-! ### One member -/

def Fine {α : Type} (x : Except Fault α) : Prop := ∀ e, x = .error e → e = .unresolved

theorem Fine.ok {α : Type} (a : α) : Fine (.ok a) := nofun

theorem Fine.bind {α β : Type} {x : Except Fault α} {f : α → Except Fault β} (first : Fine x) (later : ∀ a, Fine (f a)) :
    Fine (x >>= f) := by
  intro e failed
  cases x with
  | error e' =>
    cases failed
    exact first e rfl
  | ok a => exact later a e failed

theorem fixRef_fine (names : Names) (link : Bool) {r : Ref} (shaped : shapedRef r = true) : Fine (fixRef names link r) := by
  unfold fixRef
  dsimp only
  split
  · cases given : r.fqName with
    | none => exact fun e failed => (Except.error.inj failed).symm
    | some name =>
      cases name with
      | whole s =>
        rw [shapedRef, given] at shaped
        cases shaped
      | parts l =>
        rw [shapedRef, given] at shaped
        dsimp only
        rw [joinName, if_neg (of_decide_eq_true shaped)]
        exact .ok _
  · exact .ok _

theorem fixRefs_fine (names : Names) (link : Bool) {l : List Ref} (shaped : ∀ r ∈ l, shapedRef r = true) :
    Fine (l.mapM (fixRef names link)) := by
  induction l with
  | nil => exact .ok _
  | cons r l ih =>
    rw [List.mapM_cons]
    refine (fixRef_fine names link (shaped r List.mem_cons_self)).bind fun _ => ?_
    exact (ih fun r mem => shaped r (List.mem_cons_of_mem _ mem)).bind fun _ => .ok _

variable (schema : Schema) (names : Names) (objType : Str)

theorem fixField_fine (shaped : shapedField key v = true) : Fine (fixField schema names objType true key v) := by
  unfold fixField
  split
  · exact .ok _
  · split
    · rename_i parent
      obtain ⟨s, rfl⟩ := shaped_text shaped (.inr (.inl parent))
      exact .ok _
    · split
      · rename_i parent
        obtain ⟨s, rfl⟩ := shaped_text shaped (.inr (.inr (.inl parent)))
        simp only [if_true]
        split
        · exact fun e failed => (Except.error.inj failed).symm
        · exact .ok _
      · split
        · exact .ok _
        · split
          · rename_i refs
            obtain ⟨l, rfl, all⟩ := shaped_refs shaped (Bool.and_eq_true_iff.mp refs).1
            exact (fixRefs_fine _ _ all).bind fun _ => .ok _
          · exact .ok _

theorem fixField_delete (text : key = parentTypeKey → ∃ s, v = .text s) :
    ∃ x, fixField schema names objType false key v = .ok x := by
  unfold fixField
  split
  · exact ⟨_, rfl⟩
  · split
    · rename_i parent
      obtain ⟨s, rfl⟩ := text parent
      exact ⟨_, rfl⟩
    · split
      · exact ⟨_, rfl⟩
      · split
        · exact ⟨_, rfl⟩
        · rw [Bool.and_false]
          exact ⟨_, rfl⟩

/-! ### The walk of a push -/

def WalkedAt (add : Bool) (k : Str) (v : Option Val) (doc json doc' json' : Doc) : Prop :=
  match v with
  | none => doc'.lookup k = doc.lookup k ∧ json'.lookup k = json.lookup k
  | some v =>
    if skipProperties.contains k ∨ k = typeKey then doc'.lookup k = none ∧ json'.lookup k = json.lookup k
    else ∃ x, fixField schema names objType add k v = .ok x ∧ doc'.lookup k = some x ∧
      json'.lookup k = if isRefs k && add && !schema.wrapped objType k then some x else json.lookup k

variable {schema names objType} {add : Bool} {doc json doc' json' held held' : Doc} {l : List Member}

theorem walk_spec (distinct : l.NodupKeys) (walked : walk schema names objType add l doc json = .ok (doc', json'))
    (k : Str) : WalkedAt schema names objType add k (l.dlookup k) doc json doc' json' := by
  induction l generalizing doc json with
  | nil =>
    cases walked
    exact ⟨rfl, rfl⟩
  | cons member l ih =>
    obtain ⟨key, v⟩ := member
    obtain ⟨once, apart⟩ := List.nodupKeys_cons.mp distinct
    unfold walk at walked
    by_cases here : k = key
    · subst here
      rw [List.dlookup_cons_eq]
      -- The rest of the walk leaves the member alone.
      have rest : ∀ {doc json}, walk schema names objType add l doc json = .ok (doc', json') →
          doc'.lookup k = doc.lookup k ∧ json'.lookup k = json.lookup k := by
        intro doc json walked
        have later := ih apart walked
        rw [List.dlookup_eq_none.mpr once] at later
        exact later
      dsimp only [WalkedAt]
      split at walked
      · rename_i skipped
        obtain ⟨docAt, jsonAt⟩ := rest walked
        rw [AList.lookup_erase] at docAt
        rw [if_pos (.inl skipped)]
        exact ⟨docAt, jsonAt⟩
      · rename_i plain
        split at walked
        · rename_i type
          cases v with
          | text s =>
            obtain ⟨docAt, jsonAt⟩ := rest walked
            rw [AList.lookup_erase] at docAt
            rw [if_pos (.inr type)]
            exact ⟨docAt, jsonAt⟩
          | names l | refs l | other json => cases walked
        · rename_i other
          obtain ⟨x, fixed, walked⟩ := bind_ok walked
          obtain ⟨docAt, jsonAt⟩ := rest walked
          rw [AList.lookup_insert] at docAt
          rw [if_neg (not_or.mpr ⟨plain, other⟩)]
          refine ⟨x, fixed, docAt, ?_⟩
          rw [jsonAt]
          split
          · exact AList.lookup_insert _
          · rfl
    · rw [List.dlookup_cons_ne _ _ here]
      -- This turn of the walk is about another member.
      have rest : ∀ {doc₁ json₁ : Doc}, doc₁.lookup k = doc.lookup k → json₁.lookup k = json.lookup k →
          walk schema names objType add l doc₁ json₁ = .ok (doc', json') →
          WalkedAt schema names objType add k (l.dlookup k) doc json doc' json' := by
        intro doc₁ json₁ docAt jsonAt walked
        have later := ih apart walked
        dsimp only [WalkedAt] at later ⊢
        rw [docAt, jsonAt] at later
        exact later
      split at walked
      · exact rest (AList.lookup_erase_ne here) rfl walked
      · split at walked
        · cases v with
          | text s => exact rest (AList.lookup_erase_ne here) rfl walked
          | names l | refs l | other json => cases walked
        · obtain ⟨x, fixed, walked⟩ := bind_ok walked
          refine rest (AList.lookup_insert_ne here) ?_ walked
          split
          · exact AList.lookup_insert_ne here
          · rfl

theorem walk_fine (shaped : ∀ m ∈ l, shapedField m.1 m.2 = true) : Fine (walk schema names objType true l doc json) := by
  induction l generalizing doc json with
  | nil => exact .ok _
  | cons member l ih =>
    obtain ⟨key, v⟩ := member
    have here := shaped ⟨key, v⟩ List.mem_cons_self
    have rest : ∀ {doc json}, Fine (walk schema names objType true l doc json) :=
      ih fun m mem => shaped m (List.mem_cons_of_mem _ mem)
    unfold walk
    split
    · exact rest
    · split
      · rename_i type
        obtain ⟨s, rfl⟩ := shaped_text here (.inl type)
        exact rest
      · exact (fixField_fine schema names objType here).bind fun _ => rest

theorem walk_delete (text : ∀ m ∈ l, m.1 = typeKey ∨ m.1 = parentTypeKey → ∃ s, m.2 = .text s) :
    ∃ result, walk schema names objType false l doc json = .ok result := by
  induction l generalizing doc json with
  | nil => exact ⟨_, rfl⟩
  | cons member l ih =>
    obtain ⟨key, v⟩ := member
    have here := text ⟨key, v⟩ List.mem_cons_self
    have rest : ∀ {doc json}, ∃ result, walk schema names objType false l doc json = .ok result :=
      ih fun m mem => text m (List.mem_cons_of_mem _ mem)
    unfold walk
    split
    · exact rest
    · split
      · rename_i type
        obtain ⟨s, same⟩ := here (.inl type)
        subst same
        exact rest
      · obtain ⟨x, fixed⟩ := fixField_delete schema names objType fun parent => here (.inr parent)
        rw [fixed]
        exact rest

/-! ### The pushes -/

theorem lookup_eraseAll (keys : List Str) (held : Doc) (k : Str) :
    (keys.foldl (fun held k => held.erase k) held).lookup k = if k ∈ keys then none else held.lookup k := by
  induction keys generalizing held with
  | nil => rfl
  | cons key keys ih =>
    rw [List.foldl_cons, ih]
    by_cases here : k = key
    · subst here
      rw [AList.lookup_erase, if_pos List.mem_cons_self, ite_self]
    · simp [here]

theorem lookup_applyAdd (sent held : Doc) {k : Str} (other : k ≠ fqNameKey) :
    (applyAdd sent held).lookup k = (sent.lookup k).or (held.lookup k) := by
  unfold applyAdd
  cases found : sent.lookup k with
  | none =>
    rw [← AList.lookup_erase_ne other] at found
    exact AList.lookup_union_right (AList.lookup_eq_none.mp found)
  | some x =>
    rw [← AList.lookup_erase_ne other] at found
    rw [AList.lookup_union_left (AList.lookup_isSome.mp (by rw [found]; rfl)), found]
    rfl

theorem lookup_applyAdd_name (sent held : Doc) : (applyAdd sent held).lookup fqNameKey = held.lookup fqNameKey :=
  AList.lookup_union_right (AList.lookup_eq_none.mp (AList.lookup_erase _ _))

theorem isField_iff {k : Str} : isField k = true ↔ ¬ (skipProperties.contains k ∨ k = typeKey) ∧ k ≠ fqNameKey := by
  simp [isField, isName, and_comm, and_assoc]

theorem push_cases (pushed : generateAndPushJson schema names objType add doc json held = .ok (json', held')) :
    ∃ sent, walk schema names objType add doc.entries doc json = .ok (sent, json') ∧
      (held' = (if add then applyAdd sent held else applyDelete sent held) ∨
        (∀ k ∈ doc, isName k = true) ∧ held' = held) := by
  obtain ⟨⟨sent, json''⟩, walked, pushed⟩ := bind_ok pushed
  dsimp only at pushed
  split at pushed
  · cases pushed
    exact ⟨sent, walked, .inl rfl⟩
  · rename_i all
    cases pushed
    exact ⟨sent, walked, .inr ⟨by simpa [AList.mem_keys] using all, rfl⟩⟩

def PushedAt (schema : Schema) (names : Names) (objType : Str) (k : Str) (v : Option Val) (json held json' held' : Doc) :
    Prop :=
  match v with
  | none => held'.lookup k = held.lookup k ∧ json'.lookup k = json.lookup k
  | some v =>
    if isField k then ∃ x, fixField schema names objType true k v = .ok x ∧ held'.lookup k = some x ∧
      json'.lookup k = if isRefs k && !schema.wrapped objType k then some x else json.lookup k
    else held'.lookup k = held.lookup k ∧ json'.lookup k = json.lookup k

theorem push_add (pushed : generateAndPushJson schema names objType true doc json held = .ok (json', held')) (k : Str) :
    PushedAt schema names objType k (doc.lookup k) json held json' held' := by
  obtain ⟨sent, walked, result⟩ := push_cases pushed
  have member : WalkedAt schema names objType true k (doc.lookup k) doc json sent json' :=
    walk_spec doc.nodupKeys walked k
  -- A member that is not sent stays as it was with the consumer.
  have stays : k = fqNameKey ∨ sent.lookup k = none → held'.lookup k = held.lookup k := by
    intro unsent
    rcases result with rfl | ⟨_, rfl⟩
    · rw [if_pos rfl]
      by_cases name : k = fqNameKey
      · subst name
        exact lookup_applyAdd_name sent held
      · rw [lookup_applyAdd sent held name, unsent.resolve_left name, Option.none_or]
    · rfl
  cases given : doc.lookup k with
  | none =>
    rw [given] at member
    exact ⟨stays (.inr (member.1.trans given)), member.2⟩
  | some v =>
    rw [given] at member
    dsimp only [WalkedAt, PushedAt] at member ⊢
    by_cases field : isField k = true
    · obtain ⟨plain, other⟩ := isField_iff.mp field
      rw [if_pos field]
      rw [if_neg plain] at member
      obtain ⟨x, fixed, sentAt, jsonAt⟩ := member
      rw [Bool.and_true] at jsonAt
      refine ⟨x, fixed, ?_, jsonAt⟩
      rcases result with rfl | ⟨all, rfl⟩
      · rw [if_pos rfl, lookup_applyAdd sent held other, sentAt]
        rfl
      · have named := all k (AList.lookup_isSome.mp (by rw [given]; rfl))
        simp [isField, named] at field
    · rw [if_neg field]
      by_cases plain : skipProperties.contains k ∨ k = typeKey
      · rw [if_pos plain] at member
        exact ⟨stays (.inr member.1), member.2⟩
      · rw [if_neg plain] at member
        obtain ⟨x, _, _, jsonAt⟩ := member
        have name : k = fqNameKey := by
          by_contra other
          exact field (isField_iff.mpr ⟨plain, other⟩)
        refine ⟨stays (.inl name), jsonAt.trans (if_neg ?_)⟩
        rw [name]
        simp [show isRefs fqNameKey = false by decide]

theorem push_delete (pushed : generateAndPushJson schema names objType false doc json held = .ok (json', held')) (k : Str) :
    (held.lookup k = none → held'.lookup k = none) ∧
      (isField k = true → held'.lookup k = if k ∈ doc then none else held.lookup k) := by
  obtain ⟨sent, walked, result⟩ := push_cases pushed
  have member : WalkedAt schema names objType false k (doc.lookup k) doc json sent json' :=
    walk_spec doc.nodupKeys walked k
  rcases result with rfl | ⟨all, rfl⟩
  · have removed : (applyDelete sent held).lookup k = if k ∈ sent.keys then none else held.lookup k :=
      lookup_eraseAll sent.keys held k
    rw [if_neg Bool.false_ne_true, removed]
    refine ⟨fun empty => by rw [empty, ite_self], fun field => ?_⟩
    have sentIff : k ∈ sent.keys ↔ k ∈ doc := by
      rw [← AList.mem_keys, ← AList.lookup_isSome, ← AList.lookup_isSome]
      cases given : doc.lookup k with
      | none =>
        rw [given] at member
        rw [member.1, given]
      | some v =>
        rw [given] at member
        dsimp only [WalkedAt] at member
        rw [if_neg (isField_iff.mp field).1] at member
        obtain ⟨x, _, sentAt, _⟩ := member
        rw [sentAt]
        exact ⟨fun _ => rfl, fun _ => rfl⟩
    simp only [sentIff]
  · refine ⟨id, fun field => ?_⟩
    have absent : k ∉ doc := by
      intro mem
      simp [isField, all k mem] at field
    rw [if_neg absent]

theorem push_add_fine (shaped : ∀ m ∈ doc.entries, shapedField m.1 m.2 = true) :
    Fine (generateAndPushJson schema names objType true doc json held) := by
  refine (walk_fine shaped).bind fun sent => ?_
  dsimp only
  split
  · exact .ok _
  · exact .ok _

theorem push_delete_ok (text : ∀ m ∈ doc.entries, m.1 = typeKey ∨ m.1 = parentTypeKey → ∃ s, m.2 = .text s) :
    ∃ result, generateAndPushJson schema names objType false doc json held = .ok result := by
  have walks : ∃ sent, walk schema names objType false doc.entries doc json = .ok sent := walk_delete text
  obtain ⟨sent, walked⟩ := walks
  unfold generateAndPushJson
  rw [walked]
  split <;> exact ⟨_, rfl⟩

/-! ### The walk of an update -/

def DiffAt (isNew : Bool) (k : Str) (v : Option Val) (d d' : Diff) : Prop :=
  match v with
  | none => d'.updated.lookup k = d.updated.lookup k ∧ d'.cached.lookup k = d.cached.lookup k
  | some v =>
    if k = draftKey then d'.updated.lookup k = none ∧ d'.cached.lookup k = d.cached.lookup k
    else if isNew || isName k then d'.updated.lookup k = d.updated.lookup k ∧ d'.cached.lookup k = d.cached.lookup k
    else d'.cached.lookup k = none ∧
      d'.updated.lookup k = if d.cached.lookup k = some v then none else d.updated.lookup k

theorem DiffAt.either {isNew : Bool} {k : Str} {v : Option Val} {d d' : Diff} (changed : DiffAt isNew k v d d') :
    (d'.updated.lookup k = none ∨ d'.updated.lookup k = d.updated.lookup k) ∧
      (d'.cached.lookup k = none ∨ d'.cached.lookup k = d.cached.lookup k) := by
  unfold DiffAt at changed
  split at changed
  · exact ⟨.inr changed.1, .inr changed.2⟩
  · split_ifs at changed
    · exact ⟨.inl changed.1, .inr changed.2⟩
    · exact ⟨.inr changed.1, .inr changed.2⟩
    · exact ⟨.inl changed.2, .inl changed.1⟩
    · exact ⟨.inr changed.2, .inl changed.1⟩

theorem diff_spec {isNew : Bool} (distinct : l.NodupKeys) (shaped : ∀ m ∈ l, shapedField m.1 m.2 = true)
    (undrafted : ∀ mode, (⟨draftKey, .text mode⟩ : Member) ∈ l → mode = []) (d : Diff) :
    ∃ d', diff isNew l d = .ok (some d') ∧ ∀ k, DiffAt isNew k (l.dlookup k) d d' := by
  induction l generalizing d with
  | nil => exact ⟨d, rfl, fun k => ⟨rfl, rfl⟩⟩
  | cons member l ih =>
    obtain ⟨key, v⟩ := member
    obtain ⟨once, apart⟩ := List.nodupKeys_cons.mp distinct
    have here := shaped ⟨key, v⟩ List.mem_cons_self
    -- One turn changes the member `key` only, and the rest of the walk leaves it alone.
    have turn : ∀ d₁ : Diff, DiffAt isNew key (some v) d d₁ →
        (∀ k, k ≠ key → d₁.updated.lookup k = d.updated.lookup k ∧ d₁.cached.lookup k = d.cached.lookup k) →
        ∃ d', diff isNew l d₁ = .ok (some d') ∧ ∀ k, DiffAt isNew k (List.dlookup k (⟨key, v⟩ :: l)) d d' := by
      intro d₁ changed others
      obtain ⟨d', ran, later⟩ := ih apart (fun m mem => shaped m (List.mem_cons_of_mem _ mem))
        (fun mode mem => undrafted mode (List.mem_cons_of_mem _ mem)) d₁
      refine ⟨d', ran, fun k => ?_⟩
      have rest := later k
      by_cases same : k = key
      · subst same
        rw [List.dlookup_eq_none.mpr once] at rest
        rw [List.dlookup_cons_eq]
        dsimp only [DiffAt] at rest changed ⊢
        rw [rest.1, rest.2]
        exact changed
      · rw [List.dlookup_cons_ne _ _ same]
        dsimp only [DiffAt] at rest ⊢
        rw [(others k same).1, (others k same).2] at rest
        exact rest
    have unchanged : (isNew || isName key) = true ∧ key ≠ draftKey → ∀ objType,
        ∃ d', diff isNew l { d with objType } = .ok (some d') ∧ ∀ k, DiffAt isNew k (List.dlookup k (⟨key, v⟩ :: l)) d d' := by
      intro other objType
      refine turn _ ?_ fun k _ => ⟨rfl, rfl⟩
      dsimp only [DiffAt]
      rw [if_neg other.2, if_pos other.1]
      exact ⟨rfl, rfl⟩
    unfold diff
    split
    · rename_i draft
      obtain ⟨mode, rfl⟩ := shaped_text here (.inr (.inr (.inr draft)))
      subst draft
      have empty := undrafted mode List.mem_cons_self
      dsimp only
      rw [if_pos empty]
      refine turn _ ?_ fun k other => ⟨AList.lookup_erase_ne other, rfl⟩
      exact ⟨AList.lookup_erase _ _, rfl⟩
    · rename_i draft
      split
      · rename_i new
        have same := unchanged ⟨by rw [new]; rfl, draft⟩
        split
        · rename_i type
          obtain ⟨objType, rfl⟩ := shaped_text here (.inl type)
          exact same objType
        · split
          · rename_i name
            subst name
            obtain ⟨parts, rfl, some_⟩ := shaped_name here
            dsimp only
            rw [joinName, if_neg some_]
            exact same d.objType
          · exact same d.objType
      · rename_i old
        rw [Bool.not_eq_true] at old
        split
        · rename_i both
          refine turn _ ?_ fun k other => ⟨?_, AList.lookup_erase_ne other⟩
          · dsimp only [DiffAt]
            rw [if_neg draft, old, both.2]
            refine ⟨AList.lookup_erase _ _, ?_⟩
            split
            · exact AList.lookup_erase _ _
            · rfl
          · split
            · exact AList.lookup_erase_ne other
            · rfl
        · rename_i apart
          by_cases name : isName key = true
          · exact unchanged ⟨by rw [name, Bool.or_true], draft⟩ d.objType
          · rw [Bool.not_eq_true] at name
            have absent : d.cached.lookup key = none :=
              AList.lookup_eq_none.mpr fun mem => apart ⟨mem, name⟩
            refine turn _ ?_ fun k _ => ⟨rfl, rfl⟩
            dsimp only [DiffAt]
            rw [if_neg draft, old, name, absent]
            exact ⟨rfl, rfl⟩

end TFCommon.ConfigClient.Etcd
