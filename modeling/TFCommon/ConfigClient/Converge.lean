import TFCommon.ConfigClient.EtcdDocs

/-! The etcd client converges to the last event. -/
namespace TFCommon.ConfigClient.Etcd

/-! ### A value, the cached document and the consumer -/

def Formats (schema : Schema) (k : Str) (raw x : Val) : Prop :=
  ∃ names objType, fixField schema names objType true k raw = .ok x

/-- The member `k` of a value, of the cached document and of what the consumer holds. References may be cached as they
were pushed. -/
def ShownAt (schema : Schema) (k : Str) (raw json held : Option Val) : Prop :=
  match raw with
  | none => json = none ∧ held = none
  | some raw =>
    if isField k then
      ∃ x, held = some x ∧ Formats schema k raw x ∧ (json = some raw ∨ isRefs k = true ∧ json = some x)
    else json = some raw ∧ held = none

/-- The cached document is the value, and the consumer holds exactly its fields. -/
def Shows (schema : Schema) (v json held : Doc) : Prop :=
  ∀ k, ShownAt schema k (v.lookup k) (json.lookup k) (held.lookup k)

def isShaped (v : Doc) : Bool := v.entries.all fun m => shapedField m.1 m.2

def isDraft (v : Doc) : Bool := v.entries.any fun m => m.1 = draftKey && m.2 ≠ .text []

structure Proper (v : Doc) : Prop where
  type : typeKey ∈ v
  fqName : fqNameKey ∈ v
  shaped : isShaped v = true
  undrafted : isDraft v = false

variable {schema : Schema} {names : Names} {objType : Str} {v old json json' held held' : Doc} {d : Diff} {k : Str}

theorem Proper.member (h : Proper v) {x : Val} (given : v.lookup k = some x) : shapedField k x = true :=
  List.all_eq_true.mp h.shaped ⟨k, x⟩ (AList.mem_lookup_iff.mp given)

theorem Proper.shapedMembers (h : Proper v) : ∀ m ∈ v.entries, shapedField m.1 m.2 = true := List.all_eq_true.mp h.shaped

theorem Proper.undraftedMode (h : Proper v) (mode : Str) (mem : (⟨draftKey, .text mode⟩ : Member) ∈ v.entries) : mode = [] := by
  have none_ := List.any_eq_false.mp h.undrafted _ mem
  simpa using none_

theorem fixRef_whole {link : Bool} {r r' : Ref} (fixed : fixRef names link r = .ok r') : shapedRef r' = false := by
  unfold fixRef at fixed
  dsimp only at fixed
  split at fixed
  · cases given : r.fqName with
    | none =>
      rw [given] at fixed
      cases fixed
    | some name =>
      rw [given] at fixed
      cases name with
      | whole s => cases fixed
      | parts l =>
        obtain ⟨name, _, fixed⟩ := bind_ok fixed
        cases fixed
        rfl
  · cases fixed
    rfl

theorem fixRefs_whole {link : Bool} {l l' : List Ref} (fixed : l.mapM (fixRef names link) = .ok l') :
    ∀ r ∈ l', shapedRef r = false := by
  induction l generalizing l' with
  | nil =>
    cases fixed
    exact nofun
  | cons r l ih =>
    rw [List.mapM_cons] at fixed
    obtain ⟨first, fixedFirst, fixed⟩ := bind_ok fixed
    obtain ⟨rest, fixedRest, fixed⟩ := bind_ok fixed
    cases fixed
    exact List.forall_mem_cons.mpr ⟨fixRef_whole fixedFirst, ih fixedRest⟩

theorem Formats.self {raw x : Val} (formats : Formats schema k raw x) (refs : isRefs k = true)
    (shaped : shapedField k x = true) : Formats schema k x x := by
  obtain ⟨names, objType, fixed⟩ := formats
  refine ⟨names, objType, ?_⟩
  have other : k ≠ parentTypeKey ∧ k ≠ parentUuidKey ∧ k ≠ bgpaasKey := by
    refine ⟨?_, ?_, ?_⟩ <;> rintro rfl <;> exact absurd refs (by decide)
  unfold fixField at fixed ⊢
  split at fixed
  · rw [if_pos (by assumption)]
  · rename_i plain
    rw [if_neg other.1, if_neg other.2.1, if_neg other.2.2, if_pos (by rw [refs]; rfl)] at fixed
    rw [if_neg plain, if_neg other.1, if_neg other.2.1, if_neg other.2.2, if_pos (by rw [refs]; rfl)]
    cases raw with
    | text s | names l | other json => cases fixed
    | refs l =>
      obtain ⟨l', fixedAll, fixed⟩ := bind_ok fixed
      cases fixed
      obtain ⟨l'', same, all⟩ := shaped_refs shaped refs
      cases same
      cases l' with
      | nil => rfl
      | cons r l' =>
        have formatted := fixRefs_whole fixedAll r List.mem_cons_self
        rw [all r List.mem_cons_self] at formatted
        cases formatted

/-! ### One update -/

section
variable (shown : Shows schema v json held)
include shown

theorem Shows.others (plain : isField k = false) : held.lookup k = none := by
  have at_ := shown k
  dsimp only [ShownAt] at at_
  split at at_
  · exact at_.2
  · rw [plain] at at_
    exact at_.2

theorem Shows.absent (uncached : json.lookup k = none) : held.lookup k = none := by
  have at_ := shown k
  rw [uncached] at at_
  dsimp only [ShownAt] at at_
  split at at_
  · exact at_.2
  · split at at_
    · obtain ⟨_, _, _, cached | ⟨_, cached⟩⟩ := at_ <;> cases cached
    · exact at_.2

end

theorem PushedAt.plain {raw : Option Val} (pushed : PushedAt schema names objType k raw json held json' held')
    (plain : isField k = false) : held'.lookup k = held.lookup k ∧ json'.lookup k = json.lookup k := by
  unfold PushedAt at pushed
  split at pushed
  · exact pushed
  · rwa [plain] at pushed

theorem PushedAt.shows {raw : Val} (pushed : PushedAt schema names objType k (some raw) v held json' held')
    (given : v.lookup k = some raw) (unheld : isField k = false → held.lookup k = none) :
    ShownAt schema k (some raw) (json'.lookup k) (held'.lookup k) := by
  dsimp only [PushedAt, ShownAt] at pushed ⊢
  split at pushed
  · rename_i field
    obtain ⟨x, fixed, heldAt, jsonAt⟩ := pushed
    rw [if_pos field]
    refine ⟨x, heldAt, ⟨names, objType, fixed⟩, ?_⟩
    split at jsonAt
    · rename_i refs
      exact .inr ⟨(Bool.and_eq_true_iff.mp refs).1, jsonAt⟩
    · exact .inl (jsonAt.trans given)
  · rename_i plain
    rw [if_neg plain]
    exact ⟨pushed.2.trans given, pushed.1.trans (unheld (Bool.not_eq_true _ ▸ plain))⟩

theorem shows_create {cached : Doc} {old : Str}
    (changed : ∀ k, DiffAt true k (v.lookup k) ⟨v, cached, old⟩ d)
    (pushed : generateAndPushJson schema names objType true d.updated v held = .ok (json', held'))
    (within : ∀ k, v.lookup k = none ∨ isField k = false → held.lookup k = none) : Shows schema v json' held' := by
  intro k
  have diffAt := changed k
  have pushedAt := push_add pushed k
  cases given : v.lookup k with
  | none =>
    rw [given] at diffAt
    rw [diffAt.1.trans given] at pushedAt
    exact ⟨pushedAt.2.trans given, pushedAt.1.trans (within k (.inl given))⟩
  | some raw =>
    rw [given] at diffAt
    dsimp only [DiffAt] at diffAt
    split at diffAt
    · rename_i draft
      have plain : isField k = false := by
        rw [draft]
        decide
      have same := pushedAt.plain plain
      rw [ShownAt, plain]
      exact ⟨same.2.trans given, same.1.trans (within k (.inr plain))⟩
    · rw [diffAt.1.trans given] at pushedAt
      exact pushedAt.shows given fun plain => within k (.inr plain)

variable {start : Str}

theorem shows_update {held₂ old' : Doc} (proper : Proper v) (shown : Shows schema old json held)
    (changed : ∀ k, DiffAt false k (v.lookup k) ⟨v, json, start⟩ d)
    (pushed : generateAndPushJson schema names objType true d.updated v held = .ok (json', held'))
    (deleted : generateAndPushJson schema names objType false d.cached v held' = .ok (old', held₂)) :
    Shows schema v json' held₂ := by
  intro k
  have diffAt := changed k
  have pushedAt := push_add pushed k
  obtain ⟨none_, removed⟩ := push_delete deleted k
  cases given : v.lookup k with
  | none =>
    rw [given] at diffAt
    rw [diffAt.1.trans given] at pushedAt
    refine ⟨pushedAt.2.trans given, ?_⟩
    by_cases field : isField k = true
    · rw [removed field]
      split
      · rfl
      · rename_i absent
        exact pushedAt.1.trans (shown.absent (diffAt.2.symm.trans (AList.lookup_eq_none.mpr absent)))
    · exact none_ (pushedAt.1.trans (shown.others (Bool.not_eq_true _ ▸ field)))
  | some raw =>
    rw [given] at diffAt
    dsimp only [DiffAt] at diffAt
    by_cases field : isField k = true
    · have other : k ≠ draftKey ∧ isName k = false := by
        constructor
        · rintro rfl
          exact absurd field (by decide)
        · cases name : isName k with
          | false => rfl
          | true => simp [isField, name] at field
      rw [if_neg other.1, other.2, if_neg (by decide)] at diffAt
      rw [removed field, if_neg (AList.lookup_eq_none.mp diffAt.1)]
      split at diffAt
      · rename_i same
        have before := shown k
        rw [diffAt.2] at pushedAt
        rw [pushedAt.1, pushedAt.2, given]
        dsimp only [ShownAt] at before ⊢
        split at before
        · rw [before.1] at same
          cases same
        · rw [if_pos field] at before ⊢
          obtain ⟨x, heldAt, formats, cached | ⟨refs, cached⟩⟩ := before
          · cases cached.symm.trans same
            exact ⟨x, heldAt, formats, .inl rfl⟩
          · cases cached.symm.trans same
            exact ⟨_, heldAt, formats.self refs (proper.member given), .inl rfl⟩
      · rw [diffAt.2.trans given] at pushedAt
        exact pushedAt.shows given shown.others
    · have plain : isField k = false := Bool.not_eq_true _ ▸ field
      have same := pushedAt.plain plain
      rw [ShownAt, if_neg field]
      exact ⟨same.2.trans given, none_ (same.1.trans (shown.others plain))⟩

theorem Shows.deletable (proper : Proper v) (shown : Shows schema v json held) {doc : Doc}
    (part : ∀ k, doc.lookup k = none ∨ doc.lookup k = json.lookup k) :
    ∀ m ∈ doc.entries, m.1 = typeKey ∨ m.1 = parentTypeKey → ∃ s, m.2 = .text s := by
  rintro ⟨k, x⟩ mem named
  have given : doc.lookup k = some x := AList.mem_lookup_iff.mpr mem
  have cached : json.lookup k = some x := by
    rcases part k with absent | same
    · rw [absent] at given
      cases given
    · exact same.symm.trans given
  have kind : k = typeKey ∨ k = parentTypeKey ∨ k = parentUuidKey ∨ k = draftKey :=
    named.imp_right .inl
  have plain : isRefs k = false := by
    rcases named with rfl | rfl <;> decide
  have before := shown k
  dsimp only [ShownAt] at before
  split at before
  · rw [before.1] at cached
    cases cached
  · rename_i raw value
    have same : json.lookup k = some raw := by
      split at before
      · obtain ⟨_, _, _, same | ⟨refs, _⟩⟩ := before
        · exact same
        · rw [plain] at refs
          cases refs
      · exact before.1
    cases same.symm.trans cached
    exact shaped_text (proper.member value) kind

theorem shows_delete (shown : Shows schema v json held)
    (deleted : generateAndPushJson schema names objType false json old held = .ok (json', held')) (k : Str) :
    held'.lookup k = none := by
  obtain ⟨none_, removed⟩ := push_delete deleted k
  by_cases field : isField k = true
  · rw [removed field]
    split
    · rfl
    · rename_i absent
      exact shown.absent (AList.lookup_eq_none.mpr absent)
  · exact none_ (shown.others (Bool.not_eq_true _ ▸ field))

/-! ### Runs -/

def Request.value : Request → Option Doc
  | .create v => some v
  | .update v => some v
  | .delete => none

def Request.isCreate : Request → Bool
  | .create _ => true
  | _ => false

def Request.isDelete : Request → Bool
  | .delete => true
  | _ => false

def Request.Proper (r : Request) : Prop := ∀ v, r.value = some v → Etcd.Proper v

namespace Client

def Quiet (s : Client) : Prop :=
  s.queue = [] ∧ s.pending = none ∧ (∀ e, s.cache = some e → e.timer = none) ∧ s.orphan = false

/-- When nothing is left to do, the uuid is cached exactly if the last event was not a delete, the cached document is the
value of the last event, and the consumer holds exactly the fields of that value. -/
def Converged (o : Object) (s : Client) : Prop :=
  s.Quiet →
    match s.last with
    | none => s.cache = none ∧ ∀ k, s.held.lookup k = none
    | some v => ∃ e json, s.cache = some e ∧ e.json = some json ∧ Shows o.schema v json s.held

def final (s : Client) : Option Request := s.queue.getLast?.or s.pending

/-- The request that is handled last is about the last event, or the cache is about it already. -/
def Targets (o : Object) (s : Client) : Prop :=
  match s.final with
  | some r => r.value = s.last
  | none =>
    match s.last with
    | none => s.cache = none
    | some v => ∃ e, s.cache = some e ∧ ∀ json, e.json = some json → Shows o.schema v json s.held

structure Inv (o : Object) (s : Client) : Prop where
  queued : ∀ r ∈ s.queue, r.Proper
  waiting : ∀ r, s.pending = some r → r.Proper
  timer : ∀ e v, s.cache = some e → e.timer = some v → Proper v
  orphan : s.orphan = false
  fields : ∀ k, isField k = false → s.held.lookup k = none
  empty : s.cache = none → ∀ k, s.held.lookup k = none
  shown : ∀ e json, s.cache = some e → e.json = some json →
    e.timer = none ∧ ∃ v, Proper v ∧ Shows o.schema v json s.held
  retry : ∀ e, s.cache = some e → e.json = none → e.timer.isSome = true ∨ s.queue ≠ [] ∨ s.pending ≠ none
  target : s.Targets o

variable {o : Object} {s : Client}

theorem Inv.converged (h : Inv o s) : s.Converged o := by
  rintro ⟨queue, pending, timer, _⟩
  have target := h.target
  have nothing : s.final = none := by rw [final, queue, pending]; rfl
  unfold Targets at target
  rw [nothing] at target
  cases last : s.last with
  | none =>
    rw [last] at target
    exact ⟨target, h.empty target⟩
  | some v =>
    rw [last] at target
    obtain ⟨e, cache, all⟩ := target
    cases json : e.json with
    | some json' => exact ⟨e, json', cache, json, all json' json⟩
    | none =>
      rcases h.retry e cache json with running | waiting | waiting
      · rw [timer e cache] at running
        cases running
      · exact absurd queue waiting
      · exact absurd pending waiting

theorem inv_fresh (names : Names) : Inv o { names } where
  queued _ mem := by cases mem
  waiting _ same := by cases same
  timer _ _ same := by cases same
  orphan := rfl
  fields _ _ := rfl
  empty _ _ := rfl
  shown _ _ same := by cases same
  retry _ same := by cases same
  target := rfl

/-! ### Requests -/

theorem nameValue_ok (names : Names) (proper : Proper v) : ∃ names', nameValue o names v = .ok names' := by
  obtain ⟨type, typed⟩ := Option.isSome_iff_exists.mp (AList.lookup_isSome.mpr proper.type)
  obtain ⟨name, named⟩ := Option.isSome_iff_exists.mp (AList.lookup_isSome.mpr proper.fqName)
  obtain ⟨s, rfl⟩ := shaped_text (proper.member typed) (.inl rfl)
  obtain ⟨parts, rfl, some_⟩ := shaped_name (proper.member named)
  unfold nameValue
  rw [typed, named]
  dsimp only
  rw [joinName, if_neg some_]
  exact ⟨_, rfl⟩

variable {r : Request}

theorem enqueue_spec (proper : r.Proper) :
    ∃ names, s.enqueueUUIDRequest o r = .ok { s with names, queue := s.queue ++ [r] } := by
  cases r with
  | delete => exact ⟨_, rfl⟩
  | create v | update v =>
    have typed : withType o v = v := if_pos (proper v rfl).type
    obtain ⟨names, named⟩ := nameValue_ok s.names (proper v rfl)
    refine ⟨names, ?_⟩
    rw [enqueueUUIDRequest, typed, named]
    rfl

theorem Inv.rename (h : Inv o s) (names : Names) : Inv o { s with names } := { h with }

theorem Inv.enqueue (h : Inv o s) (proper : r.Proper) (names : Names) :
    Inv o { s with names, queue := s.queue ++ [r], last := r.value } where
  __ := h
  queued := List.forall_mem_append.mpr ⟨h.queued, List.forall_mem_singleton.mpr proper⟩
  retry _ _ _ := .inr (.inl (by simp))
  target := by simp [Targets, final]

theorem Inv.watch (h : Inv o s) (proper : r.Proper) :
    ∃ next, { s with last := r.value }.enqueueUUIDRequest o r = .ok next ∧ Inv o next := by
  obtain ⟨names, ran⟩ := enqueue_spec proper
  exact ⟨_, ran, h.enqueue proper names⟩

theorem Inv.expire (h : Inv o s) {e : Entry} (cache : s.cache = some e) (timer : e.timer = some v)
    (current : s.last = some v) :
    ∃ next, { s with cache := some { e with timer := none } }.enqueueUUIDRequest o (.update v) = .ok next ∧ Inv o next := by
  have proper := h.timer e v cache timer
  have proper' : (Request.update v).Proper := fun v' same => Option.some.inj same ▸ proper
  obtain ⟨names, ran⟩ := enqueue_spec proper'
  refine ⟨_, ran, ?_⟩
  have queued := h.enqueue proper' names
  have waits : ∀ json, e.json ≠ some json := by
    intro json same
    rw [(h.shown e json cache same).1] at timer
    cases timer
  exact
    { queued with
      timer := fun e' v' same running => by
        cases same
        cases running
      empty := nofun
      shown := fun e' json same given => by
        cases same
        exact absurd given (waits json)
      retry := fun _ _ _ => .inr (.inl (by simp))
      target := by simp [Targets, final, Request.value, current] }

theorem Inv.process (h : Inv o s) {rest : List Request} (queue : s.queue = r :: rest)
    (harmless : ∀ v, s.pending = some (.create v) → r = .delete → s.cache = none) :
    Inv o ({ s with queue := rest }.addUUIDToProcessList o r) := by
  have proper : ∀ r' ∈ rest, r'.Proper := fun r' mem => h.queued r' (by rw [queue]; exact List.mem_cons_of_mem _ mem)
  have properFirst : r.Proper := h.queued r (by rw [queue]; exact List.mem_cons_self)
  have target := h.target
  have last : s.final = rest.getLast?.or (some r) := by
    rw [final, queue]
    cases rest with
    | nil => rfl
    | cons r' rest => simp [List.getLast?_cons]
  unfold Targets at target
  rw [last] at target
  -- In general the request takes the place of the pending one.
  have replaces : Inv o { s with queue := rest, pending := some r } :=
    { h with
      queued := proper
      waiting := fun r' same => Option.some.inj same ▸ properFirst
      retry := fun _ _ _ => .inr (.inr (by simp))
      target := target }
  unfold addUUIDToProcessList
  split
  · rename_i v pending
    have empty := harmless v pending rfl
    exact
      { replaces with
        waiting := nofun
        retry := fun e same => by
          rw [empty] at same
          cases same
        target := by
          unfold Targets
          cases tail : rest.getLast? with
          | some r' =>
            simpa [final, tail] using target
          | none =>
            rw [tail] at target
            have gone : s.last = none := target.symm
            simp [final, tail, gone, empty] }
  · exact replaces

/-! ### The reader -/

theorem Inv.settle (h : Inv o s) (pending : s.pending = some r) (names : Names) {cache : Option Entry}
    {held : Doc} (timer : ∀ e v, cache = some e → e.timer = some v → Proper v)
    (fields : ∀ k, isField k = false → held.lookup k = none) (empty : cache = none → ∀ k, held.lookup k = none)
    (shown : ∀ e json, cache = some e → e.json = some json →
      e.timer = none ∧ ∃ v, Proper v ∧ Shows o.schema v json held)
    (retry : ∀ e, cache = some e → e.json = none → e.timer.isSome = true)
    (reached : match r.value with
      | none => cache = none
      | some v => ∃ e, cache = some e ∧ ∀ json, e.json = some json → Shows o.schema v json held) :
    Inv o { s with names, pending := none, cache, held } where
  __ := h
  waiting r' same := by cases same
  timer := timer
  fields := fields
  empty := empty
  shown := shown
  retry e same waits := .inl (retry e same waits)
  target := by
    have target := h.target
    unfold Targets at target ⊢
    cases tail : s.queue.getLast? with
    | some r' => simpa [final, tail] using target
    | none =>
      rw [final, tail, pending] at target
      rw [final]
      rw [tail, ← target]
      exact reached

theorem Inv.readDelete (h : Inv o s) (pending : s.pending = some .delete)
    (known : ∀ e, s.cache = some e → findFqName s.names o.uuid ≠ "ERROR".toList ∧ e.json.isSome = true) :
    ∃ next, { s with pending := none }.processUUIDDelete o = .ok next ∧ Inv o next := by
  rcases Option.eq_none_or_eq_some s.cache with cache | ⟨e, cache⟩
  · have same : { s with pending := none }.processUUIDDelete o = .ok { s with pending := none } := by
      rw [cache]
      exact ite_self _
    refine ⟨_, same, ?_⟩
    exact h.settle pending s.names h.timer h.fields h.empty h.shown (fun e same => by rw [cache] at same; cases same) cache
  · obtain ⟨name, some_⟩ := known e cache
    obtain ⟨json, given⟩ := Option.isSome_iff_exists.mp some_
    obtain ⟨timer, v, proper, shown⟩ := h.shown e json cache given
    have deletes : ∃ result, generateAndPushJson o.schema s.names e.objType false json json s.held = .ok result :=
      push_delete_ok (shown.deletable proper fun _ => .inr rfl)
    obtain ⟨⟨json', held'⟩, deleted⟩ := deletes
    have empty := shows_delete shown deleted
    refine ⟨{ s with
      pending := none
      held := held'
      cache := none
      names := purgeFqNameCache s.names o.uuid }, ?_, ?_⟩
    · unfold processUUIDDelete
      rw [if_neg name, cache]
      dsimp only
      rw [timer, given]
      dsimp only [Option.isSome]
      rw [deleted]
      rfl
    · exact h.settle pending _ nofun (fun k _ => empty k) (fun _ => empty)
        nofun nofun rfl

def Outcome (o : Object) (s : Client) (v : Doc) (d : Diff) (entry : Entry) (held : Doc) : Prop :=
  (∃ json, generateAndPushJson o.schema s.names d.objType true d.updated v s.held = .ok (json, held) ∧
    entry = { json := some json, objType := d.objType }) ∨
  entry = { json := none, objType := d.objType, timer := some v } ∧ held = s.held

theorem pushUpdate_spec (shaped : ∀ m ∈ d.updated.entries, shapedField m.1 m.2 = true) :
    ∃ entry held, pushUpdate o s v d = .ok (entry, held) ∧ Outcome o s v d entry held := by
  unfold pushUpdate
  cases pushed : generateAndPushJson o.schema s.names d.objType true d.updated v s.held with
  | ok result => exact ⟨_, _, rfl, .inl ⟨result.1, pushed, rfl⟩⟩
  | error e =>
    obtain rfl := push_add_fine shaped e pushed
    exact ⟨_, _, rfl, .inr ⟨rfl, rfl⟩⟩

theorem diff_shaped {isNew : Bool} {cached : Doc} (proper : Proper v)
    (changed : ∀ k, DiffAt isNew k (v.lookup k) ⟨v, cached, start⟩ d) :
    ∀ m ∈ d.updated.entries, shapedField m.1 m.2 = true := by
  rintro ⟨k, x⟩ mem
  have given : d.updated.lookup k = some x := AList.mem_lookup_iff.mpr mem
  rcases (changed k).either.1 with gone | same
  · rw [gone] at given
    cases given
  · exact proper.member (same.symm.trans given)

/-- The walk over the value and the add push go through; a uuid that is not new has a delete push too. -/
theorem processUUIDUpdate_spec (proper : Proper v) (isNew : Bool)
    (new : (s.cache.isNone || (s.cache.getD { json := some v }).json.isNone) = isNew) :
    ∃ d start entry held,
      (∀ k, DiffAt isNew k (v.lookup k) ⟨v, (s.cache.getD { json := some v }).json.getD v, start⟩ d) ∧
        Outcome o s v d entry held ∧ s.processUUIDUpdate o v =
          if isNew then .ok { s with cache := some entry, held }
          else (do
            let (_, held) ← generateAndPushJson o.schema s.names d.objType false d.cached v held
            .ok { s with cache := some entry, held }) := by
  obtain ⟨d, ran, changed⟩ := diff_spec v.nodupKeys proper.shapedMembers proper.undraftedMode
    ⟨v, (s.cache.getD { json := some v }).json.getD v, (s.cache.getD { json := some v }).objType⟩
  obtain ⟨entry, held, pushed, outcome⟩ := pushUpdate_spec (diff_shaped proper changed)
  refine ⟨d, _, entry, held, changed, outcome, ?_⟩
  unfold processUUIDUpdate
  rw [if_pos ⟨proper.fqName, proper.type⟩, new, ran]
  simp only [bind, Except.bind]
  rw [pushed]

section
variable (h : Inv o s) (pending : s.pending = some r) (value : r.value = some v)
include h pending value

theorem Inv.cached {objType : Str} (shown : Shows o.schema v json held) :
    Inv o { s with pending := none, cache := some { json := some json, objType }, held } := by
  refine h.settle pending s.names nofun (fun k => shown.others) nofun ?_ nofun ?_
  · rintro e json' ⟨⟩ ⟨⟩
    exact ⟨rfl, v, h.waiting r pending v value, shown⟩
  · rw [value]
    refine ⟨_, rfl, ?_⟩
    rintro json' ⟨⟩
    exact shown

theorem Inv.retried {objType : Str} (fields : ∀ k, isField k = false → held.lookup k = none) :
    Inv o { s with pending := none, cache := some { json := none, objType, timer := some v }, held } := by
  refine h.settle pending s.names ?_ fields nofun nofun ?_ ?_
  · rintro e v' ⟨⟩ ⟨⟩
    exact h.waiting r pending v value
  · rintro e ⟨⟩ _
    rfl
  · rw [value]
    exact ⟨_, rfl, nofun⟩

theorem Inv.readUpdate (within : ∀ e, s.cache = some e → e.json = none → ∀ k ∈ s.held.keys, k ∈ v) :
    ∃ next, { s with pending := none }.processUUIDUpdate o v = .ok next ∧ Inv o next := by
  have proper := h.waiting r pending v value
  by_cases cached : ∃ e json, s.cache = some e ∧ e.json = some json
  · obtain ⟨e, json, cache, given⟩ := cached
    obtain ⟨_, old, oldProper, shown⟩ := h.shown e json cache given
    obtain ⟨d, start, entry, held, changed, outcome, ran⟩ :=
      processUUIDUpdate_spec (s := { s with pending := none }) proper false (by simp [cache, given])
    simp only [cache, given, Option.getD_some] at changed
    have deletes : ∃ result, generateAndPushJson o.schema s.names d.objType false d.cached v held = .ok result :=
      push_delete_ok (shown.deletable oldProper fun k => (changed k).either.2)
    obtain ⟨⟨json', held'⟩, deleted⟩ := deletes
    rw [if_neg Bool.false_ne_true, deleted] at ran
    refine ⟨_, ran, ?_⟩
    rcases outcome with ⟨json₁, sent, rfl⟩ | ⟨rfl, rfl⟩
    · exact h.cached pending value (shows_update proper shown changed sent deleted)
    · exact h.retried pending value fun k plain => (push_delete deleted k).1 (h.fields k plain)
  · have new : ∀ e, s.cache = some e → e.json = none := by
      intro e cache
      by_contra some_
      obtain ⟨json, given⟩ := Option.ne_none_iff_exists'.mp some_
      exact cached ⟨e, json, cache, given⟩
    have isNew : (s.cache.isNone || (s.cache.getD { json := some v }).json.isNone) = true := by
      rcases Option.eq_none_or_eq_some s.cache with cache | ⟨e, cache⟩
      · simp [cache]
      · simp [cache, new e cache]
    obtain ⟨d, start, entry, held, changed, outcome, ran⟩ :=
      processUUIDUpdate_spec (s := { s with pending := none }) proper true isNew
    refine ⟨_, ran, ?_⟩
    rcases outcome with ⟨json₁, sent, rfl⟩ | ⟨rfl, rfl⟩
    · refine h.cached pending value (shows_create changed sent fun k outside => ?_)
      rcases outside with absent | plain
      · rcases Option.eq_none_or_eq_some s.cache with cache | ⟨e, cache⟩
        · exact h.empty cache k
        · exact AList.lookup_eq_none.mpr fun mem =>
            AList.lookup_eq_none.mp absent (within e cache (new e cache) k (AList.mem_keys.mp mem))
      · exact h.fields k plain
    · exact h.retried pending value h.fields

end

/-- When a step does what is expected of it: the values of events have the shapes that the client reads and are not
drafts; a delete meets a pending create only if the uuid is not cached; a delete is read of a cached uuid that is in the
FQ name cache and is not to be tried again; a value that is read while the uuid is to be tried again has all fields that
the consumer holds; the retry timer expires with the value of the last event. -/
def Harmless (o : Object) (s : Client) : Action → Prop
  | .watch r => ∀ v ∈ r.value, isShaped v = true ∧ isDraft v = false
  | .process => s.queue.head?.any Request.isDelete = true → s.pending.any Request.isCreate = true → s.cache.isNone = true
  | .read => ∀ r ∈ s.pending, ∀ e ∈ s.cache,
    (r.isDelete = true → findFqName s.names o.uuid ≠ "ERROR".toList ∧ e.json.isSome = true) ∧
      ∀ v ∈ r.value, e.json.isSome = true ∨ ∀ k ∈ s.held.keys, k ∈ v
  | .expire => ∀ e ∈ s.cache, ∀ v ∈ e.timer, s.last = some v
  | .expireOrphan => True
  | .rename _ _ => True

theorem Inv.step (h : Inv o s) (a : Action) (harmless : s.Harmless o a) : Verdict (Inv o) (· ≠ .disabled) (s.step o a) := by
  cases a with
  | watch r =>
    have proper : ∀ v, r.value = some v → typeKey ∈ v ∧ fqNameKey ∈ v → r.Proper := by
      intro v value named v' same
      cases value.symm.trans same
      obtain ⟨shaped, undrafted⟩ := harmless v value
      exact ⟨named.1, named.2, shaped, undrafted⟩
    cases r with
    | delete =>
      obtain ⟨next, ran, inv⟩ := h.watch (r := .delete) nofun
      have stepped : s.step o (.watch .delete) = .ok next := ran
      rw [stepped]
      exact inv
    | create v | update v =>
      simp only [Client.step]
      split
      · rename_i named
        obtain ⟨next, ran, inv⟩ := h.watch (proper v rfl named)
        exact ran ▸ inv
      · exact fun other => other rfl
  | process =>
    simp only [Client.step]
    split
    · exact fun other => other rfl
    · rename_i r rest queue
      refine h.process queue fun v pending delete => ?_
      subst delete
      simp only [Harmless, queue, pending] at harmless
      exact Option.isNone_iff_eq_none.mp (harmless rfl rfl)
  | read =>
    simp only [Client.step] at harmless ⊢
    split
    · exact fun other => other rfl
    · rename_i pending
      obtain ⟨next, ran, inv⟩ := h.readDelete pending fun e cache => (harmless _ pending e cache).1 rfl
      exact ran ▸ inv
    all_goals
      rename_i v pending
      obtain ⟨next, ran, inv⟩ := h.readUpdate pending rfl fun e cache waits =>
        ((harmless _ pending e cache).2 v rfl).resolve_left (by rw [waits]; decide)
      exact ran ▸ inv
  | expire =>
    simp only [Client.step]
    split
    · exact fun other => other rfl
    · rename_i e cache
      split
      · exact fun other => other rfl
      · rename_i v timer
        obtain ⟨next, ran, inv⟩ := h.expire cache timer (harmless e cache v timer)
        exact ran ▸ inv
  | expireOrphan =>
    simp only [Client.step]
    rw [h.orphan]
    exact fun other => other rfl
  | rename u entry => exact h.rename _

/-- In every run of harmless steps of the watcher, the object processor, the reader and the retry timer, whatever becomes
of the FQ names of other objects, the client converges to the last event: whenever nothing is left to do, the cache and
the consumer have the value of the last event, or nothing after a delete. -/
theorem converges (o : Object) (names : Names) (actions : List Action)
    (harmless : Throughout (step o) (Harmless o) { names } actions) :
    Safe (step o) (Converged o) (· ≠ .disabled) { names } actions :=
  safe_of_throughout (I := Inv o) (fun _ inv => inv.converged) (fun _ a inv harmless => inv.step a harmless)
    actions _ (inv_fresh names) harmless

instance : DecidableEq Doc := fun a b => decidable_of_iff (a.entries = b.entries) AList.ext_iff.symm

instance (o : Object) (s : Client) : (a : Action) → Decidable (s.Harmless o a)
  | .watch r => inferInstanceAs (Decidable (∀ v ∈ r.value, isShaped v = true ∧ isDraft v = false))
  | .process => inferInstanceAs (Decidable (s.queue.head?.any Request.isDelete = true →
      s.pending.any Request.isCreate = true → s.cache.isNone = true))
  | .read => inferInstanceAs (Decidable (∀ r ∈ s.pending, ∀ e ∈ s.cache,
      (r.isDelete = true → findFqName s.names o.uuid ≠ "ERROR".toList ∧ e.json.isSome = true) ∧
        ∀ v ∈ r.value, e.json.isSome = true ∨ ∀ k ∈ s.held.keys, k ∈ v))
  | .expire => inferInstanceAs (Decidable (∀ e ∈ s.cache, ∀ v ∈ e.timer, s.last = some v))
  | .expireOrphan => .isTrue trivial
  | .rename _ _ => .isTrue trivial

/-! ### Runs on a fixed object -/

def network : Object := ⟨⟨fun _ _ => false, fun _ _ => false⟩, "u".toList, "network".toList⟩

/-- A value with the given fields. -/
def value (fields : List (String × Val)) : Doc :=
  (⟨typeKey, .text "network".toList⟩ :: ⟨fqNameKey, .names ["a".toList]⟩ ::
    fields.map fun f => (⟨f.1.toList, f.2⟩ : Member)).toAList

def child : Doc := value [("parent_uuid", .text "p".toList), ("mtu", .other "1500".toList)]

def plain : Doc := value [("mtu", .other "1500".toList)]

def learn : Action := .rename "p".toList (some { fqName := "p".toList })

/-- The object waits for its parent, is shortened, and is deleted. -/
def parentRun : List Action :=
  [.watch (.create child), .process, .read, learn, .expire, .process, .read, .watch (.update plain), .process, .read,
    .watch .delete, .process, .read]

theorem converges_parent :
    Throughout (step network) (Harmless network) { names := fun _ => none } parentRun ∧
      Safe (step network) (Converged network) (· ≠ .disabled) { names := fun _ => none } parentRun := by
  have harmless : Throughout (step network) (Harmless network) { names := fun _ => none } parentRun :=
    throughout_of_check (Harmless network) parentRun _ (by decide +kernel)
  exact ⟨harmless, converges _ _ _ harmless⟩

def isStale (k : Str) (s : Client) : Bool :=
  s.queue.isEmpty && s.pending.isNone && (s.cache.bind Entry.timer).isNone && !s.orphan &&
    match s.last with
    | none => s.cache.isSome
    | some v => (v.lookup k).isNone && (s.held.lookup k).isSome

theorem not_converged (stale : isStale k s = true) : ¬ s.Converged o := by
  intro converged
  simp only [isStale, Bool.and_eq_true, List.isEmpty_iff, Option.isNone_iff_eq_none, Bool.not_eq_true'] at stale
  obtain ⟨⟨⟨⟨queue, pending⟩, timer⟩, orphan⟩, stale⟩ := stale
  have reached := converged ⟨queue, pending, fun e cache => by rw [cache] at timer; exact timer, orphan⟩
  cases last : s.last with
  | none =>
    rw [last] at reached stale
    rw [reached.1] at stale
    cases stale
  | some v =>
    rw [last] at reached stale
    obtain ⟨e, json, _, _, shown⟩ := reached
    have at_ := shown k
    simp only [Bool.and_eq_true, Option.isNone_iff_eq_none] at stale
    rw [stale.1] at at_
    rw [at_.2] at stale
    cases stale.2

/-- A delete removes a pending create, and the object of an earlier create stays. -/
def mergedRun : List Action :=
  [.watch (.create plain), .process, .read, .watch .delete, .process, .watch (.create plain), .process, .watch .delete,
    .process]

/-- The object is deleted while it waits for its parent. -/
def waitingRun : List Action := [.watch (.create child), .process, .read, .watch .delete, .process, .read]

/-- The retry timer expires after a newer value has come, and its own value is read last. -/
def lateRun : List Action :=
  [.watch (.create child), .process, .read, .watch (.update plain), .expire, learn, .process, .process, .read]

/-- While a value is tried again, one comes that lacks a field of the value before both. -/
def shortenedRun : List Action :=
  [.watch (.create plain), .process, .read, .watch (.update child), .process, .read, .watch (.update (value [])), .process,
    .read]

/-- A create comes before the delete ahead of it has purged the FQ name. -/
def purgedRun : List Action :=
  [.watch (.create plain), .process, .read, .watch .delete, .watch (.create plain), .process, .read, .process, .read,
    .watch .delete, .process, .read]

def draftRun : List Action :=
  [.watch (.create plain), .process, .read,
    .watch (.update (value [("draft_mode_state", .text "updated".toList)])), .process, .read]

/-- The delete is read after the retry timer has expired: the string "retry" is parsed as the cached document. -/
def expiredRun : List Action :=
  [.watch (.create child), .process, .read, .expire, .watch .delete, .process, .process, .read]

/-- Runs after which the client has not converged, and one that ends with a failed assertion. -/
theorem not_converges :
    (∀ actions ∈ [mergedRun, waitingRun, lateRun, shortenedRun, purgedRun, draftRun],
      ∃ s, run (step network) { names := fun _ => none } actions = .ok s ∧ ¬ s.Converged network) ∧
    run (step network) { names := fun _ => none } expiredRun = .error .assertion := by
  have stale : ∀ actions k, (run (step network) { names := fun _ => none } actions).toOption.map (isStale k) = some true →
      ∃ s, run (step network) { names := fun _ => none } actions = .ok s ∧ ¬ s.Converged network := by
    intro actions k seen
    obtain ⟨s, ran, stale⟩ := ok_of_seen seen
    exact ⟨s, ran, not_converged stale⟩
  constructor
  · intro actions mem
    simp only [List.mem_cons, List.not_mem_nil, or_false] at mem
    rcases mem with rfl | rfl | rfl | rfl | rfl | rfl
    · exact stale mergedRun [] (by decide +kernel)
    · exact stale waitingRun [] (by decide +kernel)
    · exact stale lateRun parentUuidKey (by decide +kernel)
    · exact stale shortenedRun "mtu".toList (by decide +kernel)
    · exact stale purgedRun [] (by decide +kernel)
    · exact stale draftRun "mtu".toList (by decide +kernel)
  · rfl

end Client

end TFCommon.ConfigClient.Etcd
