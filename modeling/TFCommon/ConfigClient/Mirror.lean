import TFCommon.ConfigClient.RowFold
import Mathlib.Data.List.Nodup

/-! The cache and the consumer against the last row of the uuid, over whole runs. -/
namespace TFCommon.ConfigClient.Cassandra

/-- The fields are those of the columns. The columns that name the object are not compared by timestamp. -/
def Reflects (fields : List Field) (columns : List Column) : Prop :=
  (∀ c ∈ columns, ∃ f ∈ fields, f.key = c.key) ∧
    ∀ f ∈ fields, ∃ c ∈ columns, c.key = f.key ∧ (isName f.key = true ∨ f.timestamp = c.timestamp)

def Holds (held : Held) (columns : List Column) : Prop :=
  ∀ k v, held k = some v ↔ isName k = false ∧ ∃ c ∈ columns, c.key = k ∧ c.value = v

theorem Holds.nothing {held : Held} (h : Holds held []) (k : Str) : held k = none := by
  cases value : held k with
  | none => rfl
  | some v =>
    obtain ⟨_, c, mem, _⟩ := (h k v).mp value
    cases mem

/-! ### The pushes of a row -/

section
variable {names : Names} {m₀ : List Field} {old new : List Column} {p : Parse} {held : Held} {revised : List Str}

def listPushes (context : Context) (names : List Str) : List Adapter :=
  names.flatMap fun name => (context.listMapProperties.filter (·.1 = name)).map Prod.snd

theorem mem_listPushes (h : Pushes names m₀ new p) {a : Adapter} :
    a ∈ listPushes p.context revised ↔
      ∃ c ∈ new, isList c.key = true ∧ beforeLast c.key ∈ revised ∧ a = adapterOf names c := by
  simp only [listPushes, List.mem_flatMap, List.mem_map, List.mem_filter, decide_eq_true_eq, Prod.exists]
  constructor
  · rintro ⟨name, mem, _, _, ⟨inside, rfl⟩, rfl⟩
    obtain ⟨c, seen, list, rfl, rfl⟩ := (h.lists _ _).mp inside
    exact ⟨c, seen, list, mem, rfl⟩
  · rintro ⟨c, seen, list, mem, rfl⟩
    exact ⟨_, mem, _, _, ⟨(h.lists _ _).mpr ⟨c, seen, list, rfl, rfl⟩, rfl⟩, rfl⟩

theorem mem_pushed (h : Pushes names m₀ new p) {a : Adapter} (mem : a ∈ p.data ++ listPushes p.context revised) :
    ∃ c ∈ new, a = adapterOf names c ∧ (isList c.key = true → beforeLast c.key ∈ revised) := by
  rcases List.mem_append.mp mem with mem | mem
  · obtain ⟨c, seen, plain, rfl⟩ := h.data a mem
    refine ⟨c, seen, rfl, fun list => ?_⟩
    rw [plain] at list
    cases list
  · obtain ⟨c, seen, _, inside, rfl⟩ := (mem_listPushes h).mp mem
    exact ⟨c, seen, rfl, fun _ => inside⟩

theorem not_fresh (h : Pushes names m₀ new p) (more : ∀ name ∈ p.context.updated, name ∈ revised) {c : Column}
    (seen : c ∈ new) (absent : adapterOf names c ∉ p.data ++ listPushes p.context revised) :
    ¬ Fresh m₀ c.key c.timestamp := by
  intro fresh
  cases list : isList c.key with
  | false => exact absent (List.mem_append_left _ (h.fresh c seen list fresh))
  | true =>
    have inside := more _ (h.updates c seen list fresh)
    exact absent (List.mem_append_right _ ((mem_listPushes h).mpr ⟨c, seen, list, inside, rfl⟩))

theorem Holds.unchanged (h : Holds held old) (reflects : Reflects m₀ old) {c : Column} (other : isName c.key = false)
    (stamped : ∀ d ∈ old, c.key = d.key → c.timestamp = d.timestamp → c.value = d.value)
    (known : ¬ Fresh m₀ c.key c.timestamp) : held c.key = some c.value := by
  simp only [Fresh, not_forall, not_or, not_not] at known
  obtain ⟨f, mem, same, _, stamp⟩ := known
  obtain ⟨d, inside, key, name | stamp'⟩ := reflects.2 f mem
  · rw [same, other] at name
    cases name
  · rw [stamped d inside (same.symm.trans key.symm) (stamp.symm.trans stamp')]
    exact (h _ _).mpr ⟨other, d, inside, key.trans same, rfl⟩

variable (distinct : ∀ c ∈ new, ∀ d ∈ new, c.key = d.key → c = d)

include distinct in
theorem change_present (h : Pushes names m₀ new p) (more : ∀ name ∈ p.context.updated, name ∈ revised)
    (holds : Holds held old) (reflects : Reflects m₀ old) {c : Column} (seen : c ∈ new) (other : isName c.key = false)
    (stamped : ∀ d ∈ old, c.key = d.key → c.timestamp = d.timestamp → c.value = d.value) :
    applyChange (p.data ++ listPushes p.context revised) held c.key = some c.value := by
  unfold applyChange
  rw [other, if_neg Bool.false_ne_true]
  split
  · rename_i a found
    obtain ⟨d, inside, rfl, _⟩ := mem_pushed h (List.mem_of_find?_eq_some found)
    have same : (adapterOf names d).key = c.key := by simpa using List.find?_some found
    rw [distinct d inside c seen same]
    rfl
  · rename_i missing
    have absent : adapterOf names c ∉ p.data ++ listPushes p.context revised := fun mem =>
      List.find?_eq_none.mp missing _ mem (decide_eq_true rfl)
    rw [if_neg ?_]
    · exact holds.unchanged reflects other stamped (not_fresh h more seen absent)
    · -- If another entry of the property were pushed, so would this one be.
      intro any
      obtain ⟨a, mem, same⟩ := List.any_eq_true.mp any
      obtain ⟨d, _, rfl, whole⟩ := mem_pushed h mem
      simp only [sameProperty, Bool.and_eq_true, decide_eq_true_eq] at same
      have inside : beforeLast c.key ∈ revised := same.2 ▸ whole same.1.1
      exact absent (List.mem_append_right _ ((mem_listPushes h).mpr ⟨c, seen, same.1.2, inside, rfl⟩))

def staleOf (fields : List Field) : List Field := fields.filter fun f => !f.refreshed && !isName f.key

def leftOf (fields : List Field) : List Field := fields.filter fun f => f.refreshed || isName f.key

theorem change_absent (h : Pushes names m₀ new p) (fields : Refreshed m₀ new p.fields)
    (more : ∀ name ∈ p.context.updated, name ∈ revised)
    (finds : ∀ name ∈ p.context.candidates, ∀ g ∈ p.fields, g.refreshed = false → isList g.key = true →
      beforeLast g.key = name → name ∈ revised)
    (holds : Holds held old) (reflects : Reflects m₀ old) {k : Str} (other : isName k = false)
    (gone : ∀ c ∈ new, c.key ≠ k) :
    applyDelete (staleOf p.fields) (leftOf p.fields)
      (applyChange (p.data ++ listPushes p.context revised) held) k = none := by
  unfold applyDelete
  split
  · rfl
  · rename_i notDeleted
    unfold applyChange
    rw [other, if_neg Bool.false_ne_true]
    split
    · rename_i a found
      obtain ⟨d, inside, rfl, _⟩ := mem_pushed h (List.mem_of_find?_eq_some found)
      have same : (adapterOf names d).key = k := by simpa using List.find?_some found
      exact absurd same (gone d inside)
    · split
      · rfl
      · rename_i notReplaced
        by_contra some_
        obtain ⟨v, value⟩ := Option.ne_none_iff_exists'.mp some_
        obtain ⟨_, d, inside, rfl, _⟩ := (holds k v).mp value
        obtain ⟨f, mem, same⟩ := reflects.1 d inside
        obtain ⟨g, kept, key⟩ := fields.kept f mem
        have key := key.trans same
        have stale : g.refreshed = false := by
          by_contra new
          obtain ⟨c, seen, same, _⟩ := fields.new g kept (Bool.not_eq_false _ ▸ new)
          exact gone c seen (same.trans key)
        have deleted : (staleOf p.fields).any (·.key = d.key) = true := by
          refine List.any_eq_true.mpr ⟨g, List.mem_filter.mpr ⟨kept, ?_⟩, decide_eq_true key⟩
          simp [stale, key, other]
        simp only [deleted, Bool.true_and, Bool.not_eq_true', Bool.not_eq_false] at notDeleted
        obtain ⟨l, left, same⟩ := List.any_eq_true.mp notDeleted
        simp only [sameProperty, Bool.and_eq_true, decide_eq_true_eq] at same
        obtain ⟨⟨listed, list⟩, property⟩ := same
        obtain ⟨inside, refreshed⟩ := List.mem_filter.mp left
        -- An entry of the property is left, so the property is updated or a candidate with an entry that is gone.
        have plain : isName l.key = false := by
          by_contra name
          rw [(isName_stored names (Bool.not_eq_false _ ▸ name)).2.2] at listed
          cases listed
        rw [plain, Bool.or_false] at refreshed
        obtain ⟨c, seen, same, _⟩ := fields.new l inside refreshed
        rw [← same] at listed property
        have replaced : beforeLast c.key ∈ revised := by
          rcases h.either c seen listed with updated | candidate
          · exact more _ updated
          · exact finds _ candidate g kept stale (key ▸ list) (by rw [key, property])
        refine notReplaced (List.any_eq_true.mpr ⟨adapterOf names c, ?_, ?_⟩)
        · exact List.mem_append_right _ ((mem_listPushes h).mpr ⟨c, seen, listed, replaced, rfl⟩)
        · simp [sameProperty, adapterOf, listed, list, property]

include distinct in
theorem Holds.row (h : Pushes names m₀ new p) (fields : Refreshed m₀ new p.fields)
    (more : ∀ name ∈ p.context.updated, name ∈ revised)
    (finds : ∀ name ∈ p.context.candidates, ∀ g ∈ p.fields, g.refreshed = false → isList g.key = true →
      beforeLast g.key = name → name ∈ revised)
    (holds : Holds held old) (reflects : Reflects m₀ old)
    (stamped : ∀ c ∈ new, ∀ d ∈ old, c.key = d.key → c.timestamp = d.timestamp → c.value = d.value) :
    Holds (applyDelete (staleOf p.fields) (leftOf p.fields)
      (applyChange (p.data ++ listPushes p.context revised) held)) new := by
  intro k v
  cases name : isName k with
  | true => simp [applyDelete, applyChange, name]
  | false =>
    simp only [true_and]
    by_cases seen : ∃ c ∈ new, c.key = k
    · obtain ⟨c, seen, rfl⟩ := seen
      have present := change_present distinct h more holds reflects seen name (stamped c seen)
      have notStale : (staleOf p.fields).any (·.key = c.key) = false := by
        refine List.any_eq_false.mpr fun f mem same => ?_
        obtain ⟨mem, stale⟩ := List.mem_filter.mp mem
        simp only [Bool.and_eq_true, Bool.not_eq_true'] at stale
        exact fields.unseen mem stale.1 c seen (of_decide_eq_true same).symm
      rw [applyDelete, notStale, Bool.false_and, if_neg Bool.false_ne_true, present]
      constructor
      · intro same
        exact ⟨c, seen, rfl, Option.some.inj same⟩
      · rintro ⟨d, inside, same, rfl⟩
        rw [distinct d inside c seen same]
    · simp only [not_exists, not_and] at seen
      rw [change_absent h fields more finds holds reflects name seen]
      simp only [reduceCtorEq, false_iff, not_exists, not_and]
      exact fun c mem same => absurd same (seen c mem)

theorem Refreshed.reflects (fields : Refreshed m₀ new p.fields)
    (named : ∀ k, isName k = true → ∃ c ∈ new, c.key = k) : Reflects (leftOf p.fields) new := by
  constructor
  · intro c seen
    obtain ⟨f, mem, same, refreshed⟩ := fields.present c seen
    exact ⟨f, List.mem_filter.mpr ⟨mem, by simp [refreshed]⟩, same⟩
  · intro f left
    obtain ⟨mem, left⟩ := List.mem_filter.mp left
    refine fields.new f mem ?_
    by_contra stale
    rw [Bool.not_eq_true] at stale
    rw [stale] at left
    obtain ⟨c, seen, same⟩ := named f.key left
    exact fields.unseen mem stale c seen same

end

/-! ### Runs -/

namespace Partition

/-- After an object was read, the cache has its columns and the consumer holds them; after anything else the consumer
holds nothing. -/
def Mirrors (s : Partition) : Prop :=
  match s.shown with
  | some columns => (∃ fields, s.cache = some fields ∧ Reflects fields columns) ∧ Holds s.held columns
  | none => ∀ k, s.held k = none

structure Tracks (s : Partition) : Prop where
  sorted : KeyedList.Sorted Field.key (s.cache.getD [])
  reflects : Reflects (s.cache.getD []) (s.shown.getD [])
  holds : Holds s.held (s.shown.getD [])
  cached : s.cache.isSome = s.shown.isSome

variable {s : Partition} {uuid : Str} {columns : List Column}

theorem Tracks.mirrors (h : s.Tracks) : s.Mirrors := by
  obtain ⟨_, reflects, holds, cached⟩ := h
  unfold Mirrors
  cases shown : s.shown with
  | none =>
    rw [shown] at holds
    exact holds.nothing
  | some columns =>
    rw [shown] at cached holds reflects
    obtain ⟨fields, cache⟩ := Option.isSome_iff_exists.mp cached
    rw [cache] at reflects
    exact ⟨⟨fields, cache, reflects⟩, holds⟩

theorem tracks_empty (empty : s.cache = none) (nothing : ∀ k, s.held k = none) (shown : s.shown = none) : s.Tracks where
  sorted := by
    rw [empty]
    exact List.Pairwise.nil
  reflects := by
    rw [empty, shown]
    exact ⟨nofun, nofun⟩
  holds k v := by simp [nothing, shown]
  cached := by
    rw [empty, shown]
    rfl

theorem Tracks.held_cached (h : s.Tracks) {k v : Str} (held : s.held k = some v) :
    isName k = false ∧ ∃ f ∈ s.cache.getD [], f.key = k := by
  obtain ⟨other, c, mem, rfl, _⟩ := (h.holds k v).mp held
  exact ⟨other, h.reflects.1 c mem⟩

theorem markCacheDirty_reflects (h : s.Tracks) : Reflects s.markCacheDirty (s.shown.getD []) := by
  constructor
  · intro c mem
    obtain ⟨f, inside, same⟩ := h.reflects.1 c mem
    exact ⟨_, List.mem_map_of_mem inside, same⟩
  · intro f mem
    obtain ⟨g, inside, rfl⟩ := List.mem_map.mp mem
    exact h.reflects.2 g inside

theorem markCacheDirty_sorted (h : s.Tracks) : KeyedList.Sorted Field.key s.markCacheDirty :=
  List.pairwise_map.mpr h.sorted

theorem markCacheDirty_dirty : ∀ f ∈ s.markCacheDirty, f.refreshed = false := by
  intro f mem
  obtain ⟨g, _, rfl⟩ := List.mem_map.mp mem
  rfl

theorem deleteObject_empty (known : uuidToFqName s.names uuid true ≠ "ERROR".toList)
    (held : ∀ k v, s.held k = some v → isName k = false ∧ ∃ f ∈ s.cache.getD [], f.key = k) :
    (s.deleteObject uuid).cache = none ∧ ∀ k, (s.deleteObject uuid).held k = none := by
  unfold deleteObject
  rw [if_neg known]
  have none_ : ∀ k, (∀ f ∈ s.cache.getD [], isName k = false → f.key ≠ k) → s.held k = none := by
    intro k absent
    by_contra some_
    obtain ⟨v, value⟩ := Option.ne_none_iff_exists'.mp some_
    obtain ⟨other, f, mem, same⟩ := held k v value
    exact absent f mem other same
  split
  · rename_i empty
    exact ⟨empty, fun k => none_ k fun f mem => by rw [empty] at mem; cases mem⟩
  · rename_i fields cache
    refine ⟨rfl, fun k => ?_⟩
    simp only [applyDelete, List.any_nil, Bool.not_false, Bool.and_true]
    split
    · rfl
    · rename_i kept
      refine none_ k fun f mem other same => kept (List.any_eq_true.mpr ⟨f, List.mem_filter.mpr ⟨?_, ?_⟩, ?_⟩)
      · rw [cache] at mem
        exact mem
      · rw [same, other]
        rfl
      · exact decide_eq_true same

def isTyped (columns : List Column) : Bool := columns.any givesType && columns.any (·.key = fqNameKey)

/-- When a step does what is expected of it: an FQ name is not the empty string; a draft finds no fields in the cache
but the type and the FQ name; an object without type or FQ name and a deleted object are in the FQ name cache. -/
def Harmless (uuid : Str) (s : Partition) : Action → Prop
  | .row columns =>
    (∀ c ∈ columns, c.key = fqNameKey → c.value ≠ []) ∧
      if columns = [] then uuidToFqName s.names uuid true ≠ "ERROR".toList ∨ s.cache = none
      else if columns.any isDraft then ∀ f ∈ s.cache.getD [], isName f.key = true
      else isTyped columns = true ∨ uuidToFqName s.names uuid true ≠ "ERROR".toList
  | .delete => uuidToFqName s.names uuid true ≠ "ERROR".toList ∨ s.cache = none
  | .rename _ _ => True

instance (uuid : Str) (s : Partition) : (a : Action) → Decidable (s.Harmless uuid a)
  | .row columns => inferInstanceAs (Decidable ((∀ c ∈ columns, c.key = fqNameKey → c.value ≠ []) ∧
      if columns = [] then uuidToFqName s.names uuid true ≠ "ERROR".toList ∨ s.cache = none
      else if columns.any isDraft then ∀ f ∈ s.cache.getD [], isName f.key = true
      else isTyped columns = true ∨ uuidToFqName s.names uuid true ≠ "ERROR".toList))
  | .delete => inferInstanceAs (Decidable (uuidToFqName s.names uuid true ≠ "ERROR".toList ∨ s.cache = none))
  | .rename _ _ => .isTrue trivial

theorem Tracks.delete (h : s.Tracks) (known : uuidToFqName s.names uuid true ≠ "ERROR".toList ∨ s.cache = none) :
    Tracks { s.deleteObject uuid with shown := none } := by
  by_cases named : uuidToFqName s.names uuid true ≠ "ERROR".toList
  · obtain ⟨empty, nothing⟩ := deleteObject_empty named fun k v => h.held_cached
    exact tracks_empty empty nothing rfl
  · have empty := known.resolve_left named
    have same : s.deleteObject uuid = s := by
      unfold deleteObject
      rw [if_pos (not_not.mp named)]
    rw [same]
    refine tracks_empty empty (fun k => ?_) rfl
    have shown : s.shown = none := by
      have cached := h.cached
      rw [empty] at cached
      exact Option.isNone_iff_eq_none.mp (by simpa using cached.symm)
    have holds := h.holds
    rw [shown] at holds
    exact holds.nothing k

theorem isTyped_iff {context : Context} (noted : Noted columns context) :
    isTyped columns = true ↔ ¬ (context.objType = [] ∨ context.fqNamePresent = false) := by
  rw [not_or, Bool.not_eq_false, noted.fqName, ← ne_eq, noted.type]
  simp [isTyped]

theorem named_stored (names : Names) (typed : isTyped columns = true) {k : Str} (name : isName k = true) :
    ∃ c ∈ stored names columns, c.key = k := by
  have found : ∃ c ∈ columns, c.key = k := by
    simp only [isTyped, Bool.and_eq_true, List.any_eq_true, decide_eq_true_eq] at typed
    obtain ⟨⟨c, mem, type⟩, fq⟩ := typed
    simp only [isName, Bool.or_eq_true, decide_eq_true_eq] at name
    rcases name with rfl | rfl
    · simp only [givesType, Bool.and_eq_true, decide_eq_true_eq] at type
      exact ⟨c, mem, type.1⟩
    · exact fq
  obtain ⟨c, mem, rfl⟩ := found
  obtain ⟨skipped, known, _⟩ := isName_stored names name
  exact ⟨c, List.mem_filter.mpr ⟨mem, by simp [skipped, known]⟩, rfl⟩

theorem Tracks.row (h : s.Tracks) (distinct : (columns.map Column.key).Nodup) (stamped : s.Stamped columns)
    (some_ : columns ≠ []) (harmless : s.Harmless uuid (.row columns)) :
    ∃ next, s.processRow uuid columns = .ok next ∧ next.Tracks := by
  obtain ⟨proper, harmless⟩ := harmless
  rw [if_neg some_] at harmless
  have start : Parsed s.names s.markCacheDirty [] { fields := s.markCacheDirty } :=
    .start (markCacheDirty_sorted h) markCacheDirty_dirty
  obtain ⟨p, parsed, refreshed, pushes, noted⟩ := start.row (markCacheDirty_sorted h) distinct proper
  rw [List.nil_append] at refreshed pushes noted
  have kept : ∀ k v, s.held k = some v → isName k = false ∧ ∃ f ∈ p.fields, f.key = k := by
    intro k v held
    obtain ⟨other, c, mem, rfl, _⟩ := (h.holds k v).mp held
    obtain ⟨f, inside, same⟩ := (markCacheDirty_reflects h).1 c mem
    obtain ⟨g, inside, same'⟩ := refreshed.kept f inside
    exact ⟨other, g, inside, same'.trans same⟩
  unfold processRow
  rw [parsed]
  simp only [bind, Except.bind]
  rw [noted.draft]
  split
  · rename_i draft
    rw [if_pos draft] at harmless
    refine ⟨_, rfl, tracks_empty rfl (fun k => ?_) rfl⟩
    by_contra held
    obtain ⟨v, value⟩ := Option.ne_none_iff_exists'.mp held
    obtain ⟨other, f, mem, rfl⟩ := h.held_cached value
    rw [harmless f mem] at other
    cases other
  · rename_i plain
    rw [if_neg plain] at harmless
    split
    · rename_i untyped
      have known := harmless.resolve_left fun typed => (isTyped_iff noted).mp typed untyped
      obtain ⟨empty, nothing⟩ := deleteObject_empty (s := { s with cache := some p.fields }) known kept
      exact ⟨_, rfl, tracks_empty empty nothing rfl⟩
    · rename_i named
      have typed := (isTyped_iff noted).mpr named
      have fields : ∀ c ∈ stored s.names columns, isList c.key = true → Named p.fields (beforeLast c.key) := by
        intro c mem list
        obtain ⟨f, inside, same, _⟩ := refreshed.present c mem
        exact ⟨f, inside, by rw [same]; exact list, by rw [same]⟩
      have typeField : ∃ g ∈ p.fields, g.key = typeKey := by
        obtain ⟨c, mem, same⟩ := named_stored s.names typed (k := typeKey) (by decide)
        obtain ⟨f, inside, same', _⟩ := refreshed.present c mem
        exact ⟨f, inside, same'.trans same⟩
      obtain ⟨revised, ran, more, _, finds⟩ :=
        reviseUpdateList_spec refreshed.sorted typeField p.context.candidates p.context.updated (fun name mem => by
          obtain ⟨c, seen, list, rfl⟩ := pushes.candidates name mem
          exact fields c seen list)
      rw [ran]
      refine ⟨_, rfl, ?_, ?_, ?_, rfl⟩
      · exact refreshed.sorted.sublist List.filter_sublist
      · exact refreshed.reflects fun k name => named_stored s.names typed name
      · refine Holds.row (fun c mem d inside same => ?_) pushes refreshed more finds h.holds (markCacheDirty_reflects h)
          (fun c mem => stamped c (List.mem_of_mem_filter mem))
        exact List.inj_on_of_nodup_map distinct (List.mem_of_mem_filter mem) (List.mem_of_mem_filter inside) same

theorem Tracks.step (h : s.Tracks) (a : Action) (harmless : s.Harmless uuid a) :
    Verdict Tracks (· ≠ .disabled) (s.step uuid a) := by
  cases a with
  | row columns =>
    simp only [Partition.step]
    split
    · rename_i enabled
      split
      · rename_i empty
        have known := harmless.2
        rw [if_pos empty] at known
        exact h.delete known
      · rename_i some_
        obtain ⟨next, ran, tracks⟩ := h.row enabled.1 enabled.2 some_ harmless
        rw [ran]
        exact tracks
    · exact fun other => other rfl
  | delete => exact h.delete harmless
  | rename u entry => exact { h with }

/-- In every run of rows, deletes and changes of the FQ name cache whose steps are harmless, the cache has the columns of
the last row, and the consumer holds them, or nothing after a draft, an object without a type or a delete; and no
assertion fails and no string is read out of its range. -/
theorem mirrors_row (uuid : Str) (names : Names) (actions : List Action)
    (harmless : Throughout (step uuid) (Harmless uuid) { names } actions) :
    Safe (step uuid) Mirrors (· ≠ .disabled) { names } actions :=
  safe_of_throughout (I := Tracks) (fun _ tracks => tracks.mirrors) (fun _ a tracks harmless => tracks.step a harmless)
    actions _ (tracks_empty rfl (fun _ => rfl) rfl) harmless

/-! ### Runs on a fixed object -/

def column (key value : String) (timestamp : Nat) : Column := ⟨key.toList, value.toList, timestamp⟩

def nameColumns : List Column := [column "fq_name" "[\"a\", \"b\"]" 1, column "type" "\"network\"" 1]

/-- An object with a property and a list is read, then changed and shortened, and deleted. -/
def objectRun : List Action :=
  [.rename "u".toList (some ⟨"a:b".toList, false⟩),
    .row (column "prop:mtu" "1500" 1 :: column "propl:routes:0" "x" 1 :: column "propl:routes:1" "y" 1 :: nameColumns),
    .row (column "prop:mtu" "9000" 2 :: column "propl:routes:0" "x" 1 :: nameColumns),
    .rename "u".toList (some ⟨"a:b".toList, true⟩),
    .delete]

theorem mirrors_row_object :
    Throughout (step "u".toList) (Harmless "u".toList) { names := fun _ => none } objectRun ∧
      Safe (step "u".toList) Mirrors (· ≠ .disabled) { names := fun _ => none } objectRun := by
  have harmless : Throughout (step "u".toList) (Harmless "u".toList) { names := fun _ => none } objectRun :=
    throughout_of_check (Harmless "u".toList) objectRun _ (by decide +kernel)
  exact ⟨harmless, mirrors_row _ _ _ harmless⟩

theorem not_mirrors {k v : Str} (shown : s.shown = none) (held : s.held k = some v) : ¬ s.Mirrors := by
  intro mirrors
  unfold Mirrors at mirrors
  rw [shown] at mirrors
  rw [mirrors k] at held
  cases held

def draftRun : List Action :=
  [.row (column "prop:mtu" "1500" 1 :: nameColumns),
    .row (column "prop:draft_mode_state" "created" 2 :: column "prop:mtu" "1500" 1 :: nameColumns)]

/-- The object is deleted, and its name is not in the FQ name cache. -/
def namelessRun : List Action := [.row (column "prop:mtu" "1500" 1 :: nameColumns), .delete]

/-- The cache entry of a draft is dropped without a push, and the delete of an object whose name is not cached does
nothing: the consumer keeps the property. -/
theorem fields_outlive_object :
    (∃ s, run (step "u".toList) { names := fun _ => none } draftRun = .ok s ∧ ¬ s.Mirrors) ∧
      ∃ s, run (step "u".toList) { names := fun _ => none } namelessRun = .ok s ∧ ¬ s.Mirrors := by
  have kept : ∀ actions, (run (step "u".toList) { names := fun _ => none } actions).toOption.map
      (fun s => (s.shown, s.held "prop:mtu".toList)) = some (none, some "1500".toList) →
      ∃ s, run (step "u".toList) { names := fun _ => none } actions = .ok s ∧ ¬ s.Mirrors := by
    intro actions seen
    obtain ⟨s, ran, seen⟩ := ok_of_seen seen
    exact ⟨s, ran, not_mirrors (congrArg Prod.fst seen) (congrArg Prod.snd seen)⟩
  exact ⟨kept draftRun (by decide +kernel), kept namelessRun (by decide +kernel)⟩

end Partition

end TFCommon.ConfigClient.Cassandra
