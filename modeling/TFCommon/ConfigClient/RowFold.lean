import TFCommon.ConfigClient.Cassandra
import Mathlib.Data.List.TakeWhile

/-! What the columns of a row do to the cached fields, one by one and together. -/
namespace TFCommon.ConfigClient.Cassandra

/-! ### Keys -/

theorem starts_of_between {α : Type} [LinearOrder α] {name k rest : List α} (low : name ≤ k) (high : k ≤ name ++ rest) :
    name <+: k := by
  induction name generalizing k with
  | nil => exact List.nil_prefix
  | cons x name ih =>
    cases k with
    | nil => exact absurd low (not_le.mpr (List.nil_lt_cons x name))
    | cons y k =>
      rcases List.cons_le_cons_iff.mp (not_lt.mpr low) with less | ⟨rfl, below⟩
      · rcases List.cons_le_cons_iff.mp (not_lt.mpr high) with more | ⟨rfl, _⟩
        · exact absurd less (lt_asymm more)
        · exact absurd less (lt_irrefl _)
      · rcases List.cons_le_cons_iff.mp (not_lt.mpr high) with more | ⟨_, above⟩
        · exact absurd more (lt_irrefl _)
        · exact List.cons_prefix_cons.mpr ⟨rfl, ih (not_lt.mp below) (not_lt.mp above)⟩

theorem typeField_spec (kind : Str) {key : Str} (field : typeField key = kind ++ [':']) :
    ∃ rest, key = kind ++ ':' :: rest := by
  unfold typeField at field
  split at field
  · rename_i colon
    have start := List.append_cancel_right field
    obtain ⟨first, rest, rfl, absent⟩ := List.eq_append_cons_of_mem colon
    have plain : ∀ x ∈ first, decide (x ≠ ':') = true := fun x mem =>
      decide_eq_true fun same => absent (same ▸ mem)
    rw [List.takeWhile_append_of_pos plain] at start
    exact ⟨rest, by rw [← start]; simp⟩
  · exact absurd field.symm (by simp)

theorem beforeLast_append {start rest : Str} :
    beforeLast (start ++ ':' :: rest) = if ':' ∈ rest then start ++ ':' :: beforeLast rest else start := by
  unfold beforeLast
  rw [List.reverse_append, List.reverse_cons, List.append_assoc, List.dropWhile_append]
  split
  · rename_i none_
    have absent : ':' ∉ rest := by
      intro colon
      have all := List.dropWhile_eq_nil_iff.mp (List.isEmpty_iff.mp none_) ':' (List.mem_reverse.mpr colon)
      simp at all
    rw [if_neg absent]
    simp
  · rename_i some_
    have colon : ':' ∈ rest := by
      by_contra absent
      refine some_ (List.isEmpty_iff.mpr (List.dropWhile_eq_nil_iff.mpr fun x mem => ?_))
      have other : x ≠ ':' := fun same => absent (same ▸ List.mem_reverse.mp mem)
      simpa using other
    rw [if_pos colon]
    rw [List.isEmpty_iff] at some_
    rw [List.tail_append_of_ne_nil some_]
    simp

theorem beforeLast_spec {key : Str} (colon : ':' ∈ key) : ∃ rest, key = beforeLast key ++ ':' :: rest := by
  obtain ⟨first, rest, split, absent⟩ := List.eq_append_cons_of_mem (List.mem_reverse.mpr colon)
  have whole : key = rest.reverse ++ ':' :: first.reverse := by
    rw [← List.reverse_reverse key, split]
    simp
  rw [whole, beforeLast_append, if_neg (by simpa using absent)]
  exact ⟨first.reverse, rfl⟩

theorem isList_spec {key : Str} (list : isList key = true) :
    ∃ more rest, beforeLast key = 'p' :: 'r' :: more ∧ key = beforeLast key ++ ':' :: rest := by
  have kinds : ∃ kind rest, key = ('p' :: 'r' :: kind) ++ ':' :: rest := by
    simp only [isList, Bool.or_eq_true, decide_eq_true_eq] at list
    rcases list with list | list
    · obtain ⟨rest, split⟩ := typeField_spec "propl".toList list
      exact ⟨"opl".toList, rest, split⟩
    · obtain ⟨rest, split⟩ := typeField_spec "propm".toList list
      exact ⟨"opm".toList, rest, split⟩
  obtain ⟨kind, rest, rfl⟩ := kinds
  rw [beforeLast_append]
  split
  · rename_i colon
    obtain ⟨tail, whole⟩ := beforeLast_spec colon
    refine ⟨kind ++ ':' :: beforeLast rest, tail, rfl, ?_⟩
    conv_lhs => rw [whole]
    simp
  · exact ⟨kind, rest, rfl, rfl⟩

theorem sameName_of_starts {name key : Str} (starts : name <+: key) : sameName name key = true := by
  obtain ⟨rest, rfl⟩ := starts
  simp only [sameName, decide_eq_true_eq]
  rw [List.take_append_of_le_length (Nat.sub_le _ _)]

theorem sameName_type {name more : Str} (list : name = 'p' :: 'r' :: more) : sameName name typeKey = false := by
  subst list
  simp [sameName, typeKey]

theorem lt_type {name more : Str} (list : name = 'p' :: 'r' :: more) : name < typeKey := by
  subst list
  exact List.Lex.rel (by decide)

/-! ### The scan for entries that are gone -/

variable {fields m₀ : List Field} {name : Str} {f g : Field}

theorem scan_ok (mem : g ∈ fields) (other : sameName name g.key = false) : ∃ stale, scan name fields = .ok stale := by
  induction fields with
  | nil => cases mem
  | cons f rest ih =>
    unfold scan
    split
    · rename_i same
      split
      · rcases List.mem_cons.mp mem with rfl | mem
        · rw [same] at other
          cases other
        · exact ih mem
      · exact ⟨true, rfl⟩
    · exact ⟨false, rfl⟩

theorem scan_finds {rest : Str} (sorted : KeyedList.Sorted Field.key fields) (low : ∀ g ∈ fields, name ≤ g.key)
    (mem : f ∈ fields) (entry : f.key = name ++ rest) (stale : f.refreshed = false) : scan name fields = .ok true := by
  induction fields with
  | nil => cases mem
  | cons g fields ih =>
    obtain ⟨first, sorted⟩ := List.pairwise_cons.mp sorted
    have below : g.key ≤ f.key := by
      rcases List.mem_cons.mp mem with rfl | mem
      · exact le_refl _
      · exact le_of_lt (first f mem)
    have same := sameName_of_starts (starts_of_between (low g List.mem_cons_self) (entry ▸ below))
    unfold scan
    rw [if_pos same]
    split
    · rename_i refreshed
      rcases List.mem_cons.mp mem with rfl | mem
      · rw [stale] at refreshed
        cases refreshed
      · exact ih sorted (fun g mem => low g (List.mem_cons_of_mem _ mem)) mem
    · rfl

/-- For the property of an entry in a map with the key "type", the assertions hold and the scan does not run off the
map; it finds an entry of the property that was not refreshed. -/
theorem hasStale_spec (sorted : KeyedList.Sorted Field.key fields) (mem : f ∈ fields) (list : isList f.key = true)
    (typed : ∃ g ∈ fields, g.key = typeKey) :
    ∃ stale, hasStale fields (beforeLast f.key) = .ok stale ∧
      ((∃ g ∈ fields, g.refreshed = false ∧ sameProperty f.key g.key = true) → stale = true) := by
  obtain ⟨more, rest, named, whole⟩ := isList_spec list
  obtain ⟨last, typed, isType⟩ := typed
  have high : beforeLast f.key ≤ f.key := by
    conv_rhs => rw [whole]
    exact not_lt.mp List.le_append_left
  have bounded := KeyedList.mem_lowerBound mem high
  have typed' := KeyedList.mem_lowerBound typed (isType ▸ le_of_lt (lt_type named))
  have low : ∀ g ∈ KeyedList.lowerBound Field.key (beforeLast f.key) fields, beforeLast f.key ≤ g.key := fun g inside =>
    sorted.le_of_mem_lowerBound inside
  have sorted' := sorted.lowerBound (beforeLast f.key)
  have finds : ∀ g ∈ fields, g.refreshed = false → sameProperty f.key g.key = true →
      scan (beforeLast f.key) (KeyedList.lowerBound Field.key (beforeLast f.key) fields) = .ok true := by
    intro g inside stale same
    simp only [sameProperty, Bool.and_eq_true, decide_eq_true_eq] at same
    obtain ⟨_, rest, _, whole⟩ := isList_spec same.1.2
    rw [← same.2] at whole
    exact scan_finds sorted' low (KeyedList.mem_lowerBound inside (whole ▸ not_lt.mp List.le_append_left)) whole stale
  obtain ⟨stale, scanned⟩ := scan_ok typed' (isType ▸ sameName_type named)
  refine ⟨stale, ?_, ?_⟩
  · unfold hasStale
    split
    · rename_i none_
      rw [none_] at bounded
      cases bounded
    · rename_i g others split
      rw [split] at bounded low scanned sorted'
      have least := KeyedList.head_least sorted' rfl bounded
      rw [whole] at least
      rw [if_pos (sameName_of_starts (starts_of_between (low g List.mem_cons_self) least))]
      exact scanned
  · rintro ⟨g, inside, gone, same⟩
    exact (Except.ok.inj (scanned.symm.trans (finds g inside gone same)))

/-! ### The update list -/

def Named (fields : List Field) (name : Str) : Prop := ∃ f ∈ fields, isList f.key = true ∧ beforeLast f.key = name

theorem reviseUpdateList_spec (sorted : KeyedList.Sorted Field.key fields) (typed : ∃ g ∈ fields, g.key = typeKey)
    (candidates updated : List Str) (named : ∀ name ∈ candidates, Named fields name) :
    ∃ revised, reviseUpdateList fields candidates updated = .ok revised ∧ (∀ name ∈ updated, name ∈ revised) ∧
      (∀ name ∈ revised, name ∈ updated ∨ name ∈ candidates) ∧
      ∀ name ∈ candidates, ∀ g ∈ fields, g.refreshed = false → isList g.key = true → beforeLast g.key = name →
        name ∈ revised := by
  induction candidates generalizing updated with
  | nil => exact ⟨updated, rfl, fun _ mem => mem, fun _ mem => .inl mem, nofun⟩
  | cons name rest ih =>
    have later : ∀ name ∈ rest, Named fields name := fun name mem => named name (List.mem_cons_of_mem _ mem)
    unfold reviseUpdateList
    split
    · rename_i here
      obtain ⟨revised, ran, more, only, finds⟩ := ih updated later
      exact ⟨revised, ran, more, fun n mem => (only n mem).imp_right (List.mem_cons_of_mem _),
        List.forall_mem_cons.mpr ⟨fun _ _ _ _ _ => more _ (List.contains_iff_mem.mp here), finds⟩⟩
    · obtain ⟨f, mem, list, rfl⟩ := named name List.mem_cons_self
      obtain ⟨stale, ran, gone⟩ := hasStale_spec sorted mem list typed
      obtain ⟨revised, ran', more, only, finds⟩ :=
        ih (if stale then setInsert (beforeLast f.key) updated else updated) later
      have first : ∀ n, n ∈ (if stale then setInsert (beforeLast f.key) updated else updated) ↔
          n ∈ updated ∨ stale = true ∧ n = beforeLast f.key := by
        cases stale with
        | false => simp
        | true => simp [setInsert, KeyedList.mem_insert_id, or_comm]
      refine ⟨revised, by rw [ran]; exact ran', fun n mem => more n ((first n).mpr (.inl mem)), ?_, ?_⟩
      · intro n mem
        rcases only n mem with mem | mem
        · rcases (first n).mp mem with mem | ⟨_, rfl⟩
          · exact .inl mem
          · exact .inr List.mem_cons_self
        · exact .inr (List.mem_cons_of_mem _ mem)
      · intro n mem g inside unseen listed same
        rcases List.mem_cons.mp mem with rfl | mem
        · have found := gone ⟨g, inside, unseen, by simp [sameProperty, list, listed, same]⟩
          exact more _ ((first _).mpr (.inr ⟨found, rfl⟩))
        · exact finds n mem g inside unseen listed same

/-! ### One column -/

def Fresh (fields : List Field) (key : Str) (timestamp : Nat) : Prop :=
  ∀ f ∈ fields, f.key = key → timestamp = 0 ∨ f.timestamp ≠ timestamp

theorem refresh_spec (sorted : KeyedList.Sorted Field.key fields) (a : Adapter) (timestamp : Nat) :
    KeyedList.Sorted Field.key (refresh fields a timestamp).1 ∧
    (∃ e, e.key = a.key ∧ e.refreshed = true ∧ (isName a.key = true ∨ e.timestamp = timestamp) ∧
      ∀ g, g ∈ (refresh fields a timestamp).1 ↔ g = e ∨ g ∈ fields ∧ g.key ≠ a.key) ∧
    ((refresh fields a timestamp).2 = true ↔ isName a.key = true ∨ Fresh fields a.key timestamp) := by
  unfold refresh
  split
  · rename_i missing
    have apart : ∀ g ∈ fields, g.key ≠ a.key := by
      intro g mem same
      have none_ := List.find?_eq_none.mp missing g mem
      exact none_ (decide_eq_true same)
    refine ⟨KeyedList.insert_sorted sorted apart, ⟨⟨a.key, a.value, a.refFqName, timestamp, true⟩, rfl, rfl, .inr rfl, ?_⟩, ?_⟩
    · intro g
      rw [KeyedList.mem_insert apart]
      exact or_congr_right ⟨fun mem => ⟨mem, apart g mem⟩, And.left⟩
    · exact ⟨fun _ => .inr fun g mem same => absurd same (apart g mem), fun _ => rfl⟩
  · rename_i f found
    have mem := List.mem_of_find?_eq_some found
    have same : f.key = a.key := by simpa using List.find?_some found
    rw [← same]
    split
    · rename_i name
      refine ⟨sorted.update _ fun _ => rfl, ⟨{ f with refreshed := true }, rfl, rfl, .inl name, ?_⟩, ?_⟩
      · exact fun g => sorted.mem_update mem
      exact ⟨fun _ => .inl name, fun _ => rfl⟩
    · rename_i other
      refine ⟨sorted.update _ fun _ => rfl, ⟨{ f with refreshed := true, timestamp }, rfl, rfl, .inr rfl, ?_⟩, ?_⟩
      · exact fun g => sorted.mem_update mem
      simp only [Bool.or_eq_true, decide_eq_true_eq]
      constructor
      · intro new
        refine .inr fun g inside key => ?_
        obtain rfl := sorted.eq_of_key inside mem key
        exact new
      · intro new
        exact new.resolve_left other f mem rfl

theorem isName_stored (names : Names) {key : Str} (name : isName key = true) :
    isSkipped key = false ∧ isUnknown names key = false ∧ isList key = false := by
  simp only [isName, Bool.or_eq_true, decide_eq_true_eq] at name
  rcases name with rfl | rfl
  · exact ⟨by decide, by simp [isUnknown, show isRef typeKey = false by decide, show isParent typeKey = false by decide], by decide⟩
  · exact ⟨by decide, by simp [isUnknown, show isRef fqNameKey = false by decide, show isParent fqNameKey = false by decide], by decide⟩

def isDraft (c : Column) : Bool := isSkipped c.key && (afterFirst c.key = "draft_mode_state".toList && c.value ≠ [])

def givesType (c : Column) : Bool := c.key = typeKey && c.value.filter (· ≠ '"') ≠ []

theorem noteName_spec {c : Column} (context : Context) (proper : c.key = fqNameKey → c.value ≠ []) :
    ∃ objType fqName fqNamePresent, noteName c context = .ok { context with objType, fqName, fqNamePresent } ∧
      (objType ≠ [] ↔ context.objType ≠ [] ∨ givesType c = true) ∧
      (fqNamePresent = true ↔ context.fqNamePresent = true ∨ c.key = fqNameKey) := by
  unfold noteName
  split
  · rename_i type
    have other : c.key ≠ fqNameKey := by
      rw [type]
      decide
    split
    · rename_i empty
      exact ⟨_, _, _, rfl, by simp [givesType, type, empty], by simp [other]⟩
    · rename_i given
      exact ⟨_, _, _, rfl, by simp [given], by simp [other]⟩
  · rename_i other
    have none_ : givesType c = false := by simp [givesType, other]
    split
    · rename_i fq
      split
      · rw [if_neg (proper fq)]
        exact ⟨_, _, _, rfl, by simp [none_], by simp [fq]⟩
      · exact ⟨_, _, _, rfl, by simp [none_], by simp [fq]⟩
    · rename_i plain
      exact ⟨_, _, _, rfl, by simp [none_], by simp [plain]⟩

/-! ### All columns -/

/-- The fields after the columns `seen` are stored in the map `m₀`, in which no field is refreshed. -/
structure Refreshed (m₀ : List Field) (seen : List Column) (fields : List Field) : Prop where
  sorted : KeyedList.Sorted Field.key fields
  present : ∀ c ∈ seen, ∃ f ∈ fields, f.key = c.key ∧ f.refreshed = true
  new : ∀ f ∈ fields, f.refreshed = true → ∃ c ∈ seen, c.key = f.key ∧ (isName f.key = true ∨ f.timestamp = c.timestamp)
  old : ∀ f ∈ fields, f.refreshed = false → f ∈ m₀
  kept : ∀ f ∈ m₀, ∃ g ∈ fields, g.key = f.key

namespace Refreshed

variable {seen : List Column} {c : Column}

theorem start (sorted : KeyedList.Sorted Field.key m₀) (dirty : ∀ f ∈ m₀, f.refreshed = false) : Refreshed m₀ [] m₀ where
  sorted := sorted
  present _ mem := by cases mem
  new f mem refreshed := by
    rw [dirty f mem] at refreshed
    cases refreshed
  old _ mem _ := mem
  kept f mem := ⟨f, mem, rfl⟩

section
variable (h : Refreshed m₀ seen fields)
include h

theorem unseen (mem : f ∈ fields) (stale : f.refreshed = false) : ∀ c ∈ seen, c.key ≠ f.key := by
  intro c inside same
  obtain ⟨g, mem', key, refreshed⟩ := h.present c inside
  obtain rfl := h.sorted.eq_of_key mem' mem (key.trans same)
  rw [stale] at refreshed
  cases refreshed

theorem old_of_unseen (mem : f ∈ fields) (other : ∀ c ∈ seen, c.key ≠ f.key) : f ∈ m₀ := by
  cases refreshed : f.refreshed with
  | false => exact h.old f mem refreshed
  | true =>
    obtain ⟨c, inside, same, _⟩ := h.new f mem refreshed
    exact absurd same (other c inside)

theorem fresh_iff (sorted : KeyedList.Sorted Field.key m₀)
    (other : ∀ d ∈ seen, d.key ≠ c.key) : Fresh fields c.key c.timestamp ↔ Fresh m₀ c.key c.timestamp := by
  constructor
  · intro fresh f mem same
    obtain ⟨g, inside, key⟩ := h.kept f mem
    have old := h.old_of_unseen inside (by rw [key, same]; exact other)
    obtain rfl := sorted.eq_of_key old mem key
    exact fresh g inside same
  · intro fresh f mem same
    exact fresh f (h.old_of_unseen mem (by rw [same]; exact other)) same

theorem store {a : Adapter} (key : a.key = c.key) : Refreshed m₀ (seen ++ [c]) (refresh fields a c.timestamp).1 := by
  obtain ⟨sorted, ⟨e, same, refreshed, stamp, members⟩, -⟩ := refresh_spec h.sorted a c.timestamp
  rw [key] at same stamp members
  constructor
  · exact sorted
  · intro d mem
    by_cases here : d.key = c.key
    · exact ⟨e, (members e).mpr (.inl rfl), same.trans here.symm, refreshed⟩
    · have inside : d ∈ seen := by
        rcases List.mem_append.mp mem with mem | mem
        · exact mem
        · exact absurd (congrArg Column.key (List.mem_singleton.mp mem)) here
      obtain ⟨f, mem, key, refreshed⟩ := h.present d inside
      exact ⟨f, (members f).mpr (.inr ⟨mem, by rw [key]; exact here⟩), key, refreshed⟩
  · intro f mem new
    rcases (members f).mp mem with rfl | ⟨mem, _⟩
    · exact ⟨c, by simp, same.symm, by rw [same]; exact stamp⟩
    · obtain ⟨d, inside, key⟩ := h.new f mem new
      exact ⟨d, List.mem_append_left _ inside, key⟩
  · intro f mem stale
    rcases (members f).mp mem with rfl | ⟨mem, _⟩
    · rw [refreshed] at stale
      cases stale
    · exact h.old f mem stale
  · intro f mem
    obtain ⟨g, inside, key⟩ := h.kept f mem
    by_cases here : g.key = c.key
    · exact ⟨e, (members e).mpr (.inl rfl), by rw [same, ← here, key]⟩
    · exact ⟨g, (members g).mpr (.inr ⟨inside, here⟩), key⟩

end

end Refreshed

structure Pushes (names : Names) (m₀ : List Field) (seen : List Column) (p : Parse) : Prop where
  data : ∀ a ∈ p.data, ∃ c ∈ seen, isList c.key = false ∧ a = adapterOf names c
  fresh : ∀ c ∈ seen, isList c.key = false → Fresh m₀ c.key c.timestamp → adapterOf names c ∈ p.data
  lists : ∀ name a, (name, a) ∈ p.context.listMapProperties ↔
    ∃ c ∈ seen, isList c.key = true ∧ name = beforeLast c.key ∧ a = adapterOf names c
  updated : ∀ name ∈ p.context.updated, ∃ c ∈ seen, isList c.key = true ∧ beforeLast c.key = name
  updates : ∀ c ∈ seen, isList c.key = true → Fresh m₀ c.key c.timestamp → beforeLast c.key ∈ p.context.updated
  candidates : ∀ name ∈ p.context.candidates, ∃ c ∈ seen, isList c.key = true ∧ beforeLast c.key = name
  either : ∀ c ∈ seen, isList c.key = true →
    beforeLast c.key ∈ p.context.updated ∨ beforeLast c.key ∈ p.context.candidates

namespace Pushes

variable {names : Names} {seen : List Column} {c : Column} {p q : Parse} {new : Bool}

theorem start : Pushes names m₀ [] { fields := m₀ } where
  data _ mem := by cases mem
  fresh _ mem := by cases mem
  lists _ _ := by simp
  updated _ mem := by cases mem
  updates _ mem := by cases mem
  candidates _ mem := by cases mem
  either _ mem := by cases mem

theorem grow {P : Column → Prop} : (∃ d ∈ seen, P d) → ∃ d ∈ seen ++ [c], P d :=
  fun ⟨d, inside, rest⟩ => ⟨d, List.mem_append_left _ inside, rest⟩

theorem single (h : Pushes names m₀ seen p) (plain : isList c.key = false)
    (fresh : Fresh m₀ c.key c.timestamp → new = true)
    (data : q.data = p.data ++ if new = true then [adapterOf names c] else [])
    (lists : q.context.listMapProperties = p.context.listMapProperties)
    (updated : q.context.updated = p.context.updated) (candidates : q.context.candidates = p.context.candidates) :
    Pushes names m₀ (seen ++ [c]) q := by
  have other : ∀ d ∈ seen ++ [c], isList d.key = true → d ∈ seen :=
    List.forall_mem_append.mpr ⟨fun d mem _ => mem, List.forall_mem_singleton.mpr fun list => by simp [plain] at list⟩
  constructor
  · intro a mem
    rw [data] at mem
    rcases List.mem_append.mp mem with mem | mem
    · exact grow (h.data a mem)
    · split at mem
      · exact ⟨c, by simp, plain, List.mem_singleton.mp mem⟩
      · cases mem
  · rw [data]
    refine List.forall_mem_append.mpr ⟨fun d mem list young => List.mem_append_left _ (h.fresh d mem list young),
      List.forall_mem_singleton.mpr fun _ young => ?_⟩
    rw [if_pos (fresh young)]
    simp
  · intro name a
    rw [lists, h.lists]
    refine ⟨grow, ?_⟩
    rintro ⟨d, inside, list, rest⟩
    exact ⟨d, other d inside list, list, rest⟩
  · exact fun name mem => grow (h.updated name (updated ▸ mem))
  · intro d mem list young
    rw [updated]
    exact h.updates d (other d mem list) list young
  · exact fun name mem => grow (h.candidates name (candidates ▸ mem))
  · intro d mem list
    rw [updated, candidates]
    exact h.either d (other d mem list) list

theorem entry (h : Pushes names m₀ seen p) (list : isList c.key = true)
    (fresh : Fresh m₀ c.key c.timestamp → new = true) (data : q.data = p.data)
    (lists : q.context.listMapProperties = p.context.listMapProperties ++ [(beforeLast c.key, adapterOf names c)])
    (updated : ∀ n, n ∈ q.context.updated ↔ n ∈ p.context.updated ∨ new = true ∧ n = beforeLast c.key)
    (candidates : ∀ n, n ∈ q.context.candidates ↔ n ∈ p.context.candidates ∨ new = false ∧ n = beforeLast c.key) :
    Pushes names m₀ (seen ++ [c]) q := by
  have last : c ∈ seen ++ [c] := by simp
  constructor
  · exact fun a mem => grow (h.data a (data ▸ mem))
  · rw [data]
    exact List.forall_mem_append.mpr ⟨h.fresh, List.forall_mem_singleton.mpr fun plain => by simp [list] at plain⟩
  · intro name a
    rw [lists, List.mem_append, h.lists, List.mem_singleton]
    constructor
    · rintro (earlier | same)
      · exact grow earlier
      · cases same
        exact ⟨c, last, list, rfl, rfl⟩
    · rintro ⟨d, inside, rest⟩
      rcases List.mem_append.mp inside with inside | inside
      · exact .inl ⟨d, inside, rest⟩
      · obtain rfl := List.mem_singleton.mp inside
        exact .inr (by rw [rest.2.1, rest.2.2])
  · intro name mem
    rcases (updated name).mp mem with mem | ⟨_, rfl⟩
    · exact grow (h.updated name mem)
    · exact ⟨c, last, list, rfl⟩
  · exact List.forall_mem_append.mpr ⟨fun d mem list young => (updated _).mpr (.inl (h.updates d mem list young)),
      List.forall_mem_singleton.mpr fun _ young => (updated _).mpr (.inr ⟨fresh young, rfl⟩)⟩
  · intro name mem
    rcases (candidates name).mp mem with mem | ⟨_, rfl⟩
    · exact grow (h.candidates name mem)
    · exact ⟨c, last, list, rfl⟩
  · intro d mem list
    rw [updated, candidates]
    rcases List.mem_append.mp mem with mem | mem
    · exact (h.either d mem list).imp .inl .inl
    · obtain rfl := List.mem_singleton.mp mem
      cases new with
      | true => exact .inl (.inr ⟨rfl, rfl⟩)
      | false => exact .inr (.inr ⟨rfl, rfl⟩)

end Pushes

structure Noted (done : List Column) (context : Context) : Prop where
  draft : context.ignoreObject = done.any isDraft
  type : context.objType ≠ [] ↔ done.any givesType = true
  fqName : context.fqNamePresent = true ↔ ∃ c ∈ done, c.key = fqNameKey

structure Parsed (names : Names) (m₀ : List Field) (done : List Column) (p : Parse) : Prop where
  refreshed : Refreshed m₀ (Partition.stored names done) p.fields
  pushes : Pushes names m₀ (Partition.stored names done) p
  noted : Noted done p.context

section
variable {names : Names} {done columns : List Column} {c : Column} {p : Parse}

theorem Parsed.start (sorted : KeyedList.Sorted Field.key m₀) (dirty : ∀ f ∈ m₀, f.refreshed = false) :
    Parsed names m₀ [] { fields := m₀ } where
  refreshed := .start sorted dirty
  pushes := .start
  noted := ⟨rfl, by simp, by simp⟩

theorem stored_left (absent : (isSkipped c.key || isUnknown names c.key) = true) :
    Partition.stored names (done ++ [c]) = Partition.stored names done := by
  rw [Bool.or_eq_true] at absent
  rcases absent with absent | absent <;> simp [Partition.stored, absent]

theorem stored_right (skipped : isSkipped c.key = false) (known : isUnknown names c.key = false) :
    Partition.stored names (done ++ [c]) = Partition.stored names done ++ [c] := by
  simp [Partition.stored, skipped, known]

theorem not_named (names : Names) (absent : (isSkipped c.key || isUnknown names c.key) = true) :
    c.key ≠ fqNameKey ∧ givesType c = false := by
  have other : isName c.key = false := by
    by_contra name
    obtain ⟨skipped, known, _⟩ := isName_stored names (Bool.not_eq_false _ ▸ name)
    simp [skipped, known] at absent
  simp only [isName, Bool.or_eq_false_iff, decide_eq_false_iff_not] at other
  exact ⟨other.2, by simp [givesType, other.1]⟩

theorem Parsed.left (h : Parsed names m₀ done p) (absent : (isSkipped c.key || isUnknown names c.key) = true)
    {ignore unknown : Bool} (draft : ignore = (p.context.ignoreObject || isDraft c)) :
    Parsed names m₀ (done ++ [c])
      { p with context := { p.context with ignoreObject := ignore, fqNameUnknown := unknown } } := by
  obtain ⟨plain, untyped⟩ := not_named names absent
  refine ⟨?_, ?_, by simp [draft, h.noted.draft], by simp [h.noted.type, untyped], by simp [h.noted.fqName, plain]⟩
  · rw [stored_left absent]
    exact h.refreshed
  · rw [stored_left absent]
    exact { h.pushes with }

theorem Parsed.column (h : Parsed names m₀ done p) (sorted : KeyedList.Sorted Field.key m₀)
    (other : ∀ d ∈ done, d.key ≠ c.key) (proper : c.key = fqNameKey → c.value ≠ []) :
    ∃ q, storeKeyIfUpdated names p c = .ok q ∧ Parsed names m₀ (done ++ [c]) q := by
  unfold storeKeyIfUpdated
  split
  · rename_i skipped
    exact ⟨_, rfl, h.left (by simp [skipped]) (by simp [isDraft, skipped])⟩
  · rename_i notSkipped
    rw [Bool.not_eq_true] at notSkipped
    have undrafted : isDraft c = false := by simp [isDraft, notSkipped]
    split
    · rename_i unknown
      exact ⟨_, rfl, h.left (by simp [unknown]) (by simp [undrafted])⟩
    · rename_i known
      rw [Bool.not_eq_true] at known
      obtain ⟨objType, fqName', present, noted, typed, named⟩ := noteName_spec p.context proper
      have unseen : ∀ d ∈ Partition.stored names done, d.key ≠ c.key := fun d mem => other d (List.mem_of_mem_filter mem)
      have refreshed := h.refreshed.store (a := adapterOf names c) rfl
      obtain ⟨-, -, new⟩ := refresh_spec h.refreshed.sorted (adapterOf names c) c.timestamp
      have fresh : Fresh m₀ c.key c.timestamp → (refresh p.fields (adapterOf names c) c.timestamp).2 = true := fun young =>
        new.mpr (.inr ((h.refreshed.fresh_iff sorted unseen).mpr young))
      rw [noted]
      simp only [pure, Except.pure]
      generalize refresh p.fields (adapterOf names c) c.timestamp = result at refreshed fresh
      obtain ⟨fields, new⟩ := result
      -- What the column says of the object is the same in all branches.
      have states : ∀ q : Parse, Pushes names m₀ (Partition.stored names done ++ [c]) q → q.fields = fields →
          q.context.ignoreObject = p.context.ignoreObject → q.context.objType = objType →
          q.context.fqNamePresent = present → Parsed names m₀ (done ++ [c]) q := by
        intro q pushes same ignore type' present'
        rw [← same, ← stored_right notSkipped known] at refreshed
        rw [← stored_right notSkipped known] at pushes
        refine ⟨refreshed, pushes, ?_, ?_, ?_⟩
        · simp [ignore, h.noted.draft, undrafted]
        · rw [type', typed, h.noted.type]
          simp
        · rw [present', named, h.noted.fqName]
          simp
      split
      · rename_i list
        cases new with
        | true =>
          refine ⟨_, rfl, states _ ?_ rfl rfl rfl rfl⟩
          exact h.pushes.entry list fresh rfl rfl (by simp [setInsert, KeyedList.mem_insert_id, or_comm]) (by simp)
        | false =>
          refine ⟨_, rfl, states _ ?_ rfl rfl rfl rfl⟩
          exact h.pushes.entry list fresh rfl rfl (by simp) (by simp [setInsert, KeyedList.mem_insert_id, or_comm])
      · rename_i plain
        rw [Bool.not_eq_true] at plain
        cases new with
        | true => exact ⟨_, rfl, states _ (h.pushes.single plain fresh rfl rfl rfl rfl) rfl rfl rfl rfl⟩
        | false => exact ⟨_, rfl, states _ (h.pushes.single plain fresh (by simp) rfl rfl rfl) rfl rfl rfl rfl⟩

theorem Parsed.row (h : Parsed names m₀ done p) (sorted : KeyedList.Sorted Field.key m₀)
    (distinct : ((done ++ columns).map Column.key).Nodup) (proper : ∀ c ∈ columns, c.key = fqNameKey → c.value ≠ []) :
    ∃ q, parseRow names p columns = .ok q ∧ Parsed names m₀ (done ++ columns) q := by
  induction columns generalizing done p with
  | nil => exact ⟨p, rfl, by rw [List.append_nil]; exact h⟩
  | cons c columns ih =>
    have other : ∀ d ∈ done, d.key ≠ c.key := by
      intro d mem same
      rw [List.map_append, List.nodup_append] at distinct
      exact distinct.2.2 _ (List.mem_map_of_mem mem) _ (List.mem_map_of_mem List.mem_cons_self) same
    obtain ⟨q, stored, parsed⟩ := h.column sorted other (proper c List.mem_cons_self)
    rw [List.append_cons] at distinct
    obtain ⟨r, ran, final⟩ := ih parsed distinct fun d mem => proper d (List.mem_cons_of_mem _ mem)
    refine ⟨r, ?_, by rw [List.append_cons]; exact final⟩
    rw [parseRow, stored]
    exact ran

end

end TFCommon.ConfigClient.Cassandra
