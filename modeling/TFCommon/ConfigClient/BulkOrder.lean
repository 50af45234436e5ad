import TFCommon.ConfigClient.EndOfConfig
import Mathlib.Data.Finset.Card

/-! `EndOfConfig` comes after the bulk data as long as it enters the map of a partition only after the `CREATE` requests
before it have left the map. -/
namespace TFCommon.ConfigClient.Bulk

structure Ordered (c : Config) (s : Client) : Prop where
  -- A partition is done only when the `CREATE` requests from before its `EndOfConfig` are processed.
  order : ∀ i < c.workers, (s.partitions i).done = true → ∀ r ∈ (s.partitions i).pending, r.early = false
  -- The manager's `EndOfConfig` runs only after all objects of the bulk read.
  whole : s.endOfRibComputed = true →
    s.bulk = .sending c.workers ∧ ∀ i < c.workers, ∀ r ∈ (s.partitions i).pending, r.early = false
  once : s.endOfConfigs = if s.endOfRibComputed then 1 else 0
  -- It has run when the bulk read is over and everything is processed, without a reinit.
  reached : s.reinitTriggered = false → s.bulk = .sending c.workers →
    (∀ i < c.workers, (s.partitions i).pending = []) → s.endOfConfigs = 1

def Harmless (s : Client) : Action → Prop
  | .process i =>
    match (s.partitions i).queue with
    | [] => True
    | r :: _ => r.oper = .endOfConfig → ∀ e ∈ (s.partitions i).set, e.early = false
  | _ => True

instance (s : Client) (a : Action) : Decidable (Harmless s a) := by
  unfold Harmless
  split
  · split <;> infer_instance
  · infer_instance

/-! ### The map -/

def isEnd (r : Request) : Bool := r.oper = .endOfConfig

def Keyed (r : Request) : Prop := (r.uuid = "" ↔ r.oper = .endOfConfig) ∧ (r.oper = .endOfConfig → r.early = false)

variable {c : Config} {kind : Kind} {r e : Request} {l : List Request}

theorem absorb_keyed (new : Keyed r) (old : Keyed e) (same : r.uuid = e.uuid) : ∀ x ∈ absorb kind e r, Keyed x := by
  intro x mem
  unfold absorb at mem
  split at mem
  · cases mem
  · rw [List.mem_singleton.mp mem]
    refine ⟨new.1, fun ending => ?_⟩
    have oldEnd : e.oper = .endOfConfig := old.1.mp (same ▸ new.1.mpr ending)
    simp [new.2 ending, old.2 oldEnd]

theorem forall_insertRequest {P : Request → Prop} (new : P r) (old : ∀ e ∈ l, P e)
    (merged : ∀ e ∈ l, r.uuid = e.uuid → ∀ x ∈ absorb kind e r, P x) : ∀ x ∈ insertRequest kind r l, P x := by
  induction l with
  | nil => simpa [insertRequest] using new
  | cons e rest ih =>
    obtain ⟨first, others⟩ := List.forall_mem_cons.mp old
    obtain ⟨here, later⟩ := List.forall_mem_cons.mp merged
    unfold insertRequest
    split
    · exact List.forall_mem_cons.mpr ⟨new, old⟩
    · split
      · rename_i same
        exact List.forall_mem_append.mpr ⟨here same, others⟩
      · exact List.forall_mem_cons.mpr ⟨first, ih others later⟩

theorem insertRequest_keyed (new : Keyed r) (old : ∀ e ∈ l, Keyed e) : ∀ x ∈ insertRequest kind r l, Keyed x :=
  forall_insertRequest new old fun e mem same => absorb_keyed new (old e mem) same

theorem insertRequest_late (kind : Kind) (new : r.early = false) (old : ∀ e ∈ l, e.early = false) :
    ∀ x ∈ insertRequest kind r l, x.early = false := by
  refine forall_insertRequest new old fun e mem _ x merged => ?_
  unfold absorb at merged
  split at merged
  · cases merged
  · rw [List.mem_singleton.mp merged]
    simp [new, old e mem]

theorem countP_insertRequest (kind : Kind) (new : Keyed r) (old : ∀ e ∈ l, Keyed e)
    (single : isEnd r = true → l.countP isEnd = 0) :
    (insertRequest kind r l).countP isEnd = l.countP isEnd + (isEnd r).toNat := by
  induction l with
  | nil => cases ending : isEnd r <;> simp [insertRequest, ending]
  | cons e rest ih =>
    obtain ⟨first, others⟩ := List.forall_mem_cons.mp old
    simp only [List.countP_cons, Nat.add_eq_zero_iff] at single ⊢
    have tail := ih others fun ending => (single ending).1
    unfold insertRequest
    split
    · cases ending : isEnd r <;> simp [List.countP_cons, ending]
    · split
      · rename_i same
        have alike : isEnd r = isEnd e := by
          rw [isEnd, isEnd, decide_eq_decide, ← new.1, ← first.1, same]
        have object : isEnd r = false := by
          cases ending : isEnd r with
          | false => rfl
          | true =>
            have none_ := (single ending).2
            simp [← alike, ending] at none_
        have merged : (absorb kind e r).countP isEnd = 0 := by
          simp only [isEnd] at object
          unfold absorb
          split
          · rfl
          · simp [isEnd, object]
        rw [List.countP_append, merged, ← alike, object]
        simp
      · rw [List.countP_cons, tail]
        omega

/-! ### A partition -/

/-- The invariant of a partition to which `EndOfConfig` was sent or not, in a generation that ends or not. -/
structure Sound (sent reinit : Bool) (p : Partition) : Prop where
  -- `EndOfConfig` is in the queue, in the map or processed; only a reinit may lose it.
  one : p.queue.countP isEnd + p.set.countP isEnd + p.done.toNat ≤ sent.toNat
  kept : reinit = false → sent.toNat ≤ p.queue.countP isEnd + p.set.countP isEnd + p.done.toNat
  queued : ∀ r ∈ p.queue, Keyed r
  listed : ∀ r ∈ p.set, Keyed r
  bunched : ∀ r ∈ p.bunch, Keyed r ∧ isEnd r = false
  -- No early request is behind `EndOfConfig`.
  behind : p.queue.Pairwise fun a b => isEnd a = true → b.early = false
  after : sent = true → p.queue.countP isEnd = 0 → ∀ r ∈ p.queue, r.early = false
  clean : (p.set.countP isEnd ≠ 0 ∨ p.done = true) → ∀ r ∈ p.bunch ++ p.set, r.early = false
  -- Only a reader that runs has a bunch.
  stopped : p.reader.isRunning = false → p.bunch = []

variable {sent reinit : Bool} {p : Partition} {queue rest : List Request}

theorem sound_start : Sound false reinit {} where
  one := Nat.le_refl _
  kept := fun _ => Nat.le_refl _
  queued := nofun
  listed := nofun
  bunched := nofun
  behind := List.Pairwise.nil
  after := nofun
  clean := nofun
  stopped := fun _ => rfl

theorem Sound.enqueue (sound : Sound sent reinit p) (keyed : Keyed r) (object : isEnd r = false)
    (late : sent = true → r.early = false) : Sound sent reinit (p.enqueue r) := by
  have count : (p.enqueue r).queue.countP isEnd = p.queue.countP isEnd := by
    simp [Partition.enqueue, object]
  refine ⟨count ▸ sound.one, fun none_ => count ▸ sound.kept none_,
    List.forall_mem_append.mpr ⟨sound.queued, List.forall_mem_singleton.mpr keyed⟩, sound.listed, sound.bunched, ?_, ?_,
    sound.clean, sound.stopped⟩
  · refine List.pairwise_append.mpr ⟨sound.behind, List.pairwise_singleton _ _, fun a first b last ending => ?_⟩
    rw [List.mem_singleton.mp last]
    have some_ : 0 < p.queue.countP isEnd := List.countP_pos_iff.mpr ⟨a, first, ending⟩
    have one := sound.one
    have bound := Bool.toNat_le sent
    exact late (Bool.toNat_eq_one.mp (by omega))
  · exact fun told none_ => List.forall_mem_append.mpr
      ⟨sound.after told (count ▸ none_), List.forall_mem_singleton.mpr (late told)⟩

theorem Sound.send (sound : Sound false reinit p) : Sound true reinit (p.enqueue ⟨.endOfConfig, "", false⟩) := by
  have one := sound.one
  have count : (p.enqueue ⟨.endOfConfig, "", false⟩).queue.countP isEnd = p.queue.countP isEnd + 1 := by
    simp [Partition.enqueue, isEnd]
  refine ⟨?_, fun _ => ?_, List.forall_mem_append.mpr ⟨sound.queued, List.forall_mem_singleton.mpr (by simp [Keyed])⟩,
    sound.listed, sound.bunched, ?_, fun _ none_ => ?_, sound.clean, sound.stopped⟩
  · rw [count]
    simp only [Bool.toNat_false, Bool.toNat_true, Partition.enqueue] at one ⊢
    omega
  · simp
    omega
  · refine List.pairwise_append.mpr ⟨sound.behind, List.pairwise_singleton _ _, fun a _ b last _ => ?_⟩
    rw [List.mem_singleton.mp last]
  · omega

theorem Sound.addRequest (sound : Sound sent reinit p) (head : p.queue = r :: queue)
    (harmless : isEnd r = true → ∀ e ∈ p.set, e.early = false) (idle : p.reader.isRunning = false) :
    Sound sent reinit (p.addRequest kind r queue) := by
  have keyed := sound.queued r (by rw [head]; exact List.mem_cons_self)
  have one := sound.one
  have kept := sound.kept
  have behind := sound.behind
  rw [head, List.countP_cons] at one kept
  rw [head, List.pairwise_cons] at behind
  have noBunch := sound.stopped idle
  have queued : ∀ x ∈ queue, Keyed x := fun x mem => sound.queued x (by rw [head]; exact List.mem_cons_of_mem _ mem)
  have stopped : (p.addRequest kind r queue).reader.isRunning = false → (p.addRequest kind r queue).bunch = [] :=
    fun _ => noBunch
  cases ending : isEnd r with
  | true =>
    rw [ending, if_pos rfl] at one kept
    have bound := Bool.toNat_le sent
    have count := countP_insertRequest kind keyed sound.listed fun _ => by omega
    rw [ending, Bool.toNat_true] at count
    have late := insertRequest_late kind (keyed.2 (by simpa [isEnd] using ending)) (harmless ending)
    refine ⟨?_, fun calm => ?_, queued, insertRequest_keyed keyed sound.listed, sound.bunched, behind.2, ?_, ?_, stopped⟩
    · simp [Partition.addRequest]
      omega
    · simp [Partition.addRequest]
      omega
    · exact fun _ _ x mem => behind.1 x mem ending
    · intro _ x mem
      simp only [Partition.addRequest, noBunch] at mem
      exact late x mem
  | false =>
    rw [ending] at one kept
    have count := countP_insertRequest kind keyed sound.listed (by simp [ending])
    rw [ending, Bool.toNat_false, Nat.add_zero] at count
    refine ⟨?_, fun calm => ?_, queued, insertRequest_keyed keyed sound.listed, sound.bunched, behind.2, ?_, ?_, stopped⟩
    · simp only [Partition.addRequest, count]
      exact one
    · simp only [Partition.addRequest, count]
      exact kept calm
    · intro told none_ x mem
      refine sound.after told ?_ x (by rw [head]; exact List.mem_cons_of_mem _ mem)
      rw [head, List.countP_cons_of_neg (by simp [ending])]
      exact none_
    · intro some_ x mem
      simp only [Partition.addRequest, noBunch, count] at mem some_
      have told : sent = true ∧ queue.countP isEnd = 0 := by
        have bound := Bool.toNat_le sent
        rcases some_ with inside | done
        · exact ⟨Bool.toNat_eq_one.mp (by omega), by omega⟩
        · rw [done, Bool.toNat_true] at one
          exact ⟨Bool.toNat_eq_one.mp (by omega), by omega⟩
      have fresh : r.early = false := by
        refine sound.after told.1 ?_ r (by rw [head]; exact List.mem_cons_self)
        rw [head, List.countP_cons_of_neg (by simp [ending])]
        exact told.2
      exact insertRequest_late kind fresh (fun e mem => sound.clean some_ e (List.mem_append_right _ mem)) x mem

/-! ### The reader -/

section
variable (sound : Sound sent reinit p)
include sound

theorem Sound.restart (reader : Reader) (running : reader.isRunning = true ∨ p.bunch = []) :
    Sound sent reinit { p with reader } where
  __ := sound
  stopped := fun idle => running.resolve_left (by simp [idle])

omit sound in
theorem countP_bunch (bunched : ∀ r ∈ l, Keyed r ∧ isEnd r = false) : l.countP isEnd = 0 :=
  List.countP_eq_zero.mpr fun x mem => by simp [(bunched x mem).2]

theorem Sound.again : Sound sent reinit (p.again p.set) := by
  have count : (p.bunch ++ p.set).countP isEnd = p.set.countP isEnd := by
    rw [List.countP_append, countP_bunch sound.bunched, Nat.zero_add]
  refine ⟨?_, fun calm => ?_, sound.queued,
    List.forall_mem_append.mpr ⟨fun x mem => (sound.bunched x mem).1, sound.listed⟩, nofun, sound.behind, sound.after, ?_,
    fun _ => rfl⟩
  · simp only [Partition.again, count]
    exact sound.one
  · simp only [Partition.again, count]
    exact sound.kept calm
  · simp only [Partition.again, count]
    exact sound.clean

theorem Sound.remove (head : p.set = e :: rest) (object : isEnd e = false) : Sound sent reinit { p with set := rest } := by
  have count : p.set.countP isEnd = rest.countP isEnd := by rw [head, List.countP_cons_of_neg (by simp [object])]
  have tail : ∀ x ∈ rest, x ∈ p.set := fun x mem => head ▸ List.mem_cons_of_mem e mem
  refine { sound with
    one := count ▸ sound.one, kept := fun calm => count ▸ sound.kept calm
    listed := fun x mem => sound.listed x (tail x mem), clean := fun some_ => ?_ }
  obtain ⟨bunch, set⟩ := List.forall_mem_append.mp (sound.clean (count ▸ some_))
  exact List.forall_mem_append.mpr ⟨bunch, fun x mem => set x (tail x mem)⟩

theorem Sound.pass (head : p.set = e :: rest) (object : isEnd e = false)
    (running : p.reader.isRunning = true) : Sound sent reinit { p with set := rest, bunch := p.bunch ++ [e] } := by
  have count : p.set.countP isEnd = rest.countP isEnd := by rw [head, List.countP_cons_of_neg (by simp [object])]
  have removed := sound.remove head object
  refine ⟨removed.one, removed.kept, sound.queued, removed.listed, List.forall_mem_append.mpr ⟨sound.bunched,
      List.forall_mem_singleton.mpr ⟨sound.listed e (head ▸ List.mem_cons_self), object⟩⟩, sound.behind, sound.after,
    fun some_ x mem => ?_, fun idle => by simp [running] at idle⟩
  refine sound.clean (count ▸ some_) x ?_
  rw [head]
  simpa using mem

theorem Sound.read (reader : Reader) : Sound sent reinit { p with bunch := [], reader } where
  __ := sound
  bunched := nofun
  clean := fun some_ x mem => sound.clean some_ x (List.mem_append_right _ mem)
  stopped := fun _ => rfl

theorem Sound.finish (head : p.set = e :: rest) (ending : isEnd e = true) :
    p.done = false ∧ Sound sent reinit { p with set := rest, done := true } := by
  have count : p.set.countP isEnd = rest.countP isEnd + 1 := by rw [head, List.countP_cons_of_pos ending]
  have tail : ∀ x ∈ rest, x ∈ p.set := fun x mem => head ▸ List.mem_cons_of_mem e mem
  have one := sound.one
  have bound := Bool.toNat_le sent
  have undone : p.done = false := Bool.toNat_eq_zero.mp (by omega)
  refine ⟨undone, ?_, fun calm => ?_, sound.queued, fun x mem => sound.listed x (tail x mem), sound.bunched, sound.behind,
    sound.after, fun _ => ?_, sound.stopped⟩
  · simp
    omega
  · simp
    omega
  · obtain ⟨bunch, set⟩ := List.forall_mem_append.mp (sound.clean (.inl (by omega)))
    exact List.forall_mem_append.mpr ⟨bunch, fun x mem => set x (tail x mem)⟩

end

theorem Sound.clear (sound : Sound sent true p) : Sound sent true p.clear where
  __ := sound
  one := by
    have one := sound.one
    simp only [Partition.clear, List.countP_nil]
    omega
  kept := nofun
  listed := nofun
  bunched := nofun
  clean := nofun
  stopped := fun _ => rfl

theorem Sound.handled (sound : Sound sent reinit { p with set := rest }) (yield count : Nat) :
    Sound sent reinit (p.handled yield count rest) := by
  unfold Partition.handled
  split
  · exact sound.again
  · exact sound.restart (.running (count + 1)) (.inl rfl)

theorem Sound.readBunch (sound : Sound sent reinit { p with set := rest }) (yield count : Nat) (success : Bool) :
    Sound sent reinit (p.readBunch yield count success rest) := by
  unfold Partition.readBunch
  split
  · split
    · exact sound.read .triggered
    · exact sound.read _
  · exact sound.again

theorem done_handled (yield count : Nat) : (p.handled yield count rest).done = p.done := by
  unfold Partition.handled
  split <;> rfl

theorem done_readBunch (yield count : Nat) (success : Bool) : (p.readBunch yield count success rest).done = p.done := by
  unfold Partition.readBunch
  split
  · split <;> rfl
  · rfl

theorem Sound.turn (sound : Sound sent reinit p) (count : Nat) (success : Bool) (running : p.reader.isRunning = true) :
    Sound sent reinit (p.turn c count success).1 ∧
      (p.turn c count success).1.done = (p.done || (p.turn c count success).2) ∧
      ((p.turn c count success).2 = true → p.done = false) := by
  unfold Partition.turn
  split
  · rename_i empty
    split
    · exact ⟨sound.read .idle, by simp, by simp⟩
    · have back := sound.again
      rw [empty] at back
      exact ⟨back, by simp [Partition.again], by simp⟩
  · rename_i e rest head
    split
    · rename_i ending
      obtain ⟨undone, finished⟩ := sound.finish head (by simpa [isEnd] using ending)
      refine ⟨finished.handled c.yield count, ?_, fun _ => undone⟩
      simp [done_handled]
    · rename_i object
      have plain : isEnd e = false := by simpa [isEnd] using object
      split
      · have passed := sound.pass head plain running
        dsimp only
        split
        · exact ⟨passed.readBunch c.yield count success, by simp [done_readBunch], by simp⟩
        · exact ⟨passed, by simp, by simp⟩
      · exact ⟨(sound.remove head plain).handled c.yield count, by simp [done_handled], by simp⟩

/-! ### The client -/

def waiting (c : Config) (s : Client) : Finset Nat := (Finset.range c.workers).filter fun i => (s.partitions i).done = false

structure Inv (c : Config) (s : Client) : Prop where
  parts : ∀ i < c.workers, Sound (s.bulk.sentTo i) s.reinitTriggered (s.partitions i)
  status : s.bulkSyncStatus = (waiting c s).card
  computed : s.endOfRibComputed = true ↔ waiting c s = ∅
  once : s.endOfConfigs = if s.endOfRibComputed then 1 else 0
  -- The bulk reader does not send to more partitions than there are.
  sends : ∀ k, s.bulk = .sending k → k ≤ c.workers

variable {s t : Client} {i : Nat}

theorem mem_waiting : i ∈ waiting c s ↔ i < c.workers ∧ (s.partitions i).done = false := by
  simp [waiting]

theorem setPartition_self : (s.setPartition i p).partitions i = p := if_pos rfl

theorem setPartition_of_ne {j : Nat} (other : j ≠ i) : (s.setPartition i p).partitions j = s.partitions j := if_neg other

theorem waiting_fresh : waiting c (Client.fresh c) = Finset.range c.workers :=
  Finset.filter_true_of_mem fun _ _ => rfl

theorem inv_fresh : Inv c (Client.fresh c) where
  parts := fun _ _ => sound_start
  status := by
    rw [waiting_fresh, Finset.card_range]
    rfl
  computed := by
    rw [waiting_fresh]
    have some_ := c.positive
    simp only [Client.fresh, Bool.false_eq_true, false_iff, Finset.range_eq_empty_iff]
    omega
  once := rfl
  sends := nofun

theorem Inv.parts_set (inv : Inv c s) (sound : i < c.workers → Sound (s.bulk.sentTo i) s.reinitTriggered p) :
    ∀ j < c.workers, Sound (s.bulk.sentTo j) s.reinitTriggered ((s.setPartition i p).partitions j) := by
  intro j inside
  by_cases here : j = i
  · subst here
    rw [setPartition_self]
    exact sound inside
  · rw [setPartition_of_ne here]
    exact inv.parts j inside

theorem Inv.setPartition (inv : Inv c s) (sound : i < c.workers → Sound (s.bulk.sentTo i) s.reinitTriggered p)
    (same : p.done = (s.partitions i).done) : Inv c (s.setPartition i p) := by
  have waits : waiting c (s.setPartition i p) = waiting c s := by
    ext j
    rw [mem_waiting, mem_waiting]
    by_cases here : j = i
    · rw [here, setPartition_self, same]
    · rw [setPartition_of_ne here]
  exact ⟨inv.parts_set sound, waits ▸ inv.status, waits ▸ inv.computed, inv.once, inv.sends⟩

theorem Inv.restate (inv : Inv c s) (bulk : BulkReader) (reinit : Bool)
    (sound : ∀ i < c.workers, Sound (s.bulk.sentTo i) s.reinitTriggered (s.partitions i) →
      Sound (bulk.sentTo i) reinit (s.partitions i))
    (sends : ∀ k, bulk = .sending k → k ≤ c.workers) : Inv c { s with bulk, reinitTriggered := reinit } where
  __ := inv
  parts := fun i inside => sound i inside (inv.parts i inside)
  sends := sends

theorem Inv.bulkSyncDone (inv : Inv c s) (inside : i < c.workers) (undone : (s.partitions i).done = false)
    (sound : Sound (s.bulk.sentTo i) s.reinitTriggered p) (done : p.done = true) :
    ∃ t, (s.setPartition i p).bulkSyncDone = .ok t ∧ Inv c t := by
  have mine : i ∈ waiting c s := mem_waiting.mpr ⟨inside, undone⟩
  have waits : waiting c (s.setPartition i p) = (waiting c s).erase i := by
    ext j
    rw [mem_waiting, Finset.mem_erase, mem_waiting]
    by_cases here : j = i
    · rw [here, setPartition_self, done]
      simp
    · rw [setPartition_of_ne here]
      simp [here]
  have fewer : ((waiting c s).erase i).card + 1 = (waiting c s).card := Finset.card_erase_add_one mine
  have status := inv.status
  have open_ : s.endOfRibComputed = false := by
    rw [← Bool.not_eq_true, inv.computed]
    exact Finset.ne_empty_of_mem mine
  have once := inv.once
  have parts := inv.parts_set fun _ => sound
  unfold Client.bulkSyncDone
  split
  · rename_i last
    change s.bulkSyncStatus = 1 at last
    have none_ : (waiting c s).erase i = ∅ := Finset.card_eq_zero.mp (by omega)
    rw [if_neg (by simp [Client.setPartition, open_])]
    refine ⟨_, rfl, parts, ?_, ?_, ?_, inv.sends⟩
    · exact (congrArg (fun w : Finset Nat => (w.card : Int)) (waits.trans none_)).symm
    · exact ⟨fun _ => waits.trans none_, fun _ => rfl⟩
    · simp only [Client.setPartition, once, open_]
      decide
  · rename_i more
    change s.bulkSyncStatus ≠ 1 at more
    have some_ : (waiting c s).erase i ≠ ∅ := fun none_ => by
      rw [none_, Finset.card_empty] at fewer
      omega
    refine ⟨_, rfl, parts, ?_, ?_, once, inv.sends⟩
    · have count := congrArg Finset.card waits
      change s.bulkSyncStatus - 1 = ((waiting c (s.setPartition i p)).card : Int)
      omega
    · refine ⟨fun computed => ?_, fun none_ => absurd (waits.symm.trans none_) some_⟩
      change s.endOfRibComputed = true at computed
      simp [open_] at computed

theorem Sound.pending_late (sound : Sound sent reinit p) (done : p.done = true) :
    sent = true ∧ ∀ r ∈ p.pending, r.early = false := by
  have one := sound.one
  rw [done, Bool.toNat_true] at one
  have bound := Bool.toNat_le sent
  have told : sent = true := Bool.toNat_eq_one.mp (by omega)
  exact ⟨told, List.forall_mem_append.mpr ⟨sound.after told (by omega), sound.clean (.inr done)⟩⟩

theorem Inv.ordered (inv : Inv c s) : Ordered c s where
  order := fun i inside done => ((inv.parts i inside).pending_late done).2
  whole := fun computed => by
    have none_ := inv.computed.mp computed
    have all (i : Nat) (inside : i < c.workers) : (s.partitions i).done = true := by
      rw [← Bool.not_eq_false]
      exact fun undone => Finset.notMem_empty i (none_ ▸ mem_waiting.mpr ⟨inside, undone⟩)
    refine ⟨?_, fun i inside => ((inv.parts i inside).pending_late (all i inside)).2⟩
    have positive := c.positive
    have last : c.workers - 1 < c.workers := by omega
    have told := ((inv.parts _ last).pending_late (all _ last)).1
    cases bulk : s.bulk with
    | sending k =>
      rw [bulk] at told
      have most := inv.sends k bulk
      simp only [BulkReader.sentTo, decide_eq_true_eq] at told
      rw [show k = c.workers by omega]
    | triggered | reading | aborted => simp [bulk, BulkReader.sentTo] at told
  once := inv.once
  reached := fun calm sent drained => by
    have none_ : waiting c s = ∅ := by
      refine Finset.eq_empty_of_forall_notMem fun i mem => ?_
      obtain ⟨inside, undone⟩ := mem_waiting.mp mem
      have kept := (inv.parts i inside).kept calm
      have empty := drained i inside
      simp only [Partition.pending, List.append_eq_nil_iff] at empty
      rw [sent, empty.1, empty.2.2, undone] at kept
      simp [BulkReader.sentTo, inside] at kept
    rw [inv.once, if_pos (inv.computed.mpr none_)]

/-! ### Steps and runs -/

theorem Inv.send (inv : Inv c s) (sending : s.bulk = .sending i) (inside : i < c.workers) :
    Inv c { s.setPartition i ((s.partitions i).enqueue ⟨.endOfConfig, "", false⟩) with bulk := .sending (i + 1) } := by
  have waits : waiting c { s.setPartition i ((s.partitions i).enqueue ⟨.endOfConfig, "", false⟩) with
      bulk := .sending (i + 1) } = waiting c s := by
    ext j
    rw [mem_waiting, mem_waiting]
    by_cases here : j = i <;> simp [Client.setPartition, Partition.enqueue, here]
  refine ⟨fun j small => ?_, waits ▸ inv.status, waits ▸ inv.computed, inv.once, fun k sent => ?_⟩
  · have sound := inv.parts j small
    by_cases here : j = i
    · subst here
      simp only [sending, BulkReader.sentTo, Nat.lt_irrefl] at sound
      simpa [Client.setPartition, BulkReader.sentTo] using sound.send
    · have same : (j < i + 1) = (j < i) := by
        rw [eq_iff_iff]
        omega
      simpa [Client.setPartition, BulkReader.sentTo, here, same, sending] using sound
  · cases sent
    exact inside

theorem Inv.process (inv : Inv c s) (inside : i < c.workers) (idle : (s.partitions i).reader.isRunning = false)
    (harmless : Harmless s (.process i)) : Verdict (Inv c) (· = .assertion) (s.process c i) := by
  unfold Client.process
  split
  · intro impossible
    cases impossible
  · rename_i r queue head
    refine inv.setPartition (fun _ => (inv.parts i inside).addRequest head (fun ending => ?_) idle) rfl
    simp only [Harmless, head] at harmless
    exact harmless (by simpa [isEnd] using ending)

theorem Inv.readerTurn (inv : Inv c s) (inside : i < c.workers) (success : Bool) :
    Verdict (Inv c) (· = .assertion) (s.readerTurn c i success) := by
  have sound := inv.parts i inside
  unfold Client.readerTurn
  split
  · rename_i count running
    split
    · rename_i ends
      exact inv.setPartition (fun _ => by rw [ends] at sound ⊢; exact sound.clear) rfl
    · obtain ⟨next, done, undone⟩ := sound.turn count success (by rw [running]; rfl)
      dsimp only
      split
      · rename_i announces
        rw [announces, Bool.or_true] at done
        obtain ⟨t, ran, kept⟩ := inv.bulkSyncDone inside (undone announces) next done
        rw [ran]
        exact kept
      · rename_i silent
        rw [Bool.not_eq_true] at silent
        rw [silent, Bool.or_false] at done
        exact inv.setPartition (fun _ => next) done
  · exact nofun

theorem verdict_enabledIf {P : Client → Prop} {bad : Fault → Prop} {condition : Prop} [Decidable condition]
    {next : Except Fault Client} (harmless : ¬ bad .disabled) (good : condition → Verdict P bad next) :
    Verdict P bad (Client.enabledIf condition next) := by
  unfold Client.enabledIf
  split
  · rename_i enabled
    exact good enabled
  · exact harmless

theorem Inv.enqueueRequest (inv : Inv c s) {oper : Oper} {uuid : String} (object : oper ≠ .endOfConfig) (some_ : uuid ≠ "") :
    Inv c (s.enqueueRequest c oper uuid) := by
  refine inv.setPartition (fun inside => (inv.parts _ inside).enqueue ?_ ?_ ?_) rfl
  · exact ⟨⟨fun none_ => absurd none_ some_, fun ending => absurd ending object⟩, fun ending => absurd ending object⟩
  · simpa [isEnd] using object
  · intro told
    simp [told]

theorem step_keeps (inv : Inv c s) (a : Action) (harmless : Harmless s a) :
    Verdict (Inv c) (· = .assertion) (Client.step c s a) := by
  have quiet : ¬ Fault.disabled = Fault.assertion := by decide
  cases a with
  | bulkStart =>
    refine verdict_enabledIf quiet fun enabled => ?_
    exact inv.restate .reading s.reinitTriggered (fun i _ sound => by rw [enabled.1] at sound; exact sound)
      nofun
  | bulkCreate uuid => exact verdict_enabledIf quiet fun enabled => inv.enqueueRequest (by decide) enabled.2
  | bulkDone =>
    refine verdict_enabledIf quiet fun enabled => ?_
    exact inv.restate (.sending 0) s.reinitTriggered
      (fun i _ sound => by rw [enabled] at sound; simpa [BulkReader.sentTo] using sound)
      fun k sent => by cases sent; exact Nat.zero_le _
  | bulkSend =>
    simp only [Client.step]
    split
    · rename_i i sending
      exact verdict_enabledIf quiet fun inside => inv.send sending inside
    · exact quiet
  | bulkAbort =>
    refine verdict_enabledIf quiet fun enabled => ?_
    exact inv.restate .aborted s.reinitTriggered (fun i _ sound => by rw [enabled.1] at sound; exact sound)
      nofun
  | request oper uuid => exact verdict_enabledIf quiet fun enabled => inv.enqueueRequest enabled.1 enabled.2
  | process i => exact verdict_enabledIf quiet fun enabled => inv.process enabled.1 enabled.2 harmless
  | readerStart i =>
    refine verdict_enabledIf quiet fun enabled => inv.setPartition (fun inside => ?_) rfl
    exact (inv.parts i inside).restart (.running 0) (.inl rfl)
  | readerTurn i success => exact verdict_enabledIf quiet fun inside => inv.readerTurn inside success
  | reinit =>
    refine inv.restate s.bulk true (fun i _ sound => ?_) inv.sends
    exact { sound with kept := nofun }
  | init => exact verdict_enabledIf quiet fun _ => inv_fresh

/-- In every run in which `EndOfConfig` goes into the map of a partition when no `CREATE` from before it is there, the
partitions are done, and the manager's `EndOfConfig` runs, only after the objects of the bulk read; it runs once in a
generation and its assertion does not fail. -/
theorem endOfConfig_last (c : Config) (actions : List Action)
    (harmless : Throughout (Client.step c) Harmless (Client.fresh c) actions) :
    Safe (Client.step c) (Ordered c) (· = .assertion) (Client.fresh c) actions :=
  safe_of_throughout (I := Inv c) (fun _ inv => inv.ordered) (fun _ a inv harmless => step_keeps inv a harmless) actions _
    inv_fresh harmless

def oneWorker (kind : Kind) : Config := ⟨kind, 1, by decide, fun _ => 0, fun _ => by decide, 4096, 512⟩

/-- The reader empties the map before `EndOfConfig` enters it. -/
def patientRun : List Action :=
  [.bulkStart, .bulkCreate "a", .process 0, .bulkDone, .bulkSend, .readerStart 0, .readerTurn 0 true, .readerTurn 0 true,
    .process 0, .readerStart 0, .readerTurn 0 true]

theorem endOfConfig_last_patient :
    Throughout (Client.step (oneWorker .cassandra)) Harmless (Client.fresh (oneWorker .cassandra)) patientRun ∧
      Safe (Client.step (oneWorker .cassandra)) (Ordered (oneWorker .cassandra)) (· = .assertion)
        (Client.fresh (oneWorker .cassandra)) patientRun := by
  have harmless : Throughout (Client.step (oneWorker .cassandra)) Harmless (Client.fresh (oneWorker .cassandra)) patientRun :=
    throughout_of_check Harmless patientRun _ (by decide +kernel)
  exact ⟨harmless, endOfConfig_last _ _ harmless⟩

/-- With one object: the work queue hands on its `CREATE` and then `EndOfConfig` before the reader runs, and the reader
takes the key "" first. The manager is told of the end of the configuration with the object still in the map. -/
theorem endOfConfig_first :
    (∃ s, run (Client.step (oneWorker .cassandra)) (Client.fresh (oneWorker .cassandra))
        [.bulkStart, .bulkCreate "a", .bulkDone, .bulkSend, .process 0, .process 0, .readerStart 0, .readerTurn 0 true] = .ok s ∧
      s.endOfRibComputed = true ∧ (s.partitions 0).set = [⟨.create, "a", true⟩]) ∧
    ∃ s, run (Client.step (oneWorker .etcd)) (Client.fresh (oneWorker .etcd))
        [.bulkStart, .bulkCreate "a", .bulkDone, .bulkSend, .process 0, .process 0, .readerStart 0, .readerTurn 0 true] = .ok s ∧
      s.endOfRibComputed = true ∧ (s.partitions 0).set = [⟨.create, "a", true⟩] := by
  exact ⟨⟨_, rfl, rfl, rfl⟩, _, rfl, rfl, rfl⟩

end TFCommon.ConfigClient.Bulk
