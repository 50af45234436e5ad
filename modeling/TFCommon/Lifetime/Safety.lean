import Mathlib.Data.List.Count
import TFCommon.Lifetime.Model

/-! An actor is destroyed once, and only when nothing refers to it any more; and when the queue has been
drained, every actor that may be destroyed has been. -/
namespace TFCommon.Lifetime
open Function (update)
open QueueTask (Stuck)
open LifetimeManager

def Phase.holds : Phase → Nat
  | .destroy | .release => 0
  | _ => 1

def Phase.fresh : Phase → Bool
  | .propagate | .propagating _ | .shutdown => true
  | _ => false

def Phase.shut : Phase → Bool
  | .mayDestroy | .requeue | .decrement | .destroy | .release => true
  | _ => false

def held : Option Phase → Nat
  | some phase => phase.holds
  | none => 0

/-- What holds of one actor, with the phase of the executor if it is at this one, the entries for it in the
queue and those on their way there. -/
structure ActorOK (actor : LifetimeActor) (phase : Option Phase) (queued retrying : Nat) : Prop where
  refcount : actor.refcount = queued + held phase + retrying
  deleted : 0 < actor.refcount → actor.deleted = true
  marked : actor.shutdownInvoked = true → actor.deleted = true
  once : actor.destroys ≤ 1
  gone : 0 < actor.destroys → actor.refcount = 0 ∧ actor.dependents = [] ∧ actor.shutdownInvoked = true
  chosen : phase = some .destroy → actor.refcount = 0 ∧ actor.dependents = [] ∧ actor.deleted = true ∧
    actor.deletePaused = false ∧ actor.mayDelete = true ∧ actor.destroys = 0
  released : phase = some .release → actor.destroys = 1
  fresh : ∀ now, phase = some now → now.fresh = true → actor.shutdownInvoked = false
  shut : ∀ now, phase = some now → now.shut = true → actor.shutdownInvoked = true
  shutdowns : actor.shutdowns = if actor.shutdownInvoked then 1 else 0
  propagations : actor.propagations = if actor.shutdownInvoked ∨ phase = some .shutdown then 1 else 0
  pending : actor.deleted = true → actor.shutdownInvoked = false → 0 < actor.refcount
  ready : actor.deleted = true → actor.dependents = [] → actor.deletePaused = false → actor.refused = false →
    actor.destroys = 0 → 0 < actor.refcount ∨ phase = some .destroy

section local_steps
variable {actor : LifetimeActor} {phase : Option Phase} {queued retrying : Nat}

theorem actorOK_init : ActorOK {} none 0 0 := by
  constructor <;> simp [held]

section
variable (ok : ActorOK actor phase queued retrying)
include ok

theorem ActorOK.enqueue {actor' : LifetimeActor} {queued' retrying' : Nat}
    (alive : actor.destroys = 0) (kept : phase ≠ some .destroy) (count : actor'.refcount = actor.refcount + 1)
    (deleted : actor'.deleted = true)
    (same : actor'.destroys = actor.destroys ∧ actor'.shutdownInvoked = actor.shutdownInvoked ∧
      actor'.shutdowns = actor.shutdowns ∧ actor'.propagations = actor.propagations)
    (more : queued' + retrying' = queued + retrying + 1) : ActorOK actor' phase queued' retrying' := by
  obtain ⟨destroys, invoked, shutdowns, propagations⟩ := same
  have counted := ok.refcount
  have positive : 0 < actor'.refcount := by omega
  exact {
    refcount := by omega
    deleted := fun _ => deleted
    marked := fun _ => deleted
    once := by omega
    gone := fun destroyed => by omega
    chosen := fun now => absurd now kept
    released := fun now => destroys.trans (ok.released now)
    fresh := fun now here before_ => invoked.trans (ok.fresh now here before_)
    shut := fun now here after_ => invoked.trans (ok.shut now here after_)
    shutdowns := by rw [shutdowns, invoked, ok.shutdowns]
    propagations := by rw [propagations, invoked, ok.propagations]
    pending := fun _ _ => positive
    ready := fun _ _ _ _ _ => .inl positive }

theorem ActorOK.kept_of_open (before_ : actor.deleted = false) :
    phase ≠ some .destroy := fun now => by simp [(ok.chosen now).2.2.1] at before_

theorem ActorOK.alive (entry : held phase = 1) : 0 < actor.refcount ∧ actor.deleted = true ∧ actor.destroys = 0 := by
  have counted := ok.refcount
  have positive : 0 < actor.refcount := by omega
  refine ⟨positive, ok.deleted positive, ?_⟩
  by_contra destroyed
  have zero := (ok.gone (by omega)).1
  omega

theorem ActorOK.unpropagated (before_ : actor.deleted = false) : actor.propagations = 0 := by
  rw [ok.propagations, if_neg]
  rintro (invoked | now)
  · simp [ok.marked invoked] at before_
  · simp [(ok.alive (by rw [now]; rfl)).2.1] at before_

theorem ActorOK.kept_of_dependents (some_ : actor.dependents ≠ []) :
    phase ≠ some .destroy := fun now => some_ (ok.chosen now).2.1

omit ok in
theorem ActorOK.arrive (ok : ActorOK actor phase queued (retrying + 1)) : ActorOK actor phase (queued + 1) retrying :=
  { ok with
    refcount := by
      have counted := ok.refcount
      omega }

theorem ActorOK.pause (before_ : actor.deleted = false) : ActorOK { actor with deletePaused := true } phase queued retrying :=
  { ok with
    chosen := fun now => absurd now (ok.kept_of_open before_)
    ready := fun deleted => by simp [before_] at deleted }

theorem ActorOK.refs (refs : List ActorId) : ActorOK { actor with refs := refs } phase queued retrying := { ok with }

theorem ActorOK.addDependent (before_ : actor.deleted = false) (alive : actor.destroys = 0) (dependents refs : List ActorId) :
    ActorOK { actor with dependents := dependents, refs := refs } phase queued retrying :=
  { ok with
    gone := fun destroyed => by simp [alive] at destroyed
    chosen := fun now => absurd now (ok.kept_of_open before_)
    ready := fun deleted => by simp [before_] at deleted }

theorem ActorOK.removeDependent (some_ : actor.dependents ≠ [])
    {dependents : List ActorId} (still : actor.deleted = false ∨ dependents ≠ []) (refs : List ActorId) :
    ActorOK { actor with dependents := dependents, refs := refs } phase queued retrying :=
  { ok with
    gone := fun destroyed => absurd (ok.gone destroyed).2.1 some_
    chosen := fun now => absurd now (ok.kept_of_dependents some_)
    ready := fun deleted none_ => by
      rcases still with before_ | some_
      · simp [before_] at deleted
      · exact absurd none_ some_ }

theorem ActorOK.setMayDelete (open_ : Bool) (free : ¬ (open_ = false ∧ phase = some .destroy)) :
    ActorOK { actor with mayDelete := open_, refused := actor.refused || !open_ } phase queued retrying :=
  { ok with
    chosen := fun now => by
      obtain ⟨refcount, none_, deleted, resumed, _, alive⟩ := ok.chosen now
      exact ⟨refcount, none_, deleted, resumed, by simpa [now] using free, alive⟩
    ready := fun deleted none_ resumed unrefused => ok.ready deleted none_ resumed (by simp_all) }

theorem ActorOK.rephase {next : Option Phase} {queued' : Nat}
    (count : queued' + held next = queued + held phase) (kept : next ≠ some .destroy ∧ next ≠ some .release)
    (fresh : ∀ now, next = some now → now.fresh = true → actor.shutdownInvoked = false)
    (shut : ∀ now, next = some now → now.shut = true → actor.shutdownInvoked = true)
    (propagated : actor.shutdownInvoked = true ∨ (next = some .shutdown ↔ phase = some .shutdown))
    (undone : phase = some .destroy → actor.destroys ≠ 0) : ActorOK actor next queued' retrying :=
  { ok with
    refcount := by
      have counted := ok.refcount
      omega
    chosen := fun chosen => absurd chosen kept.1
    released := fun released => absurd released kept.2
    fresh
    shut
    propagations := by
      have counted := ok.propagations
      rcases propagated with invoked | same
      · simpa [invoked] using counted
      · simpa only [same] using counted
    ready := fun deleted none_ resumed unrefused alive =>
      (ok.ready deleted none_ resumed unrefused alive).imp_right fun chosen => absurd alive (undone chosen) }

end

theorem ActorOK.dequeue (ok : ActorOK actor none (queued + 1) retrying) : ActorOK actor (some .test) queued retrying := by
  refine ok.rephase rfl (by decide) ?_ ?_ (.inr (by decide)) nofun <;> rintro _ ⟨⟩ ⟨⟩

theorem ActorOK.goto {now next : Phase} (ok : ActorOK actor (some now) queued retrying) (holds : now.holds = 1)
    (holds' : next.holds = 1) (fresh : next.fresh = true → actor.shutdownInvoked = false)
    (shut : next.shut = true → actor.shutdownInvoked = true) (before_ : now ≠ .shutdown) (after_ : next ≠ .shutdown) :
    ActorOK actor (some next) queued retrying := by
  refine ok.rephase (by simp only [held, holds, holds']) ⟨?_, ?_⟩ ?_ ?_ (.inr (by simp [before_, after_])) ?_
  · rintro ⟨⟩
    cases holds'
  · rintro ⟨⟩
    cases holds'
  · rintro _ ⟨⟩
    exact fresh
  · rintro _ ⟨⟩
    exact shut
  · rintro ⟨⟩
    cases holds

theorem ActorOK.propagated (ok : ActorOK actor (some (.propagating [])) queued retrying) :
    ActorOK { actor with propagations := actor.propagations + 1 } (some .shutdown) queued retrying := by
  have invoked := ok.fresh _ rfl rfl
  have counted := ok.propagations
  exact { ok with
    chosen := nofun
    released := nofun
    fresh := fun _ _ _ => invoked
    shut := by rintro _ ⟨⟩ ⟨⟩
    propagations := by simpa [invoked] using counted
    ready := fun deleted none_ resumed unrefused alive => by simpa using ok.ready deleted none_ resumed unrefused alive }

theorem ActorOK.shutDown (ok : ActorOK actor (some .shutdown) queued retrying) :
    ActorOK { actor with shutdowns := actor.shutdowns + 1, shutdownInvoked := true } (some .mayDestroy) queued retrying := by
  have invoked := ok.fresh _ rfl rfl
  obtain ⟨positive, deleted, alive⟩ := ok.alive rfl
  exact { ok with
    marked := fun _ => deleted
    gone := fun destroyed => by simp [alive] at destroyed
    chosen := nofun
    released := nofun
    fresh := by rintro _ ⟨⟩ ⟨⟩
    shut := fun _ _ _ => rfl
    shutdowns := by simp [ok.shutdowns, invoked]
    propagations := by simpa using ok.propagations
    pending := nofun
    ready := fun _ _ _ _ _ => .inl positive }

theorem ActorOK.requeue (ok : ActorOK actor (some .requeue) queued retrying) : ActorOK actor none (queued + 1) retrying :=
  ok.rephase rfl ⟨nofun, nofun⟩ nofun nofun (.inr (by decide)) nofun

theorem ActorOK.decrement {next : Option Phase} (ok : ActorOK actor (some .decrement) queued retrying)
    (test : if actor.refcount - 1 = 0 ∧ actor.dependents = [] ∧ actor.deletePaused = false ∧ actor.mayDelete = true
      then next = some .destroy else next = none) :
    ActorOK { actor with refcount := actor.refcount - 1, refused := !actor.mayDelete } next queued retrying := by
  have counted := ok.refcount
  have invoked := ok.shut _ rfl rfl
  obtain ⟨_, deleted, alive⟩ := ok.alive rfl
  have quiet : held next = 0 ∧ next ≠ some .release ∧ ∀ now, next = some now → now.fresh = false := by
    split at test <;> subst test <;> exact ⟨rfl, nofun, by rintro _ ⟨⟩ <;> rfl⟩
  simp only [held, Phase.holds] at counted
  exact { ok with
    refcount := by
      simp only [quiet.1]
      omega
    deleted := fun _ => deleted
    gone := fun destroyed => by simp [alive] at destroyed
    chosen := fun now => by
      split at test
      · rename_i may
        exact ⟨may.1, may.2.1, deleted, may.2.2.1, may.2.2.2, alive⟩
      · cases test.symm.trans now
    released := fun now => absurd now quiet.2.1
    fresh := fun now here fresh => by simp [quiet.2.2 now here] at fresh
    shut := fun _ _ _ => invoked
    propagations := by simpa [invoked] using ok.propagations
    pending := fun _ fresh => by simp [invoked] at fresh
    ready := fun _ none_ resumed unrefused _ => by
      split at test
      · exact .inr test
      · rename_i kept
        have more : actor.refcount - 1 ≠ 0 := fun last => kept ⟨last, none_, resumed, by simpa using unrefused⟩
        exact .inl (by simp only; omega) }

theorem ActorOK.destroy (ok : ActorOK actor (some .destroy) queued retrying) :
    ActorOK { actor with destroys := actor.destroys + 1 } (some .release) queued retrying := by
  obtain ⟨refcount, none_, deleted, resumed, may, alive⟩ := ok.chosen rfl
  have invoked := ok.shut _ rfl rfl
  exact { ok with
    once := by simp [alive]
    gone := fun _ => ⟨refcount, none_, invoked⟩
    chosen := nofun
    released := fun _ => by simp [alive]
    fresh := by rintro _ ⟨⟩ ⟨⟩
    shut := fun _ _ _ => invoked
    propagations := by simpa [invoked] using ok.propagations
    ready := fun _ _ _ _ impossible => by simp at impossible }

theorem ActorOK.done (ok : ActorOK actor (some .release) queued retrying) : ActorOK actor none queued retrying :=
  ok.rephase rfl ⟨nofun, nofun⟩ nofun nofun (.inl (ok.shut _ rfl rfl)) nofun

end local_steps

/-- What holds between the actors: the two ends of each `LifetimeRef`, and the walk over the dependents. -/
structure Graph (m : LifetimeManager) : Prop where
  links : ∀ p d, (m.actors p).dependents.count d = (m.actors d).refs.count p
  released : ∀ a, 0 < (m.actors a).destroys → (m.actors a).refs ≠ [] → m.phase a = some .release
  walking : ∀ a rest, m.phase a = some (.propagating rest) →
    (∀ d ∈ rest, d ∈ (m.actors a).dependents) ∧ ∀ d ∈ (m.actors a).dependents, d ∈ rest ∨ (m.actors d).deleted = true
  cascaded : ∀ a, 0 < (m.actors a).propagations → ∀ d ∈ (m.actors a).dependents, (m.actors d).deleted = true

structure Inv (m : LifetimeManager) : Prop where
  actors : ∀ a, ActorOK (m.actors a) (m.phase a) (m.queue.count a) (m.retries.count a)
  graph : Graph m

theorem inv_init : Inv {} where
  actors a := by simpa [LifetimeManager.phase] using actorOK_init
  graph := by constructor <;> simp [LifetimeManager.phase]

variable {m m' : LifetimeManager} {a b p d : ActorId} {f : LifetimeActor → LifetimeActor} {now next : Phase}

section frame

@[simp]
theorem modifyActor_queue : (m.modifyActor a f).queue = m.queue := rfl

@[simp]
theorem modifyActor_retries : (m.modifyActor a f).retries = m.retries := rfl

@[simp]
theorem modifyActor_phase : (m.modifyActor a f).phase b = m.phase b := rfl

theorem modifyActor_self : (m.modifyActor a f).actors a = f (m.actors a) := by simp [modifyActor]

theorem modifyActor_ne (other : b ≠ a) : (m.modifyActor a f).actors b = m.actors b := by simp [modifyActor, other]

theorem modifyActor_keeps {β : Type} (g : LifetimeActor → β) (same : ∀ actor, g (f actor) = g actor) (b : ActorId) :
    g ((m.modifyActor a f).actors b) = g (m.actors b) := by
  by_cases mine : b = a
  · subst mine
    rw [modifyActor_self, same]
  · rw [modifyActor_ne mine]

def Unseen (f : LifetimeActor → LifetimeActor) : Prop :=
  ∀ actor, (f actor).dependents = actor.dependents ∧ (f actor).refs = actor.refs ∧ (f actor).destroys = actor.destroys ∧
    (f actor).propagations = actor.propagations ∧ (f actor).deleted = actor.deleted

def Same (m m' : LifetimeManager) : Prop :=
  ∀ a, (m'.actors a).dependents = (m.actors a).dependents ∧ (m'.actors a).refs = (m.actors a).refs ∧
    (m'.actors a).destroys = (m.actors a).destroys ∧ (m'.actors a).propagations = (m.actors a).propagations

theorem Unseen.same (unseen : Unseen f) : Same m (m.modifyActor a f) :=
  fun b => ⟨modifyActor_keeps (·.dependents) (fun actor => (unseen actor).1) b,
    modifyActor_keeps (·.refs) (fun actor => (unseen actor).2.1) b,
    modifyActor_keeps (·.destroys) (fun actor => (unseen actor).2.2.1) b,
    modifyActor_keeps (·.propagations) (fun actor => (unseen actor).2.2.2.1) b⟩

theorem Unseen.deleted (unseen : Unseen f) (b : ActorId) (already : (m.actors b).deleted = true) :
    ((m.modifyActor a f).actors b).deleted = true :=
  (modifyActor_keeps (·.deleted) (fun actor => (unseen actor).2.2.2.2) b).trans already

theorem unseen_refcount (g : Int → Int) : Unseen fun actor => { actor with refcount := g actor.refcount } :=
  fun _ => ⟨rfl, rfl, rfl, rfl, rfl⟩

theorem increment_ne (other : b ≠ a) : (m.increment a).actors b = m.actors b := modifyActor_ne other

theorem phase_goto : (m.goto a next).phase a = some next := by simp [LifetimeManager.phase, LifetimeManager.goto]

theorem phase_goto_ne (other : b ≠ a) : (m.goto a next).phase b = none := by
  simp [LifetimeManager.phase, LifetimeManager.goto, other.symm]

theorem phase_self (here : m.executor = some (a, now)) : m.phase a = some now := by simp [LifetimeManager.phase, here]

theorem phase_ne (here : m.executor = some (a, now)) (other : b ≠ a) : m.phase b = none := by
  simp [LifetimeManager.phase, here, other.symm]

theorem phase_idle (here : m.executor = none) : m.phase b = none := by simp [LifetimeManager.phase, here]

theorem Inv.only (inv : Inv m) (a : ActorId)
    (mine : ActorOK (m'.actors a) (m'.phase a) (m'.queue.count a) (m'.retries.count a))
    (others : ∀ b, b ≠ a → m'.actors b = m.actors b ∧ m'.phase b = m.phase b ∧ m'.queue.count b = m.queue.count b ∧
      m'.retries.count b = m.retries.count b) (graph : Graph m') : Inv m' where
  actors b := by
    by_cases same : b = a
    · rw [same]
      exact mine
    · obtain ⟨actors, phase, queue, retries⟩ := others b same
      rw [actors, phase, queue, retries]
      exact inv.actors b
  graph := graph

theorem Graph.frame (graph : Graph m) (same : Same m m')
    (deleted : ∀ a, (m.actors a).deleted = true → (m'.actors a).deleted = true)
    (phase : ∀ a, m'.phase a = m.phase a ∨ m.phase a ≠ some .release ∧ ∀ rest, m'.phase a ≠ some (.propagating rest)) :
    Graph m' where
  links p d := by
    rw [(same p).1, (same d).2.1]
    exact graph.links p d
  released a := by
    rw [(same a).2.1, (same a).2.2.1]
    intro destroyed refs
    have here := graph.released a destroyed refs
    exact ((phase a).resolve_right fun moved => moved.1 here).trans here
  walking a rest here := by
    rw [(same a).1]
    have stays := (phase a).resolve_right fun moved => moved.2 rest here
    obtain ⟨inside, rest_⟩ := graph.walking a rest (stays.symm.trans here)
    exact ⟨inside, fun d member => (rest_ d member).imp_right (deleted d)⟩
  cascaded a := by
    rw [(same a).1, (same a).2.2.2]
    exact fun positive d member => deleted d (graph.cascaded a positive d member)

theorem lock_ok {β : Type} {g : LifetimeActor → Except Stuck β} {x : β} (ran : (m.lock a >>= g) = .ok x) :
    (m.actors a).destroys = 0 ∧ m.locked a = false ∧ g (m.actors a) = .ok x := by
  obtain ⟨actor, locked, ran⟩ := bind_ok ran
  obtain ⟨alive, locked⟩ := of_check locked
  obtain ⟨free, locked⟩ := of_check locked
  cases locked
  exact ⟨by omega, by simpa using free, ran⟩

theorem lock_verdict {β : Type} {P : β → Prop} {g : LifetimeActor → Except Stuck β} (alive : (m.actors a).destroys = 0)
    (then_ : m.locked a = false → Verdict P (· = .failed) (g (m.actors a))) : Verdict P (· = .failed) (m.lock a >>= g) := by
  rw [lock, if_neg (by omega)]
  cases free : m.locked a with
  | true => exact nofun
  | false => exact then_ free

theorem not_walking {rest : List ActorId} (free : m.locked a = false) : m.phase a ≠ some (.propagating rest) := by
  intro here
  simp [locked, here] at free

theorem count_enqueue : (m.enqueueNoIncrement a).queue.count b = m.queue.count b + if a = b then 1 else 0 := by
  simp only [enqueueNoIncrement, List.count_append, List.count_singleton]
  by_cases same : a = b <;> simp

end frame

section calls

section
variable (inv : Inv m)
include inv

theorem Inv.post (alive : (m.actors a).destroys = 0) (kept : m.phase a ≠ some .destroy)
    (deleted : (f (m.actors a)).deleted = true) (count : ∀ actor, (f actor).refcount = actor.refcount)
    (same : ∀ actor, (f actor).dependents = actor.dependents ∧ (f actor).refs = actor.refs ∧
      (f actor).destroys = actor.destroys ∧ (f actor).propagations = actor.propagations ∧
      (f actor).shutdownInvoked = actor.shutdownInvoked ∧ (f actor).shutdowns = actor.shutdowns) :
    Inv (((m.modifyActor a f).increment a).enqueueNoIncrement a) := by
  have ok := inv.actors a
  have graph := inv.graph
  obtain ⟨_, _, destroys, propagations, invoked, shutdowns⟩ := same (m.actors a)
  refine inv.only a ?_ (fun b other => ⟨?_, rfl, ?_, rfl⟩) (graph.frame (fun b => ?_) (fun b already => ?_) fun _ => .inl rfl)
  · rw [count_enqueue]
    simp only [LifetimeManager.increment, enqueueNoIncrement, modifyActor_self]
    exact ok.enqueue alive kept (by simp only [count]) deleted ⟨destroys, invoked, shutdowns, propagations⟩
      (Nat.add_right_comm _ _ _)
  · simp [LifetimeManager.increment, enqueueNoIncrement, modifyActor_ne other]
  · rw [count_enqueue, if_neg other.symm]
    rfl
  · by_cases mine : b = a
    · subst mine
      simp [LifetimeManager.increment, enqueueNoIncrement, modifyActor_self, same]
    · simp [LifetimeManager.increment, enqueueNoIncrement, modifyActor_ne mine]
  · by_cases mine : b = a
    · subst mine
      simpa [LifetimeManager.increment, enqueueNoIncrement, modifyActor_self] using deleted
    · simpa [LifetimeManager.increment, enqueueNoIncrement, modifyActor_ne mine] using already

theorem delete_verdict (alive : (m.actors a).destroys = 0) :
    Verdict (fun m' => Inv m' ∧ (m'.actors a).deleted = true ∧ m'.executor = m.executor) (· = .failed) (m.delete a) := by
  refine lock_verdict alive fun _ => ?_
  split
  · rename_i already
    exact ⟨inv, already, rfl⟩
  · rename_i before_
    have kept := (inv.actors a).kept_of_open (by simpa using before_)
    refine ⟨inv.post alive kept rfl (fun _ => rfl) fun _ => ⟨rfl, rfl, rfl, rfl, rfl, rfl⟩, ?_, rfl⟩
    simp [LifetimeManager.increment, enqueueNoIncrement, modifyActor]

theorem resumeDelete_inv (ran : m.resumeDelete a = .ok m') : Inv m' := by
  obtain ⟨alive, _, ran⟩ := lock_ok ran
  obtain ⟨idle, ran⟩ := of_check ran
  obtain ⟨deleted, ran⟩ := of_check ran
  cases ran
  have kept : m.phase a ≠ some .destroy := by
    rw [phase_idle (not_not.mp idle)]
    exact nofun
  exact inv.post alive kept (by simpa using deleted) (fun _ => rfl) fun _ => ⟨rfl, rfl, rfl, rfl, rfl, rfl⟩

theorem Inv.modify (ok : ActorOK (f (m.actors a)) (m.phase a) (m.queue.count a) (m.retries.count a)) (unseen : Unseen f) :
    Inv (m.modifyActor a f) :=
  inv.only a (by simpa [modifyActor_self] using ok) (fun b other => ⟨modifyActor_ne other, rfl, rfl, rfl⟩)
    (inv.graph.frame unseen.same unseen.deleted fun _ => .inl rfl)

theorem pauseDelete_inv (ran : m.pauseDelete a = .ok m') : Inv m' := by
  obtain ⟨_, _, ran⟩ := lock_ok ran
  obtain ⟨before_, ran⟩ := of_check ran
  cases ran
  exact inv.modify ((inv.actors a).pause (by simpa using before_)) fun _ => ⟨rfl, rfl, rfl, rfl, rfl⟩

theorem setMayDelete_inv {open_ : Bool} (ran : m.setMayDelete a open_ = .ok m') : Inv m' := by
  obtain ⟨free, ran⟩ := of_check ran
  cases ran
  exact inv.modify ((inv.actors a).setMayDelete open_ free) fun _ => ⟨rfl, rfl, rfl, rfl, rfl⟩

theorem retryDelete_inv (ran : m.retryDelete a = .ok m') : Inv m' := by
  obtain ⟨alive, _, ran⟩ := lock_ok ran
  obtain ⟨deleted, ran⟩ := of_check ran
  obtain ⟨lock, ran⟩ := of_check ran
  cases ran
  have ok := inv.actors a
  have kept : m.phase a ≠ some .destroy := fun now => lock (by simp [ok.chosen now])
  refine inv.only a ?_ (fun b other => ⟨increment_ne other, rfl, rfl, List.count_cons_of_ne other.symm⟩)
    (inv.graph.frame (unseen_refcount (· + 1)).same (unseen_refcount (· + 1)).deleted fun _ => .inl rfl)
  simp only [LifetimeManager.increment, modifyActor_self, List.count_cons_self]
  exact ok.enqueue alive kept rfl (by simpa using deleted) ⟨rfl, rfl, rfl, rfl⟩ (Nat.add_assoc _ _ _).symm

theorem retryEnqueue_inv (ran : m.retryEnqueue a = .ok m') : Inv m' := by
  obtain ⟨member, rfl⟩ := of_guard ran
  refine inv.only a ?_ (fun b other => ⟨rfl, rfl, ?_, List.count_erase_of_ne other⟩)
    (inv.graph.frame (fun _ => ⟨rfl, rfl, rfl, rfl⟩) (fun _ already => already) fun _ => .inl rfl)
  · have ok := inv.actors a
    rw [count_enqueue, if_pos rfl]
    have counted : m.retries.count a = (m.retries.erase a).count a + 1 := by
      have positive := List.count_pos_iff.mpr member
      rw [List.count_erase_self]
      omega
    rw [counted] at ok
    exact ok.arrive
  · rw [count_enqueue, if_neg other.symm]
    rfl

end

theorem modifyActor_twice (dependents refs : List ActorId → List ActorId) :
    ((m.modifyActor p fun actor => { actor with dependents := dependents actor.dependents }).modifyActor d
        fun actor => { actor with refs := refs actor.refs }).actors b =
      { m.actors b with
        dependents := if b = p then dependents (m.actors b).dependents else (m.actors b).dependents
        refs := if b = d then refs (m.actors b).refs else (m.actors b).refs } := by
  rcases eq_or_ne b d with rfl | child <;> rcases eq_or_ne b p with rfl | parent <;> simp_all [modifyActor]

theorem link_actor : (m.link p d).actors b = { m.actors b with
    dependents := if b = p then (m.actors b).dependents ++ [d] else (m.actors b).dependents
    refs := if b = d then (m.actors b).refs ++ [p] else (m.actors b).refs } := by
  exact modifyActor_twice (· ++ [d]) (· ++ [p])

theorem unlink_actor : (m.unlink p d).actors b = { m.actors b with
    dependents := if b = p then (m.actors b).dependents.erase d else (m.actors b).dependents
    refs := if b = d then (m.actors b).refs.erase p else (m.actors b).refs } := by
  exact modifyActor_twice (·.erase d) (·.erase p)

theorem Graph.link (graph : Graph m) (free : m.locked p = false) (unpropagated : (m.actors p).propagations = 0)
    (alive : (m.actors d).destroys = 0) : Graph (m.link p d) where
  links p' d' := by
    simp only [link_actor]
    by_cases parent : p = p' <;> by_cases child : d = d' <;> simp [parent, child, Ne.symm, graph.links]
  released a destroyed refs := by
    simp only [link_actor] at destroyed refs
    have other : a ≠ d := fun same => by
      rw [same, alive] at destroyed
      cases destroyed
    rw [if_neg other] at refs
    exact graph.released a destroyed refs
  walking a rest here := by
    have other : a ≠ p := fun same => not_walking free (same ▸ here)
    simp only [link_actor, if_neg other]
    exact graph.walking a rest here
  cascaded a positive := by
    simp only [link_actor] at positive ⊢
    have other : a ≠ p := fun same => by
      rw [same, unpropagated] at positive
      cases positive
    rw [if_neg other]
    exact graph.cascaded a positive

theorem Graph.unlink (graph : Graph m) (free : m.locked p = false) : Graph (m.unlink p d) where
  links p' d' := by
    simp only [unlink_actor]
    by_cases parent : p' = p <;> by_cases child : d' = d <;> simp [parent, child, graph.links]
  released a destroyed refs := by
    simp only [unlink_actor] at destroyed refs
    refine graph.released a destroyed fun none_ => refs ?_
    rw [none_]
    simp
  walking a rest here := by
    have other : a ≠ p := fun same => not_walking free (same ▸ here)
    simp only [unlink_actor, if_neg other]
    exact graph.walking a rest here
  cascaded a positive e member := by
    simp only [unlink_actor] at positive member ⊢
    split at member
    · exact graph.cascaded a positive e (List.mem_of_mem_erase member)
    · exact graph.cascaded a positive e member

theorem dependencyAdd_inv (inv : Inv m) (ran : m.dependencyAdd p d = .ok m') : Inv m' := by
  obtain ⟨alive, free, ran⟩ := lock_ok ran
  obtain ⟨deleted, ran⟩ := of_check ran
  obtain ⟨child, ran⟩ := of_check ran
  cases ran
  have before_ : (m.actors p).deleted = false := by simpa using deleted
  refine ⟨fun b => ?_, inv.graph.link free ((inv.actors p).unpropagated before_) (by omega)⟩
  have ok := inv.actors b
  rw [link_actor]
  by_cases parent : b = p
  · subst parent
    exact ok.addDependent before_ alive _ _
  · rw [if_neg parent]
    exact ok.refs _

theorem dependencyRemove_verdict (inv : Inv m) (alive : (m.actors p).destroys = 0) (member : d ∈ (m.actors p).dependents) :
    Verdict Inv (· = .failed) (m.dependencyRemove p d) := by
  refine lock_verdict alive fun free => ?_
  have graph := inv.graph.unlink (d := d) free
  have some_ : (m.actors p).dependents ≠ [] := List.ne_nil_of_mem member
  have kept := (inv.actors p).kept_of_dependents some_
  simp only [member, not_true_eq_false, if_false, unlink_actor, if_true]
  split
  · rename_i last
    simp only [Bool.and_eq_true] at last
    refine ⟨fun b => ?_, graph.frame (unseen_refcount (· + 1)).same (unseen_refcount (· + 1)).deleted fun _ => .inl rfl⟩
    · rw [count_enqueue]
      simp only [enqueueNoIncrement]
      have ok := inv.actors b
      by_cases parent : b = p
      · subst parent
        rw [if_pos rfl]
        refine ok.enqueue alive kept ?_ ?_ ?_ (Nat.add_right_comm _ _ _)
        · simp [LifetimeManager.increment, modifyActor_self, unlink_actor]
        · simpa [LifetimeManager.increment, modifyActor_self, unlink_actor] using last.1
        · simp [LifetimeManager.increment, modifyActor_self, unlink_actor]
      · rw [if_neg (Ne.symm parent), increment_ne parent, unlink_actor, if_neg parent]
        exact ok.refs _
  · rename_i still
    refine ⟨fun b => ?_, graph⟩
    have ok := inv.actors b
    rw [unlink_actor]
    by_cases parent : b = p
    · subst parent
      rw [if_pos rfl]
      refine ok.removeDependent some_ ?_ _
      by_cases deleted : (m.actors b).deleted = true
      · exact .inr fun none_ => still (by simp [deleted, none_])
      · exact .inl (by simpa using deleted)
    · rw [if_neg parent]
      exact ok.refs _

end calls

section executor

theorem not_walking_goto (next_ : ∀ rest, next ≠ .propagating rest) (b : ActorId) (rest : List ActorId) :
    (m.goto a next).phase b ≠ some (.propagating rest) := by
  by_cases mine : b = a
  · rw [mine, phase_goto]
    exact fun same => next_ rest (Option.some.inj same)
  · rw [phase_goto_ne mine]
    exact nofun

theorem Graph.modify (graph : Graph m)
    (same : ∀ actor, (f actor).dependents = actor.dependents ∧ (f actor).refs = actor.refs ∧
      (f actor).deleted = actor.deleted)
    (destroys : m.phase a = some .release ∨ ∀ actor, (f actor).destroys = actor.destroys)
    (propagations : (∀ d ∈ (m.actors a).dependents, (m.actors d).deleted = true) ∨
      ∀ actor, (f actor).propagations = actor.propagations) : Graph (m.modifyActor a f) := by
  have dependents := modifyActor_keeps (m := m) (a := a) (·.dependents) fun actor => (same actor).1
  have refs := modifyActor_keeps (m := m) (a := a) (·.refs) fun actor => (same actor).2.1
  have deleted := modifyActor_keeps (m := m) (a := a) (·.deleted) fun actor => (same actor).2.2
  refine ⟨fun p d => ?_, fun b destroyed some_ => ?_, fun b rest walks => ?_, fun b positive d member => ?_⟩
  · rw [dependents, refs]
    exact graph.links p d
  · rw [refs] at some_
    rcases destroys with release | kept
    · by_cases mine : b = a
      · rw [mine]
        exact release
      · rw [modifyActor_ne mine] at destroyed
        exact graph.released b destroyed some_
    · rw [modifyActor_keeps (·.destroys) kept] at destroyed
      exact graph.released b destroyed some_
  · simp only [dependents, deleted]
    exact graph.walking b rest walks
  · rw [dependents] at member
    rw [deleted]
    rcases propagations with all | kept
    · by_cases mine : b = a
      · exact all d (mine ▸ member)
      · rw [modifyActor_ne mine] at positive
        exact graph.cascaded b positive d member
    · rw [modifyActor_keeps (·.propagations) kept] at positive
      exact graph.cascaded b positive d member

section
variable (here : m.executor = some (a, now))
include here

theorem Inv.current (inv : Inv m) : ActorOK (m.actors a) (some now) (m.queue.count a) (m.retries.count a) :=
  phase_self here ▸ inv.actors a

theorem Inv.at_executor (inv : Inv m)
    (mine : ActorOK (m'.actors a) (m'.phase a) (m'.queue.count a) (m'.retries.count a))
    (others : ∀ b, b ≠ a → m'.actors b = m.actors b ∧ m'.phase b = none ∧ m'.queue.count b = m.queue.count b)
    (retries : m'.retries = m.retries) (graph : Graph m') : Inv m' := by
  refine inv.only a mine (fun b other => ?_) graph
  obtain ⟨actors, phase, queue⟩ := others b other
  exact ⟨actors, phase.trans (phase_ne here other).symm, queue, by rw [retries]⟩

theorem Inv.goto (inv : Inv m) (holds : now.holds = 1) (holds' : next.holds = 1)
    (fresh : next.fresh = true → (m.actors a).shutdownInvoked = false)
    (shut : next.shut = true → (m.actors a).shutdownInvoked = true) (before_ : now ≠ .shutdown) (after_ : next ≠ .shutdown)
    (graph : Graph (m.goto a next)) : Inv (m.goto a next) := by
  refine inv.at_executor here ?_ (fun b other => ⟨rfl, phase_goto_ne other, rfl⟩) rfl graph
  rw [phase_goto]
  exact (inv.current here).goto holds holds' fresh shut before_ after_

theorem Inv.modifyGoto (inv : Inv m)
    (ok : ActorOK (m.actors a) (some now) (m.queue.count a) (m.retries.count a) →
      ActorOK (f (m.actors a)) (some next) (m.queue.count a) (m.retries.count a))
    (graph : Graph ((m.goto a next).modifyActor a f)) : Inv ((m.modifyActor a f).goto a next) := by
  refine inv.at_executor here ?_ (fun b other => ⟨modifyActor_ne other, phase_goto_ne other, rfl⟩) rfl graph
  rw [phase_goto]
  simp only [LifetimeManager.goto, modifyActor_self]
  exact ok (inv.current here)

variable (still : now ≠ .release)
include still

theorem unreleased (b : ActorId) : m.phase b ≠ some .release := by
  by_cases mine : b = a
  · rw [mine, phase_self here]
    exact fun released => still (Option.some.inj released)
  · rw [phase_ne here mine]
    exact nofun

theorem Graph.move (graph : Graph m) (same : Same m m')
    (deleted : ∀ a, (m.actors a).deleted = true → (m'.actors a).deleted = true)
    (walk : ∀ a rest, m'.phase a ≠ some (.propagating rest)) : Graph m' :=
  graph.frame same deleted fun b => .inr ⟨unreleased here still b, walk b⟩

theorem Graph.goto (graph : Graph m) (next_ : ∀ rest, next ≠ .propagating rest) : Graph (m.goto a next) :=
  graph.move here still (fun _ => ⟨rfl, rfl, rfl, rfl⟩) (fun _ => id) (not_walking_goto next_)

theorem Graph.walk {rest : List ActorId} (graph : Graph m) (inside : ∀ d ∈ rest, d ∈ (m.actors a).dependents)
    (others : ∀ d ∈ (m.actors a).dependents, d ∈ rest ∨ (m.actors d).deleted = true) :
    Graph (m.goto a (.propagating rest)) where
  __ := graph
  released b destroyed refs := absurd (graph.released b destroyed refs) (unreleased here still b)
  walking b rest' walks := by
    by_cases mine : b = a
    · subst mine
      rw [phase_goto] at walks
      cases walks
      exact ⟨inside, others⟩
    · rw [phase_goto_ne mine] at walks
      cases walks

theorem Graph.moveModify (graph : Graph m) (unseen : Unseen f) (next_ : ∀ rest, next ≠ .propagating rest) :
    Graph ((m.goto a next).modifyActor a f) :=
  graph.move here still unseen.same unseen.deleted (not_walking_goto (m := m) next_)

theorem Graph.done (graph : Graph m) (unseen : Unseen f) :
    Graph (m.modifyActor a f).executorDone :=
  graph.move here still unseen.same unseen.deleted nofun

end

theorem Graph.finish (graph : Graph m) (here : m.executor = some (a, .release)) (none_ : (m.actors a).refs = []) :
    Graph m.executorDone where
  __ := graph
  released b destroyed some_ := by
    have released := graph.released b destroyed some_
    by_cases mine : b = a
    · rw [mine] at some_
      exact absurd none_ some_
    · rw [phase_ne here mine] at released
      cases released
  walking := nofun

theorem decrement_verdict (inv : Inv m) (here : m.executor = some (a, .decrement)) :
    Verdict (fun r => Inv (if r.1 then r.2.goto a .destroy else r.2.executorDone)) (· = .failed) (m.decrementAndTest a) := by
  refine lock_verdict ((inv.current here).alive rfl).2.2 fun _ => ?_
  have unseen : Unseen fun actor => { actor with refcount := actor.refcount - 1, refused := !actor.mayDelete } :=
    fun _ => ⟨rfl, rfl, rfl, rfl, rfl⟩
  have ok := inv.current here
  simp only [Verdict, pure, Except.pure]
  split
  all_goals
    rename_i test
    simp only [Bool.and_eq_true, decide_eq_true_eq, List.isEmpty_iff, Bool.not_eq_true', and_assoc] at test
  · exact inv.modifyGoto here (fun ok => ok.decrement (by rw [if_pos test]))
      (inv.graph.moveModify here (by decide) unseen nofun)
  · refine inv.at_executor here ?_ (fun b other => ⟨?_, phase_idle rfl, rfl⟩) rfl
      (inv.graph.done here (by decide) unseen)
    · rw [phase_idle rfl]
      simp only [executorDone, modifyActor_self]
      exact ok.decrement (by rw [if_neg test])
    · simp [executorDone, modifyActor_ne other]

theorem stepExecutor_verdict (inv : Inv m) (answer : Bool) : Verdict Inv (· = .failed) (m.stepExecutor answer) := by
  have graph := inv.graph
  cases here : m.executor with
  | none =>
    simp only [stepExecutor, here]
    split
    · exact nofun
    · rename_i a rest queue
      have ok := inv.actors a
      rw [phase_idle here, queue, List.count_cons_self] at ok
      refine inv.only a ?_ (fun b other => ⟨rfl, (phase_goto_ne other).trans (phase_idle here).symm, ?_, rfl⟩)
        (graph.frame (fun _ => ⟨rfl, rfl, rfl, rfl⟩) (fun _ already => already)
          fun b => .inr ⟨by rw [phase_idle here]; exact nofun, not_walking_goto (by rintro _ ⟨⟩) b⟩)
      · rw [phase_goto]
        exact ok.dequeue
      · rw [queue, List.count_cons_of_ne other.symm]
        rfl
  | some executor =>
    obtain ⟨a, now⟩ := executor
    have ok := inv.current here
    simp only [stepExecutor, here]
    cases now with
    | test =>
      simp only [ok.alive rfl, Nat.lt_irrefl, Bool.true_eq_false, or_self, if_false]
      split
      · rename_i invoked
        exact inv.goto here rfl rfl (by simp [Phase.fresh]) (fun _ => invoked) (by decide) (by decide)
          (graph.goto here (by decide) nofun)
      · rename_i invoked
        exact inv.goto here rfl rfl (fun _ => by simpa using invoked) (by simp [Phase.shut]) (by decide) (by decide)
          (graph.goto here (by decide) nofun)
    | propagate =>
      obtain ⟨_, deleted, alive⟩ := ok.alive rfl
      refine lock_verdict alive fun _ => ?_
      rw [if_neg (by simp [deleted])]
      exact inv.goto here rfl rfl (fun _ => ok.fresh _ rfl rfl) (by simp [Phase.shut]) (by decide) (by simp)
        (graph.walk here (by decide) (fun _ member => member) fun _ member => .inl member)
    | propagating rest =>
      obtain ⟨inside, others⟩ := graph.walking a rest (phase_self here)
      cases rest with
      | nil =>
        have moved : Graph (m.goto a .shutdown) := graph.goto here (by decide) nofun
        refine inv.modifyGoto here (fun ok => ok.propagated) (moved.modify (fun _ => ⟨rfl, rfl, rfl⟩)
          (.inr fun _ => rfl) (.inl fun e member => ?_))
        have gone : (m.actors e).deleted = true := by simpa using others e member
        exact gone
      | cons d rest =>
        have linked : (m.actors d).refs ≠ [] := by
          have positive := List.count_pos_iff.mpr (inside d List.mem_cons_self)
          rw [graph.links] at positive
          exact List.ne_nil_of_mem (List.count_pos_iff.mp positive)
        have undestroyed : ¬ 0 < (m.actors d).destroys := fun destroyed =>
          unreleased here (by simp) d (graph.released d destroyed linked)
        refine (delete_verdict inv (by omega)).bind fun m₁ after_ => ?_
        obtain ⟨inv₁, gone, same⟩ := after_
        have here₁ : m₁.executor = some (a, .propagating (d :: rest)) := same.trans here
        obtain ⟨inside, others⟩ := inv₁.graph.walking a (d :: rest) (phase_self here₁)
        refine inv₁.goto here₁ rfl rfl (fun _ => (inv₁.current here₁).fresh _ rfl rfl) (by simp [Phase.shut]) (by simp) (by simp)
          (inv₁.graph.walk here₁ (by simp) (fun e member => inside e (List.mem_cons_of_mem d member)) fun e member => ?_)
        rcases others e member with waits | already
        · rcases List.mem_cons.mp waits with rfl | waits
          · exact .inr gone
          · exact .inl waits
        · exact .inr already
    | shutdown =>
      exact inv.modifyGoto here (fun ok => ok.shutDown)
        (graph.moveModify here (by decide) (fun _ => ⟨rfl, rfl, rfl, rfl, rfl⟩) nofun)
    | mayDestroy =>
      have invoked := ok.shut _ rfl rfl
      have next : ∀ next : Phase, next.holds = 1 → next.fresh = false → next ≠ .shutdown →
          (∀ rest, next ≠ .propagating rest) → Inv (m.goto a next) := by
        intro next holds unfresh after_ next_
        exact inv.goto here rfl holds (by simp [unfresh]) (fun _ => invoked) (by decide) after_
          (graph.goto here (by decide) next_)
      cases answer with
      | true => exact next .decrement rfl rfl (by decide) nofun
      | false => exact next .requeue rfl rfl (by decide) nofun
    | requeue =>
      refine inv.at_executor here ?_ (fun b other => ⟨rfl, phase_idle rfl, ?_⟩) rfl
        (graph.move here (by decide) (fun _ => ⟨rfl, rfl, rfl, rfl⟩) (fun _ already => already) nofun)
      · show ActorOK (m.actors a) none ((m.enqueueNoIncrement a).queue.count a) (m.retries.count a)
        rw [count_enqueue, if_pos rfl]
        exact ok.requeue
      · show (m.enqueueNoIncrement a).queue.count b = _
        rw [count_enqueue, if_neg other.symm]
        rfl
    | decrement => exact (decrement_verdict inv here).bind fun _ after_ => after_
    | destroy =>
      obtain ⟨refcount, none_, _⟩ := ok.chosen rfl
      dsimp only
      rw [if_neg (by simp [refcount, none_])]
      have moved : Graph (m.goto a .release) := graph.goto here (by decide) nofun
      exact inv.modifyGoto here (fun ok => ok.destroy) (moved.modify (fun _ => ⟨rfl, rfl, rfl⟩)
        (.inl phase_goto) (.inr fun _ => rfl))
    | release =>
      dsimp only
      split
      · rename_i none_
        refine inv.at_executor here ?_ (fun b other => ⟨rfl, phase_idle rfl, rfl⟩) rfl (graph.finish here none_)
        exact ok.done
      · rename_i p rest refs
        have positive : 0 < (m.actors p).dependents.count a := by
          rw [graph.links, refs]
          exact List.count_pos_iff.mpr List.mem_cons_self
        have member := List.count_pos_iff.mp positive
        have undestroyed : ¬ 0 < (m.actors p).destroys := fun destroyed => by
          rw [((inv.actors p).gone destroyed).2.1] at member
          cases member
        exact dependencyRemove_verdict inv (by omega) member

end executor

theorem step_inv {action : Action} (inv : Inv m) (ran : m.step action = .ok m') : Inv m' := by
  cases action with
  | delete a => exact ((delete_verdict inv (lock_ok ran).1).of_ok ran).1
  | retryDelete a => exact retryDelete_inv inv ran
  | retryEnqueue a => exact retryEnqueue_inv inv ran
  | pauseDelete a => exact pauseDelete_inv inv ran
  | resumeDelete a => exact resumeDelete_inv inv ran
  | dependencyAdd p d => exact dependencyAdd_inv inv ran
  | dependencyRemove p d =>
    obtain ⟨alive, _, checked⟩ := lock_ok ran
    exact (dependencyRemove_verdict inv alive (not_not.mp (of_check checked).1)).of_ok ran
  | setMayDelete a open_ => exact setMayDelete_inv inv ran
  | execute answer => exact (stepExecutor_verdict inv answer).of_ok ran

/-- Destruction happens once and only when it is safe, and nothing is left behind, after any interleaving of
the calls and the executor. The refcount also has the retries that are still on their way to the queue. -/
theorem destroyed_once_when_safe (actions : List Action) (m : LifetimeManager)
    (ran : run LifetimeManager.step {} actions = .ok m) :
    (∀ a, (m.actors a).refcount = m.queue.count a + held (m.phase a) + m.retries.count a) ∧
    (∀ a, (m.actors a).shutdowns ≤ 1 ∧ (m.actors a).propagations ≤ 1 ∧ (m.actors a).destroys ≤ 1 ∧
      (0 < (m.actors a).destroys → (m.actors a).shutdowns = 1 ∧ (m.actors a).propagations = 1)) ∧
    (∀ a, m.phase a = some .destroy → (m.actors a).deleted = true ∧ (m.actors a).dependents = [] ∧
      (m.actors a).deletePaused = false ∧ (m.actors a).mayDelete = true ∧ a ∉ m.queue ∧ a ∉ m.retries ∧
      (m.actors a).shutdowns = 1 ∧ (m.actors a).propagations = 1 ∧ (m.actors a).destroys = 0) ∧
    (m.queue = [] → m.executor = none → m.retries = [] → ∀ a, (m.actors a).deleted = true →
      (m.actors a).shutdowns = 1 ∧ (m.actors a).propagations = 1 ∧ ((m.actors a).dependents = [] →
        (m.actors a).deletePaused = false → (m.actors a).refused = false → (m.actors a).destroys = 1)) ∧
    (∀ a, 0 < (m.actors a).propagations → ∀ d ∈ (m.actors a).dependents, (m.actors d).deleted = true) ∧
    ∀ answer, m.stepExecutor answer ≠ .error .failed := by
  have inv : Inv m := run_invariant Inv (fun _ => True) (fun _ _ _ inv _ ran => step_inv inv ran) actions {} m inv_init
    (fun _ _ => trivial) ran
  have invoked : ∀ a, (m.actors a).shutdownInvoked = true → (m.actors a).shutdowns = 1 ∧ (m.actors a).propagations = 1 :=
    fun a invoked => by simp [(inv.actors a).shutdowns, (inv.actors a).propagations, invoked]
  refine ⟨fun a => (inv.actors a).refcount, fun a => ?_, fun a chosen => ?_, fun empty idle settled a deleted => ?_,
    inv.graph.cascaded, fun answer failed => ?_⟩
  · have ok := inv.actors a
    refine ⟨?_, ?_, ok.once, fun destroyed => invoked a (ok.gone destroyed).2.2⟩
    · rw [ok.shutdowns]
      split <;> simp
    · rw [ok.propagations]
      split <;> simp
  · have ok := inv.actors a
    obtain ⟨refcount, none_, deleted, resumed, may, alive⟩ := ok.chosen chosen
    have counted := ok.refcount
    have shut := invoked a (ok.shut _ chosen rfl)
    refine ⟨deleted, none_, resumed, may, fun member => ?_, fun member => ?_, shut.1, shut.2, alive⟩
    all_goals
      have positive := List.count_pos_iff.mpr member
      omega
  · have ok := inv.actors a
    have counted := ok.refcount
    simp only [empty, settled, phase_idle idle, held, List.count_nil] at counted
    have shut : (m.actors a).shutdownInvoked = true := by
      by_contra fresh
      have positive := ok.pending deleted (by simpa using fresh)
      omega
    refine ⟨(invoked a shut).1, (invoked a shut).2, fun none_ resumed unrefused => ?_⟩
    by_contra alive
    have once := ok.once
    rcases ok.ready deleted none_ resumed unrefused (by omega) with positive | chosen
    · omega
    · rw [phase_idle idle] at chosen
      cases chosen
  · have verdict := stepExecutor_verdict inv answer
    rw [failed] at verdict
    exact verdict rfl

/-- An actor with a dependent is deleted, and so is the dependent; both are destroyed, the dependent first. -/
def deleteParent : List Action :=
  [.dependencyAdd 0 1, .delete 0, .execute true, .execute true, .execute true, .execute true, .execute true, .execute true,
    .execute true, .execute true, .execute true, .execute true, .execute true, .execute true, .execute true, .execute true,
    .execute true, .execute true, .execute true, .execute true, .execute true, .execute true, .execute true, .execute true,
    .execute true, .execute true]

theorem deleteParent_destroys : ∃ m, run LifetimeManager.step {} deleteParent = .ok m ∧ m.queue = [] ∧ m.executor = none ∧
    (m.actors 0).destroys = 1 ∧ (m.actors 1).destroys = 1 := by
  refine ⟨_, rfl, rfl, rfl, ?_, ?_⟩
  · exact ((destroyed_once_when_safe deleteParent _ rfl).2.2.2.1 rfl rfl rfl 0 rfl).2.2 rfl rfl rfl
  · exact ((destroyed_once_when_safe deleteParent _ rfl).2.2.2.1 rfl rfl rfl 1 rfl).2.2 rfl rfl rfl

/-- The actor 0 is deleted while `MayDelete()` holds it back, and its entry is executed; then the holder of that
lock calls `RetryDelete`. -/
def retryUnderway : List Action :=
  [.setMayDelete 0 false, .delete 0, .execute true, .execute true, .execute true, .execute true, .execute true,
    .execute true, .execute true, .retryDelete 0]

/-- The refcount is ahead of the queue. -/
theorem retryUnderway_refcount : ∃ m, run LifetimeManager.step {} retryUnderway = .ok m ∧ m.executor = none ∧
    m.queue = [] ∧ (m.actors 0).refcount = 1 :=
  ⟨_, rfl, rfl, rfl, rfl⟩

/-- The race that `setMayDelete` leaves out: the actor is held back only after `ReferenceDecrementAndTest` has chosen it,
and is destroyed all the same. -/
example : ∃ m, run LifetimeManager.step {} (.delete 0 :: List.replicate 7 (.execute true)) = .ok m ∧
    m.phase 0 = some .destroy ∧
    ((m.modifyActor 0 fun actor => { actor with mayDelete := false }).stepExecutor true).map
      (fun m => ((m.actors 0).destroys, (m.actors 0).mayDelete)) = .ok (1, false) :=
  ⟨_, rfl, rfl, rfl⟩

end TFCommon.Lifetime
