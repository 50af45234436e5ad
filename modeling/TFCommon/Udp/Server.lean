import TFCommon.Lib.Run
import Mathlib.Data.List.Nodup

/-! The buffers of `UdpServer`: each is owned in turn by the caller, by an asynchronous operation and by a `Reader` task,
and listed in `pbuf_`, which `Shutdown` frees as a whole. Buffers are numbered in the order of their allocation.

The completion handlers, `Reader::Run` and `Shutdown` hold `state_guard_`. `Initialize`, `StartSend` and `StartReceive`
read `state_` without it and act later, so each of them takes several steps. -/
namespace TFCommon.Udp

inductive ServerState where
  | ok
  | uninitialized
  | socketOpenFailed
  | socketBindFailed
deriving DecidableEq, Repr

inductive Owner where
  | nobody
  | caller
  -- In `StartSend`, after its test of `state_` came out either way.
  | startingSend
  | failingSend
  | sending
  -- In `StartReceive`, before the asynchronous operation.
  | startingReceive
  | receiving
  | task
deriving DecidableEq, Repr

structure UdpServer where
  state : ServerState := .uninitialized
  pbuf : List Nat := []
  owner : Nat → Owner := fun _ => .nobody
  -- The calls of `Initialize` and of `StartReceive` that have passed their test of `state_`.
  initCalls : Nat := 0
  receiveCalls : Nat := 0
  -- How many buffers were allocated, in all and before the last `Shutdown`.
  next : Nat := 0
  since : Nat := 0
  -- The buffers that were deleted, one entry for each `delete[]`.
  freed : List Nat := []
  -- The buffers that were passed to `OnRead`, `HandleSend` or an asynchronous operation after they were deleted.
  misused : List Nat := []

inductive InitResult where
  | openFails
  | bindFails
  | succeeds
deriving DecidableEq, Repr

inductive Action where
  | init
  | initDone (result : InitResult)
  | shutdown
  | allocateBuffer
  | startSend (buffer : Nat)
  | asyncSend (buffer : Nat)
  | sendFails (buffer : Nat)
  | startReceive
  | receiveAllocates
  | asyncReceive (buffer : Nat)
  | handleSend (buffer : Nat) (error : Bool)
  | handleReceive (buffer : Nat) (error : Bool)
  | reader (buffer : Nat)
deriving DecidableEq, Repr

/-- A step that nobody can take: the buffer has another owner, or no such call is going on. -/
inductive Fault where
  | disabled
deriving DecidableEq, Repr

namespace UdpServer

def setOwner (s : UdpServer) (buffer : Nat) (owner : Owner) : UdpServer :=
  { s with owner := fun b => if b = buffer then owner else s.owner b }

def use (s : UdpServer) (buffer : Nat) : UdpServer :=
  if buffer ∈ s.freed then { s with misused := s.misused ++ [buffer] } else s

def allocate (s : UdpServer) (owner : Owner) : UdpServer :=
  { s.setOwner s.next owner with pbuf := s.pbuf ++ [s.next], next := s.next + 1 }

def deallocateBuffer (s : UdpServer) (buffer : Nat) : UdpServer :=
  { s with pbuf := s.pbuf.erase buffer, freed := s.freed ++ [buffer] }

/-- `Initialize` only goes on if the server is uninitialized. -/
def init (s : UdpServer) : UdpServer :=
  if s.state = .uninitialized then { s with initCalls := s.initCalls + 1 } else s

def initDone (s : UdpServer) (result : InitResult) : UdpServer :=
  { s with
    initCalls := s.initCalls - 1
    state := match result with
      | .openFails => .socketOpenFailed
      | .bindFails => .socketBindFailed
      | .succeeds => .ok }

def shutdown (s : UdpServer) : UdpServer :=
  { s with state := .uninitialized, pbuf := [], freed := s.freed ++ s.pbuf.reverse, since := s.next }

def startSend (s : UdpServer) (buffer : Nat) : UdpServer :=
  if s.state = .ok then s.setOwner buffer .startingSend else s.setOwner buffer .failingSend

def asyncSend (s : UdpServer) (buffer : Nat) : UdpServer :=
  (s.setOwner buffer .sending).use buffer

def sendFails (s : UdpServer) (buffer : Nat) : UdpServer :=
  (s.setOwner buffer .nobody).deallocateBuffer buffer

def startReceive (s : UdpServer) : UdpServer :=
  if s.state = .ok then { s with receiveCalls := s.receiveCalls + 1 } else s

def receiveAllocates (s : UdpServer) : UdpServer :=
  { s.allocate .startingReceive with receiveCalls := s.receiveCalls - 1 }

def asyncReceive (s : UdpServer) (buffer : Nat) : UdpServer :=
  (s.setOwner buffer .receiving).use buffer

def handleSendInternal (s : UdpServer) (buffer : Nat) (error : Bool) : UdpServer :=
  if s.state ≠ .ok then s.setOwner buffer .nobody
  else if error then (s.setOwner buffer .nobody).deallocateBuffer buffer
  else ((s.setOwner buffer .nobody).use buffer).deallocateBuffer buffer

/-- The completion of a receive; `HandleReceive` hands the buffer to a `Reader` task. The `StartReceive` at the end runs
under `state_guard_` with the state unchanged. -/
def handleReceiveInternal (s : UdpServer) (buffer : Nat) (error : Bool) : UdpServer :=
  if s.state ≠ .ok then s.setOwner buffer .nobody
  else if error then ((s.setOwner buffer .nobody).deallocateBuffer buffer).allocate .receiving
  else (s.setOwner buffer .task).allocate .receiving

def readerRun (s : UdpServer) (buffer : Nat) : UdpServer :=
  if s.state = .ok then ((s.setOwner buffer .nobody).use buffer).deallocateBuffer buffer
  else s.setOwner buffer .nobody

def byOwner (s : UdpServer) (buffer : Nat) (owner : Owner) (next : UdpServer) : Except Fault UdpServer :=
  if s.owner buffer = owner then .ok next else .error .disabled

def step (s : UdpServer) : Action → Except Fault UdpServer
  | .init => .ok s.init
  | .initDone result => if s.initCalls = 0 then .error .disabled else .ok (s.initDone result)
  | .shutdown => .ok s.shutdown
  | .allocateBuffer => .ok (s.allocate .caller)
  | .startSend buffer => s.byOwner buffer .caller (s.startSend buffer)
  | .asyncSend buffer => s.byOwner buffer .startingSend (s.asyncSend buffer)
  | .sendFails buffer => s.byOwner buffer .failingSend (s.sendFails buffer)
  | .startReceive => .ok s.startReceive
  | .receiveAllocates => if s.receiveCalls = 0 then .error .disabled else .ok s.receiveAllocates
  | .asyncReceive buffer => s.byOwner buffer .startingReceive (s.asyncReceive buffer)
  | .handleSend buffer error => s.byOwner buffer .sending (s.handleSendInternal buffer error)
  | .handleReceive buffer error => s.byOwner buffer .receiving (s.handleReceiveInternal buffer error)
  | .reader buffer => s.byOwner buffer .task (s.readerRun buffer)

/-- Each buffer is freed at most once and not used afterwards. While the server is shut down, a buffer is freed if it was
allocated before the `Shutdown` or if everything that was to run with it has run. -/
structure Owned (s : UdpServer) : Prop where
  once : s.freed.Nodup
  unused : s.misused = []
  released : s.state = .uninitialized → ∀ b < s.next, s.owner b = .nobody ∨ b < s.since → b ∈ s.freed

/-- A completion or a task drops its buffer unless the server is initialized, and else uses and frees it: the first is
right for a buffer from before the last `Shutdown`, the second for one allocated since. -/
def Timely (s : UdpServer) (b : Nat) : Prop :=
  (s.state = .ok → s.since ≤ b) ∧ (s.state = .uninitialized → b < s.since)

def Harmless (s : UdpServer) : Action → Prop
  | .asyncSend b => s.owner b = .startingSend → s.since ≤ b
  | .sendFails b => s.owner b = .failingSend → s.since ≤ b
  | .asyncReceive b => s.owner b = .startingReceive → s.since ≤ b
  | .handleSend b _ => s.owner b = .sending → s.Timely b
  -- A receive without error only hands its buffer on.
  | .handleReceive b error => s.owner b = .receiving → (s.state = .ok → error = true) → s.Timely b
  | .reader b => s.owner b = .task → s.Timely b
  | _ => True

variable {s t : UdpServer} {b c : Nat} {o : Owner}

/-! ### Buffers -/

inductive Standing (s : UdpServer) (b : Nat) : Prop
  | unborn : s.next ≤ b → s.owner b = .nobody → b ∉ s.pbuf → b ∉ s.freed → Standing s b
  | live : b < s.next → b ∈ s.pbuf → b ∉ s.freed → s.since ≤ b → (s.state = .uninitialized → s.owner b ≠ .nobody) →
      Standing s b
  | freed : b < s.next → b ∉ s.pbuf → b ∈ s.freed → (s.owner b = .nobody ∨ b < s.since) → Standing s b

structure Inv (s : UdpServer) : Prop where
  standing : ∀ b, Standing s b
  listed : s.pbuf.Nodup
  once : s.freed.Nodup
  unused : s.misused = []
  since : s.since ≤ s.next

theorem inv_start : Inv {} where
  standing := fun b => .unborn (Nat.zero_le b) rfl List.not_mem_nil List.not_mem_nil
  listed := List.nodup_nil
  once := List.nodup_nil
  unused := rfl
  since := Nat.le_refl _

theorem Inv.owned (inv : Inv s) : Owned s := by
  refine ⟨inv.once, inv.unused, fun shut b born ended => ?_⟩
  rcases inv.standing b with ⟨unborn, _, _, _⟩ | ⟨_, _, _, fresh, owner⟩ | ⟨_, _, freed, _⟩
  · omega
  · rcases ended with none_ | old
    · exact absurd none_ (owner shut)
    · omega
  · exact freed

theorem Inv.mem_freed (inv : Inv s) (owned : s.owner b ≠ .nobody) (old : b < s.since) : b ∈ s.freed := by
  rcases inv.standing b with ⟨_, owner, _, _⟩ | ⟨_, _, _, fresh, _⟩ | ⟨_, _, freed, _⟩
  · exact absurd owner owned
  · omega
  · exact freed

theorem Inv.live (inv : Inv s) (owned : s.owner b ≠ .nobody) (fresh : s.since ≤ b) :
    b < s.next ∧ b ∈ s.pbuf ∧ b ∉ s.freed := by
  rcases inv.standing b with ⟨_, owner, _, _⟩ | ⟨born, listed, live, _, _⟩ | ⟨_, _, _, owner | old⟩
  · exact absurd owner owned
  · exact ⟨born, listed, live⟩
  · exact absurd owner owned
  · omega

theorem Standing.frame (standing : Standing s c) (owner : t.owner c = s.owner c) (listed : c ∈ t.pbuf ↔ c ∈ s.pbuf)
    (freed : c ∈ t.freed ↔ c ∈ s.freed) (next : c < t.next ↔ c < s.next) (since : t.since = s.since)
    (state : t.state = .uninitialized → s.state = .uninitialized) : Standing t c := by
  rcases standing with ⟨unborn, none_, unlisted, unfreed⟩ | ⟨born, mem, live, fresh, held⟩ | ⟨born, unlisted, dead, held⟩
  · exact .unborn (Nat.not_lt.mp (next.not.mpr (Nat.not_lt.mpr unborn))) (owner.trans none_) (listed.not.mpr unlisted)
      (freed.not.mpr unfreed)
  · exact .live (next.mpr born) (listed.mpr mem) (freed.not.mpr live) (since ▸ fresh) (fun shut => owner ▸ held (state shut))
  · exact .freed (next.mpr born) (listed.not.mpr unlisted) (freed.mpr dead) (owner ▸ since ▸ held)

theorem setOwner_self : (s.setOwner b o).owner b = o := if_pos rfl

theorem setOwner_of_ne (other : c ≠ b) : (s.setOwner b o).owner c = s.owner c := if_neg other

/-! ### What the steps are made of -/

theorem Inv.hand (inv : Inv s) (owned : s.owner b ≠ .nobody) (kept : s.state = .uninitialized → o = .nobody → b < s.since) :
    Inv (s.setOwner b o) where
  __ := inv
  standing := fun c => by
    by_cases same : c = b
    · subst same
      rcases inv.standing c with ⟨_, owner, _, _⟩ | ⟨born, listed, live, fresh, _⟩ | ⟨born, unlisted, freed, owner | old⟩
      · exact absurd owner owned
      · refine .live born listed live fresh fun shut none_ => ?_
        exact absurd (kept shut (setOwner_self.symm.trans none_)) (Nat.not_lt.mpr fresh)
      · exact absurd owner owned
      · exact .freed born unlisted freed (.inr old)
    · exact (inv.standing c).frame (setOwner_of_ne same) Iff.rfl Iff.rfl Iff.rfl rfl id

theorem Inv.next_unborn (inv : Inv s) : s.next ∉ s.pbuf ∧ s.next ∉ s.freed := by
  rcases inv.standing s.next with ⟨_, _, unlisted, unfreed⟩ | ⟨born, _, _, _, _⟩ | ⟨born, _, _, _⟩
  · exact ⟨unlisted, unfreed⟩
  · omega
  · omega

theorem Inv.allocate (inv : Inv s) (some_ : o ≠ .nobody) : Inv (s.allocate o) := by
  obtain ⟨unlisted, unfreed⟩ := inv.next_unborn
  refine ⟨fun c => ?_, by simpa [UdpServer.allocate] using inv.listed.concat unlisted, inv.once, inv.unused, Nat.le_succ_of_le inv.since⟩
  by_cases same : c = s.next
  · subst same
    exact .live (Nat.lt_succ_self _) (by simp [UdpServer.allocate]) unfreed inv.since fun _ => setOwner_self ▸ some_
  · exact (inv.standing c).frame (setOwner_of_ne same) (by simp [UdpServer.allocate, same]) Iff.rfl
      (by simp only [UdpServer.allocate]; omega) rfl id

theorem Inv.shutdown (inv : Inv s) : Inv s.shutdown where
  standing := fun c => by
    rcases inv.standing c with ⟨unborn, owner, unlisted, unfreed⟩ | ⟨born, listed, _, _, _⟩ | ⟨born, _, freed, _⟩
    · exact .unborn unborn owner List.not_mem_nil (by simp [UdpServer.shutdown, unlisted, unfreed])
    · exact .freed born List.not_mem_nil (List.mem_append_right _ (List.mem_reverse.mpr listed)) (.inr born)
    · exact .freed born List.not_mem_nil (List.mem_append_left _ freed) (.inr born)
  listed := List.nodup_nil
  once := List.nodup_append.mpr ⟨inv.once, List.nodup_reverse.mpr inv.listed, by
    intro c freed d listed equal
    subst equal
    rcases inv.standing c with ⟨_, _, _, unfreed⟩ | ⟨_, _, live, _, _⟩ | ⟨_, unlisted, _, _⟩
    · exact unfreed freed
    · exact live freed
    · exact unlisted (List.mem_reverse.mp listed)⟩
  unused := inv.unused
  since := Nat.le_refl _

theorem Inv.restate (inv : Inv s) (state : ServerState) (initCalls receiveCalls : Nat)
    (kept : state = .uninitialized → s.state = .uninitialized) :
    Inv { s with state, initCalls, receiveCalls } where
  __ := inv
  standing := fun c => (inv.standing c).frame rfl Iff.rfl Iff.rfl Iff.rfl rfl kept

/-! ### A buffer that is used or freed -/

theorem use_eq (live : b ∉ s.freed) : s.use b = s := if_neg live

theorem freed_use : (s.use b).freed = s.freed := by
  unfold use
  split <;> rfl

theorem not_owned_use (freed : b ∈ s.freed) : ¬ Owned (s.use b) := by
  intro owned
  have unused := owned.unused
  simp [use, freed] at unused

theorem Inv.fresh_of_freed (inv : Inv s) (owned : s.owner b ≠ .nobody) (once : (s.freed ++ [b]).Nodup) : s.since ≤ b :=
  Nat.not_lt.mp fun old =>
    (List.nodup_append.mp once).2.2 b (inv.mem_freed owned old) b (List.mem_singleton.mpr rfl) rfl

abbrev Needs (x : Except Fault UdpServer) (condition : Prop) : Prop := Hinges Inv Owned (fun _ => False) x condition

theorem timely_iff (opened : s.state = .ok) : s.since ≤ b ↔ s.Timely b :=
  ⟨fun fresh => ⟨fun _ => fresh, fun shut => by simp [opened] at shut⟩, fun timely => timely.1 opened⟩

section
variable (inv : Inv s) (owned : s.owner b ≠ .nobody)
include inv owned

theorem Inv.started (some_ : o ≠ .nobody) : Needs (.ok ((s.setOwner b o).use b)) (s.since ≤ b) where
  keeps fresh := by
    have live : b ∉ (s.setOwner b o).freed := (inv.live owned fresh).2.2
    rw [use_eq live]
    exact inv.hand owned fun _ none_ => absurd none_ some_
  exposes good := by
    refine Nat.not_lt.mp fun old => ?_
    have freed : b ∈ (s.setOwner b o).freed := inv.mem_freed owned old
    exact not_owned_use freed good

theorem Inv.release : Needs (.ok ((s.setOwner b .nobody).deallocateBuffer b)) (s.since ≤ b) where
  keeps fresh := by
    obtain ⟨born, listed, live⟩ := inv.live owned fresh
    refine ⟨fun c => ?_, inv.listed.erase b, by simpa [deallocateBuffer, setOwner] using inv.once.concat live, inv.unused, inv.since⟩
    by_cases same : c = b
    · subst same
      exact .freed born inv.listed.not_mem_erase (by simp [deallocateBuffer]) (.inl setOwner_self)
    · exact (inv.standing c).frame (setOwner_of_ne same) (List.mem_erase_of_ne same)
        (by simp [deallocateBuffer, setOwner, same]) Iff.rfl rfl id
  exposes good := inv.fresh_of_freed owned good.once

theorem Inv.finish : Needs (.ok (((s.setOwner b .nobody).use b).deallocateBuffer b)) (s.since ≤ b) where
  keeps fresh := by
    have live : b ∉ (s.setOwner b .nobody).freed := (inv.live owned fresh).2.2
    rw [use_eq live]
    exact (inv.release owned).keeps fresh
  exposes good := by
    have once := good.once
    simp only [deallocateBuffer, freed_use] at once
    exact inv.fresh_of_freed owned once

theorem Inv.dropped (closed : s.state ≠ .ok) : Needs (.ok (s.setOwner b .nobody)) (s.Timely b) where
  keeps timely := inv.hand owned fun shut _ => timely.2 shut
  exposes good := by
    refine ⟨fun opened => absurd opened closed, fun shut => Nat.not_le.mp fun fresh => ?_⟩
    obtain ⟨born, _, live⟩ := inv.live owned fresh
    exact live (good.released shut b born (.inl setOwner_self))

/-! ### Completions and tasks -/

theorem Inv.handleSend (error : Bool) : Needs (.ok (s.handleSendInternal b error)) (s.Timely b) := by
  unfold handleSendInternal
  split
  · rename_i closed
    exact inv.dropped owned closed
  · rename_i opened
    refine Hinges.congr ?_ (timely_iff (not_not.mp opened))
    split
    · exact inv.release owned
    · exact inv.finish owned

theorem Inv.handleReceive (error : Bool) :
    Needs (.ok (s.handleReceiveInternal b error)) ((s.state = .ok → error = true) → s.Timely b) := by
  unfold handleReceiveInternal
  split
  · rename_i closed
    exact (inv.dropped owned closed).congr ⟨fun timely _ => timely, fun timely => timely fun opened => absurd opened closed⟩
  · rename_i opened
    have opened := not_not.mp opened
    split
    · rename_i failed
      refine ⟨fun timely => ?_, fun good _ => (timely_iff opened).mp (inv.fresh_of_freed owned good.once)⟩
      exact Inv.allocate ((inv.release owned).keeps ((timely fun _ => failed).1 opened)) (by simp)
    · rename_i fine
      refine ⟨fun _ => ?_, fun _ failed => absurd (failed opened) fine⟩
      exact (inv.hand owned fun _ none_ => by cases none_).allocate (by simp)

theorem Inv.reader : Needs (.ok (s.readerRun b)) (s.Timely b) := by
  unfold readerRun
  split
  · rename_i opened
    exact (inv.finish owned).congr (timely_iff opened)
  · rename_i closed
    exact inv.dropped owned closed

end

/-! ### Steps and runs -/

theorem byOwner_needs {p : Prop} (needs : s.owner b = o → Needs (.ok t) p) : Needs (s.byOwner b o t) (s.owner b = o → p) := by
  unfold byOwner
  split
  · rename_i mine
    exact ⟨fun harmless => (needs mine).keeps (harmless mine), fun good _ => (needs mine).exposes good⟩
  · rename_i other
    exact ⟨fun _ => not_false, fun _ mine => absurd mine other⟩

theorem Inv.init (inv : Inv s) : Inv s.init := by
  unfold UdpServer.init
  split
  · exact inv.restate s.state _ s.receiveCalls id
  · exact inv

theorem Inv.initDone (inv : Inv s) (result : InitResult) : Inv (s.initDone result) := by
  refine inv.restate _ _ s.receiveCalls fun shut => ?_
  cases result <;> cases shut

theorem Inv.startReceive (inv : Inv s) : Inv s.startReceive := by
  unfold UdpServer.startReceive
  split
  · exact inv.restate s.state s.initCalls _ id
  · exact inv

theorem Inv.receiveAllocates (inv : Inv s) : Inv s.receiveAllocates :=
  (inv.allocate (o := .startingReceive) (by simp)).restate s.state s.initCalls _ id

theorem Inv.startSend (inv : Inv s) (owned : s.owner b ≠ .nobody) : Inv (s.startSend b) := by
  unfold UdpServer.startSend
  split <;> exact inv.hand owned fun _ none_ => by cases none_

theorem step_needs (inv : Inv s) (a : Action) : Needs (step s a) (Harmless s a) := by
  have owned {b : Nat} {o : Owner} (some_ : o ≠ .nobody) (mine : s.owner b = o) : s.owner b ≠ .nobody := mine ▸ some_
  cases a with
  | init => exact .free inv.init
  | initDone result =>
    simp only [step]
    split
    · exact .free not_false
    · exact .free (inv.initDone result)
  | shutdown => exact .free inv.shutdown
  | allocateBuffer => exact .free (inv.allocate (by simp))
  | startSend b =>
    exact (byOwner_needs fun mine => .free (inv.startSend (owned (by simp) mine))).congr (by simp [Harmless])
  | asyncSend b | asyncReceive b => exact byOwner_needs fun mine => inv.started (owned (by simp) mine) (by simp)
  | sendFails b => exact byOwner_needs fun mine => inv.release (owned (by simp) mine)
  | startReceive => exact .free inv.startReceive
  | receiveAllocates =>
    simp only [step]
    split
    · exact .free not_false
    · exact .free inv.receiveAllocates
  | handleSend b error => exact byOwner_needs fun mine => inv.handleSend (owned (by simp) mine) error
  | handleReceive b error => exact byOwner_needs fun mine => inv.handleReceive (owned (by simp) mine) error
  | reader b => exact byOwner_needs fun mine => inv.reader (owned (by simp) mine)

/-- The buffers are freed once, not used afterwards and not left behind throughout a run, exactly if every step is
harmless. -/
theorem buffers_owned_iff (actions : List Action) :
    Safe step Owned (fun _ => False) ({} : UdpServer) actions ↔ Throughout step Harmless {} actions :=
  safe_iff (I := Inv) (fun _ inv => inv.owned) (fun _ a inv => (step_needs inv a).keeps)
    (fun _ a inv => (step_needs inv a).exposes) actions _ inv_start

/-- `StartSend` with a buffer that `Shutdown` has freed frees it again; so does the completion of a receive that the
`Shutdown` aborted when it runs after the next `Initialize`, and a `Reader` task of then passes its buffer to `OnRead`. -/
theorem shutdown_frees_owned_buffers :
    (∃ s, run step {} [.allocateBuffer, .shutdown, .startSend 0, .sendFails 0] = .ok s ∧ s.freed = [0, 0]) ∧
      (∃ s, run step {} [.init, .initDone .succeeds, .startReceive, .receiveAllocates, .asyncReceive 0, .shutdown,
          .init, .initDone .succeeds, .handleReceive 0 true] = .ok s ∧ s.freed = [0, 0]) ∧
      ∃ s, run step {} [.init, .initDone .succeeds, .startReceive, .receiveAllocates, .asyncReceive 0,
          .handleReceive 0 false, .shutdown, .init, .initDone .succeeds, .reader 0] = .ok s ∧ s.misused = [0] :=
  ⟨⟨_, rfl, rfl⟩, ⟨_, rfl, rfl⟩, _, rfl, rfl⟩

end UdpServer

end TFCommon.Udp
