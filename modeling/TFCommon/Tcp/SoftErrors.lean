import TFCommon.Tcp.Pipe

/-! Write completions with an error that does not close the session. `UpdateBufferQueue` asserts that a completion reports all
the bytes that were requested, whatever error it carries. -/
namespace TFCommon.Tcp.Writer

inductive ErrorCode where
  | success | tryAgain | wouldBlock | inProgress | interrupted | networkDown | networkReset | networkUnreachable
  | noBufferSpace | other (value : Int)
deriving DecidableEq, Repr

def isSocketErrorHard : ErrorCode → Bool
  | .other _ => true
  | _ => false

inductive Event where
  | send (data : List UInt8)
  | asyncWriteInternal
  | writeReady
  -- The write in flight has written the first bytes of its data.
  | complete (error : ErrorCode) (wrote : Nat)
deriving DecidableEq, Repr

def Event.action : Event → Action
  | .send data => .send data
  | .asyncWriteInternal => .asyncWriteInternal
  | .writeReady => .writeReady
  | .complete _ _ => .asyncWriteHandler

namespace TcpSession

/-- The steps of a session that nobody closes. A completion with a hard error closes it; here errors are soft. -/
def softStep (bufferSendSize : Nat) (s : TcpSession) : Event → Except Fault TcpSession
  | .send data => s.step bufferSendSize (.send data)
  | .asyncWriteInternal => s.step bufferSendSize .asyncWriteInternal
  | .writeReady => s.step bufferSendSize .writeReady
  | .complete error wrote =>
    match s.inFlight with
    | [] => .error .disabled
    | data :: rest =>
      if isSocketErrorHard error ∨ data.length < wrote then .error .disabled
      else asyncWriteHandler bufferSendSize { s with inFlight := rest } (data.take wrote)

/-- The session is open, no byte is lost, and while bytes are left somebody is to write them. -/
structure Delivering (s : TcpSession) : Prop where
  opened : s.closed = false
  stream : s.accepted = s.written ++ s.bufferQueue.flatten.drop s.offset
  pending : s.posts = 0 → s.inFlight = [] → s.written = s.accepted

/-- A completion reports what was requested. -/
def Whole (s : TcpSession) : Event → Prop
  | .complete error wrote => isSocketErrorHard error = true ∨ s.lastWrite ≤ wrote ∨ s.inFlight = []
  | _ => True

variable {n : Nat} {s s' : TcpSession}

structure Serving (n : Nat) (s : TcpSession) : Prop where
  inv : Inv n s
  opened : s.closed = false
  free : s.tcpCloseInProgress = false

theorem Serving.delivering (serving : Serving n s) : Delivering s := by
  have stream := serving.inv.kept.stream serving.opened
  refine ⟨serving.opened, stream, fun unposted landed => ?_⟩
  rcases serving.inv.flow serving.opened with ⟨empty, _⟩ | ⟨_, _, posted, _⟩ | ⟨_, _, _, _, _, started, _⟩
  · simp [stream, empty]
  · omega
  · simp [landed] at started

theorem goOn_flags (ready : Bool) :
    (s.goOn n ready).closed = s.closed ∧ (s.goOn n ready).tcpCloseInProgress = s.tcpCloseInProgress := by
  unfold goOn
  split
  · rw [ready_eq]
    exact ⟨rfl, rfl⟩
  · split
    · exact ⟨rfl, rfl⟩
    · rw [ready_eq]
      exact ⟨rfl, rfl⟩

theorem Serving.flags (serving : Serving n s) {e : Event} (ran : s.step n e.action = .ok s') :
    s'.closed = false ∧ s'.tcpCloseInProgress = false := by
  have flags := And.intro serving.opened serving.free
  cases e with
  | send data =>
    cases ran
    simp only [TcpSession.send, asyncSend, bufferAppend, post, TcpSession.block]
    split_ifs <;> exact flags
  | asyncWriteInternal =>
    simp only [Event.action, step, asyncWriteInternal, triggerAsyncWrite] at ran
    split_ifs at ran
    · cases ran
      exact flags
    · split at ran
      · cases ran
      · cases ran
        exact flags
  | writeReady =>
    simp only [Event.action, step] at ran
    split_ifs at ran
    cases ran
    exact flags
  | complete error wrote =>
    simp only [Event.action, step] at ran
    split at ran
    · cases ran
    · rename_i data rest flight
      obtain ⟨head, rest, queue, inside, _, rfl, rfl, last, _⟩ := serving.inv.writing serving.opened flight
      obtain ⟨left, offset, _, same⟩ := asyncWriteHandler_of serving.opened queue inside last
      cases same.symm.trans ran
      rw [(goOn_flags _).1, (goOn_flags _).2]
      exact flags

theorem Serving.step (serving : Serving n s) (e : Event) : Verdict (Serving n) (· = .assertion) (s.step n e.action) := by
  have harmless : s.Harmless e.action := by
    cases e with
    | complete error wrote => exact .inr (.inr fun closing => by simp [serving.free] at closing)
    | _ => trivial
  have kept := (step_hinges serving.inv e.action).keeps harmless
  cases ran : s.step n e.action with
  | error fault =>
    rw [ran] at kept
    exact kept
  | ok s' =>
    rw [ran] at kept
    obtain ⟨opened, free⟩ := serving.flags ran
    exact ⟨kept, opened, free⟩

/-- A completion of all the bytes is handled like one without an error; any other fails the assertion. -/
theorem Serving.softStep_hinges (serving : Serving n s) (e : Event) :
    Hinges (Serving n) Delivering (· = .assertion) (s.softStep n e) (s.Whole e) := by
  have handled := serving.step e
  cases e with
  | complete error wrote =>
    simp only [Event.action, TcpSession.step, softStep] at handled ⊢
    split
    · rename_i none_
      exact .failed (by simp) (.inr (.inr none_))
    · rename_i data rest flight
      obtain ⟨_, _, _, _, _, _, _, last, _⟩ := serving.inv.writing serving.opened flight
      rw [flight] at handled
      split
      · rename_i outside
        exact .failed (by simp) (outside.imp id fun more => .inl (by omega))
      · rename_i soft
        by_cases all : data.length ≤ wrote
        · rw [List.take_of_length_le all]
          exact ⟨fun _ => handled, fun _ => .inr (.inl (by omega))⟩
        · have differs : s.lastWrite ≠ (data.take wrote).length := by
            rw [List.length_take]
            omega
          rw [asyncWriteHandler, if_neg (by simp [serving.opened]), updateBufferQueue, if_pos differs]
          refine ⟨fun whole => ?_, fun fine => absurd rfl fine⟩
          rcases whole with hard | all' | none_
          · exact absurd (.inl hard) soft
          · omega
          · simp [flight] at none_
  | _ => exact .free handled

/-- With soft errors the writer delivers exactly if every completion reports all the bytes that were requested. -/
theorem soft_errors_iff (bufferSendSize : Nat) (events : List Event) :
    Safe (softStep bufferSendSize) Delivering (· = .assertion) {} events ↔
      Throughout (softStep bufferSendSize) Whole {} events :=
  safe_iff (fun _ serving => Serving.delivering serving) (fun _ e serving => (serving.softStep_hinges e).keeps)
    (fun _ e serving => (serving.softStep_hinges e).exposes) events {} ⟨inv_start bufferSendSize, rfl, rfl⟩

theorem would_block_asserts :
    run (softStep 100) {} [.send [1, 2, 3], .asyncWriteInternal, .complete .wouldBlock 0] = .error .assertion := by
  decide

end TcpSession

end TFCommon.Tcp.Writer
