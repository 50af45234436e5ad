import TFCommon.Tcp.Writer

/-! The sending side of a session is a pipe with one write in flight, unless a `Close` that has found no data closes the
socket after a later `Send`, or the last write of a deferred close ends while the sender is throttled. -/
namespace TFCommon.Tcp.Writer

namespace TcpSession

/-- What holds of the session at every moment. A closed session hands over nothing more. -/
structure Piped (s : TcpSession) : Prop where
  single : s.inFlight.length ≤ 1
  order : s.handed <+: s.accepted
  complete : s.posts = 0 ∧ s.inFlight = [] ∨ s.closed = true → s.handed = s.accepted
  refused : ∀ bytes, s.deferred = some bytes → s.accepted = bytes
  flushed : s.deferred.isSome = true → s.closed = true → s.written = s.accepted
  throttled : s.writeBlocked = true → kMinPendingBufferSize ≤ s.getBufferQueueSize - s.offset
  woken : s.blocks = s.readyCalls + s.readying + if s.writeBlocked then 1 else 0

/-- The steps that do no harm: a `Close` that found no data closes the socket while the queue holds nothing but the write
in flight, and not even that if another `Close` waits for the queue; the last write of a deferred close does not end the
throttling. -/
def Harmless (s : TcpSession) : Action → Prop
  | .closeNow => s.closing = 0 ∨ s.closed = true ∨
    s.getBufferQueueSize = s.offset + s.lastWrite ∧ (s.tcpCloseInProgress = true → s.getBufferQueueSize = s.offset)
  | .asyncWriteHandler => s.inFlight = [] ∨ s.closed = true ∨
    ¬ (s.tcpCloseInProgress = true ∧ s.writeBlocked = true ∧
      ∃ head, s.bufferQueue = [head] ∧ s.offset + s.lastWrite = head.length)
  | _ => True

/-- Who starts the next write of an open session: nobody, the strand, or the completion of the write in flight. -/
inductive Flow (n : Nat) (queue : List (List UInt8)) (offset posts : Nat) (flight : List (List UInt8)) (last : Nat)
    (handed written : List UInt8) : Prop
  | idle : queue = [] → offset = 0 → posts = 0 → flight = [] → last = 0 → handed = written →
    Flow n queue offset posts flight last handed written
  | posted : queue ≠ [] → offset = 0 → posts = 1 → flight = [] → last = 0 → handed = written →
    Flow n queue offset posts flight last handed written
  | writing (head : List UInt8) (rest : List (List UInt8)) : queue = head :: rest → offset ≤ head.length → posts = 0 →
    flight = [slice n head offset] → last = (slice n head offset).length → handed = written ++ slice n head offset →
    Flow n queue offset posts flight last handed written

def Flowing (n : Nat) (s : TcpSession) : Prop :=
  Flow n s.bufferQueue s.offset s.posts s.inFlight s.lastWrite s.handed s.written

structure Kept (s : TcpSession) : Prop where
  live : s.established = !s.closed
  stream : s.closed = false → s.accepted = s.written ++ s.bufferQueue.flatten.drop s.offset
  ended : s.closed = true → s.handed = s.accepted ∧ s.inFlight.length ≤ 1
  deferral : s.closed = false → s.deferred.isSome = s.tcpCloseInProgress
  refused : ∀ bytes, s.deferred = some bytes → s.accepted = bytes
  flushed : s.deferred.isSome = true → s.closed = true → s.written = s.accepted
  finishing : s.closed = false → 0 < s.finishing → s.bufferQueue = [] ∧ s.tcpCloseInProgress = true
  throttled : s.writeBlocked = true → kMinPendingBufferSize ≤ s.getBufferQueueSize - s.offset
  woken : s.blocks = s.readyCalls + s.readying + if s.writeBlocked then 1 else 0

structure Inv (n : Nat) (s : TcpSession) : Prop where
  kept : Kept s
  flow : s.closed = false → s.Flowing n

variable {n : Nat} {s : TcpSession}

theorem inv_start (n : Nat) : Inv n {} where
  kept :=
    { live := rfl
      stream := fun _ => rfl
      ended := nofun
      deferral := fun _ => rfl
      refused := fun _ some_ => absurd some_ (by simp)
      flushed := nofun
      finishing := nofun
      throttled := nofun
      woken := rfl }
  flow := fun _ => .idle rfl rfl rfl rfl rfl rfl

section
variable {queue flight : List (List UInt8)} {offset posts last : Nat} {handed written : List UInt8}

section
variable (flow : Flow n queue offset posts flight last handed written)
include flow

theorem Flow.single : flight.length ≤ 1 := by
  rcases flow with ⟨_, _, _, rfl, _, _⟩ | ⟨_, _, _, rfl, _, _⟩ | ⟨_, _, _, _, _, rfl, _, _⟩
  · exact Nat.zero_le _
  · exact Nat.zero_le _
  · exact Nat.le_refl _

theorem Flow.ahead : ∃ data, handed = written ++ data ∧ data.length = last ∧ data <+: queue.flatten.drop offset := by
  rcases flow with ⟨_, _, _, _, rfl, rfl⟩ | ⟨_, _, _, _, rfl, rfl⟩ | ⟨head, rest, rfl, inside, _, _, rfl, rfl⟩
  · exact ⟨[], (List.append_nil _).symm, rfl, List.nil_prefix⟩
  · exact ⟨[], (List.append_nil _).symm, rfl, List.nil_prefix⟩
  · refine ⟨_, rfl, rfl, ?_⟩
    rw [List.flatten_cons, List.drop_append_of_le_length inside]
    exact (List.take_prefix _ _).trans (List.prefix_append _ _)

theorem Flow.order : handed <+: written ++ queue.flatten.drop offset := by
  obtain ⟨data, handed, _, front⟩ := flow.ahead
  rw [handed, List.prefix_append_right_inj]
  exact front

theorem Flow.complete (unposted : posts = 0) (landed : flight = []) : handed = written ++ queue.flatten.drop offset := by
  rcases flow with ⟨rfl, _, _, _, _, rfl⟩ | ⟨_, _, posted, _, _, _⟩ | ⟨_, _, _, _, _, started, _, _⟩
  · simp
  · omega
  · simp [landed] at started

theorem Flow.inside : offset ≤ queue.flatten.length := by
  rcases flow with ⟨_, rfl, _, _, _, _⟩ | ⟨_, rfl, _, _, _, _⟩ | ⟨head, rest, rfl, inside, _, _, _, _⟩
  · exact Nat.zero_le _
  · exact Nat.zero_le _
  · rw [List.flatten_cons, List.length_append]
    omega

end

end

theorem Inv.piped (inv : Inv n s) : Piped s := by
  have kept := inv.kept
  cases closed : s.closed with
  | true =>
    obtain ⟨handed, single⟩ := kept.ended closed
    exact ⟨single, handed ▸ List.prefix_refl _, fun _ => handed, kept.refused, kept.flushed, kept.throttled, kept.woken⟩
  | false =>
    have flow := inv.flow closed
    have stream := kept.stream closed
    refine ⟨flow.single, stream ▸ flow.order, ?_, kept.refused, kept.flushed, kept.throttled, kept.woken⟩
    rintro (⟨posts, flight⟩ | closed')
    · rw [stream]
      exact flow.complete posts flight
    · rw [closed] at closed'
      cases closed'

/-! ### Sending -/

theorem Inv.block (inv : Inv n s) (over_ : kMaxPendingBufferSize < s.getBufferQueueSize - s.offset) : Inv n s.block := by
  unfold TcpSession.block
  split
  · exact inv
  · rename_i free
    have kept := inv.kept
    have woken := kept.woken
    rw [if_neg free] at woken
    refine ⟨{ kept with throttled := fun _ => Nat.le_trans (by decide) (Nat.le_of_lt over_), woken := ?_ }, inv.flow⟩
    simp
    omega

theorem Kept.not_deferred (kept : Kept s) (opened : s.closed = false) (free : s.tcpCloseInProgress = false) :
    s.deferred = none := by
  simpa [free] using kept.deferral opened

theorem Kept.append (kept : Kept s) (data : List UInt8) (opened : s.closed = false) (free : s.tcpCloseInProgress = false)
    (inside : s.offset ≤ s.bufferQueue.flatten.length) : Kept (s.bufferAppend data) := by
  have none_ := kept.not_deferred opened free
  refine ⟨kept.live, fun _ => ?_, fun closed => ?_, kept.deferral, fun bytes some_ => ?_, fun some_ => ?_,
    fun _ positive => ?_, fun blocked => ?_, kept.woken⟩
  · simp [bufferAppend]
    rw [kept.stream opened, List.append_assoc, List.drop_append_of_le_length inside]
  · exact absurd (opened.symm.trans closed) (by decide)
  · exact absurd (none_.symm.trans some_) (by simp)
  · simp [bufferAppend, none_] at some_
  · exact absurd (free.symm.trans (kept.finishing opened positive).2) (by decide)
  · have before := kept.throttled blocked
    simp only [bufferAppend, getBufferQueueSize, List.map_append, List.sum_append] at before ⊢
    omega

theorem Inv.append (inv : Inv n s) (data : List UInt8) (opened : s.closed = false) (free : s.tcpCloseInProgress = false) :
    Inv n (if s.bufferQueue.isEmpty then (s.bufferAppend data).post else s.bufferAppend data) := by
  have flow := inv.flow opened
  have kept := inv.kept.append data opened free flow.inside
  split
  · rename_i empty
    rw [List.isEmpty_iff] at empty
    refine ⟨{ kept with }, fun _ => ?_⟩
    rcases flow with ⟨_, offset, posts, flight, last, handed⟩ | ⟨some_, _, _, _, _, _⟩ | ⟨head, rest, queue, _, _, _, _, _⟩
    · exact .posted (by simp [post, bufferAppend]) offset (by simp [post, bufferAppend, posts]) flight last handed
    · exact absurd empty some_
    · simp [queue] at empty
  · rename_i some_
    refine ⟨kept, fun _ => ?_⟩
    rcases flow with ⟨empty, _, _, _, _, _⟩ | ⟨_, offset, posts, flight, last, handed⟩ |
      ⟨head, rest, queue, inside, posts, flight, last, handed⟩
    · simp [empty] at some_
    · exact .posted (by simp [bufferAppend]) offset posts flight last handed
    · exact .writing head (rest ++ [data]) (by simp [bufferAppend, queue]) inside posts flight last handed

theorem Inv.send (inv : Inv n s) (data : List UInt8) : Inv n (s.send data).1 := by
  unfold TcpSession.send
  split
  · rename_i may
    simp only [Bool.and_eq_true, Bool.not_eq_true'] at may
    have opened : s.closed = false := by simpa [may.1] using inv.kept.live
    have appended := inv.append data opened may.2
    simp only [asyncSend]
    generalize (if s.bufferQueue.isEmpty then (s.bufferAppend data).post else s.bufferAppend data) = next at appended ⊢
    split
    · rename_i over_
      exact appended.block over_
    · exact appended
  · exact inv

/-! ### Writing -/

variable {head : List UInt8} {rest : List (List UInt8)}

theorem triggerAsyncWrite_of (none_ : s.lastWrite = 0)
    (queue : s.bufferQueue = head :: rest) :
    s.triggerAsyncWrite n =
      .ok { s with
        lastWrite := (slice n head s.offset).length, inFlight := s.inFlight ++ [slice n head s.offset]
        handed := s.handed ++ slice n head s.offset } := by
  unfold triggerAsyncWrite
  rw [if_neg (by simpa using none_)]
  simp only [queue]

theorem Inv.start (inv : Inv n s) (posted : s.posts ≠ 0) :
    Verdict (Inv n) (· = .assertion) (asyncWriteInternal n { s with posts := s.posts - 1 }) := by
  have kept := inv.kept
  unfold asyncWriteInternal
  by_cases closed : s.closed = true
  · rw [if_pos closed]
    exact ⟨{ kept with }, fun opened => absurd (closed.symm.trans opened) (by decide)⟩
  · have opened : s.closed = false := by simpa using closed
    rcases inv.flow opened with ⟨_, _, none_, _, _, _⟩ | ⟨some_, offset, posts, flight, last, handed⟩ |
      ⟨_, _, _, _, none_, _, _, _⟩
    · exact absurd none_ posted
    · obtain ⟨head, rest, queue⟩ := List.exists_cons_of_ne_nil some_
      rw [if_neg closed, triggerAsyncWrite_of (s := { s with posts := s.posts - 1 }) last queue]
      refine ⟨{ kept with ended := fun closed' => absurd closed' closed }, fun _ => .writing head rest queue ?_ ?_ ?_ rfl ?_⟩
      · simp only [offset]
        exact Nat.zero_le _
      · simp only [posts]
      · simp [flight]
      · simp only [handed]
    · exact absurd none_ posted

structure Popped (s : TcpSession) (head : List UInt8) (rest : List (List UInt8)) (wrote : Nat)
    (queue : List (List UInt8)) (offset : Nat) : Prop where
  stream : queue.flatten.drop offset = (s.bufferQueue.flatten.drop s.offset).drop wrote
  empty : queue = [] ↔ rest = [] ∧ s.offset + wrote = head.length
  idle : queue = [] → offset = 0
  inside : ∀ first others, queue = first :: others → offset ≤ first.length

theorem pop_popped {wrote : Nat} (queue : s.bufferQueue = head :: rest)
    (inside : s.offset + wrote ≤ head.length) :
    ∃ left offset, s.pop head rest wrote = { s with lastWrite := 0, offset := offset, bufferQueue := left } ∧
      Popped s head rest wrote left offset := by
  unfold pop
  split
  · rename_i whole
    refine ⟨rest, 0, rfl, ?_, by simp [whole], fun _ => rfl, fun _ _ _ => Nat.zero_le _⟩
    rw [queue, List.drop_drop, whole, List.flatten_cons, List.drop_left, List.drop_zero]
  · rename_i part
    refine ⟨s.bufferQueue, s.offset + wrote, rfl, by rw [List.drop_drop], by simp [queue, part],
      fun empty => by simp [queue] at empty, ?_⟩
    intro first others same
    obtain ⟨rfl, rfl⟩ := List.cons.inj (queue.symm.trans same)
    exact inside

def wrote (s : TcpSession) (data : List UInt8) (queue : List (List UInt8)) (offset : Nat) : TcpSession :=
  { s with
    inFlight := [], written := s.written ++ data, lastWrite := 0, offset := offset, bufferQueue := queue }

def unblock (s : TcpSession) : TcpSession := { s with writeBlocked := s.writeBlocked && !s.sendReady }

theorem updateBufferQueue_of {head data : List UInt8} (queue : s.bufferQueue = head :: rest)
    (last : s.lastWrite = data.length) (inside : s.offset + data.length ≤ head.length) :
    ∃ left offset, Popped s head rest data.length left offset ∧
      updateBufferQueue { s with inFlight := [], written := s.written ++ data } data.length =
        .ok ((s.wrote data left offset).unblock, !left.isEmpty, (s.wrote data left offset).sendReady) := by
  obtain ⟨left, offset, same, popped⟩ := pop_popped (s := { s with inFlight := [], written := s.written ++ data }) queue inside
  refine ⟨left, offset, { popped with }, ?_⟩
  unfold updateBufferQueue
  rw [if_neg (by simpa using last)]
  simp only [queue]
  rw [queue] at same
  rw [same]
  rfl

theorem woken_unblock (woken : s.blocks = s.readyCalls + s.readying + if s.writeBlocked then 1 else 0) :
    (s.unblock.ready s.sendReady).blocks = (s.unblock.ready s.sendReady).readyCalls +
      (s.unblock.ready s.sendReady).readying + if (s.unblock.ready s.sendReady).writeBlocked then 1 else 0 := by
  unfold TcpSession.ready unblock
  cases may : s.sendReady with
  | true =>
    have blocked : s.writeBlocked = true := by
      simp only [sendReady, Bool.and_eq_true] at may
      exact may.1
    simp only [blocked] at woken
    simp [woken, Nat.add_assoc]
  | false => simpa using woken

theorem throttled_unblock (blocked : s.unblock.writeBlocked = true) :
    kMinPendingBufferSize ≤ s.getBufferQueueSize - s.offset := by
  simp only [unblock, Bool.and_eq_true, Bool.not_eq_true'] at blocked
  have much := blocked.2
  rw [sendReady, blocked.1, Bool.true_and, decide_eq_false_iff_not] at much
  omega

theorem ready_eq (ready : Bool) : s.ready ready = { s with readying := if ready then s.readying + 1 else s.readying } := by
  cases ready with
  | true => rfl
  | false => rfl

theorem Kept.wrote {head data : List UInt8} {rest left : List (List UInt8)} {offset : Nat} (kept : Kept s)
    (opened : s.closed = false) (queue : s.bufferQueue = head :: rest) (front : data <+: s.bufferQueue.flatten.drop s.offset)
    (popped : Popped s head rest data.length left offset) :
    Kept ((s.wrote data left offset).unblock.ready (s.wrote data left offset).sendReady) := by
  have woken := woken_unblock (s := s.wrote data left offset) kept.woken
  have throttled := throttled_unblock (s := s.wrote data left offset)
  rw [ready_eq] at woken ⊢
  refine ⟨kept.live, fun _ => ?_, fun closed => ?_, kept.deferral, kept.refused, fun _ closed => ?_, fun _ positive => ?_,
    throttled, woken⟩
  · obtain ⟨others, split⟩ := front
    simp only [unblock, TcpSession.wrote]
    rw [kept.stream opened, popped.stream, ← split, List.drop_left, List.append_assoc]
  · exact absurd (opened.symm.trans closed) (by decide)
  · exact absurd (opened.symm.trans closed) (by decide)
  · have empty := (kept.finishing opened positive).1
    simp [queue] at empty

def goOn (n : Nat) (s : TcpSession) (sendReady : Bool) : TcpSession :=
  match s.bufferQueue with
  | head :: _ =>
    { s with
      lastWrite := (slice n head s.offset).length, inFlight := [slice n head s.offset]
      handed := s.handed ++ slice n head s.offset }.ready sendReady
  | [] => if s.tcpCloseInProgress then { s with finishing := s.finishing + 1 } else s.ready sendReady

theorem asyncWriteHandler_of (opened : s.closed = false)
    (queue : s.bufferQueue = head :: rest) (inside : s.offset ≤ head.length)
    (last : s.lastWrite = (slice n head s.offset).length) :
    ∃ left offset, Popped s head rest (slice n head s.offset).length left offset ∧
      asyncWriteHandler n { s with inFlight := [] } (slice n head s.offset) =
        .ok ((s.wrote (slice n head s.offset) left offset).unblock.goOn n
          (s.wrote (slice n head s.offset) left offset).sendReady) := by
  have width : (slice n head s.offset).length ≤ head.length - s.offset := by
    simp only [slice, List.length_take, List.length_drop]
    omega
  obtain ⟨left, offset, popped, updated⟩ := updateBufferQueue_of queue last (by omega)
  refine ⟨left, offset, popped, ?_⟩
  unfold asyncWriteHandler
  rw [if_neg (by simp [opened])]
  simp only [updated, bind, Except.bind]
  cases left with
  | cons first more => rfl
  | nil =>
    simp only [List.isEmpty_nil, Bool.not_true, Bool.false_eq_true, if_false, goOn]
    split
    · rfl
    · rfl

theorem Inv.writing (inv : Inv n s) (opened : s.closed = false) {data : List UInt8} {others : List (List UInt8)}
    (flight : s.inFlight = data :: others) :
    ∃ head rest, s.bufferQueue = head :: rest ∧ s.offset ≤ head.length ∧ s.posts = 0 ∧ slice n head s.offset = data ∧
      others = [] ∧ s.lastWrite = data.length ∧ s.handed = s.written ++ data := by
  rcases inv.flow opened with ⟨_, _, _, none_, _⟩ | ⟨_, _, _, none_, _⟩ |
    ⟨head, rest, queue, inside, posts, single, last, handed⟩
  · simp [flight] at none_
  · simp [flight] at none_
  · obtain ⟨rfl, rfl⟩ := List.cons.inj (flight.symm.trans single)
    exact ⟨head, rest, queue, inside, posts, rfl, rfl, last, handed⟩

/-- The last write of a deferred close that ends the throttling is not followed by `WriteReady`. -/
theorem Inv.complete (inv : Inv n s) (opened : s.closed = false) {data : List UInt8} {others : List (List UInt8)}
    (flight : s.inFlight = data :: others) :
    Hinges (Inv n) Piped (· = .assertion) (asyncWriteHandler n { s with inFlight := others } data)
      (¬ (s.tcpCloseInProgress = true ∧ s.writeBlocked = true ∧
        ∃ head, s.bufferQueue = [head] ∧ s.offset + s.lastWrite = head.length)) := by
  obtain ⟨head, rest, queue, inside, posts, rfl, rfl, last, handed⟩ := inv.writing opened flight
  have front : slice n head s.offset <+: s.bufferQueue.flatten.drop s.offset := by
    rw [queue, List.flatten_cons, List.drop_append_of_le_length inside]
    exact (List.take_prefix _ _).trans (List.prefix_append _ _)
  obtain ⟨left, offset, popped, ran⟩ := asyncWriteHandler_of opened queue inside last
  have kept := inv.kept.wrote opened queue front popped
  rw [ran]
  cases left with
  | cons first more =>
    simp only [goOn, unblock, TcpSession.wrote]
    rw [ready_eq] at kept ⊢
    refine ⟨fun _ => ⟨{ kept with ended := fun closed => absurd (opened.symm.trans closed) (by decide) },
      fun _ => .writing first more rfl (popped.inside first more rfl) posts rfl rfl ?_⟩, fun _ => ?_⟩
    · simp only [handed]
    · rintro ⟨_, _, head', queue', whole⟩
      obtain ⟨rfl, rfl⟩ := List.cons.inj (queue.symm.trans queue')
      cases popped.empty.mpr ⟨rfl, last ▸ whole⟩
  | nil =>
    have flow : Flow n [] offset s.posts [] 0 s.handed (s.written ++ slice n head s.offset) :=
      .idle rfl (popped.idle rfl) posts rfl rfl handed
    have empty : (s.wrote (slice n head s.offset) [] offset).unblock.bufferQueue = [] := rfl
    simp only [goOn, empty]
    split
    · rename_i progress
      obtain ⟨none_, whole⟩ := popped.empty.mp rfl
      by_cases blocked : s.writeBlocked = true
      · refine ⟨fun quiet => absurd ⟨progress, blocked, head, by rw [queue, none_], last ▸ whole⟩ quiet, fun piped => ?_⟩
        have before := inv.kept.woken
        have after := piped.woken
        rw [blocked, if_pos rfl] at before
        simp [unblock, TcpSession.wrote, sendReady, getBufferQueueSize, kMinPendingBufferSize] at after
        omega
      · have unready : (s.wrote (slice n head s.offset) [] offset).sendReady = false := by
          simp [sendReady, TcpSession.wrote, blocked]
        rw [unready] at kept
        exact ⟨fun _ => ⟨{ kept with finishing := fun _ _ => ⟨rfl, progress⟩ }, fun _ => flow⟩, fun _ both => blocked both.2.1⟩
    · rename_i other
      refine ⟨fun _ => ⟨kept, fun _ => ?_⟩, fun _ both => other both.1⟩
      rw [ready_eq]
      exact flow

/-! ### Closing -/

theorem length_behind (s : TcpSession) :
    (s.bufferQueue.flatten.drop s.offset).length = s.getBufferQueueSize - s.offset := by
  rw [List.length_drop, List.length_flatten, getBufferQueueSize]

/-- All is handed over exactly if the queue ends with the write in flight. -/
theorem Inv.handed_iff (inv : Inv n s) (opened : s.closed = false) :
    s.handed = s.accepted ↔ s.getBufferQueueSize = s.offset + s.lastWrite := by
  obtain ⟨data, handed, last, front⟩ := (inv.flow opened).ahead
  have inside := (inv.flow opened).inside
  have behind := s.length_behind
  rw [List.length_flatten] at inside
  rw [handed, inv.kept.stream opened, List.append_cancel_left_eq]
  constructor
  · intro all
    rw [← all, last] at behind
    simp only [getBufferQueueSize] at behind ⊢
    omega
  · intro all
    exact front.eq_of_length (by omega)

/-- All is written exactly if the queue ends at the offset. -/
theorem Inv.written_iff (inv : Inv n s) (opened : s.closed = false) :
    s.written = s.accepted ↔ s.getBufferQueueSize = s.offset := by
  have inside := (inv.flow opened).inside
  rw [List.length_flatten] at inside
  rw [inv.kept.stream opened, List.self_eq_append_right, ← List.length_eq_zero_iff, length_behind]
  simp only [getBufferQueueSize]
  omega

theorem Inv.closeInternal (inv : Inv n s) (sent : s.closed = false → s.handed = s.accepted)
    (flushed : s.closed = false → s.deferred.isSome = true → s.written = s.accepted) : Inv n s.closeInternal := by
  have kept := inv.kept
  refine ⟨⟨rfl, nofun, fun _ => ?_, nofun, kept.refused, fun some_ _ => ?_, nofun, kept.throttled, kept.woken⟩, nofun⟩
  · cases closed : s.closed with
    | true => exact kept.ended closed
    | false => exact ⟨sent closed, (inv.flow closed).single⟩
  · cases closed : s.closed with
    | true => exact kept.flushed some_ closed
    | false => exact flushed closed some_

theorem Inv.close (inv : Inv n s) : Inv n s.close := by
  have kept := inv.kept
  unfold TcpSession.close
  split
  · exact inv
  · rename_i closed
    split
    · refine ⟨{ kept with
        deferral := fun _ => rfl, refused := ?_, flushed := fun _ closed' => absurd closed' closed
        finishing := fun opened positive => ⟨(kept.finishing opened positive).1, rfl⟩ }, inv.flow⟩
      intro bytes same
      cases first : s.deferred with
      | none => simpa [first] using same
      | some earlier =>
        cases first ▸ same
        exact kept.refused earlier first
    · exact ⟨{ kept with }, inv.flow⟩

theorem Inv.finishClose (inv : Inv n s) (positive : s.finishing ≠ 0) :
    Inv n { s with finishing := s.finishing - 1 }.closeInternal := by
  have kept := inv.kept
  have fewer : Inv n { s with finishing := s.finishing - 1 } :=
    ⟨{ kept with finishing := fun opened positive' => kept.finishing opened (by simp only at positive'; omega) }, inv.flow⟩
  have written : s.closed = false → s.written = s.accepted ∧ s.handed = s.written := by
    intro opened
    have empty := (kept.finishing opened (by omega)).1
    rcases inv.flow opened with ⟨_, offset, _, _, _, handed⟩ | ⟨some_, _, _, _, _, _⟩ | ⟨_, _, queue, _, _, _, _, _⟩
    · rw [kept.stream opened, empty]
      simpa using handed
    · exact absurd empty some_
    · simp [queue] at empty
  exact fewer.closeInternal (fun opened => (written opened).2.trans (written opened).1) (fun opened _ => (written opened).1)

/-! ### The runs -/

theorem step_hinges (inv : Inv n s) (a : Action) : Hinges (Inv n) Piped (· = .assertion) (step n s a) (s.Harmless a) := by
  have kept := inv.kept
  cases a with
  | send data => exact .free (inv.send data)
  | asyncWriteInternal =>
    simp only [step]
    split
    · exact .failed (by simp) trivial
    · rename_i posted
      exact .free (inv.start posted)
  | asyncWriteHandler =>
    simp only [step]
    split
    · rename_i none_
      exact .failed (by simp) (.inl none_)
    · rename_i data others flight
      by_cases closed : s.closed = true
      · have few := (kept.ended closed).2
        rw [flight, List.length_cons] at few
        rw [asyncWriteHandler, if_pos closed]
        exact ⟨fun _ => ⟨{ kept with ended := fun _ => ⟨(kept.ended closed).1, by simp only; omega⟩ },
          fun opened => absurd (closed.symm.trans opened) (by decide)⟩, fun _ => .inr (.inl closed)⟩
      · exact (inv.complete (by simpa using closed) flight).congr (by simp [Harmless, flight, closed])
  | writeReady =>
    simp only [step]
    split
    · exact .failed (by simp) trivial
    · refine .free ⟨{ kept with woken := ?_ }, inv.flow⟩
      have woken := kept.woken
      simp only
      omega
  | finishClose =>
    simp only [step]
    split
    · exact .failed (by simp) trivial
    · rename_i some_
      exact .free (inv.finishClose some_)
  | close => exact .free inv.close
  | closeNow =>
    simp only [step]
    split
    · rename_i none_
      exact .failed (by simp) (.inl none_)
    · rename_i some_
      have fewer : Inv n { s with closing := s.closing - 1 } := ⟨{ kept with }, inv.flow⟩
      cases closed : s.closed with
      | true =>
        refine ⟨fun _ => ?_, fun _ => .inr (.inl closed)⟩
        exact fewer.closeInternal (fun opened => absurd (closed.symm.trans opened) (by decide))
          (fun opened => absurd (closed.symm.trans opened) (by decide))
      | false =>
        refine ⟨fun harmless => ?_, fun piped => .inr (.inr ⟨?_, fun waits => ?_⟩)⟩
        · obtain ⟨sent, flushed⟩ := (harmless.resolve_left some_).resolve_left (by simp [closed])
          refine fewer.closeInternal (fun _ => (inv.handed_iff closed).mpr sent) (fun _ deferred => ?_)
          exact (inv.written_iff closed).mpr (flushed ((kept.deferral closed).symm.trans deferred))
        · exact (inv.handed_iff closed).mp (piped.complete (.inr rfl))
        · exact (inv.written_iff closed).mp (piped.flushed ((kept.deferral closed).trans waits) rfl)

/-- A session is a pipe throughout a run exactly if every step of the run is harmless. -/
theorem fifo_pipe_iff (bufferSendSize : Nat) (actions : List Action) :
    Safe (step bufferSendSize) Piped (· = .assertion) {} actions ↔ Throughout (step bufferSendSize) Harmless {} actions :=
  safe_iff (fun _ inv => Inv.piped inv) (fun _ a inv => (step_hinges inv a).keeps)
    (fun _ a inv => (step_hinges inv a).exposes) actions {} (inv_start bufferSendSize)

/-- A `Send` between the test of `Close` and its `CloseInternal` is accepted, and its data is never written. -/
theorem close_drops_data :
    ∃ s, run (step (32 * 1024)) {} [.close, .send [1], .closeNow, .asyncWriteInternal] = .ok s ∧
      s.posts = 0 ∧ s.inFlight = [] ∧ s.closed = true ∧ s.accepted = [1] ∧ s.handed = [] :=
  ⟨{ bufferQueue := [[1]], established := false, closed := true, accepted := [1] }, by decide, rfl, rfl, rfl, rfl, rfl⟩

end TcpSession

end TFCommon.Tcp.Writer
