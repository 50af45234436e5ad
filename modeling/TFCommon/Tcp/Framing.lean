import TFCommon.Lib.Frames
import TFCommon.Tcp.Reassembly

/-! However the stream of the messages is cut into buffers of at most 2^30 bytes, `TcpMessageReader` passes on the
messages in order and releases the buffers in order of arrival, unless a message is longer than 2^30 bytes. -/
namespace TFCommon.Tcp

def Proper (p : Protocol) : Prop :=
  ∀ bytes offset, 0 ≤ p.msgLength bytes offset →
    max (p.headerLenSize : Int) 1 ≤ p.msgLength bytes offset ∧ p.msgLength bytes offset ≤ p.maxMessageSize

/-- The bytes of a message: as many as its header announces. -/
def IsMessage (p : Protocol) (message : List UInt8) : Prop :=
  p.headerLenSize ≤ message.length ∧ p.msgLength message 0 = message.length

def bytesOf (buffers : List Buffer) : List UInt8 := (buffers.map Buffer.bytes).flatten

def position (buffers : List Buffer) (i : Nat) : Nat := (bytesOf (buffers.take i)).length

def received (events : List Event) : List (List UInt8) :=
  events.filterMap fun event => match event with
    | .received message => some message
    | .released _ => none

def released (events : List Event) : List Buffer :=
  events.filterMap fun event => match event with
    | .received _ => none
    | .released buffer => some buffer

section
variable (events events' : List Event) (messages : List (List UInt8)) (buffers : List Buffer)

@[simp] theorem received_append : received (events ++ events') = received events ++ received events' :=
  List.filterMap_append

@[simp] theorem released_append : released (events ++ events') = released events ++ released events' :=
  List.filterMap_append

@[simp] theorem received_messages : received (messages.map .received) = messages := by
  simp [received]

@[simp] theorem released_messages : released (messages.map .received) = [] := by
  simp [released]

@[simp] theorem received_buffers : received (buffers.map .released) = [] := by
  simp [received]

@[simp] theorem released_buffers : released (buffers.map .released) = buffers := by
  simp [released]

@[simp] theorem received_message (message : List UInt8) : received [.received message] = [message] := rfl

@[simp] theorem released_message (message : List UInt8) : released [.received message] = [] := rfl

@[simp] theorem received_buffer (buffer : Buffer) : received [.released buffer] = [] := rfl

@[simp] theorem released_buffer (buffer : Buffer) : released [.released buffer] = [buffer] := rfl

@[simp] theorem bytesOf_append (later : List Buffer) : bytesOf (buffers ++ later) = bytesOf buffers ++ bytesOf later := by
  simp [bytesOf]

@[simp] theorem bytesOf_singleton (buffer : Buffer) : bytesOf [buffer] = buffer.bytes := by
  simp [bytesOf]

end

/-! ### Positions of the stream -/

section
variable {buffers : List Buffer}

theorem position_le (buffers : List Buffer) (i : Nat) : position buffers i ≤ (bytesOf buffers).length := by
  have whole := congrArg (fun l => (bytesOf l).length) (List.take_append_drop i buffers)
  simp only [bytesOf_append, List.length_append] at whole
  rw [position]
  omega

theorem position_append_le {i : Nat} (inside : i ≤ buffers.length) (later : List Buffer) :
    position (buffers ++ later) i = position buffers i := by
  rw [position, List.take_append_of_le_length inside, position]

theorem position_append_ge (buffers : List Buffer) {i : Nat} (outside : buffers.length ≤ i) (later : List Buffer) :
    (bytesOf buffers).length ≤ position (buffers ++ later) i := by
  rw [position, List.take_append, List.take_of_length_le outside, bytesOf_append, List.length_append]
  omega

end

namespace TcpMessageReader

def framing (p : Protocol) (proper : Proper p) : Framing UInt8 where
  announced stream := if stream.length < p.headerLenSize then none else some (p.msgLength stream 0).toNat
  stable := by
    intro stream n more announced
    split at announced
    · cases announced
    · rename_i header
      have same := msgLength_append p stream more 0 (by rw [List.drop_zero]; omega)
      rw [List.drop_zero] at same
      rw [if_neg (by rw [List.length_append]; omega), ← same]
      exact announced
  positive := by
    intro stream n announced
    split at announced
    · cases announced
    · rename_i header
      have bounds := (proper stream 0 (msgLength_nonneg p (by omega))).1
      cases announced
      omega

section
variable {p : Protocol} {proper : Proper p} {r : TcpMessageReader} {buffer : Buffer} {stream : List UInt8} {length : Int}

theorem announced_of (header : p.headerLenSize ≤ stream.length) :
    (framing p proper).announced stream = some (p.msgLength stream 0).toNat := if_neg (by omega)

theorem announced_none (few : stream.length < p.headerLenSize) :
    (framing p proper).announced stream = none := if_pos few

theorem open_short (few : stream.length < p.headerLenSize) : (framing p proper).Open stream := by
  intro n announced
  rw [announced_none few] at announced
  cases announced

theorem open_long (header : p.headerLenSize ≤ stream.length)
    (incomplete : stream.length < p.msgLength stream 0) : (framing p proper).Open stream := by
  intro n announced
  rw [announced_of header] at announced
  cases announced
  omega

/-- `remain_` for the beginning of a message at the end of a buffer. -/
def outstanding (p : Protocol) (tail : List UInt8) : Int :=
  if tail = [] ∨ tail.length < p.headerLenSize then -1 else p.msgLength tail 0 - tail.length

theorem outstanding_short {tail : List UInt8} (few : tail = [] ∨ tail.length < p.headerLenSize) : outstanding p tail = -1 :=
  if_pos few

theorem unchanged (remain : r.remain = -1) {tail : List UInt8} (few : tail = [] ∨ tail.length < p.headerLenSize) :
    (⟨r.queue, r.offset + ([] : List (List UInt8)).flatten.length, outstanding p tail,
      r.events ++ ([] : List (List UInt8)).map .received⟩ : TcpMessageReader) = r := by
  rw [outstanding_short few, ← remain, List.map_nil, List.append_nil]
  rfl

theorem readMessages_cut (proper : Proper p) (accepts : ∀ message, p.callback message = true)
    (turns : Nat) {unread : List UInt8} (start : buffer.bytes.drop r.offset = unread) (remain : r.remain = -1) (enough : unread.length < turns) :
    ∃ messages tail, (framing p proper).Cut unread messages tail ∧
      readMessages p buffer turns r unread.length =
        .ok (⟨r.queue, r.offset + messages.flatten.length, outstanding p tail, r.events ++ messages.map .received⟩,
          .bytes tail.length) := by
  induction turns generalizing r unread with
  | zero => omega
  | succ turns ih =>
    rw [readMessages]
    by_cases done : unread = []
    · subst done
      refine ⟨[], [], Framing.cut_nil, ?_⟩
      rw [if_neg (by simp), unchanged remain (.inl rfl)]
    have some_ : 0 < unread.length := List.length_pos_iff.mpr done
    rw [if_pos (by omega)]
    by_cases few : unread.length < p.headerLenSize
    · refine ⟨[], unread, .rest (open_short few), ?_⟩
      rw [if_pos ((p.short _ _).mpr (by rw [start]; exact few)), unchanged remain (.inr few)]
    have header : p.headerLenSize ≤ unread.length := Nat.le_of_not_lt few
    have length := msgLength_append p buffer.bytes [] r.offset (by rw [start]; exact header)
    rw [start, List.append_nil] at length
    have natural := msgLength_nonneg p header
    rw [length, if_neg (by omega)]
    split
    · rename_i incomplete
      refine ⟨[], unread, .rest (open_long header incomplete), ?_⟩
      simp [setRemain, outstanding, done, few]
    · rename_i complete
      obtain ⟨n, size⟩ : ∃ n : Nat, p.msgLength unread 0 = n := ⟨_, (Int.toNat_of_nonneg natural).symm⟩
      have bounds := (proper unread 0 natural).1
      rw [size] at complete bounds ⊢
      rw [start, Int.toNat_natCast, if_pos (accepts _)]
      have rest : buffer.bytes.drop (r.advance (unread.take n) n).offset = unread.drop n := by
        rw [advance, ← start, List.drop_drop, Int.toNat_natCast]
      have left : (unread.length : Int) - n = ((unread.drop n).length : Nat) := by
        rw [List.length_drop]
        omega
      have first : unread.take n ++ unread.drop n = unread := List.take_append_drop n unread
      have width : (unread.take n).length = n := by
        rw [List.length_take]
        omega
      obtain ⟨messages, tail, cut, ran⟩ := ih rest remain (by
        omega)
      refine ⟨unread.take n :: messages, tail, ?_, ?_⟩
      · have whole : (framing p proper).Cut (unread.take n ++ unread.drop n) (unread.take n :: messages) tail :=
          .message (by rw [first, announced_of header, size, Int.toNat_natCast, width]) cut
        rwa [first] at whole
      · rw [left, ran, List.flatten_cons, List.length_append, width]
        simp [advance, Nat.add_assoc]

theorem readRest_cut (proper : Proper p) (accepts : ∀ message, p.callback message = true) (turns : Nat)
    {unread : List UInt8} (start : buffer.bytes.drop r.offset = unread) (inside : r.offset ≤ buffer.bytes.length) (queue : r.queue = [])
    (remain : r.remain = -1) (enough : unread.length < turns) :
    ∃ messages tail, (framing p proper).Cut unread messages tail ∧
      r.readRest p turns buffer =
        .ok (if tail = [] then ⟨[], 0, -1, r.events ++ messages.map .received ++ [.released buffer]⟩
          else ⟨[buffer], r.offset + messages.flatten.length, outstanding p tail, r.events ++ messages.map .received⟩) := by
  obtain ⟨messages, tail, cut, ran⟩ := readMessages_cut proper accepts turns start remain enough
  refine ⟨messages, tail, cut, ?_⟩
  have avail : buffer.size - r.offset = (unread.length : Int) := by
    rw [size_eq, ← start, List.length_drop]
    omega
  rw [readRest, avail, ran, queue]
  by_cases done : tail = []
  · subst done
    simp [bind, Except.bind, pure, Except.pure, release, outstanding, require]
  · simp [bind, Except.bind, pure, Except.pure, push, done]

structure Framed (p : Protocol) (proper : Proper p) (buffers : List Buffer) (r : TcpMessageReader) : Prop where
  held : Held p r
  idle : r.queue = [] → r.offset = 0
  cut : (framing p proper).Cut (bytesOf buffers) (received r.events) r.pending
  order : released r.events ++ r.queue = buffers
  small : ∀ message ∈ received r.events, message.length ≤ 2 ^ 30

/-- A message longer than 2^30 bytes, of which a part is queued, ends with the buffer. -/
def Overflows (p : Protocol) (r : TcpMessageReader) (buffer : Buffer) : Prop :=
  ∃ message tail, r.pending ++ buffer.bytes = message ++ tail ∧ p.headerLenSize ≤ (message ++ tail).length ∧
    p.msgLength (message ++ tail) 0 = message.length ∧ 0 < r.pending.length ∧ r.pending.length < message.length ∧
    2 ^ 30 < message.length

variable {buffers : List Buffer}

section
variable (framed : Framed p proper buffers r)
include framed

theorem Framed.flatten : (bytesOf buffers).length = (received r.events).flatten.length + r.pending.length := by
  rw [framed.cut.flatten, List.length_append]

theorem Framed.push {final : TcpMessageReader} (held : Held p final)
    (queue : final.queue = r.queue ++ [buffer]) (pending : final.pending = r.pending ++ buffer.bytes)
    (events : final.events = r.events) (opened : (framing p proper).Open (r.pending ++ buffer.bytes)) :
    Framed p proper (buffers ++ [buffer]) final where
  held := held
  idle := fun none_ => by simp [queue] at none_
  cut := by
    have next := framed.cut.append (.rest opened)
    rwa [List.append_nil, ← bytesOf_singleton, ← bytesOf_append, bytesOf_singleton, ← pending, ← events] at next
  order := by rw [events, queue, ← List.append_assoc, framed.order]
  small := by
    rw [events]
    exact framed.small

theorem Framed.incomplete (header : p.headerLenSize ≤ (r.pending ++ buffer.bytes).length) :
    r.pending.length < p.msgLength (r.pending ++ buffer.bytes) 0 := by
  have bounds := (proper _ _ (msgLength_nonneg p header)).1
  rcases Nat.lt_or_ge r.pending.length p.headerLenSize with few | known
  · omega
  · have same := msgLength_append p r.pending buffer.bytes 0 (by rw [List.drop_zero]; exact known)
    rw [List.drop_zero] at same
    have opened := framed.cut.tail_open _ (announced_of known)
    omega

theorem Framed.queue_empty (none_ : r.pending = []) : r.queue = [] := by
  cases queue : r.queue with
  | nil => rfl
  | cons front rest =>
    have inside := framed.held.unread front rest queue
    rw [pending_cons queue inside] at none_
    have length := congrArg List.length none_
    rw [List.length_append, List.length_drop, List.length_nil] at length
    omega

theorem Framed.offset_le : r.offset ≤ (r.queue.map Buffer.bytes).flatten.length := by
  cases queue : r.queue with
  | nil =>
    rw [framed.idle queue]
    exact Nat.zero_le _
  | cons front rest =>
    have unread := framed.held.unread front rest queue
    rw [List.map_cons, List.flatten_cons, List.length_append]
    omega

theorem Framed.reached : (received r.events).flatten.length = (bytesOf (released r.events)).length + r.offset := by
  have total := framed.flatten
  have inside := framed.offset_le
  rw [← framed.order, bytesOf_append, List.length_append, pending, List.length_drop, bytesOf] at total
  rw [bytesOf]
  rw [bytesOf] at total
  omega

/-- A buffer is released when all bytes up to its end are passed on. -/
theorem Framed.timely :
    ∃ n, released r.events = buffers.take n ∧
      ∀ j < buffers.length, j < n ↔ position buffers (j + 1) ≤ (received r.events).flatten.length := by
  have order := framed.order
  have reached := framed.reached
  refine ⟨(released r.events).length, by rw [← order, List.take_left], fun j inside => ?_⟩
  constructor
  · intro early
    have near := position_le (released r.events) (j + 1)
    rw [← order, position_append_le (by omega)]
    omega
  · intro passed
    by_contra late
    cases queue : r.queue with
    | nil =>
      rw [← order, queue, List.append_nil] at inside
      exact late inside
    | cons front rest =>
      have unread := framed.held.unread front rest queue
      have far := position_append_ge (released r.events ++ [front]) (i := j + 1) (by simp; omega) rest
      rw [bytesOf_append, bytesOf_singleton, List.length_append, List.append_assoc, List.singleton_append, ← queue,
        order] at far
      omega

end

theorem allocBufferSize_of (natural : 0 ≤ length) (legal : length ≤ p.maxMessageSize)
    (small : length ≤ 2 ^ 30) : ∃ capacity, allocBufferSize p.maxMessageSize length = .ok capacity ∧ length ≤ capacity :=
  (allocBufferSize_fits_iff natural).mpr ⟨small, fun _ _ below => Int.lt_of_lt_of_le below legal⟩

theorem reassemble_overflow (p : Protocol) (buffer : Buffer) (natural : 0 ≤ length) (large : 2 ^ 30 < length) :
    ∃ fault, r.reassemble p buffer length = .error fault := by
  cases done : r.reassemble p buffer length with
  | error fault => exact ⟨fault, rfl⟩
  | ok result =>
    have small := ((allocBufferSize_fits_iff natural).mp (reassemble_ok done)).1
    omega

section
variable (accepts : ∀ message, p.callback message = true)
include accepts

theorem readRest_framed (turns : Nat) (unread : List UInt8)
    (start : buffer.bytes.drop r.offset = unread) (inside : r.offset ≤ buffer.bytes.length) (queue : r.queue = [])
    (remain : r.remain = -1) (enough : buffer.bytes.length < turns)
    (continued : ∀ messages tail, (framing p proper).Cut unread messages tail →
      (framing p proper).Cut (bytesOf (buffers ++ [buffer])) (received r.events ++ messages) tail)
    (order : released r.events = buffers) (small : ∀ message ∈ received r.events, message.length ≤ 2 ^ 30)
    (bounded : buffer.bytes.length ≤ 2 ^ 30) :
    ∃ final, r.readRest p turns buffer = .ok final ∧ Framed p proper (buffers ++ [buffer]) final := by
  have few : unread.length ≤ buffer.bytes.length := by
    rw [← start, List.length_drop]
    omega
  obtain ⟨messages, tail, cut, ran⟩ := readRest_cut proper accepts turns start inside queue remain (by omega)
  have whole := continued messages tail cut
  have small' : ∀ message ∈ received r.events ++ messages, message.length ≤ 2 ^ 30 := by
    intro message mem
    rcases List.mem_append.mp mem with before | now
    · exact small message before
    · have part := (List.sublist_flatten_of_mem now).length_le
      have sizes := congrArg List.length cut.flatten
      rw [List.length_append] at sizes
      omega
  have held := readRest_held queue remain ran
  refine ⟨_, ran, ?_⟩
  by_cases done : tail = []
  · subst done
    exact ⟨held, fun _ => rfl, by simpa [pending] using whole, by simp [order], by simpa using small'⟩
  · have unreadTail : buffer.bytes.drop (r.offset + messages.flatten.length) = tail := by
      rw [← List.drop_drop, start, cut.flatten, List.drop_left]
    rw [if_neg done] at held ⊢
    refine ⟨held, fun none_ => absurd none_ (List.cons_ne_nil _ _), ?_, by simp [order], by simpa using small'⟩
    rw [pending, List.map_singleton, List.flatten_singleton, unreadTail]
    simpa using whole

theorem onRead_complete (framed : Framed p proper buffers r)
    {turns : Nat} {front : Buffer} {rest : List Buffer} (queue : r.queue = front :: rest)
    (enough : buffer.bytes.length < turns) (header : p.headerLenSize ≤ (r.pending ++ buffer.bytes).length)
    (announced : length = p.msgLength (r.pending ++ buffer.bytes) 0)
    (complete : length ≤ (r.pending ++ buffer.bytes).length) (small : length ≤ 2 ^ 30)
    (bounded : buffer.bytes.length ≤ 2 ^ 30) :
    ∃ final, (r.setRemain (length - r.pending.length)).reassemble p buffer length >>= finish p turns buffer = .ok final ∧
      Framed p proper (buffers ++ [buffer]) final := by
  have inside := framed.held.unread front rest queue
  have natural := msgLength_nonneg p header
  have incomplete := framed.incomplete header
  have legal := (proper _ _ natural).2
  rw [← announced] at natural incomplete legal
  obtain ⟨n, rfl⟩ : ∃ n : Nat, length = n := ⟨_, (Int.toNat_of_nonneg natural).symm⟩
  obtain ⟨capacity, alloc, fits⟩ := allocBufferSize_of natural legal small
  rw [List.length_append] at complete
  have taken : (r.pending ++ buffer.bytes).take n = r.pending ++ buffer.bytes.take (n - r.pending.length) := by
    rw [List.take_append, List.take_of_length_le (by omega)]
  have width : ((r.pending ++ buffer.bytes).take n).length = n := by
    rw [List.length_take, List.length_append]
    omega
  have split : (r.pending ++ buffer.bytes).take n ++ buffer.bytes.drop (n - r.pending.length) = r.pending ++ buffer.bytes := by
    rw [taken, List.append_assoc, List.take_append_drop]
  have known : (framing p proper).announced (r.pending ++ buffer.bytes) = some n := by
    rw [announced_of header, ← announced, Int.toNat_natCast]
  rw [reassemble_of _ queue inside alloc fits incomplete (by rw [List.length_append]; exact complete)]
  simp only [bind, Except.bind, finish, accepts, Int.toNat_natCast]
  refine readRest_framed accepts turns (buffer.bytes.drop (n - r.pending.length)) rfl ?_ rfl rfl enough ?_ ?_ ?_ bounded
  · simp only [receive]
    omega
  · intro messages tail next
    have whole : (framing p proper).Cut ((r.pending ++ buffer.bytes).take n ++ buffer.bytes.drop (n - r.pending.length))
        ((r.pending ++ buffer.bytes).take n :: messages) tail := .message (by rw [split, known, width]) next
    rw [split] at whole
    simpa [receive] using framed.cut.append whole
  · simpa [receive] using framed.order
  · intro message mem
    simp only [receive, received_append, received_buffers, received_message, List.append_nil, List.mem_append,
      List.mem_singleton] at mem
    rcases mem with before | rfl
    · exact framed.small message before
    · omega

theorem onRead_framed (framed : Framed p proper buffers r)
    (turns : Nat) (enough : buffer.bytes.length < turns) (bounded : buffer.bytes.length ≤ 2 ^ 30) :
    (∃ final, r.onRead p turns buffer = .ok final ∧ Framed p proper (buffers ++ [buffer]) final) ∨
      (∃ fault, r.onRead p turns buffer = .error fault) ∧ Overflows p r buffer := by
  cases queue : r.queue with
  | nil =>
    have same : r.onRead p turns buffer = r.readRest p turns buffer := by simp only [onRead, queue]
    have cut := framed.cut
    rw [pending_nil queue] at cut
    rw [same]
    left
    refine readRest_framed accepts turns buffer.bytes (by rw [framed.idle queue, List.drop_zero])
      (by rw [framed.idle queue]; exact Nat.zero_le _) queue (framed.held.idle queue) enough ?_ ?_ framed.small bounded
    · intro messages tail next
      rw [bytesOf_append, bytesOf_singleton]
      exact cut.append next
    · simpa [queue] using framed.order
  | cons front rest =>
    have inside := framed.held.unread front rest queue
    have length := framed.offset_le
    have ran := onRead_queued turns buffer framed.held queue rfl
    by_cases few : (r.pending ++ buffer.bytes).length < p.headerLenSize
    · rw [if_pos few] at ran
      exact .inl ⟨_, ran, framed.push (onRead_held framed.held ran) rfl (pending_push length) rfl (open_short few)⟩
    have header := Nat.le_of_not_lt few
    have natural := msgLength_nonneg p header
    have incomplete := framed.incomplete header
    rw [if_neg few, if_neg (by omega)] at ran
    by_cases open_ : (r.pending ++ buffer.bytes).length < p.msgLength (r.pending ++ buffer.bytes) 0
    · rw [if_pos open_] at ran
      exact .inl ⟨_, ran, framed.push (onRead_held framed.held ran) rfl (pending_push length) rfl (open_long header open_)⟩
    rw [if_neg open_] at ran
    rw [ran]
    by_cases small : p.msgLength (r.pending ++ buffer.bytes) 0 ≤ 2 ^ 30
    · exact .inl (onRead_complete accepts framed queue enough header rfl (by omega) small bounded)
    · obtain ⟨fault, failed⟩ := reassemble_overflow p buffer
        natural (by omega)
      refine .inr ⟨⟨fault, by rw [failed]; rfl⟩, ?_⟩
      have split := List.take_append_drop (p.msgLength (r.pending ++ buffer.bytes) 0).toNat (r.pending ++ buffer.bytes)
      have width : ((r.pending ++ buffer.bytes).take (p.msgLength (r.pending ++ buffer.bytes) 0).toNat).length =
          (p.msgLength (r.pending ++ buffer.bytes) 0).toNat := by
        rw [List.length_take]
        omega
      have some_ : 0 < r.pending.length := by
        rw [pending_cons queue inside, List.length_append, List.length_drop]
        omega
      refine ⟨_, _, split.symm, ?_, ?_, some_, ?_, ?_⟩
      · rw [split]
        exact header
      · rw [split]
        omega
      · omega
      · omega

theorem run_framed (proper : Proper p) (turns : Nat)
    (later : List Buffer) (framed : Framed p proper buffers r) (enough : ∀ b ∈ later, b.bytes.length < turns)
    (bounded : ∀ b ∈ later, b.bytes.length ≤ 2 ^ 30) :
    (∃ final, run (onRead p turns) r later = .ok final ∧ Framed p proper (buffers ++ later) final) ∨
      (∃ fault, run (onRead p turns) r later = .error fault) ∧
        ∃ done buffer rest last, later = done ++ buffer :: rest ∧ Framed p proper (buffers ++ done) last ∧
          Overflows p last buffer := by
  induction later generalizing buffers r with
  | nil => exact .inl ⟨r, rfl, by rwa [List.append_nil]⟩
  | cons buffer later ih =>
    rcases onRead_framed accepts framed turns (enough buffer List.mem_cons_self) (bounded buffer List.mem_cons_self) with
      ⟨next, ok, kept⟩ | ⟨⟨fault, failed⟩, overflows⟩
    · have same : run (onRead p turns) r (buffer :: later) = run (onRead p turns) next later := by
        simp only [run, ok]
        rfl
      rw [same]
      rcases ih kept (fun b inside => enough b (List.mem_cons_of_mem buffer inside))
          (fun b inside => bounded b (List.mem_cons_of_mem buffer inside)) with
        ⟨final, ran, last⟩ | ⟨failed, done, long, rest, last, whole, kept', overflows⟩
      · exact .inl ⟨final, ran, by rwa [List.append_assoc] at last⟩
      · refine .inr ⟨failed, buffer :: done, long, rest, last, by rw [whole, List.cons_append], ?_, overflows⟩
        rwa [List.append_assoc] at kept'
    · refine .inr ⟨⟨fault, ?_⟩, [], buffer, later, r, rfl, by rwa [List.append_nil], overflows⟩
      simp only [run, failed]
      rfl

end

theorem framed_start : Framed p proper [] {} where
  held := held_of_idle rfl rfl
  idle := fun _ => rfl
  cut := Framing.cut_nil
  order := rfl
  small := fun _ none_ => absurd none_ List.not_mem_nil

theorem Overflows.too_long {done rest : List Buffer} {messages : List (List UInt8)}
    (overflows : Overflows p r buffer) (framed : Framed p proper done r)
    (stream : (framing p proper).Cut (bytesOf (done ++ buffer :: rest)) messages []) :
    ∃ message ∈ messages, 2 ^ 30 < message.length := by
  obtain ⟨message, tail, whole, header, announced, some_, part, long⟩ := overflows
  have natural := msgLength_nonneg p header
  have bounds := (proper _ _ natural).1
  -- the part of the buffer that belongs to the message
  obtain ⟨last, rfl⟩ : ∃ last, message = r.pending ++ last := by
    have start : r.pending <+: message ++ tail := ⟨buffer.bytes, whole⟩
    obtain ⟨last, same⟩ := List.prefix_of_prefix_length_le start (List.prefix_append message tail) (Nat.le_of_lt part)
    exact ⟨last, same.symm⟩
  have bytes : buffer.bytes = last ++ tail := by
    rw [List.append_assoc] at whole
    exact List.append_cancel_left whole
  have length : p.msgLength (r.pending ++ last) 0 = (r.pending ++ last).length := by
    have same := msgLength_append p (r.pending ++ last) tail 0 (by rw [List.drop_zero]; omega)
    rw [same, List.drop_zero, announced]
  have alone : (framing p proper).Cut (r.pending ++ last) [r.pending ++ last] [] := by
    have cut := Framing.cut_flatten (f := framing p proper) [r.pending ++ last] (by
      intro m inside
      rw [List.mem_singleton.mp inside, announced_of (by omega), length, Int.toNat_natCast])
    rwa [List.flatten_singleton] at cut
  have arrived : bytesOf (done ++ buffer :: rest) = bytesOf done ++ last ++ (tail ++ bytesOf rest) := by
    rw [bytesOf_append, ← List.singleton_append, bytesOf_append, bytesOf_singleton, bytes]
    simp
  rw [arrived] at stream
  obtain ⟨others, rfl⟩ := (framed.cut.append alone).take stream
  exact ⟨r.pending ++ last, by simp, long⟩

theorem Framed.queue_small (framed : Framed p proper buffers r) {more : List UInt8} {messages : List (List UInt8)}
    (whole : ∀ message ∈ messages, (framing p proper).announced message = some message.length)
    (stream : bytesOf buffers ++ more = messages.flatten) (small : ∀ message ∈ messages, message.length ≤ 2 ^ 30) :
    r.queueByteLength < 2 ^ 30 := by
  cases queue : r.queue with
  | nil =>
    rw [queueByteLength, queue]
    exact (by decide : (0 : Int) < 2 ^ 30)
  | cons front rest =>
    have inside := framed.held.unread front rest queue
    rw [queueByteLength_eq queue inside]
    rcases framed.cut.tail_within whole stream with none_ | ⟨message, mem, part⟩
    · rw [none_]
      decide
    · have short := small message mem
      omega

theorem bytes_le {buffers : List Buffer} {b : Buffer} (inside : b ∈ buffers) :
    b.bytes.length ≤ (bytesOf buffers).length := by
  obtain ⟨before, after, rfl⟩ := List.append_of_mem inside
  rw [bytesOf_append, ← List.singleton_append, bytesOf_append, bytesOf_singleton]
  simp only [List.length_append]
  omega

end

/-- The callback receives exactly the messages, in order; each buffer is released once, in order of arrival, and at
every moment the released buffers are those whose bytes, with all before them, have been passed on. What is queued and a
buffer that arrives are together shorter than 2^31 bytes, as the `int` of their sum needs. For buffers of at most 2^30
bytes this holds exactly when no message is longer than 2^30 bytes. -/
theorem framing_iff (p : Protocol) (proper : Proper p) (accepts : ∀ message, p.callback message = true)
    (messages : List (List UInt8)) (whole : ∀ message ∈ messages, IsMessage p message) (buffers : List Buffer)
    (segmentation : bytesOf buffers = messages.flatten) (bounded : ∀ b ∈ buffers, b.bytes.length ≤ 2 ^ 30) :
    (∃ enough, ∀ turns, enough ≤ turns →
      (∃ r, readAll p turns buffers = .ok r ∧ received r.events = messages ∧ released r.events = buffers) ∧
      ∀ arrived, arrived <+: buffers → ∃ r n, readAll p turns arrived = .ok r ∧ released r.events = arrived.take n ∧
        (∀ j < arrived.length, j < n ↔ position arrived (j + 1) ≤ (received r.events).flatten.length) ∧
        r.queueByteLength < 2 ^ 30) ↔
      ∀ message ∈ messages, message.length ≤ 2 ^ 30 := by
  have known : ∀ message ∈ messages, (framing p proper).announced message = some message.length := by
    intro message inside
    obtain ⟨header, length⟩ := whole message inside
    rw [announced_of header, length, Int.toNat_natCast]
  have stream : (framing p proper).Cut (bytesOf buffers) messages [] := by
    rw [segmentation]
    exact Framing.cut_flatten messages known
  constructor
  · rintro ⟨enough, reads⟩
    obtain ⟨⟨r, ran, all, _⟩, _⟩ := reads (max enough ((bytesOf buffers).length + 1)) (Nat.le_max_left _ _)
    rcases run_framed accepts proper (max enough ((bytesOf buffers).length + 1)) buffers framed_start
      (fun b inside => by have few := bytes_le inside; omega) bounded with ⟨final, ran', framed⟩ | ⟨⟨fault, failed⟩, _⟩
    · cases ran.symm.trans ran'
      rw [← all]
      exact framed.small
    · cases ran.symm.trans failed
  · intro small
    refine ⟨(bytesOf buffers).length + 1, fun turns enough => ?_⟩
    have reads : ∀ arrived, arrived <+: buffers →
        ∃ r, readAll p turns arrived = .ok r ∧ Framed p proper arrived r := by
      rintro arrived ⟨more, rfl⟩
      have few : ∀ b ∈ arrived, b.bytes.length < turns := fun b inside => by
        have small := bytes_le (List.mem_append_left more inside)
        omega
      rcases run_framed accepts proper turns arrived framed_start few
          (fun b inside => bounded b (List.mem_append_left more inside)) with
        ⟨final, ran, framed⟩ | ⟨_, done, buffer, rest, last, rfl, framed, overflows⟩
      · exact ⟨final, ran, framed⟩
      · rw [List.append_assoc] at stream
        obtain ⟨message, mem, long⟩ := overflows.too_long framed stream
        exact absurd (small message mem) (by omega)
    refine ⟨?_, fun arrived first => ?_⟩
    · obtain ⟨r, ran, framed⟩ := reads buffers (List.prefix_refl _)
      obtain ⟨all, none_⟩ := framed.cut.unique stream
      have order := framed.order
      rw [framed.queue_empty none_, List.append_nil] at order
      exact ⟨r, ran, all, order⟩
    · obtain ⟨r, ran, framed⟩ := reads arrived first
      obtain ⟨n, taken, timely⟩ := framed.timely
      obtain ⟨more, rfl⟩ := first
      rw [bytesOf_append] at segmentation
      exact ⟨r, n, ran, taken, timely, framed.queue_small known segmentation small⟩

/-- A protocol with a header of one byte and messages of one length. -/
def fixedLength (length : Nat) (maxMessageSize : Int) : Protocol where
  headerLenSize := 1
  maxMessageSize := maxMessageSize
  msgLength bytes offset := if (bytes.drop offset).length < 1 then -1 else length
  callback _ := true
  short bytes offset := by split <;> omega
  headerOnly bytes offset bytes' offset' enough same := by
    have lengths := congrArg List.length same
    rw [List.length_take, List.length_take] at lengths
    rw [if_neg (by omega), if_neg (by omega)]

theorem fixedLength_proper {length : Nat} {maxMessageSize : Int} (positive : 0 < length) (legal : length ≤ maxMessageSize) :
    Proper (fixedLength length maxMessageSize) := by
  intro bytes offset natural
  simp only [fixedLength] at natural ⊢
  split at natural
  · exact absurd natural (by decide)
  · omega

theorem fixedLength_announced (length : Nat) (maxMessageSize : Int) (byte : UInt8) (bytes : List UInt8) :
    (fixedLength length maxMessageSize).msgLength (byte :: bytes) 0 = length := by
  simp [fixedLength]

theorem readAll_fault {n : Nat} {maxMessageSize : Int} {fault : Fault} {byte : UInt8} {rest : List UInt8}
    (length : rest.length = n) (positive : 0 < n) (alloc : allocBufferSize maxMessageSize (n + 1 : Nat) = .error fault) :
    readAll (fixedLength (n + 1) maxMessageSize) 10 [⟨0, [byte]⟩, ⟨1, rest⟩] = .error fault := by
  have first : onRead (fixedLength (n + 1) maxMessageSize) 10 {} ⟨0, [byte]⟩ = .ok ⟨[⟨0, [byte]⟩], 0, n, []⟩ := by
    have long : ¬ (n : Int) + 1 < 0 := by omega
    simp [onRead, readRest, readMessages, fixedLength, bind, Except.bind, pure, Except.pure, push, setRemain, positive, long]
  have second := onRead_queued 10 ⟨1, rest⟩ (onRead_held (held_of_idle rfl rfl) first) rfl
    (fixedLength_announced (n + 1) maxMessageSize byte ([] ++ rest)).symm
  rw [pending, if_neg (by simp [fixedLength]), if_neg (by simp; omega), if_neg (by simp [length])] at second
  simp only [readAll, run, first, bind, Except.bind] at second ⊢
  rw [second]
  simp only [reassemble, fixedLength, alloc, bind, Except.bind]

/-- The second buffer of a message of 2^30 + 1 bytes makes `AllocBufferSize` shift 2^30 to the left. -/
theorem long_message_overflows :
    Proper (fixedLength (2 ^ 30 + 1) (2 ^ 31 - 1)) ∧
      IsMessage (fixedLength (2 ^ 30 + 1) (2 ^ 31 - 1)) (List.replicate (2 ^ 30 + 1) 0) ∧
      bytesOf [⟨0, [0]⟩, ⟨1, List.replicate (2 ^ 30) 0⟩] = [List.replicate (2 ^ 30 + 1) 0].flatten ∧
      readAll (fixedLength (2 ^ 30 + 1) (2 ^ 31 - 1)) 10 [⟨0, [0]⟩, ⟨1, List.replicate (2 ^ 30) 0⟩] = .error .overflow := by
  refine ⟨fixedLength_proper (by decide) (by decide), ⟨?_, ?_⟩, ?_, readAll_fault List.length_replicate (by decide) (by decide +kernel)⟩
  · rw [List.length_replicate]
    exact Nat.le_add_left _ _
  · rw [List.length_replicate, List.replicate_succ, fixedLength_announced]
  · rw [List.flatten_singleton]
    exact (bytesOf_append [⟨0, [0]⟩] [⟨1, List.replicate (2 ^ 30) 0⟩]).trans (by rw [bytesOf_singleton, bytesOf_singleton]; rfl)

/-- Two messages in four buffers. -/
theorem framing_two_messages :
    ∃ enough, ∀ turns, enough ≤ turns →
      ∃ r, readAll (fixedLength 3 100) turns [⟨0, [1]⟩, ⟨1, []⟩, ⟨2, [2, 3, 4]⟩, ⟨3, [5, 6]⟩] = .ok r ∧
        received r.events = [[1, 2, 3], [4, 5, 6]] ∧
        released r.events = [⟨0, [1]⟩, ⟨1, []⟩, ⟨2, [2, 3, 4]⟩, ⟨3, [5, 6]⟩] := by
  have whole : ∀ message ∈ ([[1, 2, 3], [4, 5, 6]] : List (List UInt8)), IsMessage (fixedLength 3 100) message := by
    intro message inside
    simp only [List.mem_cons, List.not_mem_nil, or_false] at inside
    rcases inside with rfl | rfl <;> exact ⟨by decide, by decide⟩
  obtain ⟨enough, reads⟩ := (framing_iff (fixedLength 3 100) (fixedLength_proper (by decide) (by decide)) (fun _ => rfl)
    [[1, 2, 3], [4, 5, 6]] whole [⟨0, [1]⟩, ⟨1, []⟩, ⟨2, [2, 3, 4]⟩, ⟨3, [5, 6]⟩] (by decide) (by decide)).mpr (by decide)
  exact ⟨enough, fun turns many => (reads turns many).1⟩

end TcpMessageReader

end TFCommon.Tcp
