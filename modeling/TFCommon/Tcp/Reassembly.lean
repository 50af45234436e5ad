import TFCommon.Tcp.Reader
import Mathlib.Tactic.Ring
import Mathlib.Tactic.NormNum

/-! What each part of `OnRead` does with the bytes of the queue, and when the buffer it allocates for a message that
arrived in pieces is large enough. -/
namespace TFCommon.Tcp

section
variable {condition : Prop} [Decidable condition] {capacity count : Int} {data source result : List UInt8}

theorem require_of (holds : condition) : require condition = .ok () := if_pos holds

theorem require_ok {u : Unit} (passed : require condition = .ok u) : condition := by
  unfold require at passed
  split at passed
  · assumption
  · cases passed

theorem memcpy_of (natural : 0 ≤ count) (inside : count ≤ source.length) (room : data.length + count ≤ capacity) :
    memcpy capacity data source count = .ok (data ++ source.take count.toNat) := by
  rw [memcpy, if_neg (by omega), if_neg (by omega)]

theorem memcpy_ok (copied : memcpy capacity data source count = .ok result) : data.length + count ≤ capacity := by
  unfold memcpy at copied
  split at copied
  · cases copied
  · split at copied
    · cases copied
    · omega

end

section
variable {kMaxMessageSize length : Int}

theorem grow_fits_iff (shifts : Nat) (few : shifts ≤ 31) (far : shifts = 0 → (2 : Int) ^ 30 < length) :
    (∃ capacity, grow kMaxMessageSize length shifts (2 ^ (31 - shifts)) = .ok capacity ∧ length ≤ capacity) ↔
      length ≤ 2 ^ 30 ∧ ∀ j, 31 - shifts ≤ j → (2 : Int) ^ j < length → (2 : Int) ^ j < kMaxMessageSize := by
  induction shifts with
  | zero =>
    constructor
    · rintro ⟨capacity, grown, _⟩
      cases grown
    · intro short
      exact absurd short.1 (by omega)
  | succ shifts ih =>
    unfold grow
    split
    · rename_i more
      have next : (2 : Int) ^ (31 - (shifts + 1)) * 2 = 2 ^ (31 - shifts) := by
        rw [← pow_succ]
        congr 1
        omega
      rw [next, ih (by omega) (by rintro rfl; simpa using more.2)]
      refine and_congr_right fun _ => ⟨fun above j from_ small => ?_, fun above j from_ => above j (by omega)⟩
      rcases Nat.eq_or_lt_of_le from_ with rfl | later
      · exact more.1
      · exact above j (by omega) small
    · rename_i stop
      constructor
      · rintro ⟨capacity, grown, enough⟩
        cases grown
        refine ⟨enough.trans (pow_le_pow_right₀ (by decide) (by omega)), fun j from_ small => ?_⟩
        have larger : (2 : Int) ^ (31 - (shifts + 1)) ≤ 2 ^ j := pow_le_pow_right₀ (by decide) from_
        omega
      · rintro ⟨_, above⟩
        refine ⟨_, rfl, ?_⟩
        by_contra short
        exact stop ⟨above _ (Nat.le_refl _) (by omega), by omega⟩

/-- `AllocBufferSize` gives at least the length exactly when no power of two from 256 on separates the length from
the maximum, and the length is at most 2^30. -/
theorem allocBufferSize_fits_iff (natural : 0 ≤ length) :
    (∃ capacity, allocBufferSize kMaxMessageSize length = .ok capacity ∧ length ≤ capacity) ↔
      length ≤ 2 ^ 30 ∧ ∀ j, 8 ≤ j → (2 : Int) ^ j < length → (2 : Int) ^ j < kMaxMessageSize := by
  rw [allocBufferSize, if_neg (by omega)]
  exact grow_fits_iff 23 (by decide) nofun

end

namespace TcpMessageReader
variable {p : Protocol} {r : TcpMessageReader} {front buffer : Buffer} {rest : List Buffer} {data : List UInt8}
  {capacity msglength : Int}

@[simp] theorem size_eq : buffer.size = buffer.bytes.length := rfl

def pending (r : TcpMessageReader) : List UInt8 := (r.queue.map Buffer.bytes).flatten.drop r.offset

@[simp] theorem setRemain_queue (remain : Int) : (r.setRemain remain).queue = r.queue := rfl

@[simp] theorem setRemain_remain (remain : Int) : (r.setRemain remain).remain = remain := rfl

@[simp] theorem setRemain_pending (remain : Int) : (r.setRemain remain).pending = r.pending := rfl

theorem pending_nil (queue : r.queue = []) : r.pending = [] := by
  simp [pending, queue]

theorem pending_cons (queue : r.queue = front :: rest) (inside : r.offset < front.bytes.length) :
    r.pending = front.bytes.drop r.offset ++ (rest.map Buffer.bytes).flatten := by
  rw [pending, queue, List.map_cons, List.flatten_cons, List.drop_append_of_le_length (Nat.le_of_lt inside)]

theorem pending_push (inside : r.offset ≤ (r.queue.map Buffer.bytes).flatten.length) :
    (r.push buffer).pending = r.pending ++ buffer.bytes := by
  simp only [pending, push, List.map_append, List.flatten_append, List.map_cons, List.map_nil, List.flatten_cons,
    List.flatten_nil, List.append_nil]
  exact List.drop_append_of_le_length inside

/-! ### The copies -/

theorem concatQueue_cons (inside : r.offset ≤ front.bytes.length)
    (room : data.length + (front.bytes.drop r.offset).length < msglength) (fits : msglength ≤ capacity) :
    concatQueue capacity msglength (front :: rest) r data =
      concatQueue capacity msglength rest (r.pop front rest) (data ++ front.bytes.drop r.offset) := by
  rw [List.length_drop] at room
  have copy : memcpy capacity data (front.bytes.drop r.offset) (front.size - r.offset) =
      .ok (data ++ front.bytes.drop r.offset) := by
    rw [memcpy_of (by simp; omega) (by simp; omega) (by simp; omega), List.take_of_length_le (by simp)]
  rw [concatQueue, require_of (by simp; omega)]
  simp only [copy]
  rfl

theorem concatQueue_rest (events : List Event) (fits : msglength ≤ capacity)
    (room : data.length + (rest.map Buffer.bytes).flatten.length < msglength) :
    concatQueue capacity msglength rest ⟨rest, 0, -1, events⟩ data =
      .ok (⟨[], 0, -1, events ++ rest.map .released⟩, data ++ (rest.map Buffer.bytes).flatten) := by
  induction rest generalizing events data with
  | nil => simp [concatQueue]
  | cons head rest ih =>
    simp only [List.map_cons, List.flatten_cons, List.length_append] at room
    rw [concatQueue_cons (Nat.zero_le _) (by simp; omega) fits, pop,
      ih _ (by simp only [List.length_append, List.drop_zero]; omega)]
    simp

theorem bufferConcat_of (queue : r.queue = front :: rest) (inside : r.offset < front.bytes.length)
    (fits : msglength ≤ capacity) (incomplete : r.pending.length < msglength)
    (complete : msglength ≤ (r.pending ++ buffer.bytes).length) :
    r.bufferConcat capacity buffer msglength =
      .ok (⟨[], msglength.toNat - r.pending.length, -1, r.events ++ r.queue.map .released⟩,
        (r.pending ++ buffer.bytes).take msglength.toNat) := by
  have whole := pending_cons queue inside
  have sizes : r.pending.length = (front.bytes.drop r.offset).length + (rest.map Buffer.bytes).flatten.length := by
    rw [whole, List.length_append]
  rw [List.length_append] at complete
  have copied : concatQueue capacity msglength r.queue r [] =
      .ok (⟨[], 0, -1, r.events ++ r.queue.map .released⟩, r.pending) := by
    rw [queue, concatQueue_cons (Nat.le_of_lt inside) (by simp only [List.length_nil]; omega) fits, pop,
      concatQueue_rest _ fits (by simp only [List.nil_append]; omega), whole]
    simp
  have last : memcpy capacity r.pending buffer.bytes (msglength - r.pending.length) =
      .ok (r.pending ++ buffer.bytes.take (msglength - r.pending.length).toNat) :=
    memcpy_of (by omega) (by omega) (by omega)
  have amount : (msglength - r.pending.length).toNat = msglength.toNat - r.pending.length := by omega
  have taken : (r.pending ++ buffer.bytes).take msglength.toNat =
      r.pending ++ buffer.bytes.take (msglength.toNat - r.pending.length) := by
    rw [List.take_append, List.take_of_length_le (by omega)]
  rw [bufferConcat, copied]
  simp only [bind, Except.bind]
  rw [require_of (by omega)]
  simp only [last, amount, taken]
  rfl

theorem bufferConcat_ok {result : TcpMessageReader × List UInt8}
    (copied : r.bufferConcat capacity buffer msglength = .ok result) : msglength ≤ capacity := by
  obtain ⟨⟨r', data⟩, _, copied⟩ := bind_ok copied
  obtain ⟨_, _, copied⟩ := bind_ok copied
  obtain ⟨data', last, _⟩ := bind_ok copied
  have room := memcpy_ok last
  omega

/-! ### The header -/

theorem foldl_size (queue : List Buffer) (offset total : Int) (some_ : 0 < total) :
    queue.foldl (fun (total : Int) buffer => if total = 0 then buffer.size - offset else total + buffer.size) total =
      total + (queue.map Buffer.bytes).flatten.length := by
  induction queue generalizing total with
  | nil => simp
  | cons head rest ih =>
    rw [List.foldl_cons, if_neg (by omega), ih _ (by simp; omega)]
    simp
    ring

theorem queueByteLength_eq (queue : r.queue = front :: rest) (inside : r.offset < front.bytes.length) :
    r.queueByteLength = r.pending.length := by
  rw [queueByteLength, queue, List.foldl_cons, if_pos rfl, foldl_size _ _ _ (by simp; omega), pending_cons queue inside,
    List.length_append, List.length_drop, size_eq]
  push_cast [Nat.le_of_lt inside]
  ring

theorem pullUpFrom_eq (size : Nat) (taken source : List UInt8) :
    pullUpFrom size (taken.take size) source = .ok ((taken ++ source).take size) := by
  have known : (taken.take size).length = min size taken.length := List.length_take
  have copy : memcpy size (taken.take size) source (min (source.length : Int) (size - (taken.take size).length)) =
      .ok (taken.take size ++ source.take (min source.length (size - (taken.take size).length))) := by
    rw [memcpy_of (by omega) (by omega) (by omega)]
    congr 3
    omega
  rw [pullUpFrom, require_of (by omega)]
  simp only [bind, Except.bind, copy]
  have same : source.take (min source.length (size - min size taken.length)) = source.take (size - taken.length) := by
    rw [List.take_eq_take_iff]
    omega
  rw [List.take_append, known, same]

theorem pullUpQueue_eq (size : Nat) (queue : List Buffer) (taken : List UInt8) (some_ : 0 < (taken.take size).length) :
    r.pullUpQueue size queue (taken.take size) = .ok ((taken ++ (queue.map Buffer.bytes).flatten).take size) := by
  induction queue generalizing taken with
  | nil => simp [pullUpQueue]
  | cons buffer rest ih =>
    have more : 0 < ((taken ++ buffer.bytes).take size).length := by
      simp only [List.length_take, List.length_append] at some_ ⊢
      omega
    rw [pullUpQueue, if_neg (by omega), pullUpFrom_eq]
    simp only [bind, Except.bind]
    rw [ih _ more, List.append_assoc, List.map_cons, List.flatten_cons]

theorem pullUp_eq {size : Nat} (queue : r.queue = front :: rest) (inside : r.offset < front.bytes.length)
    (positive : 0 < size) (enough : size ≤ (r.pending ++ buffer.bytes).length) :
    r.pullUp buffer size = .ok ((r.pending ++ buffer.bytes).take size) := by
  have first := pullUpFrom_eq size [] (front.bytes.drop r.offset)
  rw [List.take_nil] at first
  have some_ : 0 < ((front.bytes.drop r.offset).take size).length := by
    simp only [List.length_take, List.length_drop]
    omega
  have gathered : r.pullUpQueue size r.queue [] = .ok (r.pending.take size) := by
    rw [queue, pullUpQueue, if_pos List.length_nil, first, pending_cons queue inside]
    exact pullUpQueue_eq size rest _ some_
  rw [pullUp, gathered]
  simp only [bind, Except.bind, pullUpFrom_eq]
  rw [if_neg (by rw [List.length_take]; omega)]
  rfl

structure Held (p : Protocol) (r : TcpMessageReader) : Prop where
  idle : r.queue = [] → r.remain = -1
  unread : ∀ front rest, r.queue = front :: rest → r.offset < front.bytes.length
  remain : ∀ front rest, r.queue = front :: rest → 0 ≤ p.msgLength front.bytes r.offset →
    r.remain = p.msgLength r.pending 0 - r.pending.length

theorem msgLength_append (p : Protocol) (bytes more : List UInt8) (offset : Nat)
    (header : p.headerLenSize ≤ (bytes.drop offset).length) :
    p.msgLength bytes offset = p.msgLength (bytes.drop offset ++ more) 0 := by
  apply p.headerOnly _ _ _ _ header
  rw [List.drop_zero, List.take_append_of_le_length header]

theorem msgLength_nonneg (p : Protocol) {bytes : List UInt8} (header : p.headerLenSize ≤ bytes.length) :
    0 ≤ p.msgLength bytes 0 := by
  have long := (p.short bytes 0).not.mpr (by rw [List.drop_zero]; omega)
  omega

theorem announce_eq (held : Held p r) (queue : r.queue = front :: rest) :
    r.announce p front buffer =
      .ok (if (r.pending ++ buffer.bytes).length < p.headerLenSize then none
        else some (p.msgLength (r.pending ++ buffer.bytes) 0,
          p.msgLength (r.pending ++ buffer.bytes) 0 - r.pending.length)) := by
  have inside := held.unread front rest queue
  have whole := pending_cons queue inside
  by_cases missing : p.msgLength front.bytes r.offset < 0
  · have short := (p.short _ _).mp missing
    simp only [announce, if_pos missing, queueByteLength_eq queue inside, size_eq]
    by_cases few : (r.pending ++ buffer.bytes).length < p.headerLenSize
    · rw [List.length_append] at few
      rw [if_pos (by omega), if_pos (by rw [List.length_append]; exact few)]
      rfl
    · have header : (List.take p.headerLenSize (r.pending ++ buffer.bytes)).length = p.headerLenSize := by
        rw [List.length_take]
        omega
      have same : p.msgLength ((r.pending ++ buffer.bytes).take p.headerLenSize) 0 =
          p.msgLength (r.pending ++ buffer.bytes) 0 := by
        apply p.headerOnly
        · rw [List.drop_zero, header]
        · rw [List.drop_zero, List.drop_zero, List.take_take, Nat.min_self]
      have reached : ¬ (r.pending.length + buffer.bytes.length : Int) < p.headerLenSize := by
        rw [List.length_append] at few
        omega
      rw [if_neg reached, if_neg few, pullUp_eq queue inside (by omega) (by omega)]
      simp only [bind, Except.bind, pure, Except.pure]
      rw [require_of header, same]
  · have header : p.headerLenSize ≤ (front.bytes.drop r.offset).length := by
      have long := (p.short front.bytes r.offset).not.mp missing
      omega
    have length : p.headerLenSize ≤ r.pending.length := by
      rw [whole, List.length_append]
      omega
    have first : p.msgLength front.bytes r.offset = p.msgLength r.pending 0 := by
      rw [whole]
      exact msgLength_append p _ _ _ header
    have second : p.msgLength r.pending 0 = p.msgLength (r.pending ++ buffer.bytes) 0 :=
      msgLength_append p r.pending buffer.bytes 0 length
    have reached : ¬ (r.pending ++ buffer.bytes).length < p.headerLenSize := by
      rw [List.length_append]
      omega
    simp only [announce, if_neg missing, if_neg reached]
    rw [held.remain front rest queue (by omega), first, second]
    rfl

/-! ### The calls -/

structure Stopped (p : Protocol) (buffer : Buffer) (r : TcpMessageReader) (avail : Int) : Prop where
  queue : r.queue = []
  left : avail = buffer.size - r.offset
  message : 0 < avail → 0 ≤ p.msgLength buffer.bytes r.offset →
    r.remain = p.msgLength buffer.bytes r.offset - avail ∧ 0 < r.remain

abbrev Ended (p : Protocol) (buffer : Buffer) (r : TcpMessageReader) : Left → Prop
  | .bytes avail => Stopped p buffer r avail
  | .failed => r.queue = [] ∧ r.remain = -1

variable {final : TcpMessageReader} {turns : Nat}

theorem readMessages_ends (turns : Nat) {avail : Int} {left : Left} (queue : r.queue = []) (remain : r.remain = -1)
    (start : avail = buffer.size - r.offset) (ran : readMessages p buffer turns r avail = .ok (final, left)) :
    Ended p buffer final left := by
  induction turns generalizing r avail with
  | zero => cases ran
  | succ turns ih =>
    rw [readMessages] at ran
    split at ran
    · simp only at ran
      split at ran
      · cases ran
        exact ⟨queue, start, fun _ natural => absurd natural (by omega)⟩
      · split at ran
        · rename_i long
          cases ran
          exact ⟨queue, start, fun _ _ => ⟨rfl, Int.sub_pos.mpr long⟩⟩
        · split at ran
          · refine ih (r := r.advance _ _) queue remain ?_ ran
            simp only [advance] at start ⊢
            omega
          · cases ran
            exact ⟨queue, remain⟩
    · rename_i none_
      cases ran
      exact ⟨queue, start, fun some_ => absurd some_ none_⟩

theorem held_of_idle (queue : r.queue = []) (remain : r.remain = -1) : Held p r where
  idle := fun _ => remain
  unread := fun _ _ some_ => by simp [queue] at some_
  remain := fun _ _ some_ => by simp [queue] at some_

theorem held_of_cons (queue : r.queue = front :: rest) (inside : r.offset < front.bytes.length)
    (remain : 0 ≤ p.msgLength front.bytes r.offset → r.remain = p.msgLength r.pending 0 - r.pending.length) : Held p r := by
  refine ⟨fun none_ => by simp [queue] at none_, fun front' rest' same => ?_, fun front' rest' same => ?_⟩ <;>
    obtain ⟨rfl, _⟩ := List.cons.inj (queue.symm.trans same)
  · exact inside
  · exact remain

theorem readRest_held (queue : r.queue = []) (remain : r.remain = -1)
    (ran : r.readRest p turns buffer = .ok final) : Held p final := by
  obtain ⟨⟨r', left⟩, looped, ran⟩ := bind_ok ran
  have stopped := readMessages_ends turns queue remain rfl looped
  cases left with
  | failed =>
    cases ran
    exact held_of_idle stopped.1 stopped.2
  | bytes avail =>
    simp only at ran
    split at ran
    · rename_i some_
      cases ran
      have left := stopped.left
      simp only [size_eq] at left
      have inside : r'.offset < buffer.bytes.length := by omega
      have queue' : (r'.push buffer).queue = [buffer] := by rw [push, stopped.queue, List.nil_append]
      have unread : (r'.push buffer).pending = buffer.bytes.drop r'.offset := by
        rw [pending_cons queue' inside]
        simp [push]
      refine held_of_cons queue' inside fun natural => ?_
      have header : p.headerLenSize ≤ (buffer.bytes.drop r'.offset).length := by
        have long := (p.short buffer.bytes r'.offset).not.mp (by simpa [push] using natural)
        omega
      have length := msgLength_append p buffer.bytes [] r'.offset header
      rw [List.append_nil] at length
      have rest := (stopped.message some_ natural).1
      rw [unread, List.length_drop]
      simp only [push]
      omega
    · obtain ⟨_, passed, ran⟩ := bind_ok ran
      cases ran
      exact held_of_idle stopped.queue (require_ok passed)

theorem reassemble_of (remain : Int) (queue : r.queue = front :: rest) (inside : r.offset < front.bytes.length)
    (alloc : allocBufferSize p.maxMessageSize msglength = .ok capacity) (fits : msglength ≤ capacity)
    (incomplete : r.pending.length < msglength) (complete : msglength ≤ (r.pending ++ buffer.bytes).length) :
    (r.setRemain remain).reassemble p buffer msglength =
      .ok (⟨[], msglength.toNat - r.pending.length, -1, r.events ++ r.queue.map .released⟩,
        (r.pending ++ buffer.bytes).take msglength.toNat) := by
  have copied := bufferConcat_of (r := r.setRemain remain) queue inside fits incomplete complete
  unfold reassemble
  rw [alloc]
  simp only [bind, Except.bind]
  rw [copied]
  rfl

theorem reassemble_ok {result : TcpMessageReader × List UInt8}
    (done : r.reassemble p buffer msglength = .ok result) :
    ∃ capacity, allocBufferSize p.maxMessageSize msglength = .ok capacity ∧ msglength ≤ capacity := by
  obtain ⟨capacity, alloc, done⟩ := bind_ok done
  obtain ⟨_, copied, _⟩ := bind_ok done
  exact ⟨capacity, alloc, bufferConcat_ok copied⟩

def finish (p : Protocol) (turns : Nat) (buffer : Buffer) (done : TcpMessageReader × List UInt8) :
    Except Fault TcpMessageReader :=
  if p.callback done.2 then (done.1.receive done.2).readRest p turns buffer else .ok (done.1.receive done.2)

theorem onRead_queued (turns : Nat) (buffer : Buffer) {length : Int} (held : Held p r) (queue : r.queue = front :: rest)
    (announced : length = p.msgLength (r.pending ++ buffer.bytes) 0) :
    r.onRead p turns buffer =
      if (r.pending ++ buffer.bytes).length < p.headerLenSize then .ok (r.push buffer)
      else if length ≤ r.pending.length then .error .assertion
      else if (r.pending ++ buffer.bytes).length < length then
        .ok ((r.push buffer).setRemain (length - (r.pending ++ buffer.bytes).length))
      else (r.setRemain (length - r.pending.length)).reassemble p buffer length >>= finish p turns buffer := by
  have entered : r.onRead p turns buffer =
      if (r.pending ++ buffer.bytes).length < p.headerLenSize then .ok (r.push buffer)
      else require (0 < length - r.pending.length) >>= fun _ =>
        if buffer.size < length - r.pending.length then
          .ok ((r.push buffer).setRemain (length - r.pending.length - buffer.size))
        else (r.setRemain (length - r.pending.length)).reassemble p buffer length >>= finish p turns buffer := by
    subst announced
    unfold onRead
    split
    · rename_i none_
      simp [queue] at none_
    · rename_i front' rest' same
      obtain ⟨rfl, rfl⟩ := List.cons.inj (queue.symm.trans same)
      rw [announce_eq held queue]
      split <;> rfl
  rw [entered, size_eq, List.length_append]
  refine if_congr Iff.rfl rfl ?_
  by_cases early : length ≤ r.pending.length
  · rw [if_pos early, require, if_neg (by omega)]
    rfl
  · rw [if_neg early, require_of (by omega)]
    refine if_congr (by push_cast; omega) ?_ rfl
    congr 2
    push_cast
    ring

theorem onRead_held (held : Held p r)
    (ran : r.onRead p turns buffer = .ok final) : Held p final := by
  cases queue : r.queue with
  | nil =>
    have idle : r.onRead p turns buffer = r.readRest p turns buffer := by simp only [onRead, queue]
    rw [idle] at ran
    exact readRest_held queue (held.idle queue) ran
  | cons front rest =>
    have inside := held.unread front rest queue
    have length : r.offset ≤ (r.queue.map Buffer.bytes).flatten.length := by
      rw [queue, List.map_cons, List.flatten_cons, List.length_append]
      omega
    have pushed : (r.push buffer).queue = front :: (rest ++ [buffer]) := by rw [push, queue, List.cons_append]
    rw [onRead_queued _ _ held queue rfl] at ran
    split at ran
    · rename_i few
      cases ran
      refine held_of_cons pushed inside fun natural => ?_
      have header := (p.short front.bytes r.offset).not.mp (Int.not_lt.mpr natural)
      rw [pending_cons queue inside, List.append_assoc, List.length_append] at few
      omega
    · split at ran
      · cases ran
      · split at ran
        · cases ran
          refine held_of_cons pushed inside fun _ => ?_
          rw [setRemain_remain, setRemain_pending, pending_push length]
        · obtain ⟨⟨r', data⟩, done, ran⟩ := bind_ok ran
          obtain ⟨capacity, alloc, fits⟩ := reassemble_ok done
          rw [reassemble_of _ queue inside alloc fits (by omega) (by omega)] at done
          cases done
          simp only [finish] at ran
          split at ran
          · exact readRest_held rfl rfl ran
          · cases ran
            exact held_of_idle rfl rfl

theorem readAll_held {buffers : List Buffer} (reached : readAll p turns buffers = .ok r) : Held p r :=
  run_invariant (Held p) (fun _ => True) (fun _ _ _ held _ ran => onRead_held held ran) buffers {} r
    (held_of_idle rfl rfl) (fun _ _ => trivial) reached

/-! ### The size of the buffer -/

/-- `OnRead` puts a message together: the buffer completes what the queue holds the beginning of. -/
def Completes (p : Protocol) (r : TcpMessageReader) (buffer : Buffer) (msglength : Int) : Prop :=
  ∃ front rest remain, r.queue = front :: rest ∧ r.announce p front buffer = .ok (some (msglength, remain)) ∧
    0 < remain ∧ remain ≤ buffer.size

/-- The allocated buffer holds the message, and the copies stay inside it, exactly when no power of two from 256 on
is at least the maximum and below the message, and the message is no longer than 2^30. -/
theorem reassembly_fits_iff (p : Protocol) (turns : Nat) (buffers : List Buffer) (r : TcpMessageReader)
    (reached : readAll p turns buffers = .ok r) (buffer : Buffer) (msglength : Int)
    (completes : Completes p r buffer msglength) :
    (∃ capacity, allocBufferSize p.maxMessageSize msglength = .ok capacity ∧ msglength ≤ capacity ∧
        ∃ r' message, r.bufferConcat capacity buffer msglength = .ok (r', message)) ↔
      msglength ≤ 2 ^ 30 ∧ ∀ j, 8 ≤ j → (2 : Int) ^ j < msglength → (2 : Int) ^ j < p.maxMessageSize := by
  have held := readAll_held reached
  obtain ⟨front, rest, remain, queue, announced, positive, arrived⟩ := completes
  have inside := held.unread front rest queue
  rw [announce_eq held queue] at announced
  split at announced
  · cases announced
  · rename_i header
    cases announced
    have natural := msgLength_nonneg p (Nat.le_of_not_lt header)
    rw [← allocBufferSize_fits_iff natural]
    constructor
    · rintro ⟨capacity, alloc, fits, _⟩
      exact ⟨capacity, alloc, fits⟩
    · rintro ⟨capacity, alloc, fits⟩
      refine ⟨capacity, alloc, fits, _, _, bufferConcat_of queue inside fits (by omega) ?_⟩
      rw [List.length_append]
      simp only [size_eq] at arrived
      omega

def headerValue (header : List UInt8) : Nat := header.foldl (fun value byte => value * 256 + byte.toNat) 0

/-- A protocol whose header holds the length, with the most significant byte first. -/
def bigEndian (headerLenSize : Nat) (maxMessageSize : Int) : Protocol where
  headerLenSize := headerLenSize
  maxMessageSize := maxMessageSize
  msgLength bytes offset :=
    if (bytes.drop offset).length < headerLenSize then -1
    else headerValue ((bytes.drop offset).take headerLenSize)
  callback _ := true
  short bytes offset := by split <;> omega
  headerOnly bytes offset bytes' offset' enough same := by
    have lengths := congrArg List.length same
    rw [List.length_take, List.length_take] at lengths
    rw [if_neg (by omega), if_neg (by omega), same]

/-- With a maximum of 4096 bytes, a header that announces 5000 bytes makes `BufferConcat` write behind the 4096
bytes it was given. -/
theorem announced_length_overruns :
    ∃ r, readAll (bigEndian 2 4096) 10 [⟨0, [19, 136]⟩] = .ok r ∧
      Completes (bigEndian 2 4096) r ⟨1, List.replicate 4998 0⟩ 5000 ∧ allocBufferSize 4096 5000 = .ok 4096 ∧
      r.onRead (bigEndian 2 4096) 10 ⟨1, List.replicate 4998 0⟩ = .error .overrun := by
  refine ⟨⟨[⟨0, [19, 136]⟩], 0, 4998, []⟩, by decide +kernel, ?_, by decide +kernel, by decide +kernel⟩
  exact ⟨⟨0, [19, 136]⟩, [], 4998, rfl, by decide +kernel, by decide, by decide +kernel⟩

/-- The same message fits with a maximum of 8192 bytes. -/
theorem reassembly_fits_5000 :
    ∃ r, readAll (bigEndian 2 8192) 10 [⟨0, [19, 136]⟩] = .ok r ∧
      ((∃ capacity, allocBufferSize 8192 5000 = .ok capacity ∧ 5000 ≤ capacity ∧
          ∃ r' message, r.bufferConcat capacity ⟨1, List.replicate 4998 0⟩ 5000 = .ok (r', message)) ↔
        (5000 : Int) ≤ 2 ^ 30 ∧ ∀ j, 8 ≤ j → (2 : Int) ^ j < 5000 → (2 : Int) ^ j < 8192) := by
  refine ⟨⟨[⟨0, [19, 136]⟩], 0, 4998, []⟩, by decide +kernel, ?_⟩
  refine reassembly_fits_iff (bigEndian 2 8192) 10 [⟨0, [19, 136]⟩] _ (by decide +kernel) _ _ ?_
  exact ⟨⟨0, [19, 136]⟩, [], 4998, rfl, by decide +kernel, by decide, by decide +kernel⟩

end TcpMessageReader

end TFCommon.Tcp
