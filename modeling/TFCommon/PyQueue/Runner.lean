import TFCommon.Lib.Run

/-! The runner of the Python `WorkQueue`, without a `start_runner` function. A greenlet runs until it yields: in `worker`, in
`gevent.sleep` or at its end. `_do_work` tests the item itself to see whether there is one. -/
namespace TFCommon.PyQueue

/-- The runner greenlet is about to begin its loop, or `worker` has been called and `work_load` items may still be. -/
inductive Greenlet where
  | loop
  | working (workLoad : Int)
deriving DecidableEq, Repr

structure Config (Item : Type) where
  truthy : Item → Bool
  maxWorkLoad : Int
  bounded : Bool
  maxQsize : Int

structure WorkQueue (Item : Type) where
  queue : List Item := []
  qsize : Int := 0
  running : Bool := false
  greenlets : List Greenlet := []
  -- the items that `enqueue` took and those that `worker` was called with
  accepted : List Item := []
  delivered : List Item := []
deriving DecidableEq, Repr

namespace WorkQueue
variable {Item : Type} (cfg : Config Item)

def start (s : WorkQueue Item) : WorkQueue Item :=
  if s.running then s else { s with running := true, greenlets := s.greenlets ++ [.loop] }

def mayBeStartRunner (s : WorkQueue Item) : WorkQueue Item := if s.queue.isEmpty then s else s.start

def enqueue (s : WorkQueue Item) (item : Item) : WorkQueue Item :=
  if cfg.bounded ∧ s.qsize + 1 > cfg.maxQsize then s
  else
    { s with
      queue := s.queue ++ [item], qsize := s.qsize + 1, accepted := s.accepted ++ [item] }.mayBeStartRunner

/-- Behind the inner loop of `_do_work`: the greenlet ends, or it sleeps and begins the loop again. -/
def runnerDone (s : WorkQueue Item) : WorkQueue Item × Option Greenlet :=
  if s.queue.isEmpty then ({ s with running := false }, none) else (s, some .loop)

/-- `_do_work` from a call of `dequeue` to the next yield. -/
def dequeue (s : WorkQueue Item) (workLoad : Int) : WorkQueue Item × Option Greenlet :=
  match s.queue with
  | [] => s.runnerDone
  | item :: rest =>
    let s := { s with queue := rest, qsize := s.qsize - 1 }
    if cfg.truthy item then ({ s with delivered := s.delivered ++ [item] }, some (.working workLoad)) else s.runnerDone

def doWork (s : WorkQueue Item) : Greenlet → WorkQueue Item × Option Greenlet
  | .loop => s.dequeue cfg cfg.maxWorkLoad
  | .working workLoad => if workLoad - 1 = 0 then s.runnerDone else s.dequeue cfg (workLoad - 1)

inductive Action (Item : Type) where
  | enqueue (item : Item)
  | resume (i : Nat)
deriving DecidableEq, Repr

inductive Fault where
  | disabled
deriving DecidableEq, Repr

def step (s : WorkQueue Item) : Action Item → Except Fault (WorkQueue Item)
  | .enqueue item => .ok (s.enqueue cfg item)
  | .resume i =>
    match s.greenlets[i]? with
    | some g => .ok { (s.doWork cfg g).1 with greenlets := s.greenlets.eraseIdx i ++ (s.doWork cfg g).2.toList }
    | none => .error .disabled

/-- Every item taken is delivered, in order, or still queued, and there is one runner while there is work. -/
structure Served (s : WorkQueue Item) : Prop where
  order : s.delivered ++ s.queue = s.accepted
  single : s.greenlets.length ≤ 1
  running : s.running = true ↔ s.greenlets ≠ []
  woken : s.queue ≠ [] → s.greenlets ≠ []

/-- The greenlet that goes on does not find an item that is false. -/
def Harmless (s : WorkQueue Item) : Action Item → Prop
  | .resume i => ∀ g, s.greenlets[i]? = some g → g ≠ .working 1 → ∀ item rest, s.queue = item :: rest → cfg.truthy item = true
  | _ => True

variable {cfg} {s : WorkQueue Item}

theorem Served.start (order : s.delivered ++ s.queue = s.accepted) (single : s.greenlets.length ≤ 1)
    (running : s.running = true ↔ s.greenlets ≠ []) : Served s.start := by
  unfold WorkQueue.start
  split
  · rename_i on
    exact ⟨order, single, running, fun _ => running.mp on⟩
  · rename_i off
    have none_ : s.greenlets = [] := not_not.mp (running.not.mp off)
    exact ⟨order, by simp [none_], by simp, by simp⟩

theorem Served.enqueue (served : Served s) (item : Item) : Served (s.enqueue cfg item) := by
  unfold WorkQueue.enqueue
  split
  · exact served
  · rw [mayBeStartRunner, if_neg (by simp)]
    exact .start (by rw [← served.order, List.append_assoc]) served.single served.running

section
variable (running : s.running = true)
include running

theorem runnerDone_served (order : s.delivered ++ s.queue = s.accepted) :
    Served { s.runnerDone.1 with greenlets := s.runnerDone.2.toList } := by
  unfold runnerDone
  split
  · rename_i empty
    exact ⟨order, by simp, by simp, by simpa using empty⟩
  · exact ⟨order, by simp, by simp [running], by simp⟩

theorem dequeue_served (workLoad : Int) (order : s.delivered ++ s.queue = s.accepted) :
    Served { (s.dequeue cfg workLoad).1 with greenlets := (s.dequeue cfg workLoad).2.toList } ↔
      ∀ item rest, s.queue = item :: rest → cfg.truthy item = true := by
  unfold dequeue
  split
  · rename_i empty
    exact ⟨fun _ item rest some_ => by simp [empty] at some_, fun _ => runnerDone_served running order⟩
  · rename_i item rest queue
    dsimp only
    split
    · rename_i good
      refine ⟨fun _ item' rest' same => ?_, fun _ => ⟨?_, by simp, by simp [running], by simp⟩⟩
      · cases queue.symm.trans same
        exact good
      · simpa [queue] using order
    · rename_i bad
      refine ⟨fun served => ?_, fun good => absurd (good item rest queue) bad⟩
      -- the item that was false is neither delivered nor queued any more
      have left : s.delivered ++ rest = s.accepted := by
        have kept := served.order
        unfold runnerDone at kept
        split at kept <;> exact kept
      have lost := congrArg List.length (left.trans order.symm)
      simp [queue] at lost

theorem doWork_served (g : Greenlet) (order : s.delivered ++ s.queue = s.accepted) :
    Served { (s.doWork cfg g).1 with greenlets := (s.doWork cfg g).2.toList } ↔
      (g ≠ .working 1 → ∀ item rest, s.queue = item :: rest → cfg.truthy item = true) := by
  cases g with
  | loop => simpa [doWork] using dequeue_served running cfg.maxWorkLoad order
  | working workLoad =>
    by_cases last : workLoad = 1
    · simpa [doWork, last] using runnerDone_served running order
    · have more : ¬ workLoad - 1 = 0 := by omega
      simpa [doWork, last, more] using dequeue_served running (workLoad - 1) order

end

theorem resume_served (served : Served s) (i : Nat) :
    Verdict Served (fun _ => False) (s.step cfg (.resume i)) ↔ Harmless cfg s (.resume i) := by
  simp only [step, Harmless]
  split
  · rename_i g here
    obtain ⟨inside, _⟩ := List.getElem?_eq_some_iff.mp here
    have single := served.single
    obtain ⟨g', alone⟩ := List.length_eq_one_iff.mp (show s.greenlets.length = 1 by omega)
    obtain rfl : i = 0 := by omega
    obtain rfl : g' = g := by simpa [alone] using here
    have on : s.running = true := served.running.mpr (by simp [alone])
    simpa [alone, Verdict] using doWork_served on g' served.order
  · rename_i none_
    exact ⟨fun _ g here => by simp [none_] at here, fun _ => not_false⟩

/-- The items are delivered throughout a run, by one runner, exactly if no runner takes an item that is false. -/
theorem served_iff (cfg : Config Item) (actions : List (Action Item)) :
    Safe (step cfg) Served (fun _ => False) {} actions ↔ Throughout (step cfg) (Harmless cfg) {} actions := by
  refine safe_iff (I := Served) (fun _ served => served) (fun s a served harmless => ?_) (fun s a served after => ?_) actions {}
    ⟨rfl, by simp, by simp, by simp⟩
  · cases a with
    | enqueue item => exact served.enqueue item
    | resume i => exact (resume_served served i).mpr harmless
  · cases a with
    | enqueue item => trivial
    | resume i => exact (resume_served served i).mp after

/-- An item 0 is taken from the queue, and `worker` is not called with it. -/
theorem false_item_lost :
    ∃ s, run (step ⟨fun n : Nat => n != 0, 16, false, 1024⟩) {} [.enqueue 0, .resume 0] = .ok s ∧
      s.accepted = [0] ∧ s.delivered = [] ∧ s.queue = [] ∧ s.greenlets = [] :=
  ⟨_, rfl, rfl, rfl, rfl, rfl⟩

end WorkQueue

end TFCommon.PyQueue
