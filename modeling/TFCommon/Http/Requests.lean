import TFCommon.Lib.Run

/-! The request queue of an `HttpSession`: threads that push a request, test `req_queue_empty_` and enqueue a `RequestHandler`
task, and the tasks, of which one runs at a time. The pushers are counted by what they do next. -/
namespace TFCommon.Http

/-- Where the running task is: before `try_pop`, between it and the store of `req_queue_empty_`, with a request, or behind the
loop. -/
inductive Handler (R : Type) where
  | idle
  | popping
  | popped (request : Option R)
  | handling (request : R)
  | leaving
deriving DecidableEq, Repr

structure HttpSession (R : Type) where
  requestQueue : List R := []
  reqQueueEmpty : Bool := true
  testing : Nat := 0
  enqueuing : Nat := 0
  waiting : Nat := 0
  handler : Handler R := .idle
  -- the requests pushed and those handled so far
  pushed : List R := []
  handled : List R := []
deriving DecidableEq, Repr

namespace HttpSession

inductive Action (R : Type) where
  | push (request : R)
  | test
  | enqueue
  | run
  | tryPop
  | store
  | handle
  | exit
deriving DecidableEq, Repr

inductive Fault where
  | disabled
deriving DecidableEq, Repr

variable {R : Type}

def step (s : HttpSession R) : Action R → Except Fault (HttpSession R)
  | .push request =>
    .ok { s with requestQueue := s.requestQueue ++ [request], pushed := s.pushed ++ [request], testing := s.testing + 1 }
  | .test =>
    if s.testing = 0 then .error .disabled
    else if s.reqQueueEmpty then .ok { s with testing := s.testing - 1, enqueuing := s.enqueuing + 1 }
    else .ok { s with testing := s.testing - 1 }
  | .enqueue =>
    if s.enqueuing = 0 then .error .disabled
    else .ok { s with enqueuing := s.enqueuing - 1, waiting := s.waiting + 1 }
  | .run =>
    match s.handler, s.waiting with
    | .idle, waiting + 1 => .ok { s with waiting, handler := .popping }
    | _, _ => .error .disabled
  | .tryPop =>
    match s.handler with
    | .popping => .ok { s with handler := .popped s.requestQueue.head?, requestQueue := s.requestQueue.tail }
    | _ => .error .disabled
  | .store =>
    match s.handler with
    | .popped (some request) => .ok { s with reqQueueEmpty := false, handler := .handling request }
    | .popped none => .ok { s with reqQueueEmpty := true, handler := .leaving }
    | _ => .error .disabled
  | .handle =>
    match s.handler with
    | .handling request => .ok { s with handled := s.handled ++ [request], handler := .popping }
    | _ => .error .disabled
  | .exit =>
    match s.handler with
    | .leaving => .ok { s with handler := .idle }
    | _ => .error .disabled

def hand : Handler R → List R
  | .popped (some request) | .handling request => [request]
  | _ => []

/-- Requests are handled in the order of the pushes, each once; and with a request in the queue and no pusher at work there is
a task. -/
structure Served (s : HttpSession R) : Prop where
  order : s.pushed = s.handled ++ (hand s.handler ++ s.requestQueue)
  task : s.requestQueue ≠ [] → s.testing = 0 → s.enqueuing = 0 → 0 < s.waiting ∨ s.handler ≠ .idle

/-- No pusher finds `req_queue_empty_` false between a `try_pop` that found the queue empty and the store after it. -/
def Harmless (s : HttpSession R) (a : Action R) : Prop := a = .test → s.handler = .popped none → s.reqQueueEmpty = true

def ends : Handler R → Bool
  | .idle | .leaving | .popped none => true
  | _ => false

structure Inv (s : HttpSession R) : Prop where
  order : s.pushed = s.handled ++ (hand s.handler ++ s.requestQueue)
  flag : s.handler = .idle ∨ s.handler = .leaving → s.reqQueueEmpty = true
  covered : ends s.handler = true → s.requestQueue ≠ [] → 0 < s.testing + s.enqueuing + s.waiting

variable {s : HttpSession R}

theorem Inv.served (inv : Inv s) : Served s := by
  refine ⟨inv.order, fun some_ untested unqueued => ?_⟩
  by_cases idle : s.handler = .idle
  · have covered := inv.covered (by rw [idle]; rfl) some_
    exact .inl (by omega)
  · exact .inr idle

theorem Inv.step (inv : Inv s) (a : Action R) (harmless : s.Harmless a) : Verdict Inv (fun _ => False) (s.step a) := by
  cases a with
  | push request => exact ⟨by simp [inv.order], inv.flag, fun _ _ => by dsimp only; omega⟩
  | test =>
    simp only [HttpSession.step]
    split
    · exact id
    split
    · exact ⟨inv.order, inv.flag, fun _ _ => by dsimp only; omega⟩
    · rename_i full
      -- a false flag means that the task will look at the queue again
      refine ⟨inv.order, inv.flag, fun ended _ => absurd ?_ full⟩
      cases here : s.handler with
      | idle => exact inv.flag (.inl here)
      | leaving => exact inv.flag (.inr here)
      | popped request =>
        cases request with
        | none => exact harmless rfl here
        | some request => simp [here, ends] at ended
      | _ => simp [here, ends] at ended
  | enqueue =>
    simp only [HttpSession.step]
    split
    · exact id
    · exact ⟨inv.order, inv.flag, fun _ _ => by dsimp only; omega⟩
  | run =>
    simp only [HttpSession.step]
    split
    · rename_i idle _
      exact ⟨by simp [inv.order, idle, hand], by simp, by simp [ends]⟩
    · exact id
  | tryPop =>
    simp only [HttpSession.step]
    split
    · rename_i popping
      have order := inv.order
      rw [popping] at order
      cases queue : s.requestQueue with
      | nil => exact ⟨by simpa [queue, hand] using order, by simp, by simp⟩
      | cons request rest => exact ⟨by simpa [queue, hand] using order, by simp, by simp [ends]⟩
    · exact id
  | store =>
    simp only [HttpSession.step]
    split
    · rename_i request popped
      exact ⟨by simp [inv.order, popped, hand], by simp, by simp [ends]⟩
    · rename_i popped
      exact ⟨by simp [inv.order, popped, hand], fun _ => rfl, fun _ => inv.covered (by rw [popped]; rfl)⟩
    · exact id
  | handle =>
    simp only [HttpSession.step]
    split
    · rename_i request handling
      exact ⟨by simp [inv.order, handling, hand], by simp, by simp [ends]⟩
    · exact id
  | exit =>
    simp only [HttpSession.step]
    split
    · rename_i leaving
      exact ⟨by simp [inv.order, leaving, hand], fun _ => inv.flag (.inr leaving),
        fun _ => inv.covered (by rw [leaving]; rfl)⟩
    · exact id

/-- In a run in which no pusher reads the flag between a failed `try_pop` and its store, no request is left without a task. -/
theorem requests_served (actions : List (Action R)) (harmless : Throughout step Harmless {} actions) :
    Safe step Served (fun _ => False) {} actions := by
  refine safe_of_throughout (I := Inv) (fun _ inv => inv.served) (fun s a inv => inv.step a) actions {} ?_ harmless
  exact ⟨rfl, fun _ => rfl, by simp⟩

instance harmless_decidable [DecidableEq R] (s : HttpSession R) (a : Action R) : Decidable (s.Harmless a) :=
  inferInstanceAs (Decidable (_ → _))

def twoRequests : List (Action Nat) :=
  [.push 1, .test, .enqueue, .run, .push 2, .tryPop, .store, .test, .handle, .tryPop, .store, .handle, .tryPop, .store, .exit]

theorem twoRequests_served :
    (run step {} twoRequests).toOption.map handled = some [1, 2] ∧ Safe step Served (fun _ => False) {} twoRequests :=
  ⟨by decide, requests_served twoRequests (throughout_of_check Harmless twoRequests {} (by decide))⟩

/-- A request that is pushed and tested between a failed `try_pop` and its store is left without a task. -/
theorem request_stranded :
    (run step {} [.push 1, .test, .enqueue, .run, .tryPop, .store, .handle, .tryPop, .push 2, .test, .store, .exit]).toOption.map
      (fun s => (s.requestQueue, s.testing + s.enqueuing + s.waiting, s.handler)) = some ([2], 0, .idle) := by
  decide

end HttpSession

end TFCommon.Http
