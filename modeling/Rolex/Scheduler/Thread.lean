import Mathlib.Logic.Function.Basic
import Rolex.Scheduler.Verbs

/-!
This module contains `run_coroutine`: the coroutines of one thread, the NIC that completes their requests
in any order, and the loop that resumes them.
-/

namespace Rolex

namespace Scheduler

def maxCoroNum : Nat := 8

/-- A signaled request whose completion was not polled yet, and the coroutine whose code posted it. -/
structure Posted where
  owner : Nat
  wrId : Nat
  deriving DecidableEq, Repr

inductive Status where
  | fresh
  | running
  | suspended
  | finished
  deriving DecidableEq, Repr

structure Worker where
  status : Status
  code : List Action
  deriving DecidableEq, Repr

/-- Where `run_coroutine` is. -/
inductive Turn where
  | start (i : Nat)
  | poll
  | pop
  | returned
  deriving DecidableEq, Repr

structure Thread where
  coroCnt : Nat
  worker : Nat → Worker
  /-- The coroutine that has the thread, `none` while `run_coroutine` has it. -/
  running : Option Nat
  inFlight : List Posted
  cq : List Posted
  busyWaitingQueue : List Nat
  turn : Turn
  /-- What the generator of each coroutine gives, and how many of it the coroutine has taken. -/
  requests : Nat → Nat → List Call
  taken : Nat → Nat
  needStop : Bool

inductive Event where
  /-- The NIC completes the request at a place of `inFlight`. -/
  | complete (k : Nat)
  /-- The running coroutine does its next action. -/
  | act
  /-- The scheduler goes one step. -/
  | sched
  /-- Another thread sets `need_stop`. -/
  | stop
  deriving DecidableEq, Repr

/-- The thread before the workers are called for the first time. -/
def runCoroutine (coroCnt : Nat) (requests : Nat → Nat → List Call) : Option Thread :=
  if coroCnt ≤ maxCoroNum then
    some {
      coroCnt
      worker := fun _ => ⟨.fresh, []⟩
      running := none
      inFlight := []
      cq := []
      busyWaitingQueue := []
      turn := .start 0
      requests
      taken := fun _ => 0
      needStop := false
    }
  else
    none

/--
What a suspended coroutine waits for, from its outstanding requests and the number of its entries in the
queue: for the completion of one request with its id, or for its turn, but not for both.
-/
def WaitsOnce (i : Nat) (own : List Posted) (queued : Nat) : Prop :=
  (own = [⟨i, i⟩] ∧ queued = 0) ∨ (own = [] ∧ queued = 1)

namespace Thread

variable (T : Thread)

def setWorker (i : Nat) (w : Worker) : Thread := { T with worker := Function.update T.worker i w }

/-- The call `workers[id](id)`. It has no result if there is no such worker or its function returned. -/
def resume (id : Nat) : Option Thread :=
  if id < T.coroCnt ∧ ((T.worker id).status = .fresh ∨ (T.worker id).status = .suspended) then
    some { T.setWorker id ⟨.running, (T.worker id).code⟩ with running := some id }
  else
    none

def complete (k : Nat) : Option Thread :=
  match T.inFlight[k]? with
  | some r => some { T with inFlight := T.inFlight.eraseIdx k, cq := T.cq ++ [r] }
  | none => none

/-- One turn of the loop of `pollWithCQ`, which calls `ibv_poll_cq` before it looks at the number. -/
def pollWithCq (i : Nat) (rest : List Action) (n : Nat) : Option Thread :=
  match T.cq with
  | [] => if n = 0 then some (T.setWorker i ⟨.running, rest⟩) else some T
  | _ :: cq =>
    if n ≤ 1 then
      some { T.setWorker i ⟨.running, rest⟩ with cq }
    else
      some { T.setWorker i ⟨.running, .pollWithCq (n - 1) :: rest⟩ with cq }

/-- The next action of the coroutine `i`, with `rest` behind it. -/
def doAction (i : Nat) (rest : List Action) : Action → Option Thread
  | .post signaled wrId =>
    some { T.setWorker i ⟨.running, rest⟩ with
      inFlight := T.inFlight ++ List.replicate (signaled.count true) ⟨i, wrId⟩ }
  | .push id =>
    some { T.setWorker i ⟨.running, rest⟩ with busyWaitingQueue := T.busyWaitingQueue ++ [id] }
  | .yield => some { T.setWorker i ⟨.suspended, rest⟩ with running := none }
  | .pollWithCq n => T.pollWithCq i rest n
  | .abort => none

def act : Option Thread :=
  match T.running with
  | none => none
  | some i =>
    match (T.worker i).code with
    | [] =>
      -- the head of the loop of `coro_worker`
      if T.needStop then
        some { T.setWorker i ⟨.finished, []⟩ with running := none }
      else
        some { T.setWorker i ⟨.running, coroWorker i (T.requests i (T.taken i))⟩ with
          taken := Function.update T.taken i (T.taken i + 1) }
    | a :: rest => T.doAction i rest a

def takeTurn : Option Thread :=
  match T.turn with
  | .start i =>
    if i < T.coroCnt then
      { T with turn := .start (i + 1) }.resume i
    else
      some { T with turn := .poll }
  | .poll =>
    if T.needStop then
      some { T with turn := .returned }
    else
      match T.cq with
      | [] => some { T with turn := .pop }
      | r :: cq => { T with cq, turn := .pop }.resume r.wrId
  | .pop =>
    match T.busyWaitingQueue with
    | [] => some { T with turn := .poll }
    | id :: queue => { T with busyWaitingQueue := queue, turn := .poll }.resume id
  | .returned => some T

def sched : Option Thread := if T.running = none then T.takeTurn else none

def step : Event → Option Thread
  | .complete k => T.complete k
  | .act => T.act
  | .sched => T.sched
  | .stop => some { T with needStop := true }

/-- The outstanding signaled requests of a coroutine. -/
def own (i : Nat) : List Posted := (T.inFlight ++ T.cq).filter (fun r => r.owner = i)

def Suspended (i : Nat) : Prop := (T.worker i).status = .suspended

structure Sound : Prop where
  waits : ∀ i, T.Suspended i → WaitsOnce i (T.own i) (T.busyWaitingQueue.count i)
  /-- A coroutine that is resumed has no request outstanding and no second entry in the queue. -/
  resumes : ∀ T' i, T.sched = some T' → T'.running = some i → T'.own i = [] ∧ T'.busyWaitingQueue.count i = 0
  /-- The workers that are called can be called. -/
  calls : T.running = none → T.sched.isSome
  /-- While `run_coroutine` has the thread, the requests with the id of a coroutine are its own. -/
  carries : T.running = none → ∀ i, (T.inFlight ++ T.cq).filter (fun r => r.wrId = i) = T.own i

/-- The coroutine that polls the completions itself. -/
def polling : Option Nat :=
  match T.running with
  | none => none
  | some i =>
    match (T.worker i).code with
    | .pollWithCq _ :: _ => some i
    | _ => none

/-- When a coroutine polls the completions itself, no other one has a request outstanding. -/
def PollsAlone : Prop := ∀ i ∈ T.polling, ∀ r ∈ T.inFlight ++ T.cq, r.owner = i

instance : DecidablePred PollsAlone := fun T => by
  unfold PollsAlone
  infer_instance

/-- The thread after the events, `none` if one of them cannot happen or happens where `ok` does not hold. -/
def run (ok : Thread → Prop) [DecidablePred ok] (T : Thread) : List Event → Option Thread
  | [] => some T
  | e :: events => if ok T then (T.step e).bind (fun T' => run ok T' events) else none

end Thread

/-- The threads reached from `T₀` by steps taken where `ok` holds. -/
inductive Reached (ok : Thread → Prop) (T₀ : Thread) : Thread → Prop
  | init : Reached ok T₀ T₀
  | step {T T' : Thread} (h : Reached ok T₀ T) (hok : ok T) (e : Event) (hstep : T.step e = some T') :
      Reached ok T₀ T'

theorem Reached.run {ok : Thread → Prop} [DecidablePred ok] {T₀ T T' : Thread} {events : List Event}
    (h : Reached ok T₀ T) (hrun : T.run ok events = some T')
    : Reached ok T₀ T' := by
  induction events generalizing T with
  | nil =>
    cases hrun
    exact h
  | cons e events ih =>
    rw [Thread.run] at hrun
    split at hrun
    . next hok =>
      obtain ⟨S, hstep, hrest⟩ := Option.bind_eq_some_iff.mp hrun
      exact ih (.step h hok e hstep) hrest
    . cases hrun

end Scheduler

end Rolex
