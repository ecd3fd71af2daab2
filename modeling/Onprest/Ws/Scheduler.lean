import Onprest.Lib.Machine
import Onprest.Lib.Table

/-! The scheduler of a connection: posted jobs wait in lanes, `Run` takes them one at a time, and whatever ends `Run`
answers the jobs that still wait. Every choice of the environment is an action: which jobs are posted and when,
whether the context of a job has ended, what a job returns, and when the scheduler's own context ends. -/

namespace Onprest.Ws.Scheduler
open Lib

/-! ### Jobs -/

/-- Where a job waits. -/
inductive Lane
  | control | normal | transfer (id : String)
  deriving DecidableEq, Repr

/-- `scheduled`: a job is known by the number of the call of `Post` that accepted it. -/
structure Job where
  id : ℕ
  lane : Lane
  deriving DecidableEq, Repr

/-- What `run` returned: nil, an error of a context, or any other error. -/
inductive RunResult
  | ok | interrupted | broken (e : ℕ)
  deriving DecidableEq, Repr

/-- What is sent on the channel of a job; a job that was drained gets the failure of the scheduler or, without one,
`context.Canceled`. -/
inductive Answer
  | returned (r : RunResult) | contextEnded | stopped | drained (failed : Option ℕ)
  deriving DecidableEq, Repr

/-- Where `Run` is: about to call `next`, with a job it took, inside the job, about to set `failed`, waiting, before
its deferred function, or returned. -/
inductive Phase
  | looking | took (j : Job) | running (j : Job) | failing (e : ℕ) | idle | leaving | done
  deriving DecidableEq, Repr

/-- What happened; `both` says that normal and transfer jobs were waiting. -/
inductive Event
  | posted (j : Job) | took (j : Job) (both : Bool) | ran (j : Job) | answered (j : Job) (a : Answer)
  deriving DecidableEq, Repr

/-- `Scheduler`, with the state of its context, of `Run`, and the history of the run, its newest event first. -/
structure Sched where
  control : List Job := []
  normal : List Job := []
  transfers : Table String (List Job) := ∅
  order : List String := []
  wake : Bool := false
  failed : Option ℕ := none
  lastNormal : Bool := false
  ctxDone : Bool := false
  phase : Phase := .looking
  next : ℕ := 0
  history : List Event := []

namespace Sched

/-- The jobs that wait in a lane. -/
def queue (s : Sched) : Lane → List Job
  | .control => s.control
  | .normal => s.normal
  | .transfer id => (s.transfers.lookup id).getD []

/-- The part of `Post` that every accepted job has: its number is taken and `Run` is notified. -/
def accept (s : Sched) (j : Job) : Sched :=
  { s with wake := true, next := s.next + 1, history := .posted j :: s.history }

/-- `Post`; a refused job leaves no trace. -/
def post (s : Sched) (priority : Bool) (transfer : String) : Sched :=
  if s.failed.isSome || s.ctxDone then s
  else if priority then
    let j : Job := ⟨s.next, .control⟩
    if s.control.length ≥ 256 then s else { s.accept j with control := s.control ++ [j] }
  else if transfer = "" then
    let j : Job := ⟨s.next, .normal⟩
    if s.normal.length ≥ 128 then s else { s.accept j with normal := s.normal ++ [j] }
  else
    let j : Job := ⟨s.next, .transfer transfer⟩
    let q := s.queue (.transfer transfer)
    if q.length ≥ 5 then s
    else
      { s.accept j with
        order := if q = [] then s.order ++ [transfer] else s.order
        transfers := s.transfers.insert transfer (q ++ [j]) }

/-- Normal and transfer jobs are waiting. -/
def both (s : Sched) : Bool := s.normal ≠ [] && s.order ≠ []

/-- `Run` has a job from `next`. -/
def take (s : Sched) (j : Job) : Sched := { s with phase := .took j, history := .took j s.both :: s.history }

/-- `Run` waits after `next` has found nothing. -/
def sleep (s : Sched) : Sched := { s with phase := .idle }

/-- The last part of `next`: the first transfer gives up a job and, with more of them, goes to the end of the order.
`none` is the panic of `q[0]` on an empty queue. -/
def takeTransfer (s : Sched) : Option Sched :=
  match s.order with
  | [] => some s.sleep
  | id :: order =>
    match s.queue (.transfer id) with
    | [] => none
    | [j] => some { s.take j with lastNormal := false, order := order, transfers := s.transfers.erase id }
    | j :: k :: q =>
      some { s.take j with lastNormal := false, order := order ++ [id], transfers := s.transfers.insert id (k :: q) }

/-- `next` and what `Run` does with its result. -/
def takeNext (s : Sched) : Option Sched :=
  match s.control with
  | j :: control => some { s.take j with control := control }
  | [] =>
    match if s.order = [] || !s.lastNormal then s.normal else [] with
    | j :: normal => some { s.take j with normal := normal, lastNormal := true }
    | [] => s.takeTransfer

def answer (s : Sched) (j : Job) (a : Answer) (phase : Phase) : Sched :=
  { s with phase := phase, history := .answered j a :: s.history }

/-- `Run` looks at the contexts before it runs the job. -/
def check (s : Sched) (j : Job) (jobEnded : Bool) : Sched :=
  if s.ctxDone then s.answer j .stopped .leaving
  else if jobEnded then s.answer j .contextEnded .looking
  else { s with phase := .running j, history := .ran j :: s.history }

/-- The job has returned. -/
def finish (s : Sched) (j : Job) (r : RunResult) : Sched :=
  match r with
  | .broken e => s.answer j (.returned r) (.failing e)
  | _ => s.answer j (.returned r) .looking

/-- All jobs that wait, in the order of `drain`; the map yields its keys in the order `ids`. -/
def waiting (s : Sched) (ids : List String) : List Job :=
  s.control ++ s.normal ++ ids.flatMap fun id => s.queue (.transfer id)

/-- The deferred function of `Run`. -/
def drain (s : Sched) (ids : List String) : Sched :=
  { s with
    control := [], normal := [], transfers := ∅, order := [], phase := .done
    history := ((s.waiting ids).map fun j => .answered j (.drained s.failed)).reverse ++ s.history }

end Sched

/-- One step of a caller, of the environment or of `Run`. -/
inductive Act
  | post (priority : Bool) (transfer : String)
  | cancel
  | next
  | check (jobEnded : Bool)
  | finish (r : RunResult)
  | fail
  | wake
  | quit
  | drain (ids : List String)
  deriving DecidableEq, Repr

/-- The scheduler with its callers. -/
def scheduler : Machine Sched Act where
  step s
    | .post priority transfer => some (s.post priority transfer)
    | .cancel => some { s with ctxDone := true }
    | .next => if s.phase = .looking then s.takeNext else none
    | .check jobEnded =>
      match s.phase with
      | .took j => some (s.check j jobEnded)
      | _ => none
    | .finish r =>
      match s.phase with
      | .running j => some (s.finish j r)
      | _ => none
    | .fail =>
      match s.phase with
      | .failing e => some { s with failed := some e, phase := .leaving }
      | _ => none
    | .wake => if s.phase = .idle ∧ s.wake = true then some { s with wake := false, phase := .looking } else none
    | .quit => if s.phase = .idle ∧ s.ctxDone = true then some { s with phase := .leaving } else none
    | .drain ids => if s.phase = .leaving ∧ ids.Perm s.transfers.keys then some (s.drain ids) else none

end Onprest.Ws.Scheduler
