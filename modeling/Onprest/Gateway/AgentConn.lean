import Onprest.Lib.Machine
import Onprest.Contract.Error
import Mathlib.Logic.Function.Basic

/-! The plain request path of one agent connection: the callers of `callAgentOn`, the connection writer
with its scheduler job, and the reader. Every critical section and every channel operation is a step of
its own; what the environment chooses (expiry, errors, the ready case of a select, the messages of the
agent) is part of the action. -/

namespace Onprest.Gateway
open Lib Contract

inductive Phase
  | queued | sending | sent | canceling | canceled
deriving DecidableEq, Repr

structure RequestSendState where
  phase : Phase := .queued
  cancelAfterSend : Bool := false
deriving DecidableEq, Repr

/-- A failed call: the HTTP status and the public error. -/
structure CallFailure where
  status : ℕ
  failure : ErrorValue
deriving DecidableEq, Repr

def agentOfflineResult : CallFailure :=
  ⟨503, { code := "AGENT_OFFLINE", message := "agent is not connected", outcome := .notStarted }⟩

def agentTimeoutResult : CallFailure :=
  ⟨504, { code := "EXECUTION_TIMEOUT", message := "agent response timed out", outcome := .unknown }⟩

def CallFailure.withOutcome (r : CallFailure) (o : Outcome) : CallFailure :=
  { r with failure := { r.failure with outcome := o } }

/-- The request has not been taken by the writer. -/
def unsent : Option RequestSendState → Bool
  | some st => st.phase = .queued || st.phase = .canceled
  | none => false

def agentTimeoutFor (st : Option RequestSendState) : CallFailure :=
  if unsent st then agentTimeoutResult.withOutcome .notStarted else agentTimeoutResult

def agentOfflineFor (st : Option RequestSendState) : CallFailure :=
  if unsent st then agentOfflineResult.withOutcome .notStarted else agentOfflineResult.withOutcome .unknown

/-- What `callAgentOn` returns: it did not register the request, it failed by itself, or it passes on
the response it was given. -/
inductive CallResult
  | refused
  | failed (f : CallFailure)
  | response
deriving DecidableEq, Repr

/-- Whether an error is `context.Canceled` or `context.DeadlineExceeded`. -/
inductive WriteErr
  | context | other
deriving DecidableEq, Repr

/-- How a caller gives up: its context has ended, its write failed with a context error, the connection
is done, or its write failed otherwise. -/
inductive Exit
  | timeout | writeTimeout | done | writeError
deriving DecidableEq, Repr

/-- Where a caller stands: before its selects, or before the named critical section. -/
inductive CallPc
  | enqueue
  | awaitWrite
  | awaitResponse
  | removePending (e : Exit)
  | classify (e : Exit)
  | cancel (f : CallFailure)
  | postCancel (f : CallFailure)
  | abandonCancel (f : CallFailure) (close : Bool)
  | settle
  | returned (r : CallResult)
deriving DecidableEq, Repr

/-- A caller. `writeResult` is the result sent for its write, `inbox` says that its response channel
holds a response, `received` counts the responses put there. -/
structure Call where
  pc : CallPc := .enqueue
  expired : Bool := false
  writeResult : Option (Option WriteErr) := none
  inbox : Bool := false
  received : ℕ := 0
deriving DecidableEq, Repr

/-- Where the writer stands with the write in its hand. -/
inductive Stage
  | lookup
  | refuse
  | check
  | post
  | posted (checked : Bool)
  | fail (e : WriteErr)
  | report (r : Option WriteErr)
  | finish
  | mark
  | cancel
  | postCancel
  | abandonCancel (close : Bool)
deriving DecidableEq, Repr

inductive WriterPc
  | idle
  | busy (id : String) (control : Bool) (stage : Stage)
  | draining
  | stopped
deriving DecidableEq, Repr

/-- Where the reader stands; `notify` sends the offline response to the callers that were pending. -/
inductive ReaderPc
  | idle
  | deliver (id : String)
  | closing (ids : List String)
  | notify (ids : List String)
  | stopped
deriving DecidableEq, Repr

/-- A request frame, or the cancel frame of a request. -/
structure WireFrame where
  id : String
  cancel : Bool
deriving DecidableEq, Repr

def agentWriteQueueSize : ℕ := 128

structure AgentConn where
  closed : Bool := false
  done : Bool := false
  connClosed : Bool := false
  pending : List String := []
  sendStates : String → Option RequestSendState := fun _ => none
  send : List String := []
  control : List String := []
  calls : String → Option Call := fun _ => none
  writer : WriterPc := .idle
  reader : ReaderPc := .idle
  frames : List WireFrame := []

inductive CallAction
  | expire | enqueue | seeDone | seeExpired | seeWrite | seeResponse | removePending | classify | cancel
  | postCancel (viaDone : Bool) | abandonCancel | settle
deriving DecidableEq, Repr

inductive WriterAction
  | takeControl | takeSend | seeDone | lookup | refuse | check (expired : Bool) | post (e : Option WriteErr)
  | dropJob (e : WriteErr) | checkJob (expired : Bool) | runJob (e : Option WriteErr) | fail | report | finish
  | mark | cancel | postCancel (viaDone : Bool) | abandonCancel | drainSend | drainControl | stop
deriving DecidableEq, Repr

inductive ReaderAction
  | respond (id : String) | deliver | disconnect | closeDone | notify
deriving DecidableEq, Repr

inductive ConnAction
  | register (id : String)
  | call (id : String) (a : CallAction)
  | writer (a : WriterAction)
  | reader (a : ReaderAction)
deriving DecidableEq, Repr

namespace AgentConn

def setCall (s : AgentConn) (id : String) (c : Call) : AgentConn :=
  { s with calls := Function.update s.calls id (some c) }

def setState (s : AgentConn) (id : String) (st : Option RequestSendState) : AgentConn :=
  { s with sendStates := Function.update s.sendStates id st }

def finishSendState (s : AgentConn) (id : String) : AgentConn := s.setState id none

/-- The critical section of `requestAgentCancel`: the new send state, and whether to post a cancel
frame. -/
def requestAgentCancel : Option RequestSendState → Option RequestSendState × Bool
  | none => (none, false)
  | some st =>
    match st.phase with
    | .queued => (none, false)
    | .sending => (some { st with cancelAfterSend := true }, false)
    | .sent => (some { st with phase := .canceling }, true)
    | .canceling | .canceled => (some st, false)

/-- What the select that posts a cancel frame chooses. -/
inductive PostChoice
  | queue
  | abandon (close : Bool)
deriving DecidableEq, Repr

/-- The frame is queued, or given up because the connection is done or, closing it, because the queue
is full. -/
def postCancelSelect (s : AgentConn) (viaDone : Bool) : Option PostChoice :=
  if viaDone then
    if s.done then some (.abandon false) else none
  else if s.control.length < agentWriteQueueSize then some .queue
  else if s.done then none
  else some (.abandon true)

/-- Forget the send state of a cancel frame that could not be queued. -/
def abandonCancel (s : AgentConn) (id : String) (close : Bool) : AgentConn :=
  { s.finishSendState id with connClosed := s.connClosed || close }

/-- `callAgentOn` up to its registration; a request identifier is used once. -/
def register (s : AgentConn) (id : String) : Option AgentConn :=
  if (s.calls id).isSome then none
  else if s.closed || 128 ≤ s.pending.length || s.pending.contains id || (s.sendStates id).isSome then
    some (s.setCall id { pc := .returned .refused })
  else some { (s.setCall id {}).setState id (some {}) with pending := id :: s.pending }

def callStep (s : AgentConn) (id : String) (c : Call) : CallAction → Option AgentConn
  | .expire => some (s.setCall id { c with expired := true })
  | .enqueue =>
    if c.pc = .enqueue ∧ s.send.length < agentWriteQueueSize then
      some { s.setCall id { c with pc := .awaitWrite } with send := s.send ++ [id] }
    else none
  | .seeDone =>
    if (c.pc = .enqueue ∨ c.pc = .awaitWrite) ∧ s.done = true then
      some (s.setCall id { c with pc := .removePending .done })
    else none
  | .seeExpired =>
    if (c.pc = .enqueue ∨ c.pc = .awaitWrite ∨ c.pc = .awaitResponse) ∧ c.expired = true then
      some (s.setCall id { c with pc := .removePending .timeout })
    else none
  | .seeWrite =>
    match c.pc, c.writeResult with
    | .awaitWrite, some none => some (s.setCall id { c with pc := .awaitResponse })
    | .awaitWrite, some (some .context) => some (s.setCall id { c with pc := .removePending .writeTimeout })
    | .awaitWrite, some (some .other) => some (s.setCall id { c with pc := .removePending .writeError })
    | _, _ => none
  | .seeResponse =>
    if c.pc = .awaitResponse ∧ c.inbox = true then
      some (s.setCall id { c with pc := .settle, inbox := false })
    else none
  | .removePending =>
    match c.pc with
    | .removePending e => some { s.setCall id { c with pc := .classify e } with pending := s.pending.erase id }
    | _ => none
  | .classify =>
    match c.pc with
    | .classify .timeout => some (s.setCall id { c with pc := .cancel (agentTimeoutFor (s.sendStates id)) })
    | .classify .writeTimeout =>
      some (s.setCall id { c with pc := .returned (.failed (agentTimeoutFor (s.sendStates id))) })
    | .classify .done =>
      some (s.setCall id { c with pc := .returned (.failed (agentOfflineFor (s.sendStates id))) })
    | .classify .writeError =>
      some { s.setCall id { c with pc := .returned (.failed (agentOfflineFor (s.sendStates id))) } with
        connClosed := true }
    | _ => none
  | .cancel =>
    match c.pc with
    | .cancel f =>
      let (st, posts) := requestAgentCancel (s.sendStates id)
      some ((s.setState id st).setCall id
        { c with pc := if posts then .postCancel f else .returned (.failed f) })
    | _ => none
  | .postCancel viaDone =>
    match c.pc, s.postCancelSelect viaDone with
    | .postCancel f, some .queue =>
      some { s.setCall id { c with pc := .returned (.failed f) } with control := s.control ++ [id] }
    | .postCancel f, some (.abandon close) => some (s.setCall id { c with pc := .abandonCancel f close })
    | _, _ => none
  | .abandonCancel =>
    match c.pc with
    | .abandonCancel f close => some ((s.abandonCancel id close).setCall id { c with pc := .returned (.failed f) })
    | _ => none
  | .settle =>
    match c.pc with
    | .settle => some ((s.finishSendState id).setCall id { c with pc := .returned .response })
    | _ => none

/-! ### The writer -/

def goto (s : AgentConn) (pc : WriterPc) : AgentConn := { s with writer := pc }

/-- Send the result of a request write to its caller; the channel holds one result. -/
def sendResult (s : AgentConn) (id : String) (r : Option WriteErr) : Option AgentConn :=
  match s.calls id with
  | some c => if c.writeResult = none then some (s.setCall id { c with writeResult := some r }) else none
  | none => none

/-- `expired` is the state of the context of a write; a cancel frame has a context of its own. -/
def contextIs (s : AgentConn) (id : String) (control expired : Bool) : Bool :=
  control || match s.calls id with
    | some c => c.expired = expired
    | none => false

/-- Where the writer goes after it has reported `r` for a write. -/
def afterReport (s : AgentConn) (id : String) (control : Bool) : Option WriteErr → AgentConn
  | none => s.goto (.busy id control (if control then .finish else .mark))
  | some e =>
    if control = false ∧ e = .context then s.goto .idle
    else { s.goto .draining with connClosed := true }

/-- The steps of the writer with a write in its hand. -/
def busyStep (s : AgentConn) (id : String) (control : Bool) : Stage → WriterAction → Option AgentConn
  | .lookup, .lookup =>
    match s.sendStates id with
    | some st =>
      if st.phase = .canceled then some (s.goto (.busy id control .refuse))
      else some ((s.setState id (some { st with phase := .sending })).goto (.busy id control .check))
    | none => some (s.goto (.busy id control .refuse))
  | .refuse, .refuse => (s.sendResult id (some .context)).map fun s => s.goto .idle
  | .check, .check expired =>
    if s.contextIs id control expired then
      some (s.goto (.busy id control (if expired then .fail .context else .post)))
    else none
  | .post, .post none => some (s.goto (.busy id control (.posted false)))
  | .post, .post (some e) => some (s.goto (.busy id control (.fail e)))
  | .posted false, .dropJob e => some (s.goto (.busy id control (.fail e)))
  | .posted false, .checkJob expired =>
    if s.contextIs id control expired then
      some (s.goto (.busy id control (if expired then .fail .context else .posted true)))
    else none
  | .posted true, .runJob e =>
    some { s.goto (.busy id control (match e with | some e => .fail e | none => .report none)) with
      frames := s.frames ++ [⟨id, control⟩] }
  | .fail e, .fail => some ((s.finishSendState id).goto (.busy id control (.report (some e))))
  | .report r, .report =>
    if control then some (s.afterReport id control r)
    else (s.sendResult id r).map fun s => s.afterReport id control r
  | .finish, .finish => some ((s.finishSendState id).goto .idle)
  | .mark, .mark =>
    match s.sendStates id with
    | some st =>
      some ((s.setState id (some { st with phase := .sent })).goto
        (if st.cancelAfterSend then .busy id control .cancel else .idle))
    | none => some (s.goto .idle)
  | .cancel, .cancel =>
    let (st, posts) := requestAgentCancel (s.sendStates id)
    some ((s.setState id st).goto (if posts then .busy id control .postCancel else .idle))
  | .postCancel, .postCancel viaDone =>
    match s.postCancelSelect viaDone with
    | some .queue => some { s.goto .idle with control := s.control ++ [id] }
    | some (.abandon close) => some (s.goto (.busy id control (.abandonCancel close)))
    | none => none
  | .abandonCancel close, .abandonCancel => some ((s.abandonCancel id close).goto .idle)
  | _, _ => none

def writerStep (s : AgentConn) (a : WriterAction) : Option AgentConn :=
  match s.writer, a with
  | .idle, .takeControl =>
    match s.control with
    | id :: rest => some { s.goto (.busy id true .check) with control := rest }
    | [] => none
  | .idle, .takeSend =>
    match s.send with
    | id :: rest => some { s.goto (.busy id false .lookup) with send := rest }
    | [] => none
  | .idle, .seeDone => if s.done then some (s.goto .draining) else none
  | .busy id control stage, a => s.busyStep id control stage a
  | .draining, .drainSend =>
    match s.send with
    | id :: rest => ({ s with send := rest } : AgentConn).sendResult id (some .context)
    | [] => none
  | .draining, .drainControl =>
    match s.control with
    | _ :: rest => some { s with control := rest }
    | [] => none
  | .draining, .stop => if s.send = [] ∧ s.control = [] then some (s.goto .stopped) else none
  | _, _ => none

/-! ### The reader -/

/-- Put a response into the channel of a caller; it blocks while the channel is full. -/
def deliverTo (s : AgentConn) (id : String) : Option AgentConn :=
  match s.calls id with
  | some c =>
    if c.inbox = false then some (s.setCall id { c with inbox := true, received := c.received + 1 }) else none
  | none => none

def readerStep (s : AgentConn) (a : ReaderAction) : Option AgentConn :=
  match s.reader, a with
  | .idle, .respond id =>
    some { s.finishSendState id with
      pending := s.pending.erase id
      reader := if s.pending.contains id then .deliver id else .idle }
  | .deliver id, .deliver => (s.deliverTo id).map fun s => { s with reader := .idle }
  | .idle, .disconnect =>
    some { s with closed := true, pending := [], sendStates := fun _ => none, reader := .closing s.pending }
  | .closing ids, .closeDone => some { s with done := true, reader := .notify ids }
  | .notify (id :: ids), .notify => (s.deliverTo id).map fun s => { s with reader := .notify ids }
  | .notify [], .notify => some { s with connClosed := true, reader := .stopped }
  | _, _ => none

def step (s : AgentConn) : ConnAction → Option AgentConn
  | .register id => s.register id
  | .call id a =>
    match s.calls id with
    | some c => s.callStep id c a
    | none => none
  | .writer a => s.writerStep a
  | .reader a => s.readerStep a

def machine : Machine AgentConn ConnAction where
  step := step

end AgentConn
end Onprest.Gateway
