import Onprest.Contract.Error
import Onprest.Lib.Machine
import Mathlib.Data.Int.Notation
import Mathlib.Data.Nat.Notation

/-! A database mutation: `ExecutionController.Execute` around `dbProvider.ExecutePublication` and
`beginMutationTx`. The main goroutine, the watcher of the begin gate, the end of the execution context and
the rollback that database/sql makes for a transaction whose context has ended interleave step by step.
What a driver answers comes with the step. -/

namespace Onprest.Agent
open Lib Contract

/-! ### Effects -/

inductive EffectState
  | unknown | committed | rolledBack | uncertain
deriving DecidableEq, Repr

/-- `providers.Effects`; the handle of an effect is its position. -/
structure Effects where
  started : Bool := false
  noChange : Bool := false
  operations : List EffectState := []
deriving DecidableEq, Repr

namespace Effects

def start (e : Effects) : Effects := { e with started := true }

def setNoChange (e : Effects) : Effects := { e with noChange := true }

def begin (e : Effects) : Effects := { e with operations := e.operations ++ [.unknown] }

/-- `Effect.finish` of the effect at position `i`. -/
def finish (e : Effects) (i : ℕ) (state : EffectState) : Effects :=
  { e with operations := e.operations.modify i fun x =>
      if x = .unknown then state else if x ≠ state then .uncertain else x }

def outcome (e : Effects) : Outcome :=
  if !e.started then .notStarted
  else
    match e.operations with
    | [] => if e.noChange then .noChange else .unknown
    | .committed :: rest => if rest.all (· = .committed) then .committed else .unknown
    | .rolledBack :: rest => if rest.all (· = .rolledBack) then .rolledBack else .unknown
    | _ :: _ => .unknown

end Effects

/-! ### Errors -/

/-- A driver error as `classifyDBError` and `isDBUnreachable` see it. -/
inductive DbErr
  | constraint | unreachable | other
deriving DecidableEq, Repr

/-- An error `ExecutePublication` returns: a `providers.Failure`, an `OutputError` or another one. -/
inductive ProviderErr
  | failure (code reason : String)
  | output (code : String)
  | plain
deriving DecidableEq, Repr

def executionMessage (code : String) : String :=
  if code = "INVALID_REQUEST" then "request is invalid"
  else if code = "VALIDATION_FAILED" then "input does not satisfy the configured contract"
  else if code = "NOT_FOUND" then "capability is not available"
  else if code = "CONFLICT" then "operation conflicts with current state"
  else if code = "RATE_LIMITED" then "capability rate limit exceeded"
  else if code = "BUSY" then "execution capacity is busy"
  else if code = "EXECUTION_TIMEOUT" then "execution exceeded the configured deadline"
  else if code = "OUTPUT_INVALID" then "output does not satisfy the configured contract"
  else if code = "LIMIT_EXCEEDED" then "output exceeds the configured limit"
  else "capability execution failed"

/-! ### The state -/

inductive Driver
  | postgres | mysql | sqlserver | oracle
deriving DecidableEq, Repr

/-- The capability: its driver, `max_affected_rows`, and whether the request has file input. -/
structure Config where
  driver : Driver
  maxAffectedRows : Option ℤ
  hasInput : Bool

inductive BeginState
  | notStarted | started | canceledWithTx | outcomeUnknown
deriving DecidableEq, Repr

inductive Gate
  | pending | started | canceled
deriving DecidableEq, Repr

inductive Watcher
  | idle | running | done
deriving DecidableEq, Repr

/-- What was asked of database/sql and how it answered. -/
inductive Event
  | begun
  | sent
  | commit (ok : Bool)
  | rollback (ok : Bool)
deriving DecidableEq, Repr

/-- What has become of the transaction in the database, as far as the driver's answers tell. -/
inductive Fate
  | none | open | committed | rolledBack | doubtful
deriving DecidableEq, Repr

/-- Where the main goroutine is. -/
inductive Pc
  | admission | startInput | build | connect | arm | check | beginTx
  | begun
  | beginFailed (e : DbErr)
  | beginFailedGate (e : DbErr)
  | stopWatcher (state : BeginState) (e : DbErr)
  | opened (state : BeginState) (e : DbErr)
  | exec | rowsAffected | publish | recheck | commit
  | rollback (cause : ProviderErr)
  | leave (result : Except ProviderErr Unit)
  | respond (result : Except ProviderErr Unit)
  | releaseInput (result : Except ErrorValue Unit)
  | unwind
  | recover
  | returned (result : Except ErrorValue Unit)

/-- `tx` is the transaction of `mutationTx`, with whether database/sql is done with it. -/
structure State where
  pc : Pc := .admission
  expired : Bool := false
  gate : Gate := .pending
  watcher : Watcher := .idle
  stop : Bool := false
  startCanceled : Bool := false
  lifetimeOver : Bool := false
  tx : Option Bool := none
  beginState : BeginState := .notStarted
  terminal : Bool := false
  discard : Bool := false
  effects : Effects := {}
  log : List Event := []
  fate : Fate := .none

/-- Steps of the other goroutines. -/
inductive Env
  /-- the execution context ends -/
  | expire
  /-- the watcher sees the end of the execution context -/
  | watch
  /-- the watcher sees the stop channel closed -/
  | watchStop
  /-- database/sql rolls the transaction back after the end of its context -/
  | awaitDone (ok : Bool)
deriving DecidableEq, Repr

/-- Steps of the main goroutine until `beginMutationTx` has returned. -/
inductive Opening
  | refuse (code : String)
  | admission
  | startInput (ok : Bool)
  | build (ok : Bool)
  | connect (result : Except DbErr Unit)
  | arm
  | check
  | beginTx (result : Except DbErr Unit)
  | gate
  | stopWatcher
  | watcherDone
  | opened

/-- Steps of the main goroutine after that. -/
inductive Running
  | exec (result : Except DbErr Unit)
  | rowsAffected (result : Except DbErr ℤ)
  | publish (result : Except ProviderErr Unit)
  | recheck
  | commit (result : Except DbErr Unit)
  | rollback (ok : Bool)
  | panic
  | leave
  | respond
  | releaseInput (ok : Bool)
  | unwind (ok : Bool)
  | recover

inductive Act
  | env (a : Env)
  | opening (a : Opening)
  | running (a : Running)

/-- The codes `Execute` refuses a request with before it starts. -/
def refusals : List String :=
  ["EXECUTION_TIMEOUT", "INVALID_REQUEST", "NOT_FOUND", "CONFLICT", "EXECUTION_FAILED", "VALIDATION_FAILED",
    "RATE_LIMITED", "BUSY"]

namespace State

def fail (s : State) (code : String) : ErrorValue :=
  { code := code, message := executionMessage code, outcome := s.effects.outcome }

/-- `dbProvider.failure`. -/
def failure (s : State) (e : DbErr) : ProviderErr :=
  if s.expired then .failure "EXECUTION_TIMEOUT" "DATABASE_TIMEOUT"
  else
    match e with
    | .constraint => .failure "CONFLICT" "DATABASE_CONSTRAINT"
    | .unreachable => .failure "DEPENDENCY_UNAVAILABLE" "DATABASE_UNAVAILABLE"
    | .other => .failure "EXECUTION_FAILED" "DATABASE_QUERY_FAILED"

/-- The context the transaction was begun with has ended. -/
def txContextOver (c : Config) (s : State) : Bool :=
  if c.driver = .oracle then s.lifetimeOver else s.startCanceled || s.lifetimeOver

/-- `gate.CompareAndSwap(0, 2)` and, if it succeeds, `cancelStart`. -/
def cancelGate (s : State) : State :=
  if s.gate = .pending then { s with gate := .canceled, startCanceled := true } else s

/-- `Tx.Rollback` of database/sql: an error if the transaction is done, else what the driver answers. -/
def rollbackTx (s : State) (ok : Bool) : Bool × State :=
  if s.tx = some false then
    (ok, { s with tx := some true, fate := if ok then .rolledBack else .doubtful, log := s.log ++ [.rollback ok] })
  else (false, { s with log := s.log ++ [.rollback false] })

/-- The step of the main goroutine when `beginMutationTx` has returned. -/
def afterBegin (s : State) (state : BeginState) (e : DbErr) : State :=
  match state with
  | .outcomeUnknown =>
    { s with
      effects := s.effects.begin
      pc := .leave (.error (.failure "OUTCOME_UNKNOWN" "TRANSACTION_START_UNKNOWN")) }
  | .notStarted => { s with effects := s.effects.setNoChange, pc := .leave (.error (s.failure e)) }
  | .canceledWithTx => { s with effects := s.effects.begin, beginState := state, pc := .rollback (s.failure e) }
  | .started => { s with effects := s.effects.begin, beginState := state, pc := .exec }

/-- The `rollback` closure. -/
def rollbackDone (c : Config) (s : State) (ok : Bool) (cause : ProviderErr) : State :=
  let rb := s.rollbackTx ok
  if rb.1 then
    { rb.2 with
      terminal := true
      effects := s.effects.finish 0 .rolledBack
      discard := s.discard || (s.beginState = .canceledWithTx && c.driver = .oracle)
      pc := .leave (.error cause) }
  else
    { rb.2 with
      terminal := true
      discard := true
      pc := .leave (.error (.failure "OUTCOME_UNKNOWN" "ROLLBACK_UNKNOWN")) }

/-- `Tx.Commit` of database/sql: an error if the transaction is done or its context has ended, else what
the driver answers. -/
def commitTx (c : Config) (s : State) (ok : Bool) : Bool × State :=
  if s.tx ≠ some false ∨ s.txContextOver c = true then (false, { s with log := s.log ++ [.commit false] })
  else
    (ok, { s with tx := some true, fate := if ok then .committed else .doubtful, log := s.log ++ [.commit ok] })

def commitDone (c : Config) (s : State) (ok : Bool) : State :=
  let r := s.commitTx c ok
  if r.1 then { r.2 with terminal := true, effects := s.effects.finish 0 .committed, pc := .leave (.ok ()) }
  else
    { r.2 with
      terminal := true
      discard := true
      pc := .leave (.error (.failure "OUTCOME_UNKNOWN" "COMMIT_UNKNOWN")) }

/-- The public error of `Execute` for an error of the provider. -/
def publicError (s : State) (e : ProviderErr) : ErrorValue :=
  match e with
  | .failure code reason =>
    if code = "OUTCOME_UNKNOWN" then
      let v := { s.fail "OUTCOME_UNKNOWN" with reason := reason }
      if v.validate then v else { v with reason := "" }
    else if s.expired then s.fail "EXECUTION_TIMEOUT"
    else
      let v := { s.fail code with reason := reason }
      if !"APP_".toList.isPrefixOf code.toList && v.validate then v else s.fail "EXECUTION_FAILED"
  | .output code => if s.expired then s.fail "EXECUTION_TIMEOUT" else s.fail code
  | .plain => if s.expired then s.fail "EXECUTION_TIMEOUT" else s.fail "EXECUTION_FAILED"

/-- What `Execute` makes of the result of the provider. -/
def response (s : State) : Except ProviderErr Unit → Except ErrorValue Unit
  | .error e => .error (s.publicError e)
  | .ok () =>
    if s.expired ∧ s.effects.outcome ≠ .committed then .error (s.fail "EXECUTION_TIMEOUT") else .ok ()

/-- The main goroutine is inside the provider, where a panic unwinds through its deferred rollback. -/
def inProvider (s : State) : Bool :=
  match s.pc with
  | .build | .connect | .arm | .check | .beginTx | .begun | .beginFailed _ | .beginFailedGate _ | .stopWatcher ..
  | .opened .. | .exec | .rowsAffected | .publish | .recheck | .commit | .rollback _ => true
  | _ => false

def stepEnv (c : Config) (s : State) : Env → Option State
  | .expire => if s.expired then none else some { s with expired := true }
  | .watch => if s.watcher = .running ∧ s.expired = true then some { s.cancelGate with watcher := .done } else none
  | .watchStop => if s.watcher = .running ∧ s.stop = true then some { s with watcher := .done } else none
  | .awaitDone ok =>
    if s.tx = some false ∧ s.txContextOver c = true then
      some { s with tx := some true, fate := if ok then .rolledBack else .doubtful }
    else none

def stepOpening (c : Config) (s : State) : Opening → Option State
  | .refuse code =>
    match s.pc with
    | .admission => if code ∈ refusals then some { s with pc := .returned (.error (s.fail code)) } else none
    | _ => none
  | .admission =>
    match s.pc with
    | .admission =>
      some (if c.hasInput then { s with pc := .startInput } else { s with pc := .build, effects := s.effects.start })
    | _ => none
  | .startInput ok =>
    match s.pc with
    | .startInput =>
      some (if ok then { s with pc := .build, effects := s.effects.start }
        else { s with pc := .returned (.error (s.fail "VALIDATION_FAILED")) })
    | _ => none
  | .build ok =>
    match s.pc with
    | .build =>
      some (if ok then { s with pc := .connect }
        else { s with effects := s.effects.setNoChange, pc := .leave (.error .plain) })
    | _ => none
  | .connect result =>
    match s.pc, result with
    | .connect, .ok () => some { s with pc := .arm }
    | .connect, .error e => some { s with pc := .opened .notStarted e }
    | _, _ => none
  | .arm =>
    match s.pc with
    | .arm => some { s with watcher := .running, pc := .check }
    | _ => none
  | .check =>
    match s.pc with
    | .check => some { (if s.expired then s.cancelGate else s) with pc := .beginTx }
    | _ => none
  | .beginTx result =>
    match s.pc, result with
    | .beginTx, .ok () => some { s with tx := some false, fate := .open, log := s.log ++ [.begun], pc := .begun }
    | .beginTx, .error e => some { s with pc := .beginFailed e }
    | _, _ => none
  | .gate =>
    match s.pc with
    | .begun =>
      some (if s.gate = .pending then { s with gate := .started, pc := .stopWatcher .started .other }
        else { s with pc := .stopWatcher .canceledWithTx .other })
    | .beginFailed e =>
      some (if s.gate = .canceled then { s with pc := .stopWatcher .outcomeUnknown e }
        else { s with pc := .beginFailedGate e })
    | .beginFailedGate e =>
      some { s with gate := if s.gate = .pending then .started else s.gate, pc := .stopWatcher .notStarted e }
    | _ => none
  | .stopWatcher =>
    match s.pc with
    | .stopWatcher .. => if s.stop then none else some { s with stop := true }
    | _ => none
  | .watcherDone =>
    match s.pc with
    | .stopWatcher state e =>
      if s.stop = true ∧ s.watcher = .done then
        -- without a transaction the contexts are released and a canceled connection is discarded
        match state with
        | .started | .canceledWithTx => some { s with pc := .opened state e }
        | .notStarted => some { s with startCanceled := true, lifetimeOver := true, pc := .opened state e }
        | .outcomeUnknown =>
          some { s with startCanceled := true, lifetimeOver := true, discard := true, pc := .opened state e }
      else none
    | _ => none
  | .opened =>
    match s.pc with
    | .opened state e => some (s.afterBegin state e)
    | _ => none

def stepRunning (c : Config) (s : State) : Running → Option State
  | .exec result =>
    match s.pc with
    | .exec =>
      -- a transaction that is done refuses the statement
      let s' := if s.tx = some false then { s with log := s.log ++ [.sent] } else s
      match result with
      | .ok () => if s.tx = some false then some { s' with pc := .rowsAffected } else none
      | .error e => some { s' with pc := .rollback (s.failure e) }
    | _ => none
  | .rowsAffected result =>
    match s.pc, result with
    | .rowsAffected, .error e => some { s with pc := .rollback (s.failure e) }
    | .rowsAffected, .ok count =>
      some (if count < 0 then { s with pc := .rollback (s.failure .other) }
        else if c.maxAffectedRows.any (· < count) then
          { s with pc := .rollback (.failure "LIMIT_EXCEEDED" "AFFECTED_ROWS_EXCEEDED") }
        else { s with pc := .publish })
    | _, _ => none
  | .publish result =>
    match s.pc, result with
    | .publish, .ok () => some { s with pc := .recheck }
    | .publish, .error e => some { s with pc := .rollback e }
    | _, _ => none
  | .recheck =>
    match s.pc with
    | .recheck =>
      some (if s.expired then { s with pc := .rollback (s.failure .other) } else { s with pc := .commit })
    | _ => none
  | .commit result =>
    match s.pc with
    | .commit => some (s.commitDone c result.isOk)
    | _ => none
  | .rollback ok =>
    match s.pc with
    | .rollback cause => some (s.rollbackDone c ok cause)
    | _ => none
  | .panic => if s.inProvider then some { s with pc := .unwind } else none
  | .leave =>
    match s.pc with
    | .leave result => some { s with startCanceled := true, lifetimeOver := true, pc := .respond result }
    | _ => none
  | .respond =>
    match s.pc with
    | .respond result =>
      some (if c.hasInput then { s with pc := .releaseInput (s.response result) }
        else { s with pc := .returned (s.response result) })
    | _ => none
  | .releaseInput ok =>
    match s.pc with
    | .releaseInput result =>
      some { s with pc := .returned (match result with
        | .ok () => if ok then .ok () else .error (s.fail "EXECUTION_FAILED")
        | .error e => .error e) }
    | _ => none
  | .unwind ok =>
    match s.pc with
    | .unwind =>
      -- the deferred rollback is made only for a transaction that was handed to the provider
      let s := if s.tx.isSome ∧ s.terminal = false ∧ s.effects.operations ≠ [] then (s.rollbackTx ok).2 else s
      some { s with startCanceled := true, lifetimeOver := true, pc := .recover }
    | _ => none
  | .recover =>
    match s.pc with
    | .recover =>
      some { s with pc := .returned (.error
        (s.fail (if s.expired then "EXECUTION_TIMEOUT" else "EXECUTION_FAILED"))) }
    | _ => none

def step (c : Config) (s : State) : Act → Option State
  | .env a => s.stepEnv c a
  | .opening a => s.stepOpening c a
  | .running a => s.stepRunning c a

def machine (c : Config) : Machine State Act where
  step := step c

end State
end Onprest.Agent
