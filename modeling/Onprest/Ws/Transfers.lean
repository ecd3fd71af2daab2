import Onprest.Lib.Machine
import Onprest.Lib.Table
import Onprest.Protocol.Frame

/-! The transfer engine of one connection. A transfer is driven by one goroutine, whose position is
part of its table entry; frames are written by scheduler jobs that first check the context and then,
as a separate step, run the write-start callback and write. -/

namespace Onprest.Ws
open Lib Protocol

/-- The error of a read: the end of the stream or a failure of the source. -/
inductive ReadErr
  | eof | failed
deriving DecidableEq, Repr

/-- One result of the source reader, within the chunk buffer it was given. -/
structure ReadResult where
  bytes : List UInt8
  err : Option ReadErr
  fits : bytes.length ≤ chunkBytes
deriving DecidableEq

theorem nil_fits : ([] : List UInt8).length ≤ chunkBytes := Nat.zero_le _

/-- What a source that has nothing left returns. -/
def ReadResult.end : ReadResult := ⟨[], some .eof, nil_fits⟩

structure ReceiveItem where
  frame : Frame
  body : List UInt8
deriving DecidableEq, Repr

/-- Where the goroutine of a transfer stands. `written` says that the job of its blocking send has
succeeded; `stopped` is the deferred retirement, with whether the goroutine returned an error. -/
inductive Pc
  | starting (granted : Bool)
  | select
  | deliver (item : ReceiveItem)
  | acking (written : Bool)
  | opening
  | reserve
  | read
  | sending (re : Option ReadErr) (written : Bool)
  | drain
  | ending (written : Bool)
  | stopped (err : Bool)
deriving DecidableEq, Repr

/-- A live transfer. `serial` is its identity (the code compares pointers), `cancelled` the state of
its context, `hashed` the bytes fed to the digest so far. The counters of chunks are unbounded: that an
`int64` wraps after 2^63 chunks is not considered. -/
structure WireTransfer where
  serial : ℕ
  request : String
  sending : Bool
  cancelled : Bool := false
  queue : List ReceiveItem := []
  next : ℤ := 0
  acked : ℤ := 0
  sent : ℤ := 0
  ending : Bool := false
  granted : Bool := false
  expiry : ℕ
  pc : Pc
  source : List ReadResult := []
  hashed : List UInt8 := []
deriving DecidableEq

/-- What remains of a transfer during its grace period. -/
structure RetiredTransfer where
  expiry : ℕ
  request : String
  sending : Bool
  canceled : Bool
  ending : Bool
  next : ℤ
  acked : ℤ
  sent : ℤ
deriving DecidableEq, Repr

/-- The write-start callback of a frame. -/
inductive Start
  | sent | acked | grant | none
deriving DecidableEq, Repr

/-- A posted frame; `checked` once its context check has passed. -/
structure Job where
  frame : Frame
  transfer : String
  serial : ℕ
  start : Start
  checked : Bool := false
deriving DecidableEq, Repr

/-- The engine together with its share of the scheduler: `done` is the end of the connection context,
`now` the clock in seconds. -/
structure Transfers where
  live : Table String WireTransfer := ∅
  recent : Table String RetiredTransfer := ∅
  retained : ℤ := 0
  closed : Bool := false
  done : Bool := false
  now : ℕ := 0
  serial : ℕ := 0
  jobs : Table ℕ Job := ∅
  tickets : ℕ := 0

/-- What a step shows outside the engine: a frame put on the connection, or a call of the receiver's
`write` or `end` callback. -/
inductive Output
  | frame (f : Frame)
  | write (id : String) (body : List UInt8)
  | ended (id : String) (f : Frame)
deriving DecidableEq, Repr

/-- What a step does with one transfer: its new entry, the change of `retained`, the frame it posts
and the callback it runs. -/
structure Update where
  entry : WireTransfer
  retain : ℤ := 0
  job : Option Job := none
  out : List Output := []
deriving DecidableEq

inductive HandleResult
  | ok | errNotFound | errProtocol
  /-- The `ErrProtocol` returned from the default branch of the receive queue. -/
  | queueFull
deriving DecidableEq, Repr

inductive AddError
  | canceled | capacity | protocol
deriving DecidableEq, Repr

/-- The results that are `ErrProtocol`. -/
def HandleResult.isProtocol : HandleResult → Bool
  | .errProtocol | .queueFull => true
  | _ => false

namespace Transfers

def set (t : Transfers) (id : String) (v : WireTransfer) : Transfers :=
  { t with live := t.live.insert id v }

def post (t : Transfers) (j : Job) : Transfers :=
  { t with jobs := t.jobs.insert t.tickets j, tickets := t.tickets + 1 }

/-- Carry out a step on the transfer `id`. -/
def apply (t : Transfers) (id : String) (u : Update) : Transfers :=
  let t := { t.set id u.entry with retained := t.retained + u.retain }
  match u.job with
  | some j => t.post j
  | none => t

/-! ### Handling a frame of the peer -/

/-- The answer to a frame of a transfer that is neither live nor in its grace period. -/
def handleUnknown (t : Transfers) (f : Frame) : Transfers × HandleResult :=
  if f.type = .transferCancel then (t, .errNotFound) else (t, .errProtocol)

def handleRetired (t : Transfers) (f : Frame) (r : RetiredTransfer) : Transfers × HandleResult :=
  if f.type = .ack ∧ r.sending = true ∧ f.sequence = r.acked ∧ r.acked < r.sent then
    ({ t with recent := t.recent.insert f.transferID { r with acked := r.acked + 1 } }, .ok)
  else if f.id ≠ r.request then (t, .errProtocol)
  else if f.type = .transferCancel then (t, .ok)
  else if r.sending = false ∧ r.ending = false then
    if f.type = .transferChunk ∧ f.sequence = r.next ∧ r.next - r.acked < transferWindow then
      ({ t with recent := t.recent.insert f.transferID { r with next := r.next + 1 } }, .ok)
    else if f.type = .transferEnd then
      ({ t with recent := t.recent.insert f.transferID { r with ending := true } }, .ok)
    else t.handleUnknown f
  else t.handleUnknown f

/-- The capacity of the receive queue of one transfer. -/
def queueCapacity : ℕ := 5

def enqueue (v : WireTransfer) (item : ReceiveItem) (retain : ℤ) : Option Update × HandleResult :=
  if v.queue.length < queueCapacity then
    (some { entry := { v with queue := v.queue ++ [item] }, retain }, .ok)
  else (some { entry := v, retain }, .queueFull)

def handleLive (t : Transfers) (f : Frame) (v : WireTransfer) : Option Update × HandleResult :=
  if f.type = .ack then
    if v.sending = false ∨ f.sequence ≠ v.acked ∨ v.sent ≤ v.acked then (none, .errProtocol)
    else (some { entry := { v with acked := v.acked + 1 }, retain := -1 }, .ok)
  else if f.id ≠ v.request then (none, .errProtocol)
  else if f.type = .transferCancel then (some { entry := { v with cancelled := true } }, .ok)
  else if v.sending = true ∨ v.ending = true ∨ v.granted = false then (none, .errProtocol)
  else if f.type = .transferChunk then
    if f.sequence ≠ v.next ∨ transferWindow ≤ v.next - v.acked ∨ connectionWindow ≤ t.retained then
      (none, .errProtocol)
    else
      match f.chunk with
      | none => (none, .errProtocol)
      | some b => enqueue { v with next := v.next + 1 } ⟨f, b⟩ 1
  else if f.type = .transferEnd then enqueue { v with ending := true } ⟨f, []⟩ 0
  else (none, .errProtocol)

def handle (t : Transfers) (f : Frame) : Transfers × HandleResult :=
  match t.live.lookup f.transferID with
  | some v =>
    match t.handleLive f v with
    | (some u, result) => (t.apply f.transferID u, result)
    | (none, result) => (t, result)
  | none =>
    match t.recent.lookup f.transferID with
    | some r => if r.canceled = true ∧ t.now < r.expiry then t.handleRetired f r else t.handleUnknown f
    | none => t.handleUnknown f

/-! ### Opening and retiring -/

/-- The context a transfer is opened with: whether it has ended, and its deadline. -/
structure Context where
  err : Bool := false
  deadline : Option ℕ
deriving DecidableEq, Repr

def prune (t : Transfers) : Transfers :=
  { t with recent := Table.filter (fun r => t.now < r.expiry) t.recent }

/-- Reserve an entry, dropping the retired transfers whose grace period has ended. -/
def add (t : Transfers) (ctx : Context) (request id : String) (sending : Bool) (pc : Pc)
    (source : List ReadResult) : Transfers × Except AddError WireTransfer :=
  if t.closed = true ∨ ctx.err = true ∨ t.done = true then (t, .error .canceled)
  else
    let t := t.prune
    if connectionWindow / transferWindow ≤ Table.size t.live ∨
        4096 ≤ Table.size t.live + Table.size t.recent then (t, .error .capacity)
    else if validID request = false ∨ validID id = false ∨ (t.live.lookup id).isSome ∨
        (t.recent.lookup id).isSome then (t, .error .protocol)
    else
      match ctx.deadline with
      | none => (t, .error .protocol)
      | some deadline =>
        let v : WireTransfer := { serial := t.serial, request, sending, expiry := deadline, pc, source }
        ({ t.set id v with serial := t.serial + 1 }, .ok v)

/-- The grace period of a retired transfer in seconds. -/
def grace : ℕ := 5

def retire (t : Transfers) (id : String) (v : WireTransfer) (err : Bool) : Transfers :=
  { t with
    live := t.live.erase id
    recent := t.recent.insert id
      { expiry := v.expiry + grace, request := v.request, sending := v.sending,
        canceled := err || v.cancelled, ending := v.ending, next := v.next, acked := v.acked,
        sent := v.sent }
    retained := t.retained - (v.next - v.acked) }

end Transfers
end Onprest.Ws
