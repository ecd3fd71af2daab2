import Onprest.Ws.Transfers

/-! The goroutines of the transfer engine and the scheduler jobs that write its frames, as an
executable state machine. Every result the environment may choose (callback errors, a full scheduler
queue, the order in which jobs run, the end of a context) is part of the action. -/

namespace Onprest.Ws
open Lib Protocol

/-- A step of the goroutine that owns a transfer. -/
inductive Move
  | granted
  | opened (ok : Bool)
  | reserve
  | read (budget posted : Bool)
  | readClosed
  | drained (posted : Bool)
  | take
  | wrote (ok posted : Bool)
  | ended (ok : Bool)
  | submitted
  | abort
deriving DecidableEq, Repr

inductive Action
  | receive (request id : String) (ctx : Transfers.Context) (granted : Bool)
  | send (request id : String) (ctx : Transfers.Context) (source : List ReadResult)
  | sendOpen (request id : String) (ctx : Transfers.Context) (source : List ReadResult)
  | move (id : String) (m : Move)
  | retire (id : String)
  | accept (f : Frame)
  | check (ticket : ℕ) (err : Bool)
  | run (ticket : ℕ)
  | cancel (id : String)
  | cancelRequest (request : String)
  | close
  | finish
  | tick
  | handle (f : Frame)
deriving DecidableEq

namespace Transfers
variable (sha256 : List UInt8 → String)

/-- The blocking `send`: post the job and wait in `waiting`, or stop when the scheduler refuses it. -/
def submit (v : WireTransfer) (posted : Bool) (waiting : Pc) (j : Job) : Update :=
  if posted then { entry := { v with pc := waiting }, job := some j }
  else { entry := { v with pc := .stopped true } }

def chunkFrame (id : String) (v : WireTransfer) (body : List UInt8) : Frame :=
  { type := .transferChunk, id := v.request, transferID := id, sequence := v.next - 1,
    dataBase64 := Base64.encode body }

def ackFrame (id : String) (item : ReceiveItem) : Frame :=
  { type := .ack, transferID := id, sequence := item.frame.sequence }

def endFrame (id : String) (v : WireTransfer) : Frame :=
  { type := .transferEnd, id := v.request, transferID := id, size := v.hashed.length,
    sha256 := sha256 v.hashed }

/-- Where the sender goes after a read of at least one byte has been sent. -/
def afterSend : Option ReadErr → Pc
  | none => .reserve
  | some .eof => .drain
  | some .failed => .stopped true

/-- Where the sender goes after an empty read; no error and no bytes is `io.ErrNoProgress`. -/
def afterEmpty : Option ReadErr → Pc
  | some .eof => .drain
  | _ => .stopped true

def reserveStep (t : Transfers) (v : WireTransfer) : Option Update :=
  if v.pc = .reserve ∧ v.next - v.acked < transferWindow ∧ t.retained < connectionWindow then
    some { entry := { v with next := v.next + 1, pc := .read }, retain := 1 }
  else none

/-- The sender after `reader.Read` returned `r`. -/
def readResult (id : String) (v : WireTransfer) (r : ReadResult) (budget posted : Bool) : Update :=
  if r.bytes = [] then
    { entry := { v with next := v.next - 1, pc := afterEmpty r.err }, retain := -1 }
  else if budget then
    submit { v with hashed := v.hashed ++ r.bytes } posted (.sending r.err false)
      { frame := chunkFrame id v r.bytes, transfer := id, serial := v.serial, start := .sent }
  else { entry := { v with pc := .stopped true } }

def readStep (id : String) (v : WireTransfer) (budget posted : Bool) : Option Update :=
  if v.pc = .read then
    some (readResult id { v with source := v.source.tail } (v.source.headD .end) budget posted)
  else none

/-- The end of its context closes the source, whose blocked `Read` then fails. -/
def readClosedStep (t : Transfers) (id : String) (v : WireTransfer) : Option Update :=
  if v.pc = .read ∧ (v.cancelled || t.done) = true then
    some (readResult id v ⟨[], some .failed, nil_fits⟩ true true)
  else none

def drainStep (id : String) (v : WireTransfer) (posted : Bool) : Option Update :=
  if v.pc = .drain ∧ v.sent = v.acked then
    some (submit v posted (.ending false)
      { frame := endFrame sha256 id v, transfer := id, serial := v.serial, start := .none })
  else none

/-- The receiver takes the next item of its queue and calls the `write` or `end` callback. -/
def takeStep (id : String) (v : WireTransfer) : Option Update :=
  match v.pc, v.queue with
  | .select, item :: rest =>
    some { entry := { v with queue := rest, pc := .deliver item },
           out := [if item.frame.type = .transferEnd then .ended id item.frame else .write id item.body] }
  | _, _ => none

def wroteStep (id : String) (v : WireTransfer) (ok posted : Bool) : Option Update :=
  match v.pc with
  | .deliver item =>
    if item.frame.type = .transferEnd then none
    else if ok then
      some (submit v posted (.acking false)
        { frame := ackFrame id item, transfer := id, serial := v.serial, start := .acked })
    else some { entry := { v with pc := .stopped true } }
  | _ => none

def endedStep (v : WireTransfer) (ok : Bool) : Option Update :=
  match v.pc with
  | .deliver item =>
    if item.frame.type = .transferEnd then some { entry := { v with pc := .stopped (!ok) } } else none
  | _ => none

/-- The blocking `send` returns nil. -/
def submittedStep (v : WireTransfer) : Option Update :=
  match v.pc with
  | .acking true => some { entry := { v with pc := .select } }
  | .sending re true => some { entry := { v with pc := afterSend re } }
  | .ending true => some { entry := { v with pc := .stopped false } }
  | _ => none

/-- The places where the goroutine waits on its context besides what it waits for. -/
def waits (t : Transfers) (v : WireTransfer) : Bool :=
  match v.pc with
  | .select | .acking _ | .sending _ _ | .ending _ => true
  | .reserve => !(v.next - v.acked < transferWindow && t.retained < connectionWindow)
  | .drain => v.sent ≠ v.acked
  | _ => false

/-- A wait ends with the context of the transfer or of the connection; a posted job stays posted. -/
def abortStep (t : Transfers) (v : WireTransfer) : Option Update :=
  if ((v.cancelled || t.done) && t.waits v) = true then some { entry := { v with pc := .stopped true } }
  else none

def move (t : Transfers) (id : String) (v : WireTransfer) : Move → Option Update
  | .granted =>
    match v.pc with
    | .starting granted => some { entry := { v with granted, pc := .select } }
    | _ => none
  | .opened ok =>
    if v.pc = .opening then some { entry := { v with pc := if ok then .reserve else .stopped true } }
    else none
  | .reserve => t.reserveStep v
  | .read budget posted => readStep id v budget posted
  | .readClosed => t.readClosedStep id v
  | .drained posted => drainStep sha256 id v posted
  | .take => takeStep id v
  | .wrote ok posted => wroteStep id v ok posted
  | .ended ok => endedStep v ok
  | .submitted => submittedStep v
  | .abort => t.abortStep v

/-- Everything a goroutine can do in one step. -/
inductive Moved (t : Transfers) (id : String) (v : WireTransfer) : Update → Prop
  | granted {granted : Bool} (hpc : v.pc = .starting granted) :
      Moved t id v { entry := { v with granted, pc := .select } }
  | opened (hpc : v.pc = .opening) : Moved t id v { entry := { v with pc := .reserve } }
  | reserve (hpc : v.pc = .reserve) (hwindow : v.next - v.acked < transferWindow) :
      Moved t id v { entry := { v with next := v.next + 1, pc := .read }, retain := 1 }
  | read {r : ReadResult} (hpc : v.pc = .read) (hr : v.source.headD .end = r) (hbytes : r.bytes ≠ []) :
      Moved t id v
        { entry := { v with source := v.source.tail, hashed := v.hashed ++ r.bytes,
                            pc := .sending r.err false },
          job := some { frame := chunkFrame id v r.bytes, transfer := id, serial := v.serial,
                        start := .sent } }
  | empty {source : List ReadResult} {re : Option ReadErr} (hpc : v.pc = .read)
      (hread : re = some .eof → source = v.source.tail ∧ (v.source.headD .end).bytes = [] ∧
        (v.source.headD .end).err = some .eof) :
      Moved t id v { entry := { v with source, next := v.next - 1, pc := afterEmpty re }, retain := -1 }
  | drained (hpc : v.pc = .drain) (hsent : v.sent = v.acked) :
      Moved t id v
        { entry := { v with pc := .ending false },
          job := some { frame := endFrame sha256 id v, transfer := id, serial := v.serial, start := .none } }
  | take {item : ReceiveItem} {rest : List ReceiveItem} (hpc : v.pc = .select)
      (hqueue : v.queue = item :: rest) :
      Moved t id v
        { entry := { v with queue := rest, pc := .deliver item },
          out := [if item.frame.type = .transferEnd then .ended id item.frame else .write id item.body] }
  | wrote {item : ReceiveItem} (hpc : v.pc = .deliver item) (hchunk : item.frame.type ≠ .transferEnd) :
      Moved t id v
        { entry := { v with pc := .acking false },
          job := some { frame := ackFrame id item, transfer := id, serial := v.serial, start := .acked } }
  | ended {item : ReceiveItem} (hpc : v.pc = .deliver item) (hend : item.frame.type = .transferEnd) :
      Moved t id v { entry := { v with pc := .stopped false } }
  | acked (hpc : v.pc = .acking true) : Moved t id v { entry := { v with pc := .select } }
  | sent {re : Option ReadErr} (hpc : v.pc = .sending re true) :
      Moved t id v { entry := { v with pc := afterSend re } }
  | finished (hpc : v.pc = .ending true) : Moved t id v { entry := { v with pc := .stopped false } }
  | stop (source : List ReadResult) (hashed : List UInt8) :
      Moved t id v { entry := { v with source, hashed, pc := .stopped true } }

variable {t : Transfers} {id : String} {v : WireTransfer}

theorem readResult_moved (source : List ReadResult) {r : ReadResult} {budget posted : Bool} (hpc : v.pc = .read)
    (hr : source = v.source.tail ∧ v.source.headD .end = r ∨ r.err = some .failed ∧ r.bytes = []) :
    Moved sha256 t id v (readResult id { v with source } r budget posted) := by
  unfold readResult
  split
  · rename_i hempty
    refine .empty hpc fun heof => ?_
    obtain ⟨hsource, hr⟩ | ⟨hfailed, -⟩ := hr
    · exact ⟨hsource, hr ▸ hempty, hr ▸ heof⟩
    · exact absurd (hfailed.symm.trans heof) (by decide)
  · rename_i hbytes
    obtain ⟨hsource, hr⟩ | ⟨-, hempty⟩ := hr
    · cases budget with
      | false => exact .stop source v.hashed
      | true =>
        cases posted with
        | false => exact .stop source (v.hashed ++ r.bytes)
        | true =>
          subst hsource
          exact .read hpc hr hbytes
    · exact absurd hempty hbytes

theorem move_moved {m : Move} {u : Update} (hs : t.move sha256 id v m = some u) : Moved sha256 t id v u := by
  have hstop : Moved sha256 t id v { entry := { v with pc := .stopped true } } := .stop v.source v.hashed
  cases m with
  | granted =>
    simp only [move] at hs
    split at hs
    · cases hs
      exact .granted ‹_›
    · cases hs
  | opened ok =>
    simp only [move] at hs
    split at hs
    · cases hs
      cases ok with
      | true => exact .opened ‹_›
      | false => exact hstop
    · cases hs
  | reserve =>
    simp only [move, reserveStep] at hs
    split at hs
    · rename_i hc
      cases hs
      exact .reserve hc.1 hc.2.1
    · cases hs
  | read budget posted =>
    simp only [move, readStep] at hs
    split at hs
    · cases hs
      exact readResult_moved sha256 _ ‹_› (.inl ⟨rfl, rfl⟩)
    · cases hs
  | readClosed =>
    simp only [move, readClosedStep] at hs
    split at hs
    · rename_i hc
      cases hs
      exact readResult_moved sha256 v.source hc.1 (.inr ⟨rfl, rfl⟩)
    · cases hs
  | drained posted =>
    simp only [move, drainStep, submit] at hs
    split at hs
    · rename_i hc
      cases hs
      cases posted with
      | true => exact .drained hc.1 hc.2
      | false => exact hstop
    · cases hs
  | take =>
    simp only [move, takeStep] at hs
    split at hs
    · cases hs
      exact .take ‹_› ‹_›
    · cases hs
  | wrote ok posted =>
    simp only [move, wroteStep, submit] at hs
    split at hs
    · split at hs
      · cases hs
      · split at hs
        · cases hs
          cases posted with
          | true => exact .wrote ‹_› ‹_›
          | false => exact hstop
        · cases hs
          exact hstop
    · cases hs
  | ended ok =>
    simp only [move, endedStep] at hs
    split at hs
    · split at hs
      · cases hs
        cases ok with
        | true => exact .ended ‹_› ‹_›
        | false => exact hstop
      · cases hs
    · cases hs
  | submitted =>
    simp only [move, submittedStep] at hs
    split at hs
    · cases hs
      exact .acked ‹_›
    · cases hs
      exact .sent ‹_›
    · cases hs
      exact .finished ‹_›
    · cases hs
  | abort =>
    simp only [move, abortStep] at hs
    split at hs
    · cases hs
      exact hstop
    · cases hs

/-! ### Scheduler jobs -/

/-- The context of a job has ended: that of its transfer, which retirement cancels, or the
connection's. -/
def jobCancelled (t : Transfers) (j : Job) : Bool :=
  t.done ||
    match t.live.lookup j.transfer with
    | some v => v.serial ≠ j.serial || v.cancelled
    | none => true

/-- The context check of a job. The frame that grants credit has the context of its request, whose
state `err` the environment chooses. -/
def checkStep (t : Transfers) (ticket : ℕ) (err : Bool) : Option Transfers :=
  match t.jobs.lookup ticket with
  | some j =>
    if j.checked = true ∨ j.start ≠ .grant ∧ err ≠ t.jobCancelled j then none
    else if err then some { t with jobs := t.jobs.erase ticket }
    else some { t with jobs := t.jobs.insert ticket { j with checked := true } }
  | none => none

/-- The job's result reaches the goroutine that waits for it. -/
def markWritten : Pc → Pc
  | .acking _ => .acking true
  | .sending re _ => .sending re true
  | .ending _ => .ending true
  | pc => pc

/-- The write-start callback on the live transfer of a job. -/
def started (v : WireTransfer) : Start → Update
  | .sent => { entry := { v with sent := v.sent + 1, pc := markWritten v.pc } }
  | .acked => { entry := { v with acked := v.acked + 1, pc := markWritten v.pc }, retain := -1 }
  | _ => { entry := { v with pc := markWritten v.pc } }

/-- The write-start callback of a frame that carries no credit grant. -/
def startCallback (t : Transfers) (j : Job) : Transfers :=
  match t.live.lookup j.transfer with
  | some v => if v.serial = j.serial then t.apply j.transfer (started v j.start) else t
  | none => t

/-- The grant of initial credit; `none` is `ErrProtocol`, which keeps the frame from being written. -/
def grant (t : Transfers) (id : String) : Option Transfers :=
  match t.live.lookup id with
  | some v =>
    if v.sending || v.granted then none else some (t.apply id { entry := { v with granted := true } })
  | none => none

def runStep (t : Transfers) (ticket : ℕ) : Option (Transfers × List Output) :=
  match t.jobs.lookup ticket with
  | some j =>
    if j.checked = false then none
    else
      let t := { t with jobs := t.jobs.erase ticket }
      if j.start = .grant then
        match t.grant j.transfer with
        | some t => some (t, [.frame j.frame])
        | none => some (t, [])
      else some (t.startCallback j, [.frame j.frame])
  | none => none

/-! ### The machine -/

/-- End the context of one transfer: `Cancel`, or the end of the context it was opened with. -/
def cancel (t : Transfers) (id : String) : Transfers :=
  match t.live.lookup id with
  | some v => t.apply id { entry := { v with cancelled := true } }
  | none => t

def cancelWhere (t : Transfers) (p : WireTransfer → Bool) : Transfers :=
  { t with live := Table.map (fun v => if p v then { v with cancelled := true } else v) t.live }

def step (t : Transfers) : Action → Option (Transfers × List Output)
  | .receive request id ctx granted => some ((t.add ctx request id false (.starting granted) []).1, [])
  | .send request id ctx source => some ((t.add ctx request id true .reserve source).1, [])
  | .sendOpen request id ctx source => some ((t.add ctx request id true .opening source).1, [])
  | .move id m =>
    match t.live.lookup id with
    | some v => (t.move sha256 id v m).map fun u => (t.apply id u, u.out)
    | none => none
  | .retire id =>
    match t.live.lookup id with
    | some v =>
      match v.pc with
      | .stopped err => some (t.retire id v err, [])
      | _ => none
    | none => none
  | .accept f => some (t.post { frame := f, transfer := f.transferID, serial := 0, start := .grant }, [])
  | .check ticket err => (t.checkStep ticket err).map fun t => (t, [])
  | .run ticket => t.runStep ticket
  | .cancel id => some (t.cancel id, [])
  | .cancelRequest request => some (t.cancelWhere fun v => v.request = request, [])
  | .close => some ({ t.cancelWhere fun _ => true with closed := true }, [])
  | .finish => some ({ t with done := true }, [])
  | .tick => some ({ t with now := t.now + 1 }, [])
  | .handle f => some ((t.handle f).1, [])

/-- The engine with an arbitrary peer. -/
def machine : Machine Transfers Action where
  step t a := (t.step sha256 a).map (·.1)

end Transfers
end Onprest.Ws
