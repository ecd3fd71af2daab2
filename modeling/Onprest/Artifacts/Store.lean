import Onprest.Lib.Machine
import Mathlib.Logic.Function.Basic
import Mathlib.Algebra.Order.Ring.Int

/-! The private artifact store of the agent: quota reservations, staged files with their readers, input
requests and output scopes. Every exported operation runs under the store's mutex, so an operation is one
step. Handles are numbers; a handle that has left the store's tables can still be used, as a Go pointer
can. What the operating system answers is popped from a list that comes with the step. -/

namespace Onprest.Artifacts
open Lib

structure Owner where
  requestID : String
  callerBinding : String
  capability : String
  definitionHash : String
  authGeneration : String
deriving DecidableEq, Repr

def Owner.valid (o : Owner) : Bool :=
  [o.requestID, o.callerBinding, o.capability, o.definitionHash, o.authGeneration].all fun s =>
    s ≠ "" && s.utf8ByteSize ≤ 256 && !s.toList.contains '\x00'

inductive Code
  | validationFailed | permissionDenied | notFound | busy | conflict | limitExceeded | executionFailed
  | executionTimeout | outputInvalid | dependencyUnavailable
deriving DecidableEq, Repr

structure ArtifactMetadata where
  name : String
  mimeType : String
  sizeBytes : ℤ
  sha256 : String
deriving DecidableEq, Repr

structure FileValue where
  pointer : String
  id : ℕ
  requestID : String
  name : String
  mimeType : String
  sizeBytes : ℤ
  sha256 : String
deriving DecidableEq, Repr

structure FileLeaf where
  pointer : String
  value : FileValue
deriving DecidableEq, Repr

structure Limits where
  maxFileBytes : ℤ
  maxTotalFileBytes : ℤ
  maxFiles : ℤ
deriving DecidableEq, Repr

structure OutputLimits where
  maxFileBytes : ℤ
  maxTotalBytes : ℤ
  maxFiles : ℤ
  ttl : ℤ
deriving DecidableEq, Repr

/-- The file rule of a schema leaf. -/
structure FileRule where
  maxBytes : ℤ
  validate : FileValue → Bool

/-- A compiled capability as the store uses it: `fileAt` is the file rule of `schemaAt`, and
`validateInput` gives the normalized parameters and their file leaves. -/
structure Capability (P : Type) where
  name : String
  limits : Limits
  hasFile : Bool
  fileAt : String → Option FileRule
  validateInput : P → Option (P × List FileLeaf)

/-- The options a store is opened with, and the functions it takes from elsewhere: the digest, and the
check of a file name and media type. -/
structure Setup where
  quotaBytes : ℤ
  maxPending : ℕ
  maxObjects : ℕ
  sha256 : List UInt8 → String
  validFile : String → String → Bool
  quota_pos : 1 ≤ quotaBytes
  pending_pos : 1 ≤ maxPending
  objects_pos : 1 ≤ maxObjects

structure Reservation where
  bytes : ℤ
  released : Bool := false
deriving DecidableEq, Repr

inductive Kind
  | input | output
deriving DecidableEq, Repr

/-- A staged file. `data` is the content of its file in the spool directory and `onDisk` says that the
file is still there. -/
structure Stage where
  owner : Owner
  kind : Kind
  name : String
  mime : String
  ctxDone : Bool := false
  fileOpen : Bool := true
  hashed : List UInt8 := []
  size : ℕ := 0
  reserved : ℕ := 0
  sealed : Bool := false
  ready : Bool := false
  retained : Bool := false
  retired : Bool := false
  writeErr : Bool := false
  readers : List ℕ := []
  request : Option ℕ := none
  scope : Option ℕ := none
  onDisk : Bool := true
  data : List UInt8 := []
deriving DecidableEq, Repr

structure Reader where
  stage : ℕ
  cancelled : Bool := false
  closed : Bool := false
deriving DecidableEq, Repr

inductive ReqState
  | receiving | ready | executing | aborted | released
deriving DecidableEq, Repr

/-- An input request. `ctxDone` and `execution` say whether the input context and, once started, the
execution context have ended. -/
structure Request (P : Type) where
  owner : Owner
  capability : Capability P
  limits : Limits
  ctxDone : Bool := false
  execution : Option Bool := none
  state : ReqState := .receiving
  files : List (String × ℕ) := []
  bytes : ℕ := 0
  started : Bool := false

structure OutputScope where
  owner : Owner
  limits : OutputLimits
  stages : List ℕ := []
  bytes : ℕ := 0
  published : Bool := false
deriving DecidableEq, Repr

/-- The store: what each handle refers to, the tables of the store, and the answers of the operating
system to come (`true` for success). -/
structure Store (P : Type) where
  used : ℤ := 0
  readers : ℤ := 0
  closed : Bool := false
  poisoned : Bool := false
  stages : List ℕ := []
  requests : List ℕ := []
  reservations : List ℕ := []
  stageAt : ℕ → Option Stage := fun _ => none
  requestAt : ℕ → Option (Request P) := fun _ => none
  reservationAt : ℕ → Option Reservation := fun _ => none
  scopeAt : ℕ → Option OutputScope := fun _ => none
  readerAt : ℕ → Option Reader := fun _ => none
  faults : List Bool := []

def Stage.metadata (e : Setup) (st : Stage) : ArtifactMetadata :=
  { name := st.name, mimeType := st.mime, sizeBytes := st.size, sha256 := e.sha256 st.hashed }

def FileValue.metadata (v : FileValue) : ArtifactMetadata :=
  { name := v.name, mimeType := v.mimeType, sizeBytes := v.sizeBytes, sha256 := v.sha256 }

namespace Store
variable {P : Type}

def setStage (s : Store P) (id : ℕ) (st : Stage) : Store P :=
  { s with stageAt := Function.update s.stageAt id (some st) }

def setRequest (s : Store P) (r : ℕ) (q : Request P) : Store P :=
  { s with requestAt := Function.update s.requestAt r (some q) }

def setScope (s : Store P) (v : ℕ) (c : OutputScope) : Store P :=
  { s with scopeAt := Function.update s.scopeAt v (some c) }

def setReader (s : Store P) (d : ℕ) (rd : Reader) : Store P :=
  { s with readerAt := Function.update s.readerAt d (some rd) }

/-- The next answer of the operating system. -/
def answer (s : Store P) : Bool := s.faults.headD true

def pop (s : Store P) : Store P := { s with faults := s.faults.tail }

def poison (s : Store P) : Store P := { s with poisoned := true }

def available (s : Store P) : Option Code :=
  if s.closed then some .notFound else if s.poisoned then some .dependencyUnavailable else none

def reserveLocked (e : Setup) (s : Store P) (n : ℤ) : Except Code (Store P) :=
  match s.available with
  | some c => .error c
  | none =>
    if n < 0 ∨ e.quotaBytes - s.used < n then .error .limitExceeded
    else .ok { s with used := s.used + n }

/-! ### Retirement -/

/-- Give the slot of a released request back once none of its files is left. -/
def releaseSlotLocked (s : Store P) (r : ℕ) : Store P :=
  match s.requestAt r with
  | some q =>
    if q.state = .released ∧ ∀ f ∈ q.files, f.2 ∉ s.stages then { s with requests := s.requests.erase r } else s
  | none => s

/-- Remove the file of a stage and credit its bytes. -/
def removeStage (s : Store P) (id : ℕ) (st : Stage) : Store P :=
  let s := { s with used := s.used - (st.size + st.reserved), stages := s.stages.erase id }
  let s := s.setStage id { st with reserved := 0, onDisk := false }
  match st.request with
  | some r => s.releaseSlotLocked r
  | none => s

/-- Close the file of a stage that is still open for writing. -/
def closeFile (s : Store P) (id : ℕ) (st : Stage) : Store P :=
  if st.fileOpen then s.pop.setStage id { st with fileOpen := false } else s

/-- Remove a stage that is still in the table. -/
def unlink (s : Store P) (id : ℕ) (st : Stage) : Store P :=
  if id ∉ s.stages then s
  else if s.answer = false then s.pop.poison
  else s.pop.removeStage id st

/-- The error it returns is not kept: it is one exactly when the store is poisoned here. -/
def cleanupLocked (s : Store P) (id : ℕ) : Store P :=
  match s.stageAt id with
  | none => s
  | some st =>
    if st.retired = false ∨ st.readers ≠ [] then s
    else if st.fileOpen = true ∧ s.answer = false then s.pop.poison
    else (s.closeFile id st).unlink id { st with fileOpen := false }

/-- Every place that retires a stage cleans it up at once. -/
def retire (s : Store P) (id : ℕ) : Store P :=
  match s.stageAt id with
  | some st => (s.setStage id { st with retired := true }).cleanupLocked id
  | none => s

def retireAll (s : Store P) (ids : List ℕ) : Store P := ids.foldl retire s

/-- `Reader.closeLocked`. -/
def closeReader (s : Store P) (d : ℕ) : Store P :=
  match s.readerAt d with
  | none => s
  | some rd =>
    if rd.closed then s
    else if s.answer = false then (s.pop.setReader d { rd with cancelled := true }).poison
    else
      let s := { s.pop.setReader d { rd with cancelled := true, closed := true } with readers := s.readers - 1 }
      match s.stageAt rd.stage with
      | some st => (s.setStage rd.stage { st with readers := st.readers.erase d }).cleanupLocked rd.stage
      | none => s

/-! ### Stages -/

/-- Whether the context of a stage has ended; the stage of an input request has the request's. -/
def stageDone (s : Store P) (st : Stage) : Bool :=
  match st.request with
  | some r => (s.requestAt r).elim false (·.ctxDone)
  | none => st.ctxDone

/-- `newStage` for a stage that is given its place afterwards; `id` is drawn at random. -/
def newStage (e : Setup) (s : Store P) (id : ℕ) (st : Stage) (done : Bool) : Except Code ℕ × Store P :=
  match s.available with
  | some c => (.error c, s)
  | none =>
    if !st.owner.valid then (.error .validationFailed, s)
    else if done then (.error .executionFailed, s)
    else if !e.validFile st.name st.mime then (.error .validationFailed, s)
    else if e.maxObjects ≤ s.stages.length + s.reservations.length then (.error .busy, s)
    -- the identifier is drawn and the file created
    else if s.answer = false then (.error .executionFailed, s.pop)
    -- the new file is protected and identified; it is removed again if that fails
    else if s.pop.answer = false then
      (.error .executionFailed, if s.pop.pop.answer = false then s.pop.pop.pop.poison else s.pop.pop.pop)
    else (.ok id, { s.pop.pop.setStage id st with stages := id :: s.stages })

/-- The limits of its request and leaf leave room for `n` more bytes. -/
def roomInRequest (s : Store P) (id : ℕ) (st : Stage) (n : ℤ) : Bool :=
  match st.request.bind s.requestAt with
  | none => true
  | some q =>
    let leafMax := match q.files.find? fun f => f.2 = id with
      | some f => (q.capability.fileAt f.1).elim q.limits.maxFileBytes fun rule =>
          min q.limits.maxFileBytes rule.maxBytes
      | none => q.limits.maxFileBytes
    q.state = .receiving && n ≤ leafMax - st.size && n ≤ q.limits.maxTotalFileBytes - q.bytes

def roomInScope (s : Store P) (st : Stage) (n : ℤ) : Bool :=
  match st.scope.bind s.scopeAt with
  | none => true
  | some v => n ≤ v.limits.maxFileBytes - st.size && n ≤ v.limits.maxTotalBytes - v.bytes

/-- Count `k` bytes for the request of a stage. -/
def countInRequest (s : Store P) (st : Stage) (k : ℕ) : Store P :=
  match st.request with
  | some r =>
    match s.requestAt r with
    | some q => s.setRequest r { q with bytes := q.bytes + k }
    | none => s
  | none => s

/-- Count `k` bytes for the scope of a stage. -/
def countInScope (s : Store P) (st : Stage) (k : ℕ) : Store P :=
  match st.scope with
  | some v =>
    match s.scopeAt v with
    | some c => s.setScope v { c with bytes := c.bytes + k }
    | none => s
  | none => s

/-- What the disk does with a write: the count it returns, whether it returns an error, and what the
file holds afterwards if the write did not succeed. -/
structure DiskWrite where
  n : ℤ
  failed : Bool
  content : List UInt8
deriving DecidableEq, Repr

/-- The bytes that count as written. -/
def DiskWrite.count (w : DiskWrite) (p : List UInt8) : ℕ := if w.n < 0 ∨ p.length < w.n then 0 else w.n.toNat

def DiskWrite.bad (w : DiskWrite) (p : List UInt8) : Bool :=
  w.failed || w.n < 0 || p.length < w.n || w.count p ≠ p.length

/-- The state after the disk has answered a write that was admitted. -/
def written (s : Store P) (id : ℕ) (st : Stage) (p : List UInt8) (w : DiskWrite) : Store P :=
  let k := w.count p
  let st' : Stage := { st with
    reserved := st.reserved - min p.length st.reserved
    size := st.size + k
    hashed := st.hashed ++ p.take k
    writeErr := w.bad p
    data := if w.bad p then w.content else st.data ++ p }
  (({ s with used := s.used - (p.length - k) }.setStage id st').countInRequest st k).countInScope st k

def write (e : Setup) (s : Store P) (id : ℕ) (p : List UInt8) (w : DiskWrite) : Except Code ℕ × Store P :=
  match s.stageAt id with
  | none => (.error .notFound, s)
  | some st =>
    if st.retired || st.sealed || st.writeErr then (.error .conflict, s)
    else if s.stageDone st then (.error .executionFailed, s)
    else if 64 * 1024 < p.length then (.error .limitExceeded, s)
    else if !s.roomInRequest id st p.length then (.error .limitExceeded, s)
    else if !s.roomInScope st p.length then (.error .limitExceeded, s)
    else
      match reserveLocked e s (p.length - min p.length st.reserved) with
      | .error c => (.error c, s)
      | .ok s' =>
        (if w.bad p then .error .executionFailed else .ok (w.count p), s'.written id st p w)

/-- `Stage.Close`. -/
def sealLocked (s : Store P) (id : ℕ) : Except Code Unit × Store P :=
  match s.stageAt id with
  | none => (.error .notFound, s)
  | some st =>
    if st.retired then (.error .notFound, s)
    else if st.sealed then (if st.writeErr then .error .executionFailed else .ok (), s)
    else
      -- the file is synced and then closed, whatever the sync gave
      let bad := st.writeErr || s.stageDone st || !s.answer || !s.pop.answer
      let st' := { st with sealed := true, reserved := 0, fileOpen := false, writeErr := bad }
      (if bad then .error .executionFailed else .ok (),
        { s.pop.pop.setStage id st' with used := s.used - st.reserved })

/-- A new reader `d` on a stage. -/
def openLocked (e : Setup) (s : Store P) (id : ℕ) (done : Bool) (d : ℕ) : Except Code ℕ × Store P :=
  match s.stageAt id with
  | none => (.error .notFound, s)
  | some st =>
    if !st.ready || st.retired then (.error .notFound, s)
    else if done then (.error .executionFailed, s)
    else if e.maxObjects ≤ s.readers then (.error .busy, s)
    else if s.answer = false then (.error .executionFailed, s.pop)
    else
      (.ok d, { (s.pop.setStage id { st with readers := d :: st.readers }).setReader d { stage := id } with
        readers := s.readers + 1 })

def finish (e : Setup) (s : Store P) (id : ℕ) (m : ArtifactMetadata) (d : ℕ) : Except Code ℕ × Store P :=
  match s.stageAt id with
  | none => (.error .notFound, s)
  | some st =>
    if st.kind ≠ .output || !st.sealed || st.ready || st.retired || st.writeErr || s.stageDone st then
      (.error .outputInvalid, s)
    else if m ≠ st.metadata e then (.error .outputInvalid, s)
    else openLocked e (s.setStage id { st with ready := true }) id false d

/-! ### Input requests -/

/-- `cancel` and `stopExecution` of a request. -/
def stopContexts (q : Request P) : Request P :=
  { q with ctxDone := true, execution := q.execution.map fun _ => true }

/-- `abortLocked`. -/
def abortLocked (s : Store P) (r : ℕ) : Store P :=
  match s.requestAt r with
  | some q => if q.state = .released then s else s.setRequest r { stopContexts q with state := .aborted }
  | none => s

def releaseStoppedLocked (s : Store P) (r : ℕ) : Store P :=
  match s.requestAt r with
  | some q =>
    ((s.setRequest r { stopContexts q with state := .released }).retireAll (q.files.map (·.2))).releaseSlotLocked r
  | none => s

/-- `Stage.Abort`: losing one input invalidates its request. -/
def abortStage (s : Store P) (id : ℕ) : Store P :=
  match s.stageAt id with
  | none => s
  | some st =>
    match st.request with
    | some r =>
      let s := s.abortLocked r
      match s.requestAt r with
      | some q => if q.started && q.state ≠ .released then s else s.releaseStoppedLocked r
      | none => s
    | none => if st.retained then s else s.retire id

def beginInput (e : Setup) (s : Store P) (r : ℕ) (o : Owner) (c : Capability P) (done : Bool) :
    Except Code ℕ × Store P :=
  match s.available with
  | some code => (.error code, s)
  | none =>
    if !o.valid || c.name ≠ o.capability || !c.hasFile then (.error .validationFailed, s)
    else if s.requests.any fun r' => (s.requestAt r').any fun q => q.owner.requestID = o.requestID then
      (.error .conflict, s)
    else if e.maxPending ≤ s.requests.length then (.error .busy, s)
    else if done then (.error .executionTimeout, s)
    else if c.limits.maxFileBytes < 1 || c.limits.maxTotalFileBytes < c.limits.maxFileBytes ||
        c.limits.maxFiles < 1 then (.error .validationFailed, s)
    else
      (.ok r, { s.setRequest r { owner := o, capability := c, limits := c.limits } with
        requests := r :: s.requests })

def check (s : Store P) (q : Request P) (o : Owner) (state : ReqState) : Option Code :=
  if q.owner ≠ o then some .permissionDenied
  else
    match s.available with
    | some c => some c
    | none =>
      if q.state ≠ state then some .conflict
      else if state ≠ .executing ∧ q.ctxDone = true then some .executionTimeout
      else none

def newFile (e : Setup) (s : Store P) (r : ℕ) (o : Owner) (pointer name media : String) (id : ℕ) :
    Except Code ℕ × Store P :=
  match s.requestAt r with
  | none => (.error .notFound, s)
  | some q =>
    match s.check q o .receiving with
    | some c => (.error c, s)
    | none =>
      if (q.capability.fileAt pointer).isNone then (.error .validationFailed, s)
      else if q.files.any fun f => f.1 = pointer then (.error .conflict, s)
      else if q.limits.maxFiles ≤ q.files.length then (.error .limitExceeded, s)
      else
        match newStage e s id { owner := o, kind := .input, name := name, mime := media, request := some r }
          q.ctxDone with
        | (.error c, s) => (.error c, s)
        | (.ok id, s) => (.ok id, s.setRequest r { q with files := q.files ++ [(pointer, id)] })

def complete (e : Setup) (s : Store P) (r : ℕ) (o : Owner) (id : ℕ) (size : ℤ) (digest : String) :
    Except Code FileValue × Store P :=
  match s.requestAt r, s.stageAt id with
  | some q, some st =>
    match s.check q o .receiving with
    | some c => (.error c, s)
    | none =>
      if st.request ≠ some r || st.owner ≠ o || st.retired || !st.sealed || st.ready || st.writeErr then
        (.error .validationFailed, s)
      else
        let m := st.metadata e
        if m.sizeBytes ≠ size || m.sha256 ≠ digest then (.error .validationFailed, s)
        else
          let pointer := ((q.files.find? fun f => f.2 = id).map (·.1)).getD ""
          let v : FileValue := ⟨pointer, id, o.requestID, m.name, m.mimeType, m.sizeBytes, m.sha256⟩
          if ((q.capability.fileAt pointer).any fun rule => rule.validate v) = false then
            (.error .validationFailed, s)
          else (.ok v, s.setStage id { st with ready := true })
  | _, _ => (.error .notFound, s)

/-- The check of `Commit` for one file leaf, given the stages seen before it. -/
def leafMatches (e : Setup) (s : Store P) (q : Request P) (o : Owner) (seen : List ℕ) (leaf : FileLeaf) :
    Option ℕ :=
  match q.files.find? fun f => f.1 = leaf.pointer with
  | none => none
  | some f =>
    match s.stageAt f.2 with
    | none => none
    | some st =>
      if !st.ready || st.retired || seen.contains f.2 || leaf.value.id ≠ f.2 ||
          leaf.value.requestID ≠ o.requestID || leaf.value.pointer ≠ leaf.pointer then none
      else if leaf.value.metadata ≠ st.metadata e then none
      else some f.2

/-- The loop of `Commit` over the file leaves. -/
def leavesMatch (e : Setup) (s : Store P) (q : Request P) (o : Owner) : List ℕ → List FileLeaf → Bool
  | _, [] => true
  | seen, leaf :: leaves =>
    match s.leafMatches e q o seen leaf with
    | some id => leavesMatch e s q o (id :: seen) leaves
    | none => false

def commit (e : Setup) (s : Store P) (r : ℕ) (o : Owner) (params : P) : Except Code P × Store P :=
  match s.requestAt r with
  | none => (.error .notFound, s)
  | some q =>
    match s.check q o .receiving with
    | some c => (.error c, s)
    | none =>
      match q.capability.validateInput params with
      | none => (.error .validationFailed, s)
      | some (normalized, leaves) =>
        if leaves.length ≠ q.files.length then (.error .validationFailed, s)
        else if s.leavesMatch e q o [] leaves = false then (.error .validationFailed, s)
        else (.ok normalized, s.setRequest r { q with state := .ready })

def start (s : Store P) (r : ℕ) (o : Owner) (done : Bool) : Except Code Unit × Store P :=
  match s.requestAt r with
  | none => (.error .notFound, s)
  | some q =>
    match s.check q o .ready with
    | some c => (.error c, s)
    | none =>
      if done then (.error .executionTimeout, s)
      else (.ok (), s.setRequest r { q with
        state := .executing, started := true, execution := some false, ctxDone := true })

/-- `Request.Open`. -/
def openInput (e : Setup) (s : Store P) (r : ℕ) (o : Owner) (v : FileValue) (d : ℕ) : Except Code ℕ × Store P :=
  match s.requestAt r with
  | none => (.error .notFound, s)
  | some q =>
    match s.check q o .executing with
    | some c => (.error c, s)
    | none =>
      match q.files.find? fun f => f.1 = v.pointer with
      | none => (.error .permissionDenied, s)
      | some f =>
        match s.stageAt f.2 with
        | none => (.error .permissionDenied, s)
        | some st =>
          if f.2 ≠ v.id || v.requestID ≠ o.requestID then (.error .permissionDenied, s)
          else if v.metadata ≠ st.metadata e then (.error .validationFailed, s)
          else openLocked e s f.2 (q.execution.getD true) d

/-! ### Output scopes and scratch stages -/

def output (s : Store P) (v : ℕ) (o : Owner) (l : OutputLimits) : Except Code ℕ × Store P :=
  match s.available with
  | some c => (.error c, s)
  | none =>
    if !o.valid || l.maxFileBytes < 1 || l.maxTotalBytes < l.maxFileBytes || l.maxFiles < 1 || l.ttl ≤ 0 then
      (.error .validationFailed, s)
    else (.ok v, s.setScope v { owner := o, limits := l })

/-- `OutputScope.Begin`. -/
def beginOutput (e : Setup) (s : Store P) (v : ℕ) (name media : String) (done : Bool) (id : ℕ) :
    Except Code ℕ × Store P :=
  match s.scopeAt v with
  | none => (.error .notFound, s)
  | some c =>
    if c.published then (.error .conflict, s)
    else if c.limits.maxFiles ≤ c.stages.length then (.error .limitExceeded, s)
    else
      match newStage e s id { owner := c.owner, kind := .output, name := name, mime := media, scope := some v }
        done with
      | (.error code, s) => (.error code, s)
      | (.ok id, s) => (.ok id, s.setScope v { c with stages := c.stages ++ [id] })

def scratchOwner : Owner := ⟨"scratch", "scratch", "scratch", "scratch", "scratch"⟩

/-- `NewScratch`; `Scratch().Begin` is the case of no bytes. -/
def newScratch (e : Setup) (s : Store P) (name media : String) (bytes : ℤ) (done : Bool) (id : ℕ) :
    Except Code ℕ × Store P :=
  if bytes < 0 then (.error .validationFailed, s)
  else
    match reserveLocked e s bytes with
    | .error c => (.error c, s)
    | .ok s =>
      match newStage e s id
          { owner := scratchOwner, kind := .output, name := name, mime := media, reserved := bytes.toNat } done with
      | (.error c, s) => (.error c, { s with used := s.used - bytes })
      | (.ok id, s) => (.ok id, s)

/-- The check of `Retain` for one stage and the file given for it. -/
def retainable (e : Setup) (s : Store P) (id : ℕ) (file : ℕ × ArtifactMetadata) : Bool :=
  match s.stageAt id, s.readerAt file.1 with
  | some st, some rd =>
    rd.stage = id && !rd.closed && st.ready && !st.retired && file.2 = st.metadata e
  | _, _ => false

def markRetained (s : Store P) (id : ℕ) : Store P :=
  match s.stageAt id with
  | some st => s.setStage id { st with retained := true }
  | none => s

def retain (e : Setup) (s : Store P) (v : ℕ) (files : List (ℕ × ArtifactMetadata)) : Except Code Unit × Store P :=
  match s.available with
  | some c => (.error c, s)
  | none =>
    match s.scopeAt v with
    | none => (.error .notFound, s)
    | some c =>
      if c.published || files.length ≠ c.stages.length then (.error .outputInvalid, s)
      else if ((c.stages.zip files).all fun p => s.retainable e p.1 p.2) = false then (.error .outputInvalid, s)
      else (.ok (), (c.stages.foldl markRetained s).setScope v { c with published := true })

def openOutput (e : Setup) (s : Store P) (o : Owner) (id : ℕ) (expired done : Bool) (d : ℕ) :
    Except Code ℕ × Store P :=
  match s.available with
  | some c => (.error c, s)
  | none =>
    match s.stageAt id with
    | none => (.error .notFound, s)
    | some st =>
      if id ∉ s.stages || st.kind ≠ .output || !st.retained || st.owner ≠ o || expired then (.error .notFound, s)
      else openLocked e s id done d

/-! ### Reservations and the whole store -/

def reserve (e : Setup) (s : Store P) (v : ℕ) (n : ℤ) : Except Code ℕ × Store P :=
  if n < 1 then (.error .validationFailed, s)
  else if e.maxObjects ≤ s.reservations.length + s.stages.length then (.error .busy, s)
  else
    match reserveLocked e s n with
    | .error c => (.error c, s)
    | .ok s =>
      (.ok v, { s with
        reservations := v :: s.reservations
        reservationAt := Function.update s.reservationAt v (some { bytes := n }) })

def release (s : Store P) (v : ℕ) : Store P :=
  match s.reservationAt v with
  | some r =>
    if r.released then s
    else { s with
      used := s.used - r.bytes
      reservations := s.reservations.erase v
      reservationAt := Function.update s.reservationAt v (some { r with released := true }) }
  | none => s

/-- One request of `Sweep`; `past` holds the requests whose deadline has passed. -/
def sweepRequest (past : List ℕ) (s : Store P) (r : ℕ) : Store P :=
  match s.requestAt r with
  | some q =>
    if q.started = false ∧ (q.state = .receiving ∨ q.state = .ready ∨ q.state = .aborted) ∧
        (r ∈ past ∨ q.ctxDone = true) then
      ((s.setRequest r { q with ctxDone := true, state := .released }).retireAll
        (q.files.map (·.2))).releaseSlotLocked r
    else s
  | none => s

/-- One stage of `Sweep`; `expired` holds the retained stages whose time is over. -/
def sweepStage (expired : List ℕ) (s : Store P) (id : ℕ) : Store P :=
  match s.stageAt id with
  | some st => if st.retained ∧ id ∈ expired then s.retire id else s
  | none => s

def sweep (s : Store P) (past expired : List ℕ) : Store P :=
  let s := s.requests.foldl (sweepRequest past) s
  s.stages.foldl (sweepStage expired) s

def revokeRequest (generation : String) (s : Store P) (r : ℕ) : Store P :=
  match s.requestAt r with
  | some q =>
    if q.owner.authGeneration = generation then s.setRequest r { stopContexts q with state := .aborted } else s
  | none => s

def cancelReader (s : Store P) (d : ℕ) : Store P :=
  match s.readerAt d with
  | some rd => s.setReader d { rd with cancelled := true }
  | none => s

def revokeStage (generation : String) (s : Store P) (id : ℕ) : Store P :=
  match s.stageAt id with
  | some st =>
    if st.kind = .output ∧ st.owner.authGeneration = generation then
      (st.readers.foldl cancelReader s).retire id
    else s
  | none => s

def revokeGeneration (s : Store P) (generation : String) : Store P :=
  let s := s.requests.foldl (revokeRequest generation) s
  s.stages.foldl (revokeStage generation) s

def closeRequest (s : Store P) (r : ℕ) : Store P :=
  match s.requestAt r with
  | some q => s.setRequest r { stopContexts q with state := .released }
  | none => s

def closeStage (s : Store P) (id : ℕ) : Store P :=
  match s.stageAt id with
  | some st => (st.readers.foldl closeReader s).retire id
  | none => s

def close (s : Store P) : Store P :=
  if s.closed then s
  else
    let s := s.requests.foldl closeRequest { s with closed := true }
    s.stages.foldl closeStage s

end Store

/-! ### Runs -/

/-- An operation on the store, or the end of a context. Handles that an operation creates are part of
it. -/
inductive Op (P : Type)
  | reserve (v : ℕ) (n : ℤ)
  | release (v : ℕ)
  | newScratch (name media : String) (bytes : ℤ) (done : Bool) (id : ℕ)
  | output (v : ℕ) (o : Owner) (l : OutputLimits)
  | beginOutput (v : ℕ) (name media : String) (done : Bool) (id : ℕ)
  | beginInput (r : ℕ) (o : Owner) (c : Capability P) (done : Bool)
  | newFile (r : ℕ) (o : Owner) (pointer name media : String) (id : ℕ)
  | write (id : ℕ) (p : List UInt8) (w : Store.DiskWrite)
  | closeStage (id : ℕ)
  | finish (id : ℕ) (m : ArtifactMetadata) (d : ℕ)
  | complete (r : ℕ) (o : Owner) (id : ℕ) (size : ℤ) (digest : String)
  | commit (r : ℕ) (o : Owner) (params : P)
  | start (r : ℕ) (o : Owner) (done : Bool)
  | openInput (r : ℕ) (o : Owner) (v : FileValue) (d : ℕ)
  | openOutput (o : Owner) (id : ℕ) (expired done : Bool) (d : ℕ)
  | closeReader (d : ℕ)
  | abortStage (id : ℕ)
  | abort (r : ℕ) (o : Owner)
  | releaseStopped (r : ℕ) (o : Owner)
  | retain (v : ℕ) (files : List (ℕ × ArtifactMetadata))
  | sweep (past expired : List ℕ)
  | revokeGeneration (generation : String)
  | close
  | endStageContext (id : ℕ)
  | endInputContext (r : ℕ)
  | endExecution (r : ℕ)

namespace Store
variable {P : Type}

/-- The operation is by the owner of the request. -/
def ownedBy (s : Store P) (r : ℕ) (o : Owner) : Bool := (s.requestAt r).any fun q => q.owner = o

def exec (e : Setup) (s : Store P) : Op P → Store P
  | .reserve v n => (s.reserve e v n).2
  | .release v => s.release v
  | .newScratch name media bytes done id => (s.newScratch e name media bytes done id).2
  | .output v o l => (s.output v o l).2
  | .beginOutput v name media done id => (s.beginOutput e v name media done id).2
  | .beginInput r o c done => (s.beginInput e r o c done).2
  | .newFile r o pointer name media id => (s.newFile e r o pointer name media id).2
  | .write id p w => (s.write e id p w).2
  | .closeStage id => (s.sealLocked id).2
  | .finish id m d => (s.finish e id m d).2
  | .complete r o id size digest => (s.complete e r o id size digest).2
  | .commit r o params => (s.commit e r o params).2
  | .start r o done => (s.start r o done).2
  | .openInput r o v d => (s.openInput e r o v d).2
  | .openOutput o id expired done d => (s.openOutput e o id expired done d).2
  | .closeReader d => s.closeReader d
  | .abortStage id => s.abortStage id
  | .abort r o => if s.ownedBy r o then s.abortLocked r else s
  | .releaseStopped r o => if s.ownedBy r o then s.releaseStoppedLocked r else s
  | .retain v files => (s.retain e v files).2
  | .sweep past expired => s.sweep past expired
  | .revokeGeneration generation => s.revokeGeneration generation
  | .close => s.close
  | .endStageContext id =>
    match s.stageAt id with
    | some st => s.setStage id { st with ctxDone := true }
    | none => s
  | .endInputContext r =>
    match s.requestAt r with
    | some q => s.setRequest r { q with ctxDone := true }
    | none => s
  | .endExecution r =>
    match s.requestAt r with
    | some q => s.setRequest r { q with execution := q.execution.map fun _ => true }
    | none => s

/-- The handle an operation creates is a new one. -/
def fresh (s : Store P) : Op P → Bool
  | .reserve v _ => (s.reservationAt v).isNone
  | .newScratch _ _ _ _ id | .beginOutput _ _ _ _ id | .newFile _ _ _ _ _ id => (s.stageAt id).isNone
  | .output v _ _ => (s.scopeAt v).isNone
  | .beginInput r _ _ _ => (s.requestAt r).isNone
  | .finish _ _ d | .openInput _ _ _ d | .openOutput _ _ _ _ d => (s.readerAt d).isNone
  | _ => true

/-- An operation with the answers of the operating system during it. -/
def step (e : Setup) (s : Store P) (a : Op P × List Bool) : Option (Store P) :=
  if s.fresh a.1 then some (exec e { s with faults := a.2 } a.1) else none

def machine (e : Setup) : Machine (Store P) (Op P × List Bool) where
  step := step e

end Store
end Onprest.Artifacts
