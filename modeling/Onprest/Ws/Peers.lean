import Onprest.Ws.Goroutines
import Mathlib.Logic.Function.Basic

/-! Two transfer engines joined by reliable FIFO frame channels. A receiver reserves its entry before
its accept or open frame grants credit, and the peer starts to send after it has read that frame. -/

namespace Onprest.Ws
open Lib Protocol

inductive Side
  | agent | gateway
deriving DecidableEq, Repr

def Side.other : Side → Side
  | .agent => .gateway
  | .gateway => .agent

/-- Who receives a transfer, for which request, and the source its sender was started with. -/
structure Opening where
  receiver : Side
  request : String
  source : Option (List ReadResult) := none

/-- The two engines. `wire s` holds the frames side `s` has written and its peer has not read yet,
`handled s` those the peer has accepted, `offers s` the accept and open frames side `s` has read and not
answered, `log s` the callbacks side `s` has run. A frame answered with `ErrProtocol` is `rejected`,
which closes the connection. -/
structure Peers where
  engine : Side → Transfers := fun _ => {}
  wire : Side → List Frame := fun _ => []
  handled : Side → List Frame := fun _ => []
  offers : Side → List Frame := fun _ => []
  log : Side → List Output := fun _ => []
  openings : Table String Opening := ∅
  rejected : Option Frame := none

inductive PeerAction
  | reserve (s : Side) (request id : String) (ctx : Transfers.Context)
  | accept (s : Side) (id : String)
  | start (s : Side) (id : String) (ctx : Transfers.Context) (source : List ReadResult) (opened : Bool)
  | act (s : Side) (a : Action)
  | cancelFrame (s : Side) (id : String)
  | deliver (s : Side)

/-- The actions of an engine that involve neither its peer nor a new transfer. -/
def Action.isLocal : Action → Bool
  | .move _ _ | .retire _ | .check _ _ | .run _ | .cancel _ | .cancelRequest _ | .close | .finish | .tick =>
    true
  | _ => false

def Output.frame? : Output → Option Frame
  | .frame f => some f
  | _ => none

namespace Peers
variable (sha256 : List UInt8 → String)

def setEngine (p : Peers) (s : Side) (t : Transfers) : Peers :=
  { p with engine := Function.update p.engine s t }

/-- Put the frames of a step on the wire and its callbacks in the log. -/
def emit (p : Peers) (s : Side) (out : List Output) : Peers :=
  { p with
    wire := Function.update p.wire s (p.wire s ++ out.filterMap Output.frame?)
    log := Function.update p.log s (p.log s ++ out.filter fun o => o.frame?.isNone) }

/-- The frame that grants the initial credit: the agent accepts an input, the gateway opens an output. -/
def grantFrame (s : Side) (id request : String) : Frame :=
  { type := match s with
      | .agent => .inputAccept
      | .gateway => .transferOpen,
    id := request, transferID := id }

def grantJob (s : Side) (id request : String) : Job :=
  { frame := grantFrame s id request, transfer := id, serial := 0, start := .grant }

/-- The receiver's `receive` call has returned. -/
def reserved (t : Transfers) (id : String) : Bool :=
  match t.live.lookup id with
  | some v =>
    match v.pc with
    | .starting _ => false
    | _ => true
  | none => true

def reserveStep (p : Peers) (s : Side) (request id : String) (ctx : Transfers.Context) : Option Peers :=
  if (p.openings.lookup id).isSome then none
  else
    match (p.engine s).add ctx request id false (.starting false) [] with
    | (t, .ok _) => some { p.setEngine s t with openings := p.openings.insert id ⟨s, request, none⟩ }
    | (t, .error _) => some (p.setEngine s t)

def acceptStep (p : Peers) (s : Side) (id : String) : Option Peers :=
  match p.openings.lookup id with
  | some o =>
    if o.receiver = s ∧ reserved (p.engine s) id = true then
      some (p.setEngine s ((p.engine s).post (grantJob s id o.request)))
    else none
  | none => none

def startStep (p : Peers) (s : Side) (id : String) (ctx : Transfers.Context) (source : List ReadResult)
    (opened : Bool) : Option Peers :=
  match (p.offers s).find? fun f => f.transferID = id, p.openings.lookup id with
  | some f, some o =>
    let p := { p with offers := Function.update p.offers s ((p.offers s).erase f) }
    match (p.engine s).add ctx f.id id true (if opened then .reserve else .opening) source with
    | (t, .ok _) =>
      some { p.setEngine s t with openings := p.openings.insert id { o with source := some source } }
    | (t, .error _) => some (p.setEngine s t)
  | _, _ => none

/-- The cancel frame a side writes for a transfer it has given up. -/
def cancelFrameStep (p : Peers) (s : Side) (id : String) : Option Peers :=
  match (p.engine s).recent.lookup id with
  | some r => some (p.emit s [.frame { type := .transferCancel, id := r.request, transferID := id }])
  | none => none

/-- Side `s` has accepted the frame `f` of its peer. -/
def accepted (p : Peers) (s : Side) (f : Frame) (rest : List Frame) : Peers :=
  { p with
    wire := Function.update p.wire s.other rest
    handled := Function.update p.handled s.other (p.handled s.other ++ [f]) }

/-- Side `s` reads the next frame of its peer. -/
def deliverStep (p : Peers) (s : Side) : Option Peers :=
  match p.rejected, p.wire s.other with
  | none, f :: rest =>
    if f.isGrant then
      some { p.accepted s f rest with offers := Function.update p.offers s (f :: p.offers s) }
    else
      let (t, result) := (p.engine s).handle f
      if result.isProtocol then some { p with rejected := some f }
      else some ((p.accepted s f rest).setEngine s t)
  | _, _ => none

def step (p : Peers) : PeerAction → Option Peers
  | .reserve s request id ctx => p.reserveStep s request id ctx
  | .accept s id => p.acceptStep s id
  | .start s id ctx source opened => p.startStep s id ctx source opened
  | .act s a =>
    if a.isLocal then ((p.engine s).step sha256 a).map fun r => (p.setEngine s r.1).emit s r.2 else none
  | .cancelFrame s id => p.cancelFrameStep s id
  | .deliver s => p.deliverStep s

def machine : Machine Peers PeerAction where
  step := step sha256

end Peers
end Onprest.Ws
