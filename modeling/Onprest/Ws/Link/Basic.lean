import Onprest.Ws.Local.Step
import Onprest.Ws.Local.Handle

/-! One transfer between the two engines, seen in isolation: its two local states, its two channels and
everything a step of the peers can do to it. -/

namespace Onprest.Ws
open Lib Protocol

/-- One direction of the connection, restricted to a transfer. -/
structure Channel where
  handled : List Frame
  wire : List Frame

namespace Channel

/-- Everything ever written. -/
def all (c : Channel) : List Frame := c.handled ++ c.wire

def write (c : Channel) (fs : List Frame) : Channel := { c with wire := c.wire ++ fs }

def read (c : Channel) (f : Frame) (rest : List Frame) : Channel := ⟨c.handled ++ [f], rest⟩

@[simp] theorem all_write (c : Channel) (fs : List Frame) : (c.write fs).all = c.all ++ fs := by
  simp [all, write]

theorem all_read {c : Channel} {f : Frame} {rest : List Frame} (h : c.wire = f :: rest) :
    (c.read f rest).all = c.all := by
  simp [all, read, h]

theorem all_eq {c : Channel} {f : Frame} {rest : List Frame} (h : c.wire = f :: rest) :
    c.all = c.handled ++ f :: rest := by
  rw [all, h]

theorem head_mem {c : Channel} {f : Frame} {rest : List Frame} (h : c.wire = f :: rest) : f ∈ c.all := by
  rw [all_eq h]
  exact List.mem_append_right _ (.head _)

end Channel

/-- A transfer between the engines: `data` runs from the sender to the receiver, `back` the other way;
`offers` are the credit grants the sending session has read, `log` the callbacks of the receiver. -/
structure Link where
  request : String
  source : Option (List ReadResult)
  rx : Local
  tx : Local
  data : Channel
  back : Channel
  offers : List Frame
  stray : List Frame
  log : List Output

def framesOf (id : String) (l : List Frame) : List Frame := l.filter fun f => f.transferID = id

/-- The callbacks among the outputs of a step. -/
def callbacks (out : List Output) : List Output := out.filter fun o => o.frame?.isNone

namespace Peers

def channel (p : Peers) (s : Side) (id : String) : Channel :=
  ⟨framesOf id (p.handled s), framesOf id (p.wire s)⟩

def link (p : Peers) (id : String) (o : Opening) : Link where
  request := o.request
  source := o.source
  rx := (p.engine o.receiver).view id
  tx := (p.engine o.receiver.other).view id
  data := p.channel o.receiver.other id
  back := p.channel o.receiver id
  offers := framesOf id (p.offers o.receiver.other)
  stray := framesOf id (p.offers o.receiver)
  log := (p.log o.receiver).filter (Output.about id)

/-- The step is one of the goroutines or jobs of the transfer `id`, or reads a frame of it that is not a
grant of credit. -/
def concerns (p : Peers) (id : String) : PeerAction → Bool
  | .act s b => b.concerns (p.engine s) id
  | .deliver s =>
    match p.wire s.other with
    | f :: _ => f.transferID = id && !f.isGrant
    | [] => false
  | _ => false

/-- The step reads a frame and answers it with `ErrProtocol`. -/
def rejects (p : Peers) : PeerAction → Bool
  | .deliver s =>
    match p.wire s.other with
    | f :: _ => !f.isGrant && ((p.engine s).handle f).2.isProtocol
    | [] => false
  | _ => false

end Peers

/-- Everything the step `a` of the peers `p` can do to the transfer `id`. -/
inductive LinkStep (sha256 : List UInt8 → String) (p : Peers) (a : PeerAction) (id : String) (s : Side) :
    Link → Link → Prop
  | idle (L : Link) (hidle : p.concerns id a = true → p.rejects a = true) : LinkStep sha256 p a id s L L
  | prune {L : Link} {rx tx : Local} (hrx : Pruned L.rx rx) (htx : Pruned L.tx tx)
      (hquiet : p.concerns id a = false) :
      LinkStep sha256 p a id s L { L with rx, tx }
  | rxLocal {L : Link} {b : Action} {l : Local} {out : List Output} (ha : a = .act s b)
      (hs : LocalStep sha256 (p.engine s) b id L.rx l out) :
      LinkStep sha256 p a id s L
        { L with rx := l, back := L.back.write (out.filterMap Output.frame?), log := L.log ++ callbacks out }
  | txLocal {L : Link} {b : Action} {l : Local} {out : List Output} (ha : a = .act s.other b)
      (hs : LocalStep sha256 (p.engine s.other) b id L.tx l out) :
      LinkStep sha256 p a id s L
        { L with tx := l, data := L.data.write (out.filterMap Output.frame?) }
  | accept {L : Link} {k : ℕ} (hopen : (p.openings.lookup id).isSome = true) (hfree : L.rx.jobs k = none)
      (hreserved : ∀ v g, L.rx.live = some v → v.pc ≠ .starting g) (hquiet : p.concerns id a = false) :
      LinkStep sha256 p a id s L { L with rx := L.rx.post k (Peers.grantJob s id L.request) }
  | start {L : Link} {f : Frame} {ctx : Transfers.Context} {source : List ReadResult} {opened : Bool}
      {serial expiry : ℕ} (hf : f ∈ L.offers) (ha : a = .start s.other id ctx source opened) :
      LinkStep sha256 p a id s L
        { L with
          offers := L.offers.erase f, source := some source
          tx := ⟨some { serial, request := f.id, sending := true, expiry,
                        pc := if opened then .reserve else .opening, source }, none, L.tx.jobs⟩ }
  | startFailed {L : Link} {f : Frame} {tx : Local} (htx : Pruned L.tx tx) (hquiet : p.concerns id a = false) :
      LinkStep sha256 p a id s L { L with offers := L.offers.erase f, tx }
  | cancelRx {L : Link} {r : RetiredTransfer} (hr : L.rx.recent = some r) (ha : a = .cancelFrame s id) :
      LinkStep sha256 p a id s L
        { L with back := L.back.write [{ type := .transferCancel, id := r.request, transferID := id }] }
  | cancelTx {L : Link} {r : RetiredTransfer} (hr : L.tx.recent = some r) (ha : a = .cancelFrame s.other id) :
      LinkStep sha256 p a id s L
        { L with data := L.data.write [{ type := .transferCancel, id := r.request, transferID := id }] }
  | toRx {L : Link} {f : Frame} {rest : List Frame} {l : Local} (hwire : L.data.wire = f :: rest)
      (hf : f.transferID = id) (hs : LocalHandled f L.rx l) :
      LinkStep sha256 p a id s L { L with rx := l, data := L.data.read f rest }
  | toTx {L : Link} {f : Frame} {rest : List Frame} {l : Local} (hwire : L.back.wire = f :: rest)
      (hf : f.transferID = id) (hs : LocalHandled f L.tx l) :
      LinkStep sha256 p a id s L { L with tx := l, back := L.back.read f rest }
  | offer {L : Link} {f : Frame} {rest : List Frame} (hwire : L.back.wire = f :: rest)
      (hf : f.transferID = id) (hgrant : f.isGrant = true) (hquiet : p.concerns id a = false) :
      LinkStep sha256 p a id s L { L with back := L.back.read f rest, offers := f :: L.offers }
  | stray {L L' : Link} (h : L.stray ≠ [] ∨ ∃ f ∈ L.data.wire, f.transferID = id ∧ f.isGrant = true) :
      LinkStep sha256 p a id s L L'

/-- A transfer that has not been opened. -/
def Link.unopened (L : Link) : Prop :=
  L.rx = ⟨none, none, fun _ => none⟩ ∧ L.tx = ⟨none, none, fun _ => none⟩ ∧ L.data = ⟨[], []⟩ ∧
    L.back = ⟨[], []⟩ ∧ L.offers = [] ∧ L.stray = [] ∧ L.log = []

/-- A transfer whose receiver has just reserved its entry. -/
def Link.fresh (request : String) (v : WireTransfer) : Link where
  request := request
  source := none
  rx := ⟨some v, none, fun _ => none⟩
  tx := ⟨none, none, fun _ => none⟩
  data := ⟨[], []⟩
  back := ⟨[], []⟩
  offers := []
  stray := []
  log := []

/-- What every step needs to know about the engines. -/
structure Peers.Sound (p : Peers) : Prop where
  accounting : ∀ s, Accounting (p.engine s)
  tagged : ∀ s, (p.engine s).Tagged

theorem Side.other_ne (s : Side) : s.other ≠ s := by
  cases s <;> decide

@[simp] theorem Side.other_other (s : Side) : s.other.other = s := by
  cases s <;> rfl

theorem Side.eq_or_other (s r : Side) : s = r ∨ s = r.other := by
  cases s <;> cases r <;> decide

theorem framesOf_append (id : String) (l m : List Frame) :
    framesOf id (l ++ m) = framesOf id l ++ framesOf id m :=
  List.filter_append ..

variable {id : String} {f : Frame}

theorem framesOf_self (h : f.transferID = id) (l : List Frame) : framesOf id (f :: l) = f :: framesOf id l := by
  simp [framesOf, h]

theorem framesOf_other (h : f.transferID ≠ id) (l : List Frame) : framesOf id (f :: l) = framesOf id l := by
  simp [framesOf, h]

theorem framesOf_outputs (id : String) (out : List Output) :
    framesOf id (out.filterMap Output.frame?) = (out.filter (Output.about id)).filterMap Output.frame? := by
  induction out with
  | nil => rfl
  | cons o out ih =>
    cases o with
    | frame f =>
      by_cases hf : f.transferID = id
      · simpa [Output.frame?, Output.about, framesOf, hf] using ih
      · simpa [Output.frame?, Output.about, framesOf, hf] using ih
    | write i b | ended i f =>
      rw [List.filterMap_cons_none rfl, ih, List.filter_cons]
      split
      · rw [List.filterMap_cons_none rfl]
      · rfl

end Onprest.Ws
