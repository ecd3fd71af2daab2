import Onprest.Ws.Link.Project
import Onprest.Ws.Link.Rx
import Onprest.Ws.Link.Tx

/-! The invariant of one transfer between two honest engines, in every interleaving. -/

namespace Onprest.Ws
open Lib Protocol

/-- The two sides of a transfer agree with what is on the channels between them. -/
structure LinkOk (id : String) (L : Link) : Prop where
  rx : RxOk id L.request (count .transferChunk id L.data.handled) (count .ack id L.back.all)
    (L.data.handled.any (isFor .transferEnd id)) (L.back.all.any (grantsFor id)) L.rx
  tx : TxOk id L.request (count .transferChunk id L.data.all) (count .ack id L.back.handled)
    (L.data.all.any (isFor .transferEnd id)) L.tx
  chunks : Numbered .transferChunk id 0 L.data.all
  acks : Numbered .ack id 0 L.back.all
  last : EndLast id L.data.all
  sent : ∀ f ∈ L.data.all, TxFrame L.request f
  received : ∀ f ∈ L.back.all, RxFrame L.request f
  offers : ∀ f ∈ L.offers, f.id = L.request
  stray : L.stray = []
  once : L.offers.length + (if L.source.isSome then 1 else 0) ≤ L.back.handled.countP (grantsFor id)
  single : L.back.all.countP (grantsFor id) ≤ 1
  unstarted : L.source = none → L.tx = ⟨none, none, fun _ => none⟩ ∧ L.data.all = []

theorem TxFrame.not_grant {request : String} {f : Frame} (h : TxFrame request f) : f.isGrant = false := by
  obtain ⟨htype, -⟩ | htype | htype := h.kind <;> simp [Frame.isGrant, htype]

namespace LinkOk
variable {sha256 : List UInt8 → String} {p : Peers} {a : PeerAction} {id : String} {s : Side} {L L' : Link}

variable {serial expiry : ℕ} {l : Local} {fs rest : List Frame} {f : Frame} {r : RetiredTransfer}

/-- A transfer whose receiver has just reserved its entry. -/
theorem reserved {request : String} {v : WireTransfer}
    (hv : v = { serial, request, sending := false, expiry, pc := .starting false, source := [] }) :
    LinkOk id (.fresh request v) where
  rx := RxOk.reserved hv
  tx := TxOk.unstarted
  chunks := trivial
  acks := trivial
  last := List.Pairwise.nil
  sent := fun _ hf => nomatch hf
  received := fun _ hf => nomatch hf
  offers := fun _ hf => nomatch hf
  stray := rfl
  once := Nat.le_refl _
  single := Nat.zero_le _
  unstarted := fun _ => ⟨rfl, rfl⟩

/-- A step of the receiving engine. -/
theorem rxLocal (h : LinkOk id L) {log : List Output}
    (hs : RxStepped id L.request (count .transferChunk id L.data.handled) (count .ack id L.back.all)
      (L.data.handled.any (isFor .transferEnd id)) (L.back.all.any (grantsFor id)) l fs) :
    LinkOk id { L with rx := l, back := L.back.write fs, log } where
  rx := by
    rw [Channel.all_write, count_append, List.any_append]
    exact hs.ok
  tx := h.tx
  chunks := h.chunks
  acks := by
    rw [Channel.all_write]
    refine h.acks.append ?_
    rw [zero_add]
    exact hs.numbered
  last := h.last
  sent := h.sent
  received := by
    intro f hf
    rw [Channel.all_write, List.mem_append] at hf
    exact hf.elim (h.received f) (hs.frames f)
  offers := h.offers
  stray := h.stray
  once := h.once
  single := by
    have hgrants := hs.grants
    have hsingle := h.single
    rw [Channel.all_write, List.countP_append]
    cases hany : L.back.all.any (grantsFor id) with
    | true =>
      rw [hany, if_pos rfl] at hgrants
      omega
    | false =>
      have hzero : L.back.all.countP (grantsFor id) = 0 :=
        List.countP_eq_zero.mpr (List.any_eq_false.mp hany)
      omega
  unstarted := h.unstarted

/-- A step of the sending engine. -/
theorem txLocal (h : LinkOk id L)
    (hs : TxStepped id L.request (count .transferChunk id L.data.all) (count .ack id L.back.handled)
      (L.data.all.any (isFor .transferEnd id)) l fs)
    (hun : L.source = none → l = ⟨none, none, fun _ => none⟩ ∧ fs = []) :
    LinkOk id { L with tx := l, data := L.data.write fs } where
  rx := h.rx
  tx := by
    rw [Channel.all_write, count_append, List.any_append]
    exact hs.ok
  chunks := by
    rw [Channel.all_write]
    refine h.chunks.append ?_
    rw [zero_add]
    exact hs.numbered
  acks := h.acks
  last := by
    rw [Channel.all_write]
    exact h.last.append hs.last hs.open
  sent := by
    intro f hf
    rw [Channel.all_write, List.mem_append] at hf
    exact hf.elim (h.sent f) (hs.frames f)
  received := h.received
  offers := h.offers
  stray := h.stray
  once := h.once
  single := h.single
  unstarted := by
    intro hsrc
    obtain ⟨rfl, rfl⟩ := hun hsrc
    rw [Channel.all_write, List.append_nil]
    exact ⟨rfl, (h.unstarted hsrc).2⟩

/-- The receiver accepts a frame. -/
theorem toRx (h : LinkOk id L) (hwire : L.data.wire = f :: rest) (hf : f.transferID = id)
    (hends : ∀ v, L.rx.live = some v → ends v.queue ≤ if v.ending then 1 else 0) (hs : LocalHandled f L.rx l) :
    LinkOk id { L with rx := l, data := L.data.read f rest } := by
  have hall : (L.data.read f rest).all = L.data.all := Channel.all_read hwire
  refine ⟨?_, ?_, ?_, h.acks, ?_, ?_, h.received, h.offers, h.stray, h.once, h.single, ?_⟩
  · have hrx := h.rx.handled hf hends hs
    simpa [Channel.read, count_append] using hrx
  · simpa only [hall] using h.tx
  · simpa only [hall] using h.chunks
  · simpa only [hall] using h.last
  · simpa only [hall] using h.sent
  · simpa only [hall] using h.unstarted

/-- The sender accepts a frame. -/
theorem toTx (h : LinkOk id L) (hwire : L.back.wire = f :: rest) (hf : f.transferID = id)
    (hs : LocalHandled f L.tx l) :
    LinkOk id { L with tx := l, back := L.back.read f rest } := by
  have hall : (L.back.read f rest).all = L.back.all := Channel.all_read hwire
  refine ⟨?_, ?_, h.chunks, ?_, h.last, h.sent, ?_, h.offers, h.stray, ?_, ?_, ?_⟩
  · simpa only [hall] using h.rx
  · have htx := h.tx.handled hf hs
    simpa [Channel.read, count_append] using htx
  · simpa only [hall] using h.acks
  · simpa only [hall] using h.received
  · have honce := h.once
    simp only [Channel.read, List.countP_append]
    omega
  · simpa only [hall] using h.single
  · intro hsrc
    obtain ⟨htx, hdata⟩ := h.unstarted hsrc
    rw [htx] at hs
    exact ⟨hs.of_unknown, hdata⟩

/-- The sending session reads the grant of credit. -/
theorem offer (h : LinkOk id L) (hwire : L.back.wire = f :: rest) (hf : f.transferID = id)
    (hgrant : f.isGrant = true) :
    LinkOk id { L with back := L.back.read f rest, offers := f :: L.offers } := by
  have hall : (L.back.read f rest).all = L.back.all := Channel.all_read hwire
  have hmem : f ∈ L.back.all := Channel.head_mem hwire
  have hack : f.type ≠ .ack := by
    intro hack
    simp [Frame.isGrant, hack] at hgrant
  refine ⟨?_, ?_, h.chunks, ?_, h.last, h.sent, ?_, ?_, h.stray, ?_, ?_, h.unstarted⟩
  · simpa only [hall] using h.rx
  · have htx := h.tx
    simpa [Channel.read, count_append, count_cons, isFor, hack] using htx
  · simpa only [hall] using h.acks
  · simpa only [hall] using h.received
  · intro g hg
    obtain rfl | hg := List.mem_cons.mp hg
    · exact (h.received _ hmem).id hack
    · exact h.offers g hg
  · have honce := h.once
    have hone : [f].countP (grantsFor id) = 1 := by simp [grantsFor, hgrant, hf]
    simp only [Channel.read, List.countP_append, List.length_cons, hone]
    omega
  · simpa only [hall] using h.single

theorem acks_nonneg (h : LinkOk id L) (hdata : L.data.all = []) : count .ack id L.back.handled = 0 := by
  have hflow := h.rx.flow
  have hhandled : L.data.handled = [] := (List.append_eq_nil_iff.mp hdata).1
  rw [hhandled, count_nil, Channel.all, count_append] at hflow
  have hpos := count_nonneg .ack id L.back.handled
  have hwire := count_nonneg .ack id L.back.wire
  omega

/-- An offer that has not been answered is the only one there is. -/
theorem source_none (h : LinkOk id L) (hf : f ∈ L.offers) : L.source = none := by
  have hpos : 0 < L.offers.length := List.length_pos_of_mem hf
  have honce := h.once
  have hsingle := h.single
  rw [Channel.all, List.countP_append] at hsingle
  cases hsrc : L.source with
  | none => rfl
  | some _ =>
    simp only [hsrc, Option.isSome_some, if_true] at honce
    omega

/-- The sender does not answer frames of its own. -/
theorem not_stray (h : LinkOk id L)
    (hstray : L.stray ≠ [] ∨ ∃ f ∈ L.data.wire, f.transferID = id ∧ f.isGrant = true) : False := by
  obtain hstray | ⟨f, hf, -, hgrant⟩ := hstray
  · exact hstray h.stray
  · have hframe := (h.sent f (List.mem_append_right _ hf)).not_grant
    exact absurd (hframe.symm.trans hgrant) (by decide)

/-- The sender answers an offer; there is at most one. -/
theorem start (h : LinkOk id L) {source : List ReadResult} {opened : Bool} (hf : f ∈ L.offers) :
    LinkOk id { L with
      offers := L.offers.erase f, source := some source
      tx := ⟨some { serial, request := f.id, sending := true, expiry,
                    pc := if opened then .reserve else .opening, source }, none, L.tx.jobs⟩ } := by
  have hpos : 0 < L.offers.length := List.length_pos_of_mem hf
  have honce := h.once
  obtain ⟨htx, hdata⟩ := h.unstarted (h.source_none hf)
  refine ⟨h.rx, ?_, h.chunks, h.acks, h.last, h.sent, h.received, ?_, h.stray, ?_, h.single, nofun⟩
  · have hstart : TxOk id L.request 0 0 false _ :=
      @TxOk.started id L.request _ serial expiry opened source rfl
    rw [h.acks_nonneg hdata, hdata, htx, h.offers f hf]
    exact hstart
  · intro g hg
    exact h.offers g (List.mem_of_mem_erase hg)
  · simp only [List.length_erase_of_mem hf, Option.isSome_some, if_true]
    omega

theorem cancelRx (h : LinkOk id L) (hr : L.rx.recent = some r) :
    LinkOk id { L with
      back := L.back.write [{ type := .transferCancel, id := r.request, transferID := id }] } := by
  refine h.rxLocal ⟨?_, ?_, ?_, ?_⟩
  · simpa [count_cons, isFor, grantsFor, Frame.isGrant] using h.rx
  · exact (Numbered.cons_other (by simp [isFor])).mpr trivial
  · cases L.back.all.any (grantsFor id) <;> simp [grantsFor, Frame.isGrant]
  · intro g hg
    obtain rfl := List.mem_singleton.mp hg
    exact ⟨.inr (.inl rfl), fun _ => (h.rx.retired r hr).request⟩

theorem cancelTx (h : LinkOk id L) (hr : L.tx.recent = some r) :
    LinkOk id { L with
      data := L.data.write [{ type := .transferCancel, id := r.request, transferID := id }] } := by
  refine h.txLocal ⟨?_, ?_, List.pairwise_singleton .., ?_, ?_⟩ fun hsrc => ?_
  · simpa [count_cons, isFor] using h.tx
  · exact (Numbered.cons_other (by simp [isFor])).mpr trivial
  · intro _ g hg
    obtain rfl := List.mem_singleton.mp hg
    simp [isData, isFor]
  · intro g hg
    obtain rfl := List.mem_singleton.mp hg
    exact ⟨.inr (.inr rfl), (h.tx.retired r hr).request⟩
  · rw [(h.unstarted hsrc).1] at hr
    cases hr

/-- Every step keeps the invariant of the transfer. -/
theorem step (h : LinkOk id L)
    (hends : ∀ v, L.rx.live = some v → v.sending = false → ends v.queue ≤ if v.ending then 1 else 0)
    (hs : LinkStep sha256 p a id s L L') : LinkOk id L' := by
  have hends : ∀ v, L.rx.live = some v → ends v.queue ≤ if v.ending then 1 else 0 :=
    fun v hv => hends v hv (h.rx.live v hv).sending
  cases hs with
  | idle => exact h
  | prune hrx htx =>
    refine ⟨h.rx.prune hrx, h.tx.prune htx, h.chunks, h.acks, h.last, h.sent, h.received, h.offers, h.stray,
      h.once, h.single, fun hsrc => ?_⟩
    obtain ⟨hempty, hdata⟩ := h.unstarted hsrc
    rw [hempty] at htx
    exact ⟨htx.of_unknown, hdata⟩
  | rxLocal ha hl => exact h.rxLocal (h.rx.local_step hends hl)
  | txLocal ha hl =>
    refine h.txLocal (h.tx.local_step hl) fun hsrc => ?_
    rw [(h.unstarted hsrc).1] at hl
    obtain ⟨rfl, rfl⟩ := hl.of_unknown
    exact ⟨rfl, rfl⟩
  | accept hopen hfree hreserved =>
    refine ⟨?_, h.tx, h.chunks, h.acks, h.last, h.sent, h.received, h.offers, h.stray, h.once, h.single,
      h.unstarted⟩
    refine h.rx.postGrant rfl ?_ rfl rfl hreserved
    cases s <;> rfl
  | start hf => exact h.start hf
  | startFailed htx =>
    refine ⟨h.rx, h.tx.prune htx, h.chunks, h.acks, h.last, h.sent, h.received, ?_, h.stray, ?_, h.single,
      fun hsrc => ?_⟩
    · intro g hg
      exact h.offers g (List.mem_of_mem_erase hg)
    · have honce := h.once
      have hlen := List.length_erase_le (a := ‹Frame›) (l := L.offers)
      simp only at honce hlen ⊢
      omega
    · obtain ⟨hempty, hdata⟩ := h.unstarted hsrc
      rw [hempty] at htx
      exact ⟨htx.of_unknown, hdata⟩
  | cancelRx hr => exact h.cancelRx hr
  | cancelTx hr => exact h.cancelTx hr
  | toRx hwire hf hl => exact h.toRx hwire hf hends hl
  | toTx hwire hf hl => exact h.toTx hwire hf hl
  | offer hwire hf hgrant => exact h.offer hwire hf hgrant
  | stray hstray => exact (h.not_stray hstray).elim

end LinkOk

namespace Peers
variable {sha256 : List UInt8 → String} {p p' : Peers} {id : String}

/-- The invariant of the two engines and every transfer between them. -/
structure Ok (p : Peers) : Prop extends p.Base where
  link : ∀ id o, p.openings.lookup id = some o → LinkOk id (p.link id o)

theorem Ok.init : ({} : Peers).Ok := ⟨.init, fun _ _ ho => nomatch ho⟩

theorem Ok.ends (h : p.Ok) (o : Opening) (v : WireTransfer) (hv : (p.link id o).rx.live = some v)
    (hrecv : v.sending = false) : ends v.queue ≤ if v.ending then 1 else 0 :=
  (((h.accounting o.receiver).entry id v hv).receiver hrecv).2.1

theorem Ok.step (h : p.Ok) {a : PeerAction} (hs : p.step sha256 a = some p') : p'.Ok := by
  refine ⟨Base.step h.toBase hs, fun id o' ho' => ?_⟩
  obtain ⟨request, v, serial, expiry, hv, hlink⟩ | ⟨o, ho, -, hlink⟩ := (h.cases hs id).2 o' ho'
  · rw [hlink]
    exact .reserved hv
  · exact (h.link id o ho).step (h.ends o) hlink

end Peers
end Onprest.Ws
