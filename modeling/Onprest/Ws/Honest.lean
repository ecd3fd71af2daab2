import Onprest.Ws.Link.Exact

/-! Two honest engines do not accuse each other, as long as no transfer is retired between the context
check and the write-start callback of one of its frames. -/

namespace Onprest.Ws
open Lib Protocol

/-- A transfer with room in its own window leaves room in the window of the connection. -/
theorem Accounting.retained_lt {t : Transfers} {id : String} {v : WireTransfer} (h : Accounting t)
    (hv : t.live.lookup id = some v) (hroom : v.credit < transferWindow) : t.retained < connectionWindow := by
  have hrest : ∀ i w, (t.live.erase id).lookup i = some w → 0 ≤ w.credit ∧ w.credit ≤ transferWindow := by
    intro i w hw
    rw [Table.lookup_erase_eq] at hw
    split at hw
    · cases hw
    · exact h.credit_bounds hw
  have hbound := (Table.total_bounds hrest).2
  have htotal := Table.total_erase WireTransfer.credit hv
  have hsize := Table.size_erase hv
  have hlive := h.live_le
  have hretained := h.retained
  simp only [transferWindow, connectionWindow] at hbound hroom ⊢
  omega

namespace Transfers
variable {t : Transfers} {f : Frame} {v : WireTransfer} {r : RetiredTransfer}

theorem accepts_cancel (hf : f.type = .transferCancel)
    (hlive : ∀ v, t.live.lookup f.transferID = some v → f.id = v.request)
    (hretired : ∀ r, t.recent.lookup f.transferID = some r → f.id = r.request) :
    (t.handle f).2.isProtocol = false := by
  unfold handle
  cases hv : t.live.lookup f.transferID with
  | some v => simp [handleLive, hf, hlive v hv, HandleResult.isProtocol]
  | none =>
    cases hr : t.recent.lookup f.transferID with
    | none => simp [handleUnknown, hf, HandleResult.isProtocol]
    | some r =>
      simp only
      split
      · simp [handleRetired, hf, hretired r hr, HandleResult.isProtocol]
      · simp [handleUnknown, hf, HandleResult.isProtocol]

theorem accepts_ack (hf : f.type = .ack) (hv : t.live.lookup f.transferID = some v)
    (hsending : v.sending = true) (hseq : f.sequence = v.acked) (hout : v.acked < v.sent) :
    (t.handle f).2.isProtocol = false := by
  have hbad : ¬(v.sending = false ∨ f.sequence ≠ v.acked ∨ v.sent ≤ v.acked) := by
    simp [hsending, hseq, hout]
  simp only [handle, hv, handleLive, if_pos hf, if_neg hbad, HandleResult.isProtocol]

theorem accepts_chunk (h : Accounting t) (hf : f.type = .transferChunk)
    (hv : t.live.lookup f.transferID = some v) (hid : f.id = v.request) (hsending : v.sending = false)
    (hending : v.ending = false) (hgranted : v.granted = true) (hseq : f.sequence = v.next)
    (hroom : v.next - v.acked < transferWindow) (hdata : ChunkData f) : (t.handle f).2.isProtocol = false := by
  obtain ⟨b, hb, hne, hlen⟩ := hdata
  have hchunk : f.chunk = some b := Frame.chunk_encode hb hne hlen
  have hconn := h.retained_lt hv hroom
  have hqueue : v.queue.length < queueCapacity := h.queue_room hv hsending hending
  have hwindow : ¬(f.sequence ≠ v.next ∨ transferWindow ≤ v.next - v.acked ∨ connectionWindow ≤ t.retained) := by
    simp only [ne_eq, hseq, not_true_eq_false, false_or, not_or, not_le]
    exact ⟨hroom, hconn⟩
  simp [handle, hv, handleLive, hf, hid, hsending, hending, hgranted, hwindow, hchunk, enqueue, hqueue,
    HandleResult.isProtocol]

theorem accepts_end (h : Accounting t) (hf : f.type = .transferEnd)
    (hv : t.live.lookup f.transferID = some v) (hid : f.id = v.request) (hsending : v.sending = false)
    (hending : v.ending = false) (hgranted : v.granted = true) : (t.handle f).2.isProtocol = false := by
  have hqueue : v.queue.length < queueCapacity := h.queue_room hv hsending hending
  simp [handle, hv, handleLive, hf, hid, hsending, hending, hgranted, enqueue, hqueue, HandleResult.isProtocol]

theorem accepts_lateAck (hf : f.type = .ack) (hv : t.live.lookup f.transferID = none)
    (hr : t.recent.lookup f.transferID = some r) (hc : r.canceled = true) (hgrace : t.now < r.expiry)
    (hsending : r.sending = true) (hseq : f.sequence = r.acked) (hout : r.acked < r.sent) :
    (t.handle f).2.isProtocol = false := by
  simp [handle, hv, hr, hc, hgrace, handleRetired, hf, hsending, hseq, hout, HandleResult.isProtocol]

theorem accepts_lateChunk (hf : f.type = .transferChunk) (hv : t.live.lookup f.transferID = none)
    (hr : t.recent.lookup f.transferID = some r) (hc : r.canceled = true) (hgrace : t.now < r.expiry)
    (hid : f.id = r.request) (hsending : r.sending = false) (hending : r.ending = false)
    (hseq : f.sequence = r.next) (hroom : r.next - r.acked < transferWindow) :
    (t.handle f).2.isProtocol = false := by
  simp [handle, hv, hr, hc, hgrace, handleRetired, hf, hid, hsending, hending, hseq, hroom,
    HandleResult.isProtocol]

theorem accepts_lateEnd (hf : f.type = .transferEnd) (hv : t.live.lookup f.transferID = none)
    (hr : t.recent.lookup f.transferID = some r) (hc : r.canceled = true) (hgrace : t.now < r.expiry)
    (hid : f.id = r.request) (hsending : r.sending = false) (hending : r.ending = false) :
    (t.handle f).2.isProtocol = false := by
  simp [handle, hv, hr, hc, hgrace, handleRetired, hf, hid, hsending, hending, HandleResult.isProtocol]

end Transfers
namespace LinkOk
variable {id : String} {L : Link} {t : Transfers} {f : Frame} {rest : List Frame}

/-- A sender has written nothing before its credit was granted on the wire. -/
theorem opened (h : LinkOk id L) (hdata : L.data.all ≠ []) : L.back.all.any (grantsFor id) = true := by
  have hsrc : L.source.isSome = true := by
    cases hsrc : L.source with
    | none => exact absurd (h.unstarted hsrc).2 hdata
    | some _ => rfl
  have honce := h.once
  rw [hsrc, if_pos rfl] at honce
  have hpos : 0 < L.back.handled.countP (grantsFor id) := by omega
  obtain ⟨g, hg, hgrant⟩ := List.countP_pos_iff.mp hpos
  exact List.any_eq_true.mpr ⟨g, List.mem_append_left _ hg, hgrant⟩

/-- The window still has room for a chunk that is on its way. -/
theorem room (h : LinkOk id L) (hwire : L.data.wire = f :: rest) (hf : isFor .transferChunk id f = true) :
    count .transferChunk id L.data.handled - count .ack id L.back.all < transferWindow := by
  have hwindow := h.tx.window
  have hrest := count_nonneg .transferChunk id rest
  have hacks := count_nonneg .ack id L.back.wire
  rw [Channel.all_eq hwire, count_append, count_cons, hf, if_pos rfl] at hwindow
  rw [Channel.all, count_append]
  omega

/-- A chunk whose acknowledgement is on its way has been written and not counted as acknowledged. -/
theorem outstanding (h : LinkOk id L) (hwire : L.back.wire = f :: rest) (hf : isFor .ack id f = true) :
    count .ack id L.back.handled < count .transferChunk id L.data.all := by
  have hflow := h.rx.flow
  have hrest := count_nonneg .ack id rest
  have hdata := count_nonneg .transferChunk id L.data.wire
  rw [Channel.all_eq hwire, count_append, count_cons, hf, if_pos rfl] at hflow
  rw [Channel.all, count_append]
  omega

/-- Nothing of the data that is still to arrive follows the end. -/
theorem not_ended (h : LinkOk id L) (hwire : L.data.wire = f :: rest) (hd : isData id f = true) :
    L.data.handled.any (isFor .transferEnd id) = false :=
  (Channel.all_eq hwire ▸ h.last).none_before hd

theorem chunk_sequence (h : LinkOk id L) (hwire : L.data.wire = f :: rest)
    (hf : isFor .transferChunk id f = true) : f.sequence = count .transferChunk id L.data.handled := by
  have hseq := (Channel.all_eq hwire ▸ h.chunks).sequence hf
  rwa [zero_add] at hseq

theorem ack_sequence (h : LinkOk id L) (hwire : L.back.wire = f :: rest) (hf : isFor .ack id f = true) :
    f.sequence = count .ack id L.back.handled := by
  have hseq := (Channel.all_eq hwire ▸ h.acks).sequence hf
  rwa [zero_add] at hseq

/-- An acknowledgement answers a chunk of a sender that was started. -/
theorem source_of_ack (h : LinkOk id L) (hwire : L.back.wire = f :: rest) (hf : isFor .ack id f = true) :
    L.source.isSome = true := by
  have hout := h.outstanding hwire hf
  cases hsrc : L.source with
  | some _ => rfl
  | none =>
    have hpos := count_nonneg .ack id L.back.handled
    rw [(h.unstarted hsrc).2, count_nil] at hout
    omega

variable {v : WireTransfer} {r : RetiredTransfer}

/-- A live receiver accepts every frame its sender wrote. -/
theorem rx_live_accepts (h : LinkOk id L) (hacc : Accounting t) (hview : t.view id = L.rx)
    (hwire : L.data.wire = f :: rest) (hf : f.transferID = id) (hv : t.live.lookup id = some v) :
    (t.handle f).2.isProtocol = false := by
  subst hf
  have hmem := Channel.head_mem hwire
  have hframe := h.sent f hmem
  have hlive : L.rx.live = some v := hview ▸ hv
  have hrx := h.rx.live v hlive
  have hid : f.id = v.request := hframe.id.trans hrx.request.symm
  have hgranted := h.rx.granted (h.opened (List.ne_nil_of_mem hmem)) v hlive
  obtain ⟨htype, hdata⟩ | htype | htype := hframe.kind
  · have hfor : isFor .transferChunk f.transferID f = true := isFor_iff.mpr ⟨htype, rfl⟩
    refine Transfers.accepts_chunk hacc htype hv hid hrx.sending ?_ hgranted ?_ ?_ hdata
    · exact hrx.ending.trans (h.not_ended hwire (by simp [isData, hfor]))
    · exact (h.chunk_sequence hwire hfor).trans hrx.next.symm
    · rw [hrx.next, hrx.acked]
      exact h.room hwire hfor
  · have hfor : isFor .transferEnd f.transferID f = true := isFor_iff.mpr ⟨htype, rfl⟩
    exact Transfers.accepts_end hacc htype hv hid hrx.sending
      (hrx.ending.trans (h.not_ended hwire (by simp [isData, hfor]))) hgranted
  · refine Transfers.accepts_cancel htype (fun w hw => ?_) (fun r hr => ?_)
    · obtain rfl := Option.some.inj (hv.symm.trans hw)
      exact hid
    · exact hframe.id.trans (h.rx.retired r (hview ▸ hr)).request.symm

/-- A retired receiver accepts every frame its sender wrote within the grace period. -/
theorem rx_late_accepts (h : LinkOk id L) (hexact : Exact id L) (hview : t.view id = L.rx)
    (hwire : L.data.wire = f :: rest) (hf : f.transferID = id) (hv : t.live.lookup id = none)
    (hr : t.recent.lookup id = some r) (hnow : t.now < r.expiry) : (t.handle f).2.isProtocol = false := by
  subst hf
  have hframe := h.sent f (Channel.head_mem hwire)
  have hrecent : L.rx.recent = some r := hview ▸ hr
  have hrx := h.rx.retired r hrecent
  have hid : f.id = r.request := hframe.id.trans hrx.request.symm
  have hcanceled : L.data.handled.any (isFor .transferEnd f.transferID) = false → r.canceled = true := by
    intro hended
    by_contra hc
    exact absurd (hended.symm.trans (hrx.canceled (by simpa using hc))) (by decide)
  obtain ⟨htype, hdata⟩ | htype | htype := hframe.kind
  · have hfor : isFor .transferChunk f.transferID f = true := isFor_iff.mpr ⟨htype, rfl⟩
    have hended := h.not_ended hwire (by simp [isData, hfor])
    refine Transfers.accepts_lateChunk htype hv hr (hcanceled hended) hnow hid hrx.sending
      (hrx.ending.trans hended) ((h.chunk_sequence hwire hfor).trans hrx.next.symm) ?_
    rw [hrx.next, hexact.rxAcked r hrecent]
    exact h.room hwire hfor
  · have hfor : isFor .transferEnd f.transferID f = true := isFor_iff.mpr ⟨htype, rfl⟩
    have hended := h.not_ended hwire (by simp [isData, hfor])
    exact Transfers.accepts_lateEnd htype hv hr (hcanceled hended) hnow hid hrx.sending
      (hrx.ending.trans hended)
  · refine Transfers.accepts_cancel htype (fun w hw => ?_) (fun r' hr' => ?_)
    · exact absurd (hv.symm.trans hw) (by simp)
    · obtain rfl := Option.some.inj (hr.symm.trans hr')
      exact hid

/-- A sender accepts a cancel frame of its receiver at any time. -/
theorem tx_accepts_cancel (h : LinkOk id L) (hview : t.view id = L.tx) (hwire : L.back.wire = f :: rest)
    (hf : f.transferID = id) (htype : f.type = .transferCancel) : (t.handle f).2.isProtocol = false := by
  subst hf
  have hid := (h.received f (Channel.head_mem hwire)).id (by simp [htype])
  refine Transfers.accepts_cancel htype (fun v hv => ?_) (fun r hr => ?_)
  · exact hid.trans (h.tx.live v (hview ▸ hv)).request.symm
  · exact hid.trans (h.tx.retired r (hview ▸ hr)).request.symm

/-- A live sender accepts the acknowledgements of its receiver. -/
theorem tx_live_accepts (h : LinkOk id L) (hview : t.view id = L.tx) (hwire : L.back.wire = f :: rest)
    (hf : f.transferID = id) (htype : f.type = .ack) (hv : t.live.lookup id = some v) :
    (t.handle f).2.isProtocol = false := by
  subst hf
  have hfor : isFor .ack f.transferID f = true := isFor_iff.mpr ⟨htype, rfl⟩
  have htx := h.tx.live v (hview ▸ hv)
  refine Transfers.accepts_ack htype hv htx.sending ((h.ack_sequence hwire hfor).trans htx.acked.symm) ?_
  rw [htx.acked, htx.sent]
  exact h.outstanding hwire hfor

/-- A retired sender accepts the acknowledgements of its receiver within the grace period. -/
theorem tx_late_accepts (h : LinkOk id L) (hexact : Exact id L) (hview : t.view id = L.tx)
    (hwire : L.back.wire = f :: rest) (hf : f.transferID = id) (htype : f.type = .ack) (hv : t.live.lookup id = none)
    (hr : t.recent.lookup id = some r) (hnow : t.now < r.expiry) : (t.handle f).2.isProtocol = false := by
  subst hf
  have hfor : isFor .ack f.transferID f = true := isFor_iff.mpr ⟨htype, rfl⟩
  have hout := h.outstanding hwire hfor
  have hrecent : L.tx.recent = some r := hview ▸ hr
  have htx := h.tx.retired r hrecent
  have hc : r.canceled = true := by
    by_contra hc
    have hall := htx.canceled (by simpa using hc)
    omega
  refine Transfers.accepts_lateAck htype hv hr hc hnow htx.sending
    ((h.ack_sequence hwire hfor).trans htx.acked.symm) ?_
  rw [htx.acked, hexact.txSent r hrecent]
  exact hout

end LinkOk
namespace Peers
variable {sha256 : List UInt8 → String} {p p' : Peers} {s : Side}

/-- The invariant of two engines that retire transfers in order. -/
structure Honest (p : Peers) : Prop extends p.Ok where
  exact : ∀ id o, p.openings.lookup id = some o → Exact id (p.link id o)
  accepted : p.rejected = none

theorem Honest.init : ({} : Peers).Honest := ⟨.init, (fun _ _ ho => nomatch ho), rfl⟩

theorem inGrace_cases {id : String} {o : Opening} (h : p.inGrace s id = true)
    (ho : p.openings.lookup id = some o) (hopen : o.receiver = s ∨ o.source.isSome = true) :
    ((p.engine s).live.lookup id).isSome = true ∨
      ∃ r, (p.engine s).recent.lookup id = some r ∧ (p.engine s).now < r.expiry := by
  rw [inGrace, Bool.or_eq_true] at h
  refine h.imp_right fun h => ?_
  cases hr : (p.engine s).recent.lookup id with
  | some r => exact ⟨r, rfl, by simpa [hr] using h⟩
  | none =>
    simp only [hr, ho, Bool.and_eq_true, decide_eq_true_eq, ne_eq, Option.isNone_iff_eq_none] at h
    obtain hs | hs := hopen
    · exact absurd hs h.1
    · simp [h.2] at hs

/-- An honest engine accepts the next frame of its peer. -/
theorem Honest.accepts (h : p.Honest) {f : Frame} {rest : List Frame} (hwire : p.wire s.other = f :: rest)
    (hgrant : f.isGrant = false) (hgrace : p.inGrace s f.transferID = true) :
    ((p.engine s).handle f).2.isProtocol = false := by
  cases ho : p.openings.lookup f.transferID with
  | none =>
    have hempty := (h.unopened f.transferID ho ⟨s, "", none⟩).2.2.1
    have hself := wire_self hwire rfl
    simp only [link] at hempty
    rw [hempty] at hself
    cases hself
  | some o =>
    have hlink := h.link f.transferID o ho
    have hexact := h.exact f.transferID o ho
    obtain rfl | rfl := s.eq_or_other o.receiver
    · have hself := wire_self hwire rfl
      obtain hlive | ⟨r, hr, hnow⟩ := inGrace_cases hgrace ho (.inl rfl)
      · obtain ⟨v, hv⟩ := Option.isSome_iff_exists.mp hlive
        exact hlink.rx_live_accepts (h.accounting _) rfl hself rfl hv
      · cases hv : (p.engine o.receiver).live.lookup f.transferID with
        | some v => exact hlink.rx_live_accepts (h.accounting _) rfl hself rfl hv
        | none => exact hlink.rx_late_accepts hexact rfl hself rfl hv hr hnow
    · rw [Side.other_other] at hwire
      have hself := wire_self hwire rfl
      obtain htype | htype | htype := (hlink.received f (Channel.head_mem hself)).kind
      · have hsrc := hlink.source_of_ack hself (isFor_iff.mpr ⟨htype, rfl⟩)
        obtain hlive | ⟨r, hr, hnow⟩ := inGrace_cases hgrace ho (.inr hsrc)
        · obtain ⟨v, hv⟩ := Option.isSome_iff_exists.mp hlive
          exact hlink.tx_live_accepts rfl hself rfl htype hv
        · cases hv : (p.engine o.receiver.other).live.lookup f.transferID with
          | some v => exact hlink.tx_live_accepts rfl hself rfl htype hv
          | none => exact hlink.tx_late_accepts hexact rfl hself rfl htype hv hr hnow
      · exact hlink.tx_accepts_cancel rfl hself rfl htype
      · exact absurd (hgrant.symm.trans htype) (by decide)

variable {a : PeerAction}

theorem rejected_step (hs : p.step sha256 a = some p') :
    p'.rejected = p.rejected ∨ ∃ s f rest, a = .deliver s ∧ p.wire s.other = f :: rest ∧ f.isGrant = false ∧
      p'.rejected = some f ∧ ((p.engine s).handle f).2.isProtocol = true := by
  cases a with
  | reserve s request id ctx =>
    simp only [Peers.step, reserveStep] at hs
    split at hs
    · cases hs
    split at hs
    · cases hs
      exact .inl rfl
    · cases hs
      exact .inl rfl
  | accept s id =>
    simp only [Peers.step, acceptStep] at hs
    split at hs
    · split at hs
      · cases hs
        exact .inl rfl
      · cases hs
    · cases hs
  | start s id ctx source opened =>
    simp only [Peers.step, startStep] at hs
    split at hs
    · split at hs
      · cases hs
        exact .inl rfl
      · cases hs
        exact .inl rfl
    · cases hs
  | act s b =>
    simp only [Peers.step] at hs
    split at hs
    · obtain ⟨r, -, rfl⟩ := Option.map_eq_some_iff.mp hs
      exact .inl rfl
    · cases hs
  | cancelFrame s id =>
    simp only [Peers.step, cancelFrameStep] at hs
    split at hs
    · cases hs
      exact .inl rfl
    · cases hs
  | deliver s =>
    simp only [Peers.step, deliverStep] at hs
    split at hs
    · rename_i f rest _ hwire
      split at hs
      · cases hs
        exact .inl rfl
      · rename_i hgrant
        split at hs
        · rename_i hbad
          cases hs
          exact .inr ⟨s, f, rest, rfl, hwire, by simpa using hgrant, rfl, hbad⟩
        · cases hs
          exact .inl rfl
    · cases hs

theorem Honest.step (h : p.Honest) (ha : p.orderly a = true) (hs : p.step sha256 a = some p') : p'.Honest := by
  rw [orderly, Bool.and_eq_true] at ha
  refine ⟨h.toOk.step hs, fun id o' ho' => ?_, ?_⟩
  · obtain ⟨request, v, serial, expiry, -, hlink⟩ | ⟨o, ho, -, hlink⟩ := (h.cases hs id).2 o' ho'
    · rw [hlink]
      exact .fresh
    · exact (h.exact id o ho).step (h.link id o ho) rfl ha.2 hlink
  · obtain hsame | ⟨s, f, rest, rfl, hwire, hgrant, -, hbad⟩ := rejected_step hs
    · exact hsame.trans h.accepted
    · have hgrace : p.inGrace s f.transferID = true := by simpa [graced, hwire] using ha.1
      exact absurd ((h.accepts hwire hgrant hgrace).symm.trans hbad) (by decide)

end Peers

/-- Two honest engines never accuse each other in any run in which every frame arrives within the grace
period of its transfer and no transfer is retired between the context check and the write-start callback
of one of its chunks or acknowledgements. -/
theorem peers_never_accuse (sha256 : List UInt8 → String) (as : List PeerAction) (p : Peers)
    (hrun : ((Peers.machine sha256).guarded Peers.orderly).run {} as = some p) : p.rejected = none := by
  refine Peers.Honest.accepted (((Peers.machine sha256).guarded Peers.orderly).run_invariant
    (fun s a s' h hs => ?_) Peers.Honest.init hrun)
  obtain ⟨ha, hs⟩ := (Peers.machine sha256).guarded_step.mp hs
  exact Peers.Honest.step h ha hs

/-- The agent reserves and accepts an input of one byte, the gateway reads it and posts its chunk. -/
def openInput : List PeerAction :=
  [.reserve .agent "r" "t" { deadline := some 9 }, .act .agent (.move "t" .granted), .accept .agent "t",
    .act .agent (.check 0 false), .act .agent (.run 0), .deliver .gateway,
    .start .gateway "t" { deadline := some 9 } [⟨[65], none, by decide⟩] true,
    .act .gateway (.move "t" .reserve), .act .gateway (.move "t" (.read true true))]

/-- The agent gets the chunk, writes and acknowledges it, and the gateway gets the acknowledgement. -/
def acknowledge : List PeerAction :=
  [.deliver .agent, .act .agent (.move "t" .take), .act .agent (.move "t" (.wrote true true)),
    .act .agent (.check 1 false), .act .agent (.run 1), .deliver .gateway]

/-- The gateway cancels and retires the input after its chunk was written. -/
def cancelAfterWrite : List PeerAction :=
  openInput ++
    [.act .gateway (.check 0 false), .act .gateway (.cancel "t"), .act .gateway (.run 0),
      .act .gateway (.move "t" .abort), .act .gateway (.retire "t")] ++ acknowledge

/-- The gateway cancels and retires the input between the context check and the write of its chunk. -/
def cancelBeforeWrite : List PeerAction :=
  openInput ++
    [.act .gateway (.check 0 false), .act .gateway (.cancel "t"), .act .gateway (.move "t" .abort),
      .act .gateway (.retire "t"), .act .gateway (.run 0)] ++ acknowledge

theorem peers_never_accuse_cancelAfterWrite :
    ∃ p, ((Peers.machine fun _ => "").guarded Peers.orderly).run {} cancelAfterWrite = some p ∧
      (p.handled .agent).length = 2 ∧ p.rejected = none := by
  have hlen : (((Peers.machine fun _ => "").guarded Peers.orderly).run {} cancelAfterWrite).map
      (fun p => (p.handled .agent).length) = some 2 := by decide +kernel
  obtain ⟨p, hrun, hlen⟩ := Option.map_eq_some_iff.mp hlen
  exact ⟨p, hrun, hlen, peers_never_accuse (fun _ => "") cancelAfterWrite p hrun⟩

/-- Without the second condition the acknowledgement of a chunk that was written is answered with
`ErrProtocol`: the retired sender has not counted the chunk. -/
theorem cancelBeforeWrite_rejected :
    ∃ p, ((Peers.machine fun _ => "").guarded Peers.graced).run {} cancelBeforeWrite = some p ∧
      p.rejected = some { type := .ack, transferID := "t", sequence := 0 } := by
  have hrejected : (((Peers.machine fun _ => "").guarded Peers.graced).run {} cancelBeforeWrite).map
      (·.rejected) = some (some { type := .ack, transferID := "t", sequence := 0 }) := by decide +kernel
  exact Option.map_eq_some_iff.mp hrejected

end Onprest.Ws
