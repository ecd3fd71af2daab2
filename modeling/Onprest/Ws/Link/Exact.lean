import Onprest.Ws.Link.Inv

/-! The retired state of a transfer counts every frame that was written, as long as no transfer is
retired between the context check and the write-start callback of one of its frames. -/

namespace Onprest.Ws
open Lib Protocol

/-- The callbacks that move a counter. -/
def Start.counts : Start → Bool
  | .sent | .acked => true
  | _ => false

/-- A chunk or acknowledgement of the live transfer `id` is past its context check and its callback has
not run. -/
def Transfers.starting (t : Transfers) (id : String) : Bool :=
  match t.live.lookup id with
  | some v => Table.any (fun j => j.transfer = id && j.serial = v.serial && j.checked && j.start.counts) t.jobs
  | none => false

/-- The transfer `id` is live, in its grace period, or was never opened on side `s`. -/
def Peers.inGrace (p : Peers) (s : Side) (id : String) : Bool :=
  ((p.engine s).live.lookup id).isSome ||
    match (p.engine s).recent.lookup id with
    | some r => (p.engine s).now < r.expiry
    | none =>
      match p.openings.lookup id with
      | some o => o.receiver ≠ s && o.source.isNone
      | none => true

/-- Every frame arrives before the grace period of its transfer ends. -/
def Peers.graced (p : Peers) : PeerAction → Bool
  | .deliver s =>
    match p.wire s.other with
    | f :: _ => p.inGrace s f.transferID
    | [] => true
  | _ => true

/-- No transfer is retired while one of its counters is about to move. -/
def Peers.raceFree (p : Peers) : PeerAction → Bool
  | .act s (.retire id) => !(p.engine s).starting id
  | _ => true

def Peers.orderly (p : Peers) (a : PeerAction) : Bool := p.graced a && p.raceFree a

/-- No frame of a retired transfer is past its context check. -/
def Settled (s : Start) (l : Local) : Prop :=
  l.live = none → ∀ k j, l.jobs k = some j → j.start = s → j.checked = false

variable {s : Start} {l l' : Local} {k : ℕ} {j : Job} {sha256 : List UInt8 → String} {t : Transfers} {a : Action}
  {id request : String} {out : List Output} {acks : ℤ} {ended : Bool} {f : Frame}

theorem Settled.sub (h : Settled s l) (hlive : l'.live = none → l.live = none)
    (hsub : ∀ k j, l'.jobs k = some j → l.jobs k = some j) : Settled s l' :=
  fun hnone k j hj hs => h (hlive hnone) k j (hsub k j hj) hs

theorem update_none_sub {jobs : ℕ → Option Job} {k' : ℕ} (hj : Function.update jobs k none k' = some j) :
    jobs k' = some j := by
  rw [Function.update_apply] at hj
  split at hj
  · cases hj
  · exact hj

/-- Local steps keep a retired transfer settled if it was retired settled. -/
theorem Settled.step (h : Settled s l) (hview : l = t.view id) (hgrant : s ≠ .grant)
    (hretire : a = .retire id → ∀ k j, l.jobs k = some j → j.start = s → j.checked = false)
    (hs : LocalStep sha256 t a id l l' out) : Settled s l' := by
  cases hs with
  | idle => exact h
  | move | cancel | run | grant => exact fun hnone => nomatch hnone
  | retire ha hpc => exact fun _ => hretire ha
  | drop | runLate | refuse => exact h.sub (fun hnone => hnone) fun _ _ => update_none_sub
  | check hj hchecked hctx hquiet =>
    rename_i k j
    intro hnone k' j' hj' hs'
    simp only [Function.update_apply] at hj'
    split at hj'
    · cases hj'
      have hcancel := hctx fun hg => hgrant (hs'.symm.trans hg)
      subst hview
      have htransfer : j.transfer = id := (Transfers.view_jobs_iff.mp hj).2
      have hlive : t.live.lookup j.transfer = none := htransfer ▸ hnone
      simp [Transfers.jobCancelled, hlive] at hcancel
    · exact h hnone k' j' hj' hs'

/-- The retired state of both sides has counted everything that was written. -/
structure Exact (id : String) (L : Link) : Prop where
  rxSettled : Settled .acked L.rx
  txSettled : Settled .sent L.tx
  rxAcked : ∀ r, L.rx.recent = some r → r.acked = count .ack id L.back.all
  txSent : ∀ r, L.tx.recent = some r → r.sent = count .transferChunk id L.data.all

/-- What a guarded step knows about the jobs of a transfer it retires. -/
theorem Transfers.starting_false {v : WireTransfer} (h : t.starting id = false) (hv : t.live.lookup id = some v)
    (hj : (t.view id).jobs k = some j) (hserial : v.serial = j.serial) (hcounts : j.start.counts = true) :
    j.checked = false := by
  obtain ⟨hj, htransfer⟩ := view_jobs_iff.mp hj
  by_contra hchecked
  rw [Bool.not_eq_false] at hchecked
  rw [starting, hv] at h
  have hany := Table.any_of_lookup (p := fun j => j.transfer = id && j.serial = v.serial && j.checked &&
    j.start.counts) hj (by simp [htransfer, hserial, hchecked, hcounts])
  exact absurd (h.symm.trans hany) (by decide)

/-- A local step keeps a counter of the retired state exact, if retiring does and the callbacks that come late do. -/
theorem LocalStep.counted {n : ℤ} {c : RetiredTransfer → ℤ} {type : FrameType}
    (hs : LocalStep sha256 t a id l l' out) (hapart : ∀ v, l.live = some v → l.recent = none)
    (hexact : ∀ r, l.recent = some r → c r = n) (hretire : ∀ v err, l.live = some v → c (v.retired err) = n)
    (hlate : ∀ k j, l.jobs k = some j → j.checked = true → j.start ≠ .grant →
      (∀ v, l.live = some v → v.serial ≠ j.serial) → ∀ r, l.recent = some r → c r = n + count type id [j.frame]) :
    ∀ r, l'.recent = some r → c r = n + count type id (out.filterMap Output.frame?) := by
  have hquiet : ∀ r, l.recent = some r → c r = n + count type id [] := by
    simpa using hexact
  cases hs with
  | move ha hu =>
    rw [(Transfers.move_moved sha256 hu).no_frame]
    exact hquiet
  | retire ha hpc =>
    rintro _ ⟨⟩
    simpa using hretire _ _ rfl
  | run | grant =>
    intro r hr
    exact absurd ((hapart _ rfl).symm.trans hr) (by simp)
  | runLate hj hchecked hstart hserial => exact hlate _ _ hj hchecked hstart hserial
  | _ => exact hquiet

/-- A local step of the receiver keeps the acknowledgement count of its retired state exact. -/
theorem RxOk.exact_step {got : ℤ} {opened : Bool} (h : RxOk id request got acks ended opened l)
    (hsettled : Settled .acked l) (hexact : ∀ r, l.recent = some r → r.acked = acks)
    (hs : LocalStep sha256 t a id l l' out) :
    ∀ r, l'.recent = some r → r.acked = acks + count .ack id (out.filterMap Output.frame?) := by
  refine hs.counted h.apart hexact (fun v _ hv => (h.live v hv).acked) fun k j hj hchecked hstart hserial => ?_
  obtain ⟨hg, -⟩ | ⟨hack, -⟩ := h.job k j hj
  · exact absurd hg hstart
  · have hnone : l.live = none := Option.eq_none_iff_forall_ne_some.mpr fun v hv =>
      hserial v hv (h.waiting v k j hv hj hack).1
    exact absurd ((hsettled hnone k j hj hack).symm.trans hchecked) (by decide)

/-- A local step of the sender keeps the chunk count of its retired state exact. -/
theorem TxOk.exact_step {written : ℤ} (h : TxOk id request written acks ended l) (hsettled : Settled .sent l)
    (hexact : ∀ r, l.recent = some r → r.sent = written) (hs : LocalStep sha256 t a id l l' out) :
    ∀ r, l'.recent = some r → r.sent = written + count .transferChunk id (out.filterMap Output.frame?) := by
  refine hs.counted h.apart hexact (fun v _ hv => (h.live v hv).sent) fun k j hj hchecked _ hserial => ?_
  have hnone : l.live = none := Option.eq_none_iff_forall_ne_some.mpr fun v hv =>
    hserial v hv (h.waiting v k j hv hj).1
  cases h.job k j hj with
  | chunk hsent => exact absurd ((hsettled hnone k j hj hsent).symm.trans hchecked) (by decide)
  | «end» _ htype =>
    intro r hr
    simpa [count_cons, isFor, htype] using hexact r hr

theorem LocalHandled.live_none (h : LocalHandled f l l') (hnone : l'.live = none) : l.live = none := by
  cases h <;> first | exact hnone | cases hnone

/-- A late frame moves the acknowledgements of a sender and the chunks of a receiver only. -/
theorem LocalHandled.retired (h : LocalHandled f l l') {r' : RetiredTransfer} (hr : l'.recent = some r') :
    ∃ r, l.recent = some r ∧ r'.sent = r.sent ∧ (r.sending = false → r'.acked = r.acked) := by
  cases h with
  | lateAck hf hsending =>
    cases hr
    exact ⟨_, rfl, rfl, fun hs => absurd (hsending.symm.trans hs) (by decide)⟩
  | lateChunk | lateEnd =>
    cases hr
    exact ⟨_, rfl, rfl, fun _ => rfl⟩
  | _ => exact ⟨r', hr, rfl, fun _ => rfl⟩

theorem Pruned.recent (h : Pruned l l') {r : RetiredTransfer} (hr : l'.recent = some r) : l.recent = some r := by
  obtain rfl | rfl := h
  · exact hr
  · cases hr

theorem Settled.prune (h : Settled s l) (hp : Pruned l l') : Settled s l' := by
  obtain rfl | rfl := hp
  · exact h
  · exact h.sub (fun hnone => hnone) fun _ _ hj => hj

theorem Settled.handled (h : Settled s l) (hs : LocalHandled f l l') : Settled s l' :=
  h.sub hs.live_none fun k j hj => by rwa [hs.jobs] at hj

namespace Exact
variable {sha256 : List UInt8 → String} {p : Peers} {a : PeerAction} {id : String} {o : Opening} {L L' : Link}

theorem fresh {v : WireTransfer} : Exact id (.fresh request v) where
  rxSettled := fun hnone => nomatch hnone
  txSettled := fun _ _ _ hj => nomatch hj
  rxAcked := fun _ hr => nomatch hr
  txSent := fun _ hr => nomatch hr

theorem step (h : Exact id L) (hok : LinkOk id L) (hL : L = p.link id o) (ha : p.raceFree a = true)
    (hs : LinkStep sha256 p a id o.receiver L L') : Exact id L' := by
  cases hs with
  | idle => exact h
  | prune hrx htx =>
    exact ⟨h.rxSettled.prune hrx, h.txSettled.prune htx, fun r hr => h.rxAcked r (hrx.recent hr),
      fun r hr => h.txSent r (htx.recent hr)⟩
  | rxLocal hact hl =>
    rename_i b l out
    refine ⟨?_, h.txSettled, ?_, h.txSent⟩
    · refine h.rxSettled.step (congrArg Link.rx hL) (by simp) (fun hb k j hj hstart => ?_) hl
      subst hact hb
      cases hlive : L.rx.live with
      | none => exact h.rxSettled hlive k j hj hstart
      | some v =>
        have hserial := (hok.rx.waiting v k j hlive hj hstart).1
        subst hL
        exact Transfers.starting_false (by simpa [Peers.raceFree] using ha) hlive hj hserial
          (by simp [hstart, Start.counts])
    · rw [Channel.all_write, count_append]
      exact hok.rx.exact_step h.rxSettled h.rxAcked hl
  | txLocal hact hl =>
    rename_i b l out
    refine ⟨h.rxSettled, ?_, h.rxAcked, ?_⟩
    · refine h.txSettled.step (congrArg Link.tx hL) (by simp) (fun hb k j hj hstart => ?_) hl
      subst hact hb
      cases hlive : L.tx.live with
      | none => exact h.txSettled hlive k j hj hstart
      | some v =>
        have hserial := (hok.tx.waiting v k j hlive hj).1
        subst hL
        exact Transfers.starting_false (by simpa [Peers.raceFree] using ha) hlive hj hserial
          (by simp [hstart, Start.counts])
    · rw [Channel.all_write, count_append]
      exact hok.tx.exact_step h.txSettled h.txSent hl
  | accept =>
    refine ⟨fun hnone k j hj hstart => ?_, h.txSettled, h.rxAcked, h.txSent⟩
    simp only [Local.post, Function.update_apply] at hj
    split at hj
    · cases hj
      cases hstart
    · exact h.rxSettled hnone k j hj hstart
  | start => exact ⟨h.rxSettled, by rintro ⟨⟩, h.rxAcked, by rintro _ ⟨⟩⟩
  | startFailed htx => exact ⟨h.rxSettled, h.txSettled.prune htx, h.rxAcked, fun r hr => h.txSent r (htx.recent hr)⟩
  | cancelRx hr =>
    refine ⟨h.rxSettled, h.txSettled, fun r hr => ?_, h.txSent⟩
    simpa [Channel.all_write, count_append, count_cons, isFor] using h.rxAcked r hr
  | cancelTx hr =>
    refine ⟨h.rxSettled, h.txSettled, h.rxAcked, fun r hr => ?_⟩
    simpa [Channel.all_write, count_append, count_cons, isFor] using h.txSent r hr
  | toRx hwire hf hl =>
    refine ⟨h.rxSettled.handled hl, h.txSettled, fun r' hr' => ?_, ?_⟩
    · obtain ⟨r, hr, -, hacked⟩ := hl.retired hr'
      rw [hacked (hok.rx.retired r hr).sending]
      exact h.rxAcked r hr
    · rw [Channel.all_read hwire]
      exact h.txSent
  | toTx hwire hf hl =>
    refine ⟨h.rxSettled, h.txSettled.handled hl, ?_, fun r' hr' => ?_⟩
    · rw [Channel.all_read hwire]
      exact h.rxAcked
    · obtain ⟨r, hr, hsent, -⟩ := hl.retired hr'
      rw [hsent]
      exact h.txSent r hr
  | offer hwire =>
    refine ⟨h.rxSettled, h.txSettled, ?_, h.txSent⟩
    rw [Channel.all_read hwire]
    exact h.rxAcked
  | stray hstray => exact (hok.not_stray hstray).elim

end Exact
end Onprest.Ws
