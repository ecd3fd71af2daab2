import Onprest.Ws.Link.Frames
import Onprest.Ws.Local.Handle

/-! The sending side of one transfer, against the frames it has written and the acknowledgements that
have reached it. -/

namespace Onprest.Ws
open Lib Protocol

/-- What the position of a sender says about its counters; `ended` says whether its end is written. -/
def TxPos (v : WireTransfer) (ended : Bool) : Prop :=
  match v.pc with
  | .opening | .reserve | .drain => v.next = v.sent ∧ ended = false
  | .read => v.next = v.sent + 1 ∧ ended = false
  | .sending _ done => v.next = v.sent + (if done then 0 else 1) ∧ ended = false
  | .ending done => v.next = v.sent ∧ v.sent = v.acked ∧ ended = done
  | .stopped false => v.next = v.sent ∧ v.sent = v.acked ∧ ended = true
  | .stopped true => True
  | _ => False

/-- A live sender with `written` chunks on the wire, `acks` of them acknowledged. -/
structure TxLive (request : String) (written acks : ℤ) (ended : Bool) (v : WireTransfer) : Prop where
  sending : v.sending = true
  request : v.request = request
  sent : v.sent = written
  acked : v.acked = acks
  window : v.next - v.acked ≤ transferWindow
  pos : TxPos v ended

structure TxRetired (request : String) (written acks : ℤ) (r : RetiredTransfer) : Prop where
  sending : r.sending = true
  request : r.request = request
  sent : r.sent ≤ written
  acked : r.acked = acks
  canceled : r.canceled = false → written = acks

/-- The data of a chunk frame is the encoding of a chunk. -/
def ChunkData (f : Frame) : Prop :=
  ∃ b : List UInt8, f.dataBase64 = Base64.encode b ∧ b ≠ [] ∧ b.length ≤ chunkBytes

/-- The jobs a sender posts: chunks in order, and the end once everything is acknowledged. -/
inductive TxJob (id request : String) (written acks : ℤ) (j : Job) : Prop
  | chunk (start : j.start = .sent) (type : j.frame.type = .transferChunk) (request : j.frame.id = request)
      (transfer : j.frame.transferID = id) (sequence : j.frame.sequence = written)
      (window : written + 1 - acks ≤ transferWindow) (data : ChunkData j.frame)
  | end (start : j.start = .none) (type : j.frame.type = .transferEnd) (request : j.frame.id = request)
      (transfer : j.frame.transferID = id) (acked : written = acks)

/-- The sending side of a transfer. -/
structure TxOk (id request : String) (written acks : ℤ) (ended : Bool) (l : Local) : Prop where
  live : ∀ v, l.live = some v → TxLive request written acks ended v
  retired : ∀ r, l.recent = some r → TxRetired request written acks r
  job : ∀ k j, l.jobs k = some j → TxJob id request written acks j
  unique : ∀ k k' j j', l.jobs k = some j → l.jobs k' = some j' → k = k'
  waiting : ∀ v k j, l.live = some v → l.jobs k = some j → v.serial = j.serial ∧
    (v.pc = .stopped true ∨ (j.start = .sent ∧ ∃ re, v.pc = .sending re false) ∨
      (j.start = .none ∧ v.pc = .ending false))
  «open» : ∀ k j, l.jobs k = some j → ended = false
  finished : ∀ r, l.recent = some r → r.canceled = false → ∀ k, l.jobs k = none
  window : written - acks ≤ transferWindow
  final : ended = true → written = acks
  apart : ∀ v, l.live = some v → l.recent = none

/-- A frame a sender writes. -/
structure TxFrame (request : String) (f : Frame) : Prop where
  kind : f.type = .transferChunk ∧ ChunkData f ∨ f.type = .transferEnd ∨ f.type = .transferCancel
  id : f.id = request

variable {ended : Bool}

/-- While a chunk is outstanding, the position does not depend on the acknowledgements. -/
theorem TxPos.outstanding {v w : WireTransfer} (h : TxPos v ended) (hout : v.acked < v.sent) (hpc : w.pc = v.pc)
    (hnext : w.next = v.next) (hsent : w.sent = v.sent) : TxPos w ended := by
  unfold TxPos at h ⊢
  rw [hpc, hnext, hsent]
  split at h
  · exact h
  · exact h
  · exact h
  · exact h
  · exact h
  · exact absurd h.2.1 (by omega)
  · exact absurd h.2.1 (by omega)
  · trivial
  · exact h.elim

namespace TxOk
variable {id request : String} {written acks : ℤ} {ended : Bool} {l l' : Local}

theorem unstarted : TxOk id request 0 0 false ⟨none, none, fun _ => none⟩ where
  live := fun _ hv => nomatch hv
  retired := fun _ hr => nomatch hr
  job := fun _ _ hj => nomatch hj
  unique := fun _ _ _ _ hj => nomatch hj
  waiting := fun _ _ _ hv => nomatch hv
  «open» := fun _ _ hj => nomatch hj
  finished := fun _ hr => nomatch hr
  window := by decide
  final := fun h => nomatch h
  apart := fun _ hv => nomatch hv

/-- A transfer whose sender has just been started. -/
theorem started {v : WireTransfer} {serial expiry : ℕ} {opened : Bool} {source : List ReadResult}
    (hv : v = { serial, request, sending := true, expiry, pc := if opened then .reserve else .opening, source }) :
    TxOk id request 0 0 false ⟨some v, none, fun _ => none⟩ where
  live := by
    rintro w hw
    cases hw
    subst hv
    refine ⟨rfl, rfl, rfl, rfl, (by decide : (0 : ℤ) - 0 ≤ transferWindow), ?_⟩
    cases opened with
    | true | false => exact ⟨rfl, rfl⟩
  retired := fun _ hr => nomatch hr
  job := fun _ _ hj => nomatch hj
  unique := fun _ _ _ _ hj => nomatch hj
  waiting := fun _ _ _ _ hj => nomatch hj
  «open» := fun _ _ hj => nomatch hj
  finished := fun _ hr => nomatch hr
  window := by decide
  final := fun h => nomatch h
  apart := fun _ _ => rfl

theorem prune (h : TxOk id request written acks ended l) (hp : Pruned l l') :
    TxOk id request written acks ended l' := by
  obtain rfl | rfl := hp
  · exact h
  · exact ⟨h.live, (fun _ hr => nomatch hr), h.job, h.unique, h.waiting, h.open, (fun _ hr => nomatch hr),
      h.window, h.final, fun _ _ => rfl⟩

variable {jobs : ℕ → Option Job} {v w : WireTransfer} {r : Option RetiredTransfer} {k : ℕ} {j : Job}
  {re : Option ReadErr}

/-- Jobs may be dropped or pass their context check. -/
theorem mapJobs (h : TxOk id request written acks ended l) (hjobs : SubJobs jobs l.jobs) :
    TxOk id request written acks ended { l with jobs } where
  live := h.live
  retired := h.retired
  job := by
    intro k j' hj'
    obtain ⟨j, hj, hframe, hstart, -⟩ := hjobs k j' hj'
    cases h.job k j hj with
    | chunk h₁ h₂ h₃ h₄ h₅ h₆ h₇ =>
      exact .chunk (hstart.trans h₁) (hframe ▸ h₂) (hframe ▸ h₃) (hframe ▸ h₄) (hframe ▸ h₅) h₆ (hframe ▸ h₇)
    | «end» h₁ h₂ h₃ h₄ h₅ => exact .end (hstart.trans h₁) (hframe ▸ h₂) (hframe ▸ h₃) (hframe ▸ h₄) h₅
  unique := by
    intro k k' i i' hi hi'
    obtain ⟨j, hj, -⟩ := hjobs k i hi
    obtain ⟨j', hj', -⟩ := hjobs k' i' hi'
    exact h.unique k k' j j' hj hj'
  waiting := by
    intro v k j' hv hj'
    obtain ⟨j, hj, -, hstart, hserial⟩ := hjobs k j' hj'
    obtain ⟨hsame, hpc⟩ := h.waiting v k j hv hj
    exact ⟨hsame.trans hserial.symm, by rwa [hstart]⟩
  «open» := by
    intro k j' hj'
    obtain ⟨j, hj, -⟩ := hjobs k j' hj'
    exact h.open k j hj
  finished := by
    intro r hr hc k
    refine Option.eq_none_iff_forall_ne_some.mpr fun j' hj' => ?_
    obtain ⟨j, hj, -⟩ := hjobs k j' hj'
    exact absurd ((h.finished r hr hc k).symm.trans hj) (by simp)
  window := h.window
  final := h.final
  apart := h.apart

/-- The goroutine moves while nothing is posted. -/
theorem move_quiet (h : TxOk id request written acks ended ⟨some v, r, jobs⟩)
    (hw : TxLive request written acks ended w)
    (hjobs : ∀ k, jobs k = none) : TxOk id request written acks ended ⟨some w, r, jobs⟩ := by
  refine ⟨?_, h.retired, h.job, h.unique, ?_, h.open, h.finished, h.window, h.final, fun _ _ => h.apart v rfl⟩
  · rintro _ ⟨⟩
    exact hw
  · rintro _ k j ⟨⟩ hj
    exact absurd ((hjobs k).symm.trans hj) (by simp)

/-- The goroutine posts a frame and waits for it. -/
theorem move_post (h : TxOk id request written acks ended ⟨some v, r, jobs⟩)
    (hw : TxLive request written acks ended w)
    (hjobs : ∀ k, jobs k = none) (hj : TxJob id request written acks j) (hserial : w.serial = j.serial)
    (hpc : (j.start = .sent ∧ ∃ re, w.pc = .sending re false) ∨ (j.start = .none ∧ w.pc = .ending false))
    (hopen : ended = false) : TxOk id request written acks ended ⟨some w, r, addJob jobs k (some j)⟩ := by
  have hadd : ∀ k' j', addJob jobs k (some j) k' = some j' → k' = k ∧ j' = j := by
    intro k' j' hj'
    simp only [addJob, Function.update_apply, hjobs] at hj'
    split at hj'
    · exact ⟨‹_›, (Option.some.inj hj').symm⟩
    · cases hj'
  have hr : r = none := h.apart v rfl
  refine ⟨?_, h.retired, ?_, ?_, ?_, fun _ _ _ => hopen, ?_, h.window, h.final, fun _ _ => hr⟩
  · rintro _ ⟨⟩
    exact hw
  · intro k' j' hj'
    obtain ⟨-, rfl⟩ := hadd k' j' hj'
    exact hj
  · intro k₁ k₂ j₁ j₂ hj₁ hj₂
    exact (hadd k₁ j₁ hj₁).1.trans (hadd k₂ j₂ hj₂).1.symm
  · rintro _ k' j' ⟨⟩ hj'
    obtain ⟨-, rfl⟩ := hadd k' j' hj'
    exact ⟨hserial, .inr hpc⟩
  · intro r' hr'
    exact absurd (hr.symm.trans hr') (by simp)

theorem no_job (h : TxOk id request written acks ended ⟨some v, r, jobs⟩) (hstopped : v.pc ≠ .stopped true)
    (hsending : ∀ re, v.pc ≠ .sending re false) (hending : v.pc ≠ .ending false) : ∀ k, jobs k = none := by
  intro k
  refine Option.eq_none_iff_forall_ne_some.mpr fun j hj => ?_
  obtain ⟨-, hpc | ⟨-, re, hpc⟩ | ⟨-, hpc⟩⟩ := h.waiting v k j rfl hj
  · exact hstopped hpc
  · exact hsending re hpc
  · exact hending hpc

theorem afterSend_pos (hpc : v.pc = Transfers.afterSend re) (hnext : v.next = v.sent) : TxPos v false := by
  rw [TxPos, hpc]
  match re with
  | none => exact ⟨hnext, rfl⟩
  | some .eof => exact ⟨hnext, rfl⟩
  | some .failed => trivial

theorem afterEmpty_pos (hpc : v.pc = Transfers.afterEmpty re) (hnext : v.next = v.sent) : TxPos v false := by
  rw [TxPos, hpc]
  match re with
  | none => trivial
  | some .eof => exact ⟨hnext, rfl⟩
  | some .failed => trivial

/-- A step of the sending goroutine. -/
theorem move {sha256 : List UInt8 → String} {t : Transfers} {u : Update}
    (h : TxOk id request written acks ended ⟨some v, r, jobs⟩) (hm : t.Moved sha256 id v u) :
    TxOk id request written acks ended ⟨some u.entry, r, addJob jobs k u.job⟩ := by
  have hv := h.live v rfl
  have hpos := hv.pos
  have hwindow := hv.window
  cases hm with
  | opened hpc | finished hpc =>
    simp only [TxPos, hpc] at hpos
    exact h.move_quiet ⟨hv.sending, hv.request, hv.sent, hv.acked, hv.window, hpos⟩
      (h.no_job (by simp [hpc]) (by simp [hpc]) (by simp [hpc]))
  | reserve hpc hroom =>
    simp only [TxPos, hpc] at hpos
    refine h.move_quiet ⟨hv.sending, hv.request, hv.sent, hv.acked, ?_, ?_⟩
      (h.no_job (by simp [hpc]) (by simp [hpc]) (by simp [hpc]))
    · change v.next + 1 - v.acked ≤ transferWindow
      omega
    · exact ⟨congrArg (· + 1) hpos.1, hpos.2⟩
  | read hpc hr hbytes =>
    rename_i rr
    simp only [TxPos, hpc] at hpos
    refine h.move_post ⟨hv.sending, hv.request, hv.sent, hv.acked, hv.window, hpos⟩
      (h.no_job (by simp [hpc]) (by simp [hpc]) (by simp [hpc])) ?_ rfl (.inl ⟨rfl, _, rfl⟩) hpos.2
    have hsent := hv.sent
    have hacked := hv.acked
    refine .chunk rfl rfl hv.request rfl ?_ (by omega) ⟨rr.bytes, rfl, hbytes, rr.fits⟩
    change v.next - 1 = written
    omega
  | empty hpc hread =>
    simp only [TxPos, hpc] at hpos
    obtain ⟨hnext, rfl⟩ := hpos
    refine h.move_quiet ⟨hv.sending, hv.request, hv.sent, hv.acked, ?_, afterEmpty_pos (by rfl) ?_⟩
      (h.no_job (by simp [hpc]) (by simp [hpc]) (by simp [hpc]))
    · change v.next - 1 - v.acked ≤ transferWindow
      omega
    · change v.next - 1 = v.sent
      omega
  | drained hpc hsent =>
    simp only [TxPos, hpc] at hpos
    obtain ⟨hnext, rfl⟩ := hpos
    exact h.move_post ⟨hv.sending, hv.request, hv.sent, hv.acked, hv.window, hnext, hsent, rfl⟩
      (h.no_job (by simp [hpc]) (by simp [hpc]) (by simp [hpc]))
      (.end rfl rfl hv.request rfl (hv.sent.symm.trans (hsent.trans hv.acked))) rfl (.inr ⟨rfl, rfl⟩) rfl
  | sent hpc =>
    simp only [TxPos, hpc, if_true, add_zero] at hpos
    obtain ⟨hnext, rfl⟩ := hpos
    exact h.move_quiet ⟨hv.sending, hv.request, hv.sent, hv.acked, hv.window, afterSend_pos (by rfl) hnext⟩
      (h.no_job (by simp [hpc]) (by simp [hpc]) (by simp [hpc]))
  | stop source hashed =>
    refine ⟨?_, h.retired, h.job, h.unique, ?_, h.open, h.finished, h.window, h.final, fun _ _ => h.apart v rfl⟩
    · rintro _ ⟨⟩
      exact ⟨hv.sending, hv.request, hv.sent, hv.acked, hv.window, trivial⟩
    · rintro _ k j ⟨⟩ hj
      exact ⟨(h.waiting v k j rfl hj).1, .inl rfl⟩
  | granted hpc | take hpc | wrote hpc | ended hpc | acked hpc => simp [TxPos, hpc] at hpos

/-- A frame is written: a chunk moves its counter while the transfer is live. -/
theorem runJob (h : TxOk id request written acks ended l) (hj : l.jobs k = some j) {live : Option WireTransfer}
    (hlive : ∀ w, live = some w → ∃ v, l.live = some v ∧ w = (Transfers.started v j.start).entry) :
    TxOk id request (written + count .transferChunk id [j.frame]) acks (ended || isFor .transferEnd id j.frame)
      ⟨live, l.recent, Function.update l.jobs k none⟩ := by
  have hnone : ∀ k', Function.update l.jobs k none k' = none := by
    intro k'
    rw [Function.update_apply]
    split
    · rfl
    · rename_i hne
      exact Option.eq_none_iff_forall_ne_some.mpr fun j' hj' => hne (h.unique k' k j' j hj' hj)
  have hended := h.open k j hj
  subst hended
  have hapart : ∀ w, live = some w → l.recent = none := by
    intro w hw
    obtain ⟨v, hv, -⟩ := hlive w hw
    exact h.apart v hv
  have hlost : ∀ r, l.recent = some r → r.canceled = false → False := by
    intro r hr hc
    exact absurd ((h.finished r hr hc k).symm.trans hj) (by simp)
  cases h.job k j hj with
  | chunk hstart htype hreq hid hseq hwindow hdata =>
    have hcount : count .transferChunk id [j.frame] = 1 := by simp [count_cons, isFor, htype, hid]
    have hnot : isFor .transferEnd id j.frame = false := by simp [isFor, htype]
    rw [hcount, hnot]
    refine ⟨?_, ?_, fun k' _ hj' => absurd ((hnone k').symm.trans hj') (by simp),
      fun k' _ _ _ hj' => absurd ((hnone k').symm.trans hj') (by simp),
      fun _ k' _ _ hj' => absurd ((hnone k').symm.trans hj') (by simp),
      fun k' _ hj' => absurd ((hnone k').symm.trans hj') (by simp), fun _ _ _ => hnone, hwindow, by simp, hapart⟩
    · intro w hw
      obtain ⟨v, hv, rfl⟩ := hlive w hw
      have hlv := h.live v hv
      have hpos := hlv.pos
      rw [hstart]
      refine ⟨hlv.sending, hlv.request, congrArg (· + 1) hlv.sent, hlv.acked, hlv.window, ?_⟩
      obtain ⟨-, hpc | ⟨-, re, hpc⟩ | ⟨hs, -⟩⟩ := h.waiting v k j hv hj
      · simp only [TxPos, Transfers.started, hpc, Transfers.markWritten]
      · simp only [TxPos, hpc] at hpos
        simp only [TxPos, Transfers.started, hpc, Transfers.markWritten]
        exact ⟨by simpa using hpos.1, rfl⟩
      · exact absurd (hstart.symm.trans hs) (by decide)
    · intro r hr
      have hret := h.retired r hr
      exact ⟨hret.sending, hret.request, by have := hret.sent; omega, hret.acked, fun hc => (hlost r hr hc).elim⟩
  | «end» hstart htype hreq hid hacked =>
    have hcount : count .transferChunk id [j.frame] = 0 := by simp [count_cons, isFor, htype]
    have hend : isFor .transferEnd id j.frame = true := isFor_iff.mpr ⟨htype, hid⟩
    rw [hcount, hend, add_zero]
    refine ⟨?_, h.retired, fun k' _ hj' => absurd ((hnone k').symm.trans hj') (by simp),
      fun k' _ _ _ hj' => absurd ((hnone k').symm.trans hj') (by simp),
      fun _ k' _ _ hj' => absurd ((hnone k').symm.trans hj') (by simp),
      fun k' _ hj' => absurd ((hnone k').symm.trans hj') (by simp), fun _ _ _ => hnone, h.window,
      fun _ => hacked, hapart⟩
    intro w hw
    obtain ⟨v, hv, rfl⟩ := hlive w hw
    have hlv := h.live v hv
    have hpos := hlv.pos
    rw [hstart]
    refine ⟨hlv.sending, hlv.request, hlv.sent, hlv.acked, hlv.window, ?_⟩
    obtain ⟨-, hpc | ⟨hs, -⟩ | ⟨-, hpc⟩⟩ := h.waiting v k j hv hj
    · simp only [TxPos, Transfers.started, hpc, Transfers.markWritten]
    · exact absurd (hstart.symm.trans hs) (by decide)
    · simp only [TxPos, hpc] at hpos
      simp only [TxPos, Transfers.started, hpc, Transfers.markWritten]
      exact ⟨hpos.1, hpos.2.1, rfl⟩

theorem retire {err : Bool} (h : TxOk id request written acks ended ⟨some v, r, jobs⟩) (hpc : v.pc = .stopped err) :
    TxOk id request written acks ended ⟨none, some (v.retired err), jobs⟩ := by
  have hv := h.live v rfl
  have hpos := hv.pos
  refine ⟨(fun _ hw => nomatch hw), ?_, h.job, h.unique, (fun _ _ _ hw => nomatch hw), h.open, ?_, h.window,
    h.final, (fun _ hw => nomatch hw)⟩
  · rintro _ ⟨⟩
    refine ⟨hv.sending, hv.request, hv.sent.le, hv.acked, fun hc => ?_⟩
    obtain ⟨rfl, -⟩ : err = false ∧ v.cancelled = false := by simpa [WireTransfer.retired] using hc
    simp only [TxPos, hpc] at hpos
    exact hv.sent.symm.trans (hpos.2.1.trans hv.acked)
  · rintro _ ⟨⟩ hc
    obtain ⟨rfl, -⟩ : err = false ∧ v.cancelled = false := by simpa [WireTransfer.retired] using hc
    exact h.no_job (by simp [hpc]) (by simp [hpc]) (by simp [hpc])

theorem setCancelled (h : TxOk id request written acks ended ⟨some v, r, jobs⟩) :
    TxOk id request written acks ended ⟨some { v with cancelled := true }, r, jobs⟩ := by
  have hv := h.live v rfl
  refine ⟨?_, h.retired, h.job, h.unique, ?_, h.open, h.finished, h.window, h.final, fun _ _ => h.apart v rfl⟩
  · rintro _ ⟨⟩
    exact ⟨hv.sending, hv.request, hv.sent, hv.acked, hv.window, hv.pos⟩
  · rintro _ k j ⟨⟩ hj
    exact h.waiting v k j rfl hj

/-- With a chunk outstanding, what is posted is a chunk. -/
theorem ackJob (h : TxJob id request written acks j) (hout : acks < written) :
    TxJob id request written (acks + 1) j := by
  cases h with
  | chunk h₁ h₂ h₃ h₄ h₅ h₆ h₇ => exact .chunk h₁ h₂ h₃ h₄ h₅ (by omega) h₇
  | «end» _ _ _ _ h₅ => omega

theorem ack (h : TxOk id request written acks ended ⟨some v, r, jobs⟩) (hout : v.acked < v.sent) :
    TxOk id request written (acks + 1) ended ⟨some { v with acked := v.acked + 1 }, r, jobs⟩ := by
  have hv := h.live v rfl
  have hlt : acks < written := hv.acked ▸ hv.sent ▸ hout
  have hr : r = none := h.apart v rfl
  have hpos := hv.pos
  have hwindow := hv.window
  refine ⟨?_, ?_, fun k j hj => ackJob (h.job k j hj) hlt, h.unique, ?_, h.open, ?_, ?_, ?_, fun _ _ => hr⟩
  · rintro _ ⟨⟩
    refine ⟨hv.sending, hv.request, hv.sent, congrArg (· + 1) hv.acked, ?_, ?_⟩
    · change v.next - (v.acked + 1) ≤ transferWindow
      omega
    · exact hpos.outstanding hout rfl rfl rfl
  · intro r' hr'
    exact absurd (hr.symm.trans hr') (by simp)
  · rintro _ k j ⟨⟩ hj
    exact h.waiting v k j rfl hj
  · intro r' hr'
    exact absurd (hr.symm.trans hr') (by simp)
  · have := h.window
    omega
  · intro he
    have := h.final he
    omega

theorem lateAck {r : RetiredTransfer} (h : TxOk id request written acks ended ⟨none, some r, jobs⟩)
    (hout : r.acked < r.sent) :
    TxOk id request written (acks + 1) ended ⟨none, some { r with acked := r.acked + 1 }, jobs⟩ := by
  have hr := h.retired r rfl
  have hlt : acks < written := lt_of_lt_of_le (hr.acked ▸ hout) hr.sent
  refine ⟨(fun _ hw => nomatch hw), ?_, fun k j hj => ackJob (h.job k j hj) hlt, h.unique,
    (fun _ _ _ hw => nomatch hw), h.open, ?_, ?_, ?_, (fun _ hw => nomatch hw)⟩
  · rintro _ ⟨⟩
    refine ⟨hr.sending, hr.request, hr.sent, congrArg (· + 1) hr.acked, fun hc => ?_⟩
    have := hr.canceled hc
    omega
  · rintro _ ⟨⟩ hc
    exact h.finished r rfl hc
  · have := h.window
    omega
  · intro he
    have := h.final he
    omega

/-- A frame of the receiver is accepted. -/
theorem handled {f : Frame} (h : TxOk id request written acks ended l) (hid : f.transferID = id)
    (hs : LocalHandled f l l') : TxOk id request written (acks + count .ack id [f]) ended l' := by
  have hack : f.type = .ack → count .ack id [f] = 1 := by
    intro hf
    simp [count_cons, isFor, hf, hid]
  have hother : f.type ≠ .ack → count .ack id [f] = 0 := by
    intro hf
    simp [count_cons, isFor, hf]
  cases hs with
  | ack hf hsending hseq hsent =>
    rw [hack hf]
    exact h.ack hsent
  | cancel hf =>
    rw [hother (by simp [hf]), add_zero]
    exact h.setCancelled
  | chunk hf hsending | «end» hf hsending => exact absurd ((h.live _ rfl).sending.symm.trans hsending) (by decide)
  | lateAck hf hsending hseq hsent =>
    rw [hack hf]
    exact h.lateAck hsent
  | lateChunk hf hsending | lateEnd hf hsending =>
    exact absurd ((h.retired _ rfl).sending.symm.trans hsending) (by decide)
  | ignored _ hf =>
    rw [hother (by simp [hf]), add_zero]
    exact h

end TxOk

/-- The sending side after a step that writes the frames `fs`. -/
structure TxStepped (id request : String) (written acks : ℤ) (ended : Bool) (l : Local)
    (fs : List Frame) : Prop where
  ok : TxOk id request (written + count .transferChunk id fs) acks (ended || fs.any (isFor .transferEnd id)) l
  numbered : Numbered .transferChunk id written fs
  last : EndLast id fs
  «open» : ended = true → ∀ f ∈ fs, isData id f = false
  frames : ∀ f ∈ fs, TxFrame request f

namespace TxStepped
variable {id request : String} {written acks : ℤ} {ended : Bool} {l l' : Local}

theorem quiet (h : TxOk id request written acks ended l) : TxStepped id request written acks ended l [] where
  ok := by simpa using h
  numbered := trivial
  last := List.Pairwise.nil
  «open» := fun _ _ hf => nomatch hf
  frames := fun _ hf => nomatch hf

theorem run {k : ℕ} {j : Job} (h : TxOk id request written acks ended l) (hj : l.jobs k = some j)
    {live : Option WireTransfer}
    (hlive : ∀ w, live = some w → ∃ v, l.live = some v ∧ w = (Transfers.started v j.start).entry) :
    TxStepped id request written acks ended ⟨live, l.recent, Function.update l.jobs k none⟩ [j.frame] := by
  have hok := h.runJob hj hlive
  refine ⟨by simpa using hok, ?_, List.pairwise_singleton .., ?_, ?_⟩
  · cases h.job k j hj with
    | chunk _ htype _ hid hseq => exact (Numbered.cons_self (isFor_iff.mpr ⟨htype, hid⟩)).mpr ⟨hseq, trivial⟩
    | «end» _ htype => exact (Numbered.cons_other (by simp [isFor, htype])).mpr trivial
  · intro he
    exact absurd ((h.open k j hj).symm.trans he) (by decide)
  · intro f hf
    obtain rfl := List.mem_singleton.mp hf
    cases h.job k j hj with
    | chunk _ htype hreq _ _ _ hdata => exact ⟨.inl ⟨htype, hdata⟩, hreq⟩
    | «end» _ htype hreq => exact ⟨.inr (.inl htype), hreq⟩

end TxStepped

/-- A local action of the sending engine. -/
theorem TxOk.local_step {sha256 : List UInt8 → String} {t : Transfers} {a : Action} {out : List Output}
    {id request : String} {written acks : ℤ} {l l' : Local} (h : TxOk id request written acks ended l)
    (hs : LocalStep sha256 t a id l l' out) :
    TxStepped id request written acks ended l' (out.filterMap Output.frame?) := by
  have hnot : ∀ {k j}, l.jobs k = some j → j.start ≠ .grant := by
    intro k j hj hg
    cases h.job k j hj with
    | chunk hstart | «end» hstart => exact absurd (hg.symm.trans hstart) (by decide)
  cases hs with
  | idle => exact .quiet h
  | move ha hu hfree =>
    have hm := Transfers.move_moved sha256 hu
    rw [hm.no_frame]
    exact .quiet (h.move hm)
  | retire ha hpc => exact .quiet (h.retire hpc)
  | cancel ha => exact .quiet h.setCancelled
  | drop hj => exact .quiet (h.mapJobs (.drop _ _))
  | check hj => exact .quiet (h.mapJobs (.check hj))
  | run hj =>
    refine .run h hj fun w hw => ⟨_, rfl, ?_⟩
    rw [← Option.some.inj hw]
  | runLate hj hchecked hstart hserial =>
    refine .run h hj fun w hw => ?_
    exact absurd (h.waiting w _ _ hw hj).1 (hserial w hw)
  | grant hj hchecked hstart | refuse hj hchecked hstart => exact absurd hstart (hnot hj)

end Onprest.Ws
