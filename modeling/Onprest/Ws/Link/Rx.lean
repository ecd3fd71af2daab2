import Onprest.Ws.Link.Frames
import Onprest.Ws.Local.Handle

/-! The receiving side of one transfer, against the frames its peer has delivered and the
acknowledgements it has written. -/

namespace Onprest.Ws
open Lib Protocol

/-- The chunks of a receive queue are numbered from `n` on, and nothing follows the end. -/
def Queued : ℤ → List ReceiveItem → Prop
  | _, [] => True
  | n, i :: q => if i.isEnd then q = [] else i.frame.sequence = n ∧ Queued (n + 1) q

/-- The number of the first chunk the receiver has not taken from its queue. -/
def WireTransfer.base (v : WireTransfer) : ℤ := v.next - chunks v.queue

/-- What the position of a receiver says about its counters. -/
def RxPos (v : WireTransfer) : Prop :=
  match v.pc with
  | .starting granted => v.acked = v.base ∧ granted = false
  | .select | .acking true => v.acked = v.base
  | .deliver item =>
    if item.isEnd then v.ending = true ∧ v.queue = [] ∧ v.acked = v.base
    else item.frame.sequence = v.acked ∧ v.base = v.acked + 1
  | .acking false => v.base = v.acked + 1
  | .stopped false => v.ending = true ∧ v.queue = [] ∧ v.acked = v.base
  | .stopped true => True
  | _ => False

/-- A live receiver that has got `got` chunks and acknowledged `acks` of them; `ended` says whether
the end has arrived. -/
structure RxLive (request : String) (got acks : ℤ) (ended : Bool) (v : WireTransfer) : Prop where
  sending : v.sending = false
  request : v.request = request
  next : v.next = got
  acked : v.acked = acks
  ending : v.ending = ended
  queue : Queued v.base v.queue
  pos : RxPos v

structure RxRetired (request : String) (got acks : ℤ) (ended : Bool) (r : RetiredTransfer) : Prop where
  sending : r.sending = false
  request : r.request = request
  next : r.next = got
  acked : r.acked ≤ acks
  ending : r.ending = ended
  canceled : r.canceled = false → ended = true

/-- The jobs a receiver posts: the grant of its credit and acknowledgements in order. -/
inductive RxJob (id request : String) (got acks : ℤ) (j : Job) : Prop
  | grant (start : j.start = .grant) (grant : j.frame.isGrant = true) (request : j.frame.id = request)
      (transfer : j.frame.transferID = id)
  | ack (start : j.start = .acked) (type : j.frame.type = .ack) (transfer : j.frame.transferID = id)
      (sequence : j.frame.sequence = acks) (got : acks < got)

/-- The receiving side of a transfer; `opened` says whether its credit has been granted on the wire. -/
structure RxOk (id request : String) (got acks : ℤ) (ended opened : Bool) (l : Local) : Prop where
  live : ∀ v, l.live = some v → RxLive request got acks ended v
  retired : ∀ r, l.recent = some r → RxRetired request got acks ended r
  job : ∀ k j, l.jobs k = some j → RxJob id request got acks j
  unique : ∀ k k' j j', l.jobs k = some j → l.jobs k' = some j' → j.start = .acked → j'.start = .acked → k = k'
  waiting : ∀ v k j, l.live = some v → l.jobs k = some j → j.start = .acked →
    v.serial = j.serial ∧ (v.pc = .acking false ∨ v.pc = .stopped true)
  fresh : ∀ v g, l.live = some v → v.pc = .starting g → opened = false ∧ ∀ k, l.jobs k = none
  granted : opened = true → ∀ v, l.live = some v → v.granted = true
  flow : acks ≤ got
  apart : ∀ v, l.live = some v → l.recent = none

/-- A frame a receiver writes. -/
structure RxFrame (request : String) (f : Frame) : Prop where
  kind : f.type = .ack ∨ f.type = .transferCancel ∨ f.isGrant = true
  id : f.type ≠ .ack → f.id = request

theorem Queued.append {q : List ReceiveItem} {i : ReceiveItem} {n : ℤ} (h : Queued n q) (hends : ends q = 0)
    (hi : i.isEnd = true ∨ i.frame.sequence = n + chunks q) : Queued n (q ++ [i]) := by
  induction q generalizing n with
  | nil =>
    rw [List.nil_append, Queued]
    split
    · rfl
    · refine ⟨?_, trivial⟩
      simpa [chunks] using hi.resolve_left ‹_›
  | cons x q ih =>
    have hx : x.isEnd = false := by
      by_contra hx
      rw [Bool.not_eq_false] at hx
      have hpos := ends_nonneg q
      rw [ends_cons, if_pos hx] at hends
      omega
    rw [Queued, if_neg (by simp [hx])] at h
    rw [List.cons_append, Queued, if_neg (by simp [hx])]
    rw [ends_cons, if_neg (by simp [hx])] at hends
    rw [chunks_cons, if_neg (by simp [hx])] at hi
    exact ⟨h.1, ih h.2 (by omega) (hi.imp_right fun hi => by omega)⟩

/-- Before the end has arrived, the position does not depend on the queue. -/
theorem RxPos.enqueue {v w : WireTransfer} (h : RxPos v) (hending : v.ending = false) (hpc : w.pc = v.pc)
    (hacked : w.acked = v.acked) (hbase : w.base = v.base) : RxPos w := by
  unfold RxPos at h ⊢
  rw [hpc, hacked, hbase]
  split at h
  · exact h
  · exact h
  · exact h
  · split at h
    · exact absurd (hending.symm.trans h.1) (by decide)
    · rw [if_neg ‹_›]
      exact h
  · exact h
  · exact absurd (hending.symm.trans h.1) (by decide)
  · trivial
  · exact h.elim

theorem RxJob.mono {id request : String} {got got' acks : ℤ} {j : Job} (h : RxJob id request got acks j)
    (hle : got ≤ got') : RxJob id request got' acks j := by
  cases h with
  | grant h₁ h₂ h₃ h₄ => exact .grant h₁ h₂ h₃ h₄
  | ack h₁ h₂ h₃ h₄ h₅ => exact .ack h₁ h₂ h₃ h₄ (by omega)

namespace RxOk
variable {id request : String} {got acks : ℤ} {ended opened : Bool} {l l' : Local}

variable {v : WireTransfer} {k : ℕ} {j : Job} {r : Option RetiredTransfer} {jobs : ℕ → Option Job}

/-- A transfer that has just been reserved. -/
theorem reserved {serial expiry : ℕ}
    (hv : v = { serial, request, sending := false, expiry, pc := .starting false, source := [] }) :
    RxOk id request 0 0 false false ⟨some v, none, fun _ => none⟩ where
  live := by
    rintro w hw
    cases hw
    subst hv
    exact ⟨rfl, rfl, rfl, rfl, rfl, trivial, rfl, rfl⟩
  retired := fun _ hr => nomatch hr
  job := fun _ _ hj => nomatch hj
  unique := fun _ _ _ _ hj => nomatch hj
  waiting := fun _ _ _ _ hj => nomatch hj
  fresh := fun _ _ _ _ => ⟨rfl, fun _ => rfl⟩
  granted := fun h => nomatch h
  flow := le_refl _
  apart := fun _ _ => rfl

theorem prune (h : RxOk id request got acks ended opened l) (hp : Pruned l l') :
    RxOk id request got acks ended opened l' := by
  obtain rfl | rfl := hp
  · exact h
  · exact ⟨h.live, (fun _ hr => nomatch hr), h.job, h.unique, h.waiting, h.fresh, h.granted, h.flow,
      fun _ _ => rfl⟩

/-- The grant of credit is posted once the reservation has returned. -/
theorem postGrant (h : RxOk id request got acks ended opened l) (hstart : j.start = .grant)
    (hgrant : j.frame.isGrant = true) (hreq : j.frame.id = request) (hid : j.frame.transferID = id)
    (hreserved : ∀ v g, l.live = some v → v.pc ≠ .starting g) :
    RxOk id request got acks ended opened (l.post k j) := by
  have hold : ∀ k' j', (l.post k j).jobs k' = some j' → j'.start = .acked → l.jobs k' = some j' := by
    intro k' j' hj' hs'
    simp only [Local.post, Function.update_apply] at hj'
    split at hj'
    · cases hj'
      exact absurd (hstart.symm.trans hs') (by decide)
    · exact hj'
  refine ⟨h.live, h.retired, ?_, ?_, ?_, ?_, h.granted, h.flow, h.apart⟩
  · intro k' j' hj'
    simp only [Local.post, Function.update_apply] at hj'
    split at hj'
    · cases hj'
      exact .grant hstart hgrant hreq hid
    · exact h.job k' j' hj'
  · intro k₁ k₂ j₁ j₂ hj₁ hj₂ hs₁ hs₂
    exact h.unique k₁ k₂ j₁ j₂ (hold k₁ j₁ hj₁ hs₁) (hold k₂ j₂ hj₂ hs₂) hs₁ hs₂
  · intro v k' j' hv hj' hs'
    exact h.waiting v k' j' hv (hold k' j' hj' hs') hs'
  · intro v g hv hpc
    exact absurd hpc (hreserved v g hv)

/-- The goroutine moves while no acknowledgement is posted. -/
theorem move_quiet {w : WireTransfer} (h : RxOk id request got acks ended opened ⟨some v, r, jobs⟩)
    (hw : RxLive request got acks ended w) (hjobs : ∀ k j, jobs k = some j → j.start ≠ .acked)
    (hpc : ∀ g, w.pc ≠ .starting g) (hgranted : opened = true → w.granted = true) :
    RxOk id request got acks ended opened ⟨some w, r, jobs⟩ where
  live := by
    rintro _ ⟨⟩
    exact hw
  retired := h.retired
  job := h.job
  unique := h.unique
  waiting := by
    rintro _ k j ⟨⟩ hj hstart
    exact absurd hstart (hjobs k j hj)
  fresh := by
    rintro _ g ⟨⟩ hg
    exact absurd hg (hpc g)
  granted := by
    rintro ho _ ⟨⟩
    exact hgranted ho
  flow := h.flow
  apart := fun _ _ => h.apart v rfl

/-- Jobs may be dropped or pass their context check. -/
theorem mapJobs (h : RxOk id request got acks ended opened l) (hjobs : SubJobs jobs l.jobs) :
    RxOk id request got acks ended opened { l with jobs } where
  live := h.live
  retired := h.retired
  job := by
    intro k j' hj'
    obtain ⟨j, hj, hframe, hstart, -⟩ := hjobs k j' hj'
    cases h.job k j hj with
    | grant h₁ h₂ h₃ h₄ => exact .grant (hstart.trans h₁) (hframe ▸ h₂) (hframe ▸ h₃) (hframe ▸ h₄)
    | ack h₁ h₂ h₃ h₄ h₅ => exact .ack (hstart.trans h₁) (hframe ▸ h₂) (hframe ▸ h₃) (hframe ▸ h₄) h₅
  unique := by
    intro k k' i i' hi hi' hs hs'
    obtain ⟨j, hj, -, hstart, -⟩ := hjobs k i hi
    obtain ⟨j', hj', -, hstart', -⟩ := hjobs k' i' hi'
    exact h.unique k k' j j' hj hj' (hstart ▸ hs) (hstart' ▸ hs')
  waiting := by
    intro v k j' hv hj' hs
    obtain ⟨j, hj, -, hstart, hserial⟩ := hjobs k j' hj'
    obtain ⟨hsame, hpc⟩ := h.waiting v k j hv hj (hstart ▸ hs)
    exact ⟨hsame.trans hserial.symm, hpc⟩
  fresh := by
    intro v g hv hpc
    obtain ⟨hopen, hnone⟩ := h.fresh v g hv hpc
    refine ⟨hopen, fun k => Option.eq_none_iff_forall_ne_some.mpr fun j' hj' => ?_⟩
    obtain ⟨j, hj, -⟩ := hjobs k j' hj'
    exact absurd ((hnone k).symm.trans hj) (by simp)
  granted := h.granted
  flow := h.flow
  apart := h.apart

/-- What arrives changes neither where the goroutine is nor what was granted. -/
theorem renew {w : WireTransfer} {got' : ℤ} {ended' : Bool}
    (h : RxOk id request got acks ended opened ⟨some v, r, jobs⟩)
    (hw : RxLive request got' acks ended' w) (hgot : got ≤ got') (hserial : w.serial = v.serial) (hpc : w.pc = v.pc)
    (hgranted : w.granted = v.granted) : RxOk id request got' acks ended' opened ⟨some w, r, jobs⟩ where
  live := by
    rintro _ ⟨⟩
    exact hw
  retired r' hr := absurd ((h.apart v rfl).symm.trans hr) (by simp)
  job k j hj := (h.job k j hj).mono hgot
  unique := h.unique
  waiting := by
    rintro _ k j ⟨⟩ hj hs
    rw [hserial, hpc]
    exact h.waiting v k j rfl hj hs
  fresh := by
    rintro _ g ⟨⟩ hg
    exact h.fresh v g rfl (hpc ▸ hg)
  granted := by
    rintro ho _ ⟨⟩
    exact hgranted.trans (h.granted ho v rfl)
  flow := h.flow.trans hgot
  apart _ _ := h.apart v rfl

theorem no_ack (h : RxOk id request got acks ended opened ⟨some v, r, jobs⟩) (hacking : v.pc ≠ .acking false)
    (hstopped : v.pc ≠ .stopped true) : ∀ k j, jobs k = some j → j.start ≠ .acked := by
  intro k j hj hstart
  obtain ⟨-, hpc | hpc⟩ := h.waiting v k j rfl hj hstart
  · exact hacking hpc
  · exact hstopped hpc

/-- The receiver has written its item and posts the acknowledgement. -/
theorem wrote {item : ReceiveItem} (h : RxOk id request got acks ended opened ⟨some v, r, jobs⟩)
    (hpc : v.pc = .deliver item) (hchunk : item.isEnd = false) :
    RxOk id request got acks ended opened ⟨some { v with pc := .acking false }, r,
      addJob jobs k (some { frame := Transfers.ackFrame id item, transfer := id, serial := v.serial,
                            start := .acked })⟩ := by
  have hv := h.live v rfl
  have hpos := hv.pos
  simp only [RxPos, hpc, hchunk, Bool.false_eq_true, if_false] at hpos
  have hbase : v.base ≤ v.next := by
    have hchunks := chunks_nonneg v.queue
    unfold WireTransfer.base
    omega
  have hnone := h.no_ack (by simp [hpc]) (by simp [hpc])
  refine ⟨?_, h.retired, ?_, ?_, ?_, ?_, ?_, h.flow, fun _ _ => h.apart v rfl⟩
  · rintro _ ⟨⟩
    exact ⟨hv.sending, hv.request, hv.next, hv.acked, hv.ending, hv.queue, hpos.2⟩
  · intro k' j hj
    simp only [addJob, Function.update_apply] at hj
    split at hj
    · cases hj
      refine .ack rfl rfl rfl (hpos.1.trans hv.acked) ?_
      have hacked := hv.acked
      have hnext := hv.next
      omega
    · exact h.job k' j hj
  · intro k₁ k₂ j₁ j₂ hj₁ hj₂ hs₁ hs₂
    simp only [addJob, Function.update_apply] at hj₁ hj₂
    split at hj₁
    · split at hj₂
      · omega
      · exact absurd hs₂ (hnone k₂ j₂ hj₂)
    · exact absurd hs₁ (hnone k₁ j₁ hj₁)
  · rintro _ k' j ⟨⟩ hj hs
    simp only [addJob, Function.update_apply] at hj
    split at hj
    · cases hj
      exact ⟨rfl, .inl rfl⟩
    · exact absurd hs (hnone k' j hj)
  · rintro _ g ⟨⟩ hg
    cases hg
  · rintro ho _ ⟨⟩
    exact h.granted ho v rfl

/-- A step of the receiving goroutine. -/
theorem move {sha256 : List UInt8 → String} {t : Transfers} {u : Update}
    (h : RxOk id request got acks ended opened ⟨some v, r, jobs⟩) (hends : ends v.queue ≤ if v.ending then 1 else 0)
    (hm : t.Moved sha256 id v u) : RxOk id request got acks ended opened ⟨some u.entry, r, addJob jobs k u.job⟩ := by
  have hv := h.live v rfl
  have hpos := hv.pos
  have hgranted : opened = true → v.granted = true := fun ho => h.granted ho v rfl
  cases hm with
  | granted hpc =>
    simp only [RxPos, hpc] at hpos
    obtain ⟨hopen, hnone⟩ := h.fresh v _ rfl hpc
    refine h.move_quiet ⟨hv.sending, hv.request, hv.next, hv.acked, hv.ending, hv.queue, hpos.1⟩
      (fun k j hj => absurd ((hnone k).symm.trans hj) (by simp)) (by simp) fun ho => ?_
    exact absurd (hopen.symm.trans ho) (by decide)
  | take hpc hqueue =>
    rename_i item rest
    simp only [RxPos, hpc] at hpos
    have hq := hv.queue
    rw [hqueue, Queued] at hq
    refine h.move_quiet ⟨hv.sending, hv.request, hv.next, hv.acked, hv.ending, ?_, ?_⟩
      (h.no_ack (by simp [hpc]) (by simp [hpc])) (by simp) hgranted
    · cases hend : item.isEnd with
      | true =>
        obtain rfl : rest = [] := by simpa [hend] using hq
        trivial
      | false =>
        rw [hend, if_neg (by decide)] at hq
        have hbase : v.base + 1 = v.next - chunks rest := by
          rw [WireTransfer.base, hqueue, chunks_cons, hend, if_neg (by decide)]
          omega
        rw [hbase] at hq
        exact hq.2
    · simp only [RxPos]
      cases hend : item.isEnd with
      | true =>
        obtain rfl : rest = [] := by simpa [hend] using hq
        rw [if_pos rfl]
        refine ⟨?_, rfl, ?_⟩
        · by_contra hnot
          rw [if_neg hnot, hqueue, ends_cons, hend, if_pos rfl] at hends
          have hnil := ends_nonneg []
          omega
        · rw [hpos, WireTransfer.base, WireTransfer.base, hqueue, chunks_cons, hend, if_pos rfl, add_zero]
      | false =>
        rw [hend, if_neg (by decide)] at hq
        rw [if_neg (by decide)]
        refine ⟨hq.1.trans hpos.symm, ?_⟩
        rw [hpos, WireTransfer.base, WireTransfer.base, hqueue, chunks_cons, hend, if_neg (by decide)]
        change v.next - chunks rest = _
        omega
  | wrote hpc hchunk => exact h.wrote hpc (by simpa [ReceiveItem.isEnd] using hchunk)
  | ended hpc hend =>
    rename_i item
    have hitem : item.isEnd = true := by simpa [ReceiveItem.isEnd] using hend
    simp only [RxPos, hpc, hitem, if_true] at hpos
    exact h.move_quiet ⟨hv.sending, hv.request, hv.next, hv.acked, hv.ending, hv.queue, hpos⟩
      (h.no_ack (by simp [hpc]) (by simp [hpc])) (by simp) hgranted
  | acked hpc =>
    simp only [RxPos, hpc] at hpos
    exact h.move_quiet ⟨hv.sending, hv.request, hv.next, hv.acked, hv.ending, hv.queue, hpos⟩
      (h.no_ack (by simp [hpc]) (by simp [hpc])) (by simp) hgranted
  | stop source hashed =>
    refine ⟨?_, h.retired, h.job, h.unique, ?_, ?_, ?_, h.flow, fun _ _ => h.apart v rfl⟩
    · rintro _ ⟨⟩
      exact ⟨hv.sending, hv.request, hv.next, hv.acked, hv.ending, hv.queue, trivial⟩
    · rintro _ k j ⟨⟩ hj hs
      exact ⟨(h.waiting v k j rfl hj hs).1, .inr rfl⟩
    · rintro _ g ⟨⟩ hg
      cases hg
    · rintro ho _ ⟨⟩
      exact hgranted ho
  | opened hpc | reserve hpc | read hpc | empty hpc | drained hpc | sent hpc | finished hpc =>
    simp [RxPos, hpc] at hpos

/-- An acknowledgement is written: its counter moves with it while the transfer is live. -/
theorem runAck (h : RxOk id request got acks ended opened l) (hj : l.jobs k = some j) (hstart : j.start = .acked)
    {live : Option WireTransfer}
    (hlive : ∀ w, live = some w → ∃ v, l.live = some v ∧ w = (Transfers.started v .acked).entry) :
    RxOk id request got (acks + 1) ended opened ⟨live, l.recent, Function.update l.jobs k none⟩ := by
  have hjob := h.job k j hj
  obtain ⟨hs, -⟩ | ⟨-, -, -, -, hgot⟩ := hjob
  · exact absurd (hs.symm.trans hstart) (by decide)
  have hrest : ∀ k' j', Function.update l.jobs k none k' = some j' → l.jobs k' = some j' ∧ j'.start ≠ .acked := by
    intro k' j' hj'
    rw [Function.update_apply] at hj'
    split at hj'
    · cases hj'
    · rename_i hne
      exact ⟨hj', fun hs' => hne (h.unique k' k j' j hj' hj hs' hstart)⟩
  refine ⟨?_, ?_, ?_, ?_, ?_, ?_, ?_, by omega, ?_⟩
  · intro w hw
    obtain ⟨v, hv, rfl⟩ := hlive w hw
    have hlive := h.live v hv
    have hpos := hlive.pos
    refine ⟨hlive.sending, hlive.request, hlive.next, congrArg (· + 1) hlive.acked, hlive.ending, hlive.queue, ?_⟩
    obtain ⟨-, hpc | hpc⟩ := h.waiting v k j hv hj hstart
    · simp only [RxPos, hpc] at hpos
      simp only [RxPos, Transfers.started, hpc, Transfers.markWritten]
      exact hpos.symm
    · simp only [RxPos, Transfers.started, hpc, Transfers.markWritten]
  · intro r hr
    have hret := h.retired r hr
    exact ⟨hret.sending, hret.request, hret.next, by have := hret.acked; omega, hret.ending, hret.canceled⟩
  · intro k' j' hj'
    obtain ⟨hj', hne⟩ := hrest k' j' hj'
    cases h.job k' j' hj' with
    | grant h₁ h₂ h₃ h₄ => exact .grant h₁ h₂ h₃ h₄
    | ack h₁ => exact absurd h₁ hne
  · intro k₁ _ j₁ _ hj₁ _ hs₁
    exact absurd hs₁ (hrest k₁ j₁ hj₁).2
  · intro w k' j' _ hj' hs'
    exact absurd hs' (hrest k' j' hj').2
  · intro w g hw hg
    obtain ⟨v, hv, rfl⟩ := hlive w hw
    obtain ⟨-, hpc | hpc⟩ := h.waiting v k j hv hj hstart
    · simp [Transfers.started, hpc, Transfers.markWritten] at hg
    · simp [Transfers.started, hpc, Transfers.markWritten] at hg
  · intro ho w hw
    obtain ⟨v, hv, rfl⟩ := hlive w hw
    exact h.granted ho v hv
  · intro w hw
    obtain ⟨v, hv, rfl⟩ := hlive w hw
    exact h.apart v hv

/-- The grant of the initial credit is written. -/
theorem runGrant (h : RxOk id request got acks ended opened ⟨some v, r, jobs⟩) (hj : jobs k = some j) :
    RxOk id request got acks ended true
      ⟨some { v with granted := true }, r, Function.update jobs k none⟩ := by
  have hdrop := h.mapJobs (.drop _ k)
  have hv := h.live v rfl
  refine ⟨?_, hdrop.retired, hdrop.job, hdrop.unique, ?_, ?_, ?_, hdrop.flow, fun _ _ => hdrop.apart v rfl⟩
  · rintro _ ⟨⟩
    exact ⟨hv.sending, hv.request, hv.next, hv.acked, hv.ending, hv.queue, hv.pos⟩
  · rintro _ k' j' ⟨⟩ hj' hs'
    exact hdrop.waiting v k' j' rfl hj' hs'
  · rintro _ g ⟨⟩ hg
    exact absurd (((h.fresh v g rfl hg).2 k).symm.trans hj) (by simp)
  · rintro - _ ⟨⟩
    rfl

theorem retire {err : Bool} (h : RxOk id request got acks ended opened ⟨some v, r, jobs⟩)
    (hpc : v.pc = .stopped err) :
    RxOk id request got acks ended opened ⟨none, some (v.retired err), jobs⟩ := by
  have hv := h.live v rfl
  refine ⟨(fun _ hw => nomatch hw), ?_, h.job, h.unique, (fun _ _ _ hw => nomatch hw),
    (fun _ _ hw => nomatch hw), (fun _ _ hw => nomatch hw), h.flow, (fun _ hw => nomatch hw)⟩
  rintro _ ⟨⟩
  refine ⟨hv.sending, hv.request, hv.next, hv.acked.le, hv.ending, fun hc => ?_⟩
  have hpos := hv.pos
  obtain ⟨rfl, -⟩ : err = false ∧ v.cancelled = false := by simpa [WireTransfer.retired] using hc
  simp only [RxPos, hpc] at hpos
  exact hv.ending.symm.trans hpos.1

theorem setCancelled (h : RxOk id request got acks ended opened ⟨some v, r, jobs⟩) :
    RxOk id request got acks ended opened ⟨some { v with cancelled := true }, r, jobs⟩ := by
  have hv := h.live v rfl
  exact h.renew ⟨hv.sending, hv.request, hv.next, hv.acked, hv.ending, hv.queue, hv.pos⟩ le_rfl rfl rfl rfl

end RxOk

/-- The receiving side after a step that writes the frames `fs`. -/
structure RxStepped (id request : String) (got acks : ℤ) (ended opened : Bool) (l : Local)
    (fs : List Frame) : Prop where
  ok : RxOk id request got (acks + count .ack id fs) ended (opened || fs.any (grantsFor id)) l
  numbered : Numbered .ack id acks fs
  grants : fs.countP (grantsFor id) + (if opened then 1 else 0) ≤ 1
  frames : ∀ f ∈ fs, RxFrame request f

namespace RxStepped
variable {id request : String} {got acks : ℤ} {ended opened : Bool} {l l' : Local} {f : Frame}

theorem quiet (h : RxOk id request got acks ended opened l) : RxStepped id request got acks ended opened l [] where
  ok := by simpa using h
  numbered := trivial
  grants := by cases opened <;> simp
  frames := fun _ hf => nomatch hf

theorem ack (h : RxOk id request got (acks + 1) ended opened l) (htype : f.type = .ack)
    (hid : f.transferID = id) (hseq : f.sequence = acks) :
    RxStepped id request got acks ended opened l [f] := by
  have hfor : isFor .ack id f = true := isFor_iff.mpr ⟨htype, hid⟩
  have hgrant : grantsFor id f = false := by simp [grantsFor, Frame.isGrant, htype]
  refine ⟨?_, (Numbered.cons_self hfor).mpr ⟨hseq, trivial⟩, ?_, ?_⟩
  · simpa [count_cons, hfor, hgrant] using h
  · cases opened <;> simp [hgrant]
  · intro g hg
    obtain rfl := List.mem_singleton.mp hg
    exact ⟨.inl htype, fun hne => absurd htype hne⟩

theorem grant (h : RxOk id request got acks ended true l) (hgrant : f.isGrant = true)
    (hid : f.transferID = id) (hreq : f.id = request) : RxStepped id request got acks ended false l [f] := by
  have hfor : isFor .ack id f = false := by
    refine isFor_kind rfl fun hack => ?_
    simp [Frame.isGrant, hack] at hgrant
  refine ⟨?_, (Numbered.cons_other hfor).mpr trivial, by simp [List.countP_cons]; split <;> decide, ?_⟩
  · simpa [count_cons, hfor, grantsFor, hgrant, hid] using h
  · intro g hg
    obtain rfl := List.mem_singleton.mp hg
    exact ⟨.inr (.inr hgrant), fun _ => hreq⟩

end RxStepped

namespace RxOk
variable {id request : String} {got acks : ℤ} {ended opened : Bool} {l l' : Local}

/-- A local action of the receiving engine. -/
theorem local_step {sha256 : List UInt8 → String} {t : Transfers} {a : Action} {out : List Output}
    (h : RxOk id request got acks ended opened l)
    (hends : ∀ v, l.live = some v → ends v.queue ≤ if v.ending then 1 else 0)
    (hs : LocalStep sha256 t a id l l' out) :
    RxStepped id request got acks ended opened l' (out.filterMap Output.frame?) := by
  cases hs with
  | idle => exact .quiet h
  | move ha hu hfree =>
    have hm := Transfers.move_moved sha256 hu
    rw [hm.no_frame]
    exact .quiet (h.move (hends _ rfl) hm)
  | retire ha hpc => exact .quiet (h.retire hpc)
  | cancel ha => exact .quiet h.setCancelled
  | drop hj | refuse hj => exact .quiet (h.mapJobs (.drop _ _))
  | check hj => exact .quiet (h.mapJobs (.check hj))
  | run hj hchecked hstart hserial =>
    obtain ⟨hg, -⟩ | ⟨hack, htype, hid, hseq, -⟩ := h.job _ _ hj
    · exact absurd hg hstart
    · refine .ack (h.runAck hj hack fun w hw => ⟨_, rfl, ?_⟩) htype hid hseq
      rw [← Option.some.inj hw, hack]
  | runLate hj hchecked hstart hserial =>
    obtain ⟨hg, -⟩ | ⟨hack, htype, hid, hseq, -⟩ := h.job _ _ hj
    · exact absurd hg hstart
    · refine .ack (h.runAck hj hack fun w hw => ?_) htype hid hseq
      exact absurd (h.waiting w _ _ hw hj hack).1 (hserial w hw)
  | grant hj hchecked hstart hsending hgranted =>
    obtain ⟨-, hgrant, hreq, hid⟩ | ⟨hack, -⟩ := h.job _ _ hj
    · have hopen : opened = false := by
        by_contra hopen
        have hlive := h.granted (Bool.not_eq_false _ ▸ hopen) _ rfl
        exact absurd (hgranted.symm.trans hlive) (by decide)
      subst hopen
      exact .grant (h.runGrant hj) hgrant hid hreq
    · exact absurd (hstart.symm.trans hack) (by decide)

variable {v : WireTransfer} {r : Option RetiredTransfer} {jobs : ℕ → Option Job} {item : ReceiveItem}

/-- A chunk arrives at the live receiver. -/
theorem chunk (h : RxOk id request got acks ended opened ⟨some v, r, jobs⟩) (hitem : item.isEnd = false)
    (hends : ends v.queue ≤ if v.ending then 1 else 0) (hending : v.ending = false)
    (hseq : item.frame.sequence = v.next) :
    RxOk id request (got + 1) acks ended opened
      ⟨some { v with next := v.next + 1, queue := v.queue ++ [item] }, r, jobs⟩ := by
  have hv := h.live v rfl
  have hbase : v.next + 1 - chunks (v.queue ++ [item]) = v.base := by
    rw [chunks_append, hitem, if_neg (by decide), WireTransfer.base]
    omega
  refine h.renew ⟨hv.sending, hv.request, congrArg (· + 1) hv.next, hv.acked, hv.ending, ?_,
    ?_⟩ (by omega) rfl rfl rfl
  · change Queued (v.next + 1 - chunks (v.queue ++ [item])) (v.queue ++ [item])
    rw [hbase]
    rw [hending, if_neg (by decide)] at hends
    refine hv.queue.append (le_antisymm hends (ends_nonneg _)) (.inr ?_)
    rw [hseq, WireTransfer.base]
    omega
  · exact hv.pos.enqueue hending rfl rfl hbase

/-- The end arrives at the live receiver. -/
theorem ended_arrives (h : RxOk id request got acks ended opened ⟨some v, r, jobs⟩) (hitem : item.isEnd = true)
    (hends : ends v.queue ≤ if v.ending then 1 else 0) (hending : v.ending = false) :
    RxOk id request got acks true opened
      ⟨some { v with ending := true, queue := v.queue ++ [item] }, r, jobs⟩ := by
  have hv := h.live v rfl
  have hbase : v.next - chunks (v.queue ++ [item]) = v.base := by
    rw [chunks_append, hitem, if_pos rfl, WireTransfer.base]
    omega
  refine h.renew ⟨hv.sending, hv.request, hv.next, hv.acked, rfl, ?_, ?_⟩ le_rfl rfl rfl rfl
  · change Queued (v.next - chunks (v.queue ++ [item])) (v.queue ++ [item])
    rw [hbase]
    rw [hending, if_neg (by decide)] at hends
    exact hv.queue.append (le_antisymm hends (ends_nonneg _)) (.inl hitem)
  · exact hv.pos.enqueue hending rfl rfl hbase

/-- A retired receiver counts what still arrives. -/
theorem late {r r' : RetiredTransfer} {got' : ℤ} {ended' : Bool}
    (h : RxOk id request got acks ended opened ⟨none, some r, jobs⟩) (hgot : got ≤ got')
    (hr : RxRetired request got' acks ended' r') :
    RxOk id request got' acks ended' opened ⟨none, some r', jobs⟩ := by
  have hflow := h.flow
  refine ⟨(fun _ hw => nomatch hw), ?_, fun k j hj => (h.job k j hj).mono hgot, h.unique,
    (fun _ _ _ hw => nomatch hw), (fun _ _ hw => nomatch hw), (fun _ _ hw => nomatch hw), by omega,
    (fun _ hw => nomatch hw)⟩
  rintro _ ⟨⟩
  exact hr

/-- A frame of the sender is accepted. -/
theorem handled {f : Frame} (h : RxOk id request got acks ended opened l) (hid : f.transferID = id)
    (hends : ∀ v, l.live = some v → ends v.queue ≤ if v.ending then 1 else 0)
    (hs : LocalHandled f l l') :
    RxOk id request (got + count .transferChunk id [f]) acks (ended || isFor .transferEnd id f) opened l' := by
  have hchunk : f.type = .transferChunk → count .transferChunk id [f] = 1 ∧ isFor .transferEnd id f = false := by
    intro hf
    simp [count_cons, isFor, hf, hid]
  have hother : f.type ≠ .transferChunk → count .transferChunk id [f] = 0 := by
    intro hf
    simp [count_cons, isFor, hf]
  have hend : f.type ≠ .transferEnd → isFor .transferEnd id f = false := by
    intro hf
    simp [isFor, hf]
  cases hs with
  | ack hf hsending => exact absurd ((h.live _ rfl).sending.symm.trans hsending) (by decide)
  | cancel hf =>
    rw [hother (by simp [hf]), hend (by simp [hf]), add_zero, Bool.or_false]
    exact h.setCancelled
  | chunk hf hsending hending hseq hb =>
    rw [(hchunk hf).1, (hchunk hf).2, Bool.or_false]
    exact h.chunk (by simp [ReceiveItem.isEnd, hf]) (hends _ rfl) hending hseq
  | «end» hf hsending hending =>
    have hfor : isFor .transferEnd id f = true := isFor_iff.mpr ⟨hf, hid⟩
    rw [hother (by simp [hf]), hfor, add_zero, Bool.or_true]
    exact h.ended_arrives (by simp [ReceiveItem.isEnd, hf]) (hends _ rfl) hending
  | lateAck hf hsending => exact absurd ((h.retired _ rfl).sending.symm.trans hsending) (by decide)
  | lateChunk hf hsending hending =>
    have hr := h.retired _ rfl
    rw [(hchunk hf).1, (hchunk hf).2, Bool.or_false]
    exact h.late (by omega)
      ⟨hr.sending, hr.request, congrArg (· + 1) hr.next, hr.acked, hr.ending, hr.canceled⟩
  | lateEnd hf hsending hending =>
    have hr := h.retired _ rfl
    have hfor : isFor .transferEnd id f = true := isFor_iff.mpr ⟨hf, hid⟩
    rw [hother (by simp [hf]), hfor, add_zero, Bool.or_true]
    exact h.late (le_refl _) ⟨hr.sending, hr.request, hr.next, hr.acked, rfl, fun _ => rfl⟩
  | ignored _ hf =>
    rw [hother (by simp [hf]), hend (by simp [hf]), add_zero, Bool.or_false]
    exact h

end RxOk
end Onprest.Ws
