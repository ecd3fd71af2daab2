import Onprest.Gateway.RequestView

/-! The outcome `not_started` of the plain request path is never a lie, its cancel frames follow their
requests, and its bookkeeping is cleared. -/

namespace Onprest.Gateway
open Lib Contract

/-- The frame of the write in hand is still to be written. -/
@[grind] def Stage.holds : Stage → ℕ
  | .lookup | .refuse | .check | .post | .posted _ => 1
  | _ => 0

@[grind] def handRequests : Option (Bool × Stage) → ℕ
  | some (false, st) => st.holds
  | _ => 0

@[grind] def handCancels : Option (Bool × Stage) → ℕ
  | some (_, .postCancel) => 1
  | some (true, st) => st.holds
  | _ => 0

/-- The caller is about to post a cancel frame. -/
@[grind] def posting : Option Call → ℕ
  | some c =>
    match c.pc with
    | .postCancel _ => 1
    | _ => 0
  | none => 0

/-- The cancel frames of a request that are posted or about to be. -/
@[grind] def RequestView.cancelling (v : RequestView) : ℕ := v.controls + handCancels v.hand + posting v.call

/-- The send states the writer may find with a write in its hand. -/
@[grind] def Stage.allows (e : RequestSendState) : Bool × Stage → Prop
  | (true, .check) | (true, .post) | (true, .posted _) | (true, .fail _) | (true, .report _) | (true, .finish)
  | (false, .postCancel) | (false, .abandonCancel _) | (false, .finish) => e.phase = .canceling
  | (false, .lookup) => e.phase = .queued
  | (false, .check) | (false, .post) | (false, .posted _) | (false, .fail _) | (false, .report none)
  | (false, .mark) => e.phase = .sending
  | (false, .cancel) => e.phase = .sent ∧ e.cancelAfterSend = true
  | _ => False

/-- Asking for a cancel frame after a write that is under way changes nothing for the writer. -/
theorem Stage.allows_cancelAfterSend {late : Bool} {x : Bool × Stage} (h : Stage.allows ⟨.sending, late⟩ x) :
    Stage.allows ⟨.sending, true⟩ x := by
  obtain ⟨control, st⟩ := x
  cases control <;> cases st with
  | report r => cases r <;> grind -linarith
  | _ => grind -linarith

/-- With a request marked as sent, the writer is only there to post the cancel frame asked for. -/
theorem Stage.cancel_of_sent {late : Bool} {x : Bool × Stage} (h : Stage.allows ⟨.sent, late⟩ x) : late = true := by
  obtain ⟨control, st⟩ := x
  cases control <;> cases st with
  | report r => cases r <;> grind -linarith
  | _ => grind -linarith

/-- The writer is past the write of the request frame. -/
@[grind] def Stage.past : Bool × Stage → Bool
  | (true, _) => true
  | (false, .report none) | (false, .mark) | (false, .cancel) | (false, .postCancel)
  | (false, .abandonCancel _) => true
  | _ => false

namespace StageMove
variable {v : RequestView} {control : Bool} {st st' : Stage}

theorem handRequests_le (h : StageMove v control st st') :
    handRequests (some (control, st')) ≤ handRequests (some (control, st)) := by
  cases h <;> cases control <;> simp [handRequests, Stage.holds]

theorem handCancels_le (h : StageMove v control st st') :
    handCancels (some (control, st')) ≤ handCancels (some (control, st)) := by
  cases h <;> cases control <;> simp [handCancels, Stage.holds]

theorem past (h : StageMove v control st st') (hpast : Stage.past (control, st') = true) :
    Stage.past (control, st) = true := by
  cases h <;> cases control <;> first | rfl | cases hpast

theorem allows {e : RequestSendState} (h : StageMove v control st st') (hentry : v.entry = some e)
    (hlive : e.phase ≠ .canceled) (hallow : Stage.allows e (control, st)) : Stage.allows e (control, st') := by
  cases h with
  | refuse hc => exact absurd (hc e hentry) hlive
  | _ => cases control <;> exact hallow

end StageMove

attribute [grind] AgentConn.requestAgentCancel

/-- The frames of a request come in order and at most once, and the phase says how far they are. -/
structure Ordered (v : RequestView) : Prop where
  fresh : v.call = none → v.entry = none ∧ v.queued = 0 ∧ v.controls = 0 ∧ v.hand = none ∧ v.frames = []
  unqueued : ∀ c, v.call = some c → c.pc = .enqueue → v.queued = 0 ∧ v.hand = none ∧ v.frames = []
  requests : v.queued + handRequests v.hand + v.frames.count false ≤ 1
  cancels : v.cancelling + v.frames.count true ≤ 1
  shape : v.frames = [] ∨ v.frames = [false] ∨ v.frames = [false, true]
  begun : 1 ≤ v.cancelling → v.frames ≠ []
  early : ∀ e, v.entry = some e → e.phase ≠ .canceling → v.cancelling + v.frames.count true = 0
  hand : ∀ h e, v.hand = some h → v.entry = some e → Stage.allows e h
  past : ∀ h, v.hand = some h → Stage.past h = true → v.frames ≠ []
  queued : ∀ e, 0 < v.queued → v.entry = some e → e.phase = .queued
  enqueue : ∀ c e, v.call = some c → c.pc = .enqueue → v.entry = some e → e.phase = .queued
  unwritten : ∀ e, v.entry = some e → e.phase = .queued → v.frames = []
  written : ∀ e, v.entry = some e → e.phase = .sent ∨ e.phase = .canceling → v.frames ≠ []
  live : ∀ e, v.entry = some e → e.phase ≠ .canceled
  posts : ∀ c f e, v.call = some c → c.pc = .postCancel f → v.entry = some e → e.phase = .canceling
  after : ∀ c e, v.call = some c → v.entry = some e → e.cancelAfterSend = true → ∃ r, c.pc = .returned r

namespace Ordered
variable {v w : RequestView} {c c' : Call}

/-- Only the caller, the send state, the queues, the write in hand and the frames matter. -/
theorem congr (h : Ordered v) (hcall : w.call = v.call) (hentry : w.entry = v.entry) (hqueued : w.queued = v.queued)
    (hcontrols : w.controls = v.controls) (hhand : w.hand = v.hand) (hframes : w.frames = v.frames) : Ordered w := by
  cases v
  cases w
  subst hcall hentry hqueued hcontrols hhand hframes
  exact ⟨h.fresh, h.unqueued, h.requests, h.cancels, h.shape, h.begun, h.early, h.hand, h.past, h.queued,
    h.enqueue, h.unwritten, h.written, h.live, h.posts, h.after⟩

/-- The send state is forgotten. -/
theorem drop (h : Ordered v) : Ordered { v with entry := none } := by
  cases h
  constructor <;> first | assumption | grind -linarith

/-- The caller moves on without posting or queueing anything. -/
theorem setCall (h : Ordered v) (hcall : v.call = some c) (hpost : posting (some c') = posting (some c))
    (henq : c'.pc = .enqueue → c.pc = .enqueue) (hret : ∀ r, c.pc = .returned r → ∃ r', c'.pc = .returned r') :
    Ordered { v with call := some c' } where
  fresh := fun hc => nomatch hc
  unqueued := by
    rintro _ ⟨⟩ hpc
    exact h.unqueued c hcall (henq hpc)
  requests := h.requests
  cancels := by
    have hcancels := h.cancels
    simp only [RequestView.cancelling, hcall] at hcancels ⊢
    omega
  shape := h.shape
  begun := by
    have hbegun := h.begun
    simp only [RequestView.cancelling, hcall] at hbegun ⊢
    rwa [hpost]
  early := by
    have hearly := h.early
    simp only [RequestView.cancelling, hcall] at hearly ⊢
    rwa [hpost]
  hand := h.hand
  past := h.past
  queued := h.queued
  enqueue := by
    rintro _ e ⟨⟩ hpc
    exact h.enqueue c e hcall (henq hpc)
  unwritten := h.unwritten
  written := h.written
  live := h.live
  posts := by
    rintro _ f e ⟨⟩ hpc he
    have hone : posting (some c) = 1 := by rw [← hpost, posting, hpc]
    simp only [posting] at hone
    split at hone
    · exact h.posts c _ e hcall ‹_› he
    · cases hone
  after := by
    rintro _ e ⟨⟩ he hafter
    obtain ⟨r, hr⟩ := h.after c e hcall he hafter
    exact hret r hr

theorem keepPc (h : Ordered v) (hcall : v.call = some c) (hpc : c'.pc = c.pc) :
    Ordered { v with call := some c' } := by
  refine h.setCall hcall ?_ ?_ ?_
  · simp only [posting, hpc]
  · rw [hpc]
    exact id
  · intro r hr
    exact ⟨r, hpc.trans hr⟩

/-- The writer moves on with the write in its hand. -/
theorem setHand {hand : Option (Bool × Stage)} (h : Ordered v) (hsome : hand ≠ none → v.hand ≠ none)
    (hreq : handRequests hand ≤ handRequests v.hand) (hcan : handCancels hand ≤ handCancels v.hand)
    (hallow : ∀ x e, hand = some x → v.entry = some e → Stage.allows e x)
    (hpast : ∀ x, hand = some x → Stage.past x = true → v.frames ≠ []) : Ordered { v with hand } where
  fresh := by
    intro hc
    obtain ⟨hentry, hqueued, hcontrols, hhand, hframes⟩ := h.fresh hc
    exact ⟨hentry, hqueued, hcontrols, by_contra fun hne => hsome hne hhand, hframes⟩
  unqueued := by
    intro c hc hpc
    obtain ⟨hqueued, hhand, hframes⟩ := h.unqueued c hc hpc
    exact ⟨hqueued, by_contra fun hne => hsome hne hhand, hframes⟩
  requests := by
    have hrequests := h.requests
    simp only at hrequests ⊢
    omega
  cancels := by
    have hcancels := h.cancels
    simp only [RequestView.cancelling] at hcancels ⊢
    omega
  shape := h.shape
  begun := by
    intro hbegun
    refine h.begun ?_
    simp only [RequestView.cancelling] at hbegun ⊢
    omega
  early := by
    intro e he hphase
    have hearly := h.early e he hphase
    simp only [RequestView.cancelling] at hearly ⊢
    omega
  hand := hallow
  past := hpast
  queued := h.queued
  enqueue := h.enqueue
  unwritten := h.unwritten
  written := h.written
  live := h.live
  posts := h.posts
  after := h.after

/-- The writer lets go of the write in its hand. -/
theorem release (h : Ordered v) : Ordered { v with hand := none } :=
  h.setHand (fun hne => absurd rfl hne) (Nat.zero_le _) (Nat.zero_le _) (fun _ _ hx => nomatch hx)
    (fun _ hx => nomatch hx)

/-- A request is registered. -/
theorem register (h : Ordered v) (hcall : v.call = none) :
    Ordered { v with call := some {}, entry := some {}, pending := v.pending + 1 } := by
  obtain ⟨hentry, hqueued, hcontrols, hhand, hframes⟩ := h.fresh hcall
  constructor <;> first | assumption | grind -linarith

/-- A request is refused. -/
theorem refused (h : Ordered v) (hcall : v.call = none) :
    Ordered { v with call := some { pc := .returned .refused } } := by
  obtain ⟨hentry, hqueued, hcontrols, hhand, hframes⟩ := h.fresh hcall
  constructor <;> first | assumption | grind -linarith

/-- The caller queues its write. -/
theorem queue (h : Ordered v) (hcall : v.call = some c) (hpc : c.pc = .enqueue) :
    Ordered { v with call := some { c with pc := .awaitWrite }, queued := v.queued + 1 } := by
  have hnone := h.unqueued c hcall hpc
  have hentry := h.enqueue c
  cases h
  constructor <;> first | assumption | grind -linarith

variable {late control : Bool} {f : CallFailure} {e : RequestSendState}

/-- The caller gives up while its frame is being written. -/
theorem cancelLater {r : CallResult} (h : Ordered v) (hcall : v.call = some c) (hpc : posting (some c) = 0)
    (hentry : v.entry = some ⟨.sending, late⟩) :
    Ordered { v with entry := some ⟨.sending, true⟩, call := some { c with pc := .returned r } } := by
  have hlater := fun x => @Stage.allows_cancelAfterSend late x
  cases h
  constructor <;> first | assumption | grind -linarith

/-- The caller gives up after its frame was written. -/
theorem cancelNow (h : Ordered v) (hcall : v.call = some c) (hpc : c.pc = .cancel f)
    (hentry : v.entry = some ⟨.sent, late⟩) :
    Ordered { v with entry := some ⟨.canceling, late⟩, call := some { c with pc := .postCancel f } } := by
  have hsent := fun x => @Stage.cancel_of_sent late x
  cases h
  constructor <;> first | assumption | grind -linarith

/-- The critical section of `requestAgentCancel`, entered by the caller. -/
theorem cancel (h : Ordered v) (hcall : v.call = some c) (hpc : c.pc = .cancel f) :
    Ordered { v with
      entry := (AgentConn.requestAgentCancel v.entry).1
      call := some { c with
        pc := if (AgentConn.requestAgentCancel v.entry).2 then .postCancel f else .returned (.failed f) } } := by
  have hpost : posting (some c) = 0 := by simp [posting, hpc]
  have hreturn : Ordered { v with call := some { c with pc := .returned (.failed f) } } := by
    refine h.setCall hcall ?_ ?_ ?_ <;> grind -linarith
  cases hentry : v.entry with
  | none => exact hreturn.congr rfl hentry.symm rfl rfl rfl rfl
  | some e =>
    obtain ⟨phase, late⟩ := e
    cases phase with
    | queued => exact hreturn.drop
    | sending => exact h.cancelLater hcall hpost hentry
    | sent => exact h.cancelNow hcall hpc hentry
    | canceling => exact hreturn.congr rfl hentry.symm rfl rfl rfl rfl
    | canceled => exact absurd rfl (h.live _ hentry)

theorem queueCancel (h : Ordered v) (hcall : v.call = some c) (hpc : c.pc = .postCancel f) :
    Ordered { v with call := some { c with pc := .returned (.failed f) }, controls := v.controls + 1 } := by
  cases h
  constructor <;> first | assumption | grind -linarith

theorem takeControl (h : Ordered v) (hhand : v.hand = none) (hq : 0 < v.controls) :
    Ordered { v with hand := some (true, .check), controls := v.controls - 1 } := by
  cases h
  constructor <;> first | assumption | grind -linarith

theorem takeSend (h : Ordered v) (hhand : v.hand = none) (hq : 0 < v.queued) :
    Ordered { v with hand := some (false, .lookup), queued := v.queued - 1 } := by
  cases h
  constructor <;> first | assumption | grind -linarith

/-- The writer finds the request queued. -/
theorem lookup (h : Ordered v) (hhand : v.hand = some (control, .lookup)) (hentry : v.entry = some e) :
    Ordered { v with hand := some (control, .check), entry := some { e with phase := .sending } } := by
  cases h
  cases control <;> constructor <;> first | assumption | grind -linarith

/-- A frame is written: a request frame as the first, a cancel frame after its request. -/
theorem runJob {st : Stage} (h : Ordered v) (hhand : v.hand = some (control, .posted true))
    (hst : st = .report none ∨ ∃ e, st = .fail e) :
    Ordered { v with hand := some (control, st), frames := v.frames ++ [control] } := by
  have hframes : v.frames = if control then [false] else [] := by
    have hrequests := h.requests
    have hcancels := h.cancels
    have hbegun := h.begun
    have hshape := h.shape
    simp only [RequestView.cancelling, hhand] at hrequests hcancels hbegun
    cases control <;> grind -linarith
  cases h
  cases control <;> obtain rfl | ⟨e, rfl⟩ := hst <;>
    simp only [hframes, Bool.false_eq_true, ↓reduceIte, List.nil_append,
      List.cons_append] <;> constructor <;> first | assumption | grind -linarith

/-- The writer marks the request as sent. -/
theorem mark (h : Ordered v) (hhand : v.hand = some (control, .mark)) (hentry : v.entry = some e) :
    Ordered { v with
      hand := if e.cancelAfterSend then some (control, .cancel) else none
      entry := some { e with phase := .sent } } := by
  cases h
  cases control <;> constructor <;> first | assumption | grind -linarith

/-- The writer asks for a cancel frame of a request that is sent and was given up meanwhile. -/
theorem sent_of_cancel (h : Ordered v) (hhand : v.hand = some (control, .cancel)) (hentry : v.entry = some e) :
    control = false ∧ e.phase = .sent ∧ e.cancelAfterSend = true := by
  have hallow := h.hand _ _ hhand hentry
  cases control with
  | false => exact ⟨rfl, hallow⟩
  | true => exact hallow.elim

theorem queued_of_lookup (h : Ordered v) (hhand : v.hand = some (control, .lookup)) (hentry : v.entry = some e) :
    e.phase = .queued := by
  have hallow := h.hand _ _ hhand hentry
  cases control with
  | false => exact hallow
  | true => exact hallow.elim

theorem sending_of_mark (h : Ordered v) (hhand : v.hand = some (control, .mark)) (hentry : v.entry = some e) :
    e.phase = .sending := by
  have hallow := h.hand _ _ hhand hentry
  cases control with
  | false => exact hallow
  | true => exact hallow.elim

theorem canceling_of_postCancel (h : Ordered v) (hhand : v.hand = some (control, .postCancel))
    (hentry : v.entry = some e) : e.phase = .canceling := by
  have hallow := h.hand _ _ hhand hentry
  cases control with
  | false => exact hallow
  | true => exact hallow.elim

/-- The critical section of `requestAgentCancel`, entered by the writer. -/
theorem writerCancel (h : Ordered v) (hhand : v.hand = some (control, .cancel)) :
    Ordered { v with
      entry := (AgentConn.requestAgentCancel v.entry).1
      hand := if (AgentConn.requestAgentCancel v.entry).2 then some (control, .postCancel) else none } := by
  cases hentry : v.entry with
  | none =>
    exact h.release.congr rfl hentry.symm rfl rfl rfl rfl
  | some e =>
    obtain ⟨phase, late⟩ := e
    obtain ⟨rfl, rfl, rfl⟩ := h.sent_of_cancel hhand hentry
    cases h
    simp only [AgentConn.requestAgentCancel, ↓reduceIte]
    constructor <;> first | assumption | grind -linarith

theorem writerQueueCancel (h : Ordered v) (hhand : v.hand = some (control, .postCancel)) :
    Ordered { v with hand := none, controls := v.controls + 1 } := by
  cases h
  cases control <;> constructor <;> first | assumption | grind -linarith

/-- A frame to be written leaves a queue that is drained. -/
theorem drainSend (h : Ordered v) (hcall : v.call = some c) (hpc : c'.pc = c.pc) :
    Ordered { v with queued := v.queued - 1, call := some c' } := by
  cases h
  constructor <;> first | assumption | grind -linarith

theorem drainControl (h : Ordered v) : Ordered { v with controls := v.controls - 1 } := by
  cases h
  constructor <;> first | assumption | grind -linarith

theorem move {pc : CallPc} (h : Ordered v) (hcall : v.call = some c) (hm : CallMove v c pc) :
    Ordered { v with call := some { c with pc } } := by
  cases hm with
  | abandon hpc =>
    cases h
    constructor <;> first | assumption | grind -linarith
  | _ => refine h.setCall hcall ?_ ?_ ?_ <;> grind -linarith

theorem stage {st st' : Stage} (h : Ordered v) (hhand : v.hand = some (control, st))
    (hm : StageMove v control st st') :
    Ordered { v with hand := some (control, st') } := by
  refine h.setHand (by simp [hhand]) ?_ ?_ ?_ ?_
  · rw [hhand]
    exact hm.handRequests_le
  · rw [hhand]
    exact hm.handCancels_le
  · rintro _ e ⟨⟩ hentry
    exact hm.allows hentry (h.live e hentry) (h.hand _ e hhand hentry)
  · rintro _ ⟨⟩ hpast
    exact h.past _ hhand (hm.past hpast)

theorem step (h : Ordered v) (hs : ViewStep v w) : Ordered w := by
  cases hs with
  | idle => exact h
  | stop _ | closeDone _ => exact h.congr rfl rfl rfl rfl rfl rfl
  | disconnect | respond _ => exact h.drop.congr rfl rfl rfl rfl rfl rfl
  | refused hcall => exact h.refused hcall
  | register hcall _ => exact h.register hcall
  | expire hcall => exact h.keepPc hcall rfl
  | enqueue hcall hpc => exact h.queue hcall hpc
  | move hcall hm => exact h.move hcall hm
  | seeResponse hcall hpc => refine h.setCall hcall ?_ ?_ ?_ <;> grind -linarith
  | removePending hcall hpc =>
    refine Ordered.congr (h.setCall hcall ?_ ?_ ?_) rfl rfl rfl rfl rfl rfl <;> grind -linarith
  | cancel hcall hpc => exact h.cancel hcall hpc
  | queueCancel hcall hpc => exact h.queueCancel hcall hpc
  | abandonCancel hcall hpc | settle hcall hpc => refine h.drop.setCall hcall ?_ ?_ ?_ <;> grind -linarith
  | takeControl hhand _ hq => exact h.takeControl hhand hq
  | takeSend hhand _ hq => exact h.takeSend hhand hq
  | stage hhand hm => exact h.stage hhand hm
  | lookup hhand hentry _ => exact h.lookup hhand hentry
  | refuse _ hcall _ => exact h.release.keepPc hcall rfl
  | runJob hhand => exact h.runJob hhand (.inl rfl)
  | runJobFail hhand => exact h.runJob hhand (.inr ⟨_, rfl⟩)
  | @fail control _ hhand =>
    have hpast := h.past _ hhand
    cases control <;> refine h.drop.setHand ?_ ?_ ?_ ?_ ?_ <;> grind -linarith
  | reportCancel hhand =>
    have hallow := fun e => h.hand _ e hhand
    have hpast := h.past _ hhand
    refine h.setHand ?_ ?_ ?_ ?_ ?_ <;> grind -linarith
  | reportCancelFail _ => exact h.release.congr rfl rfl rfl rfl rfl rfl
  | report hhand hcall hr =>
    have hallow := fun e => h.hand _ e hhand
    have hpast := h.past _ hhand
    have hmark : Ordered { v with hand := some (false, .mark) } := by
      refine h.setHand ?_ ?_ ?_ ?_ ?_ <;> grind -linarith
    exact hmark.keepPc hcall rfl
  | reportFail _ hcall _ =>
    refine Ordered.congr (h.release.keepPc hcall ?_) rfl rfl rfl rfl rfl rfl
    rfl
  | finish _ | writerAbandon _ => exact h.release.drop
  | markNone _ _ => exact h.release
  | mark hhand hentry => exact h.mark hhand hentry
  | writerCancel hhand => exact h.writerCancel hhand
  | writerQueueCancel hhand => exact h.writerQueueCancel hhand
  | drainSend _ _ hcall _ => exact h.drainSend hcall rfl
  | drainControl _ _ => exact h.drainControl
  | respondLate _ => exact h.drop
  | deliver _ hcall =>
    refine Ordered.congr (h.keepPc hcall ?_) rfl rfl rfl rfl rfl rfl
    rfl

/-- The writer refuses a request only when its send state is gone. -/
theorem entry_none_of_refuse (h : Ordered v) (hhand : v.hand = some (control, .refuse)) : v.entry = none := by
  cases hentry : v.entry with
  | none => rfl
  | some e =>
    have hallow := h.hand _ e hhand hentry
    cases control <;> exact hallow.elim

/-- The writer reports a failed request write when the send state is gone. -/
theorem entry_none_of_report {e : WriteErr} (h : Ordered v) (hhand : v.hand = some (false, .report (some e))) :
    v.entry = none := by
  cases hentry : v.entry with
  | none => rfl
  | some e => exact (h.hand _ e hhand hentry).elim

end Ordered

/-- A caller is given at most one response, into an empty channel. -/
structure Answered (v : RequestView) : Prop where
  fresh : v.call = none → v.pending = 0 ∧ v.reading = 0
  once : ∀ c, v.call = some c → v.pending + v.reading + c.received ≤ 1
  inbox : ∀ c, v.call = some c → c.inbox = true → c.received = 1

variable {v w : RequestView} {c : Call} {control : Bool} {st st' : Stage}

theorem Answered.step (h : Answered v) (hs : ViewStep v w) : Answered w := by
  obtain ⟨hfresh, honce, hinbox⟩ := h
  cases hs with
  | idle => exact ⟨hfresh, honce, hinbox⟩
  | _ => constructor <;> first | assumption | grind -linarith

/-- A closed connection has forgotten its requests, and a writer that has stopped handles none. -/
structure Closed (v : RequestView) : Prop where
  forgotten : v.closed = true → v.entry = none
  closed : v.done = true ∨ v.closing = true → v.closed = true
  released : v.stopped = true → v.hand = none

theorem Closed.step (h : Closed v) (hs : ViewStep v w) : Closed w := by
  obtain ⟨hforgotten, hclosed, hreleased⟩ := h
  cases hs with
  | idle => exact ⟨hforgotten, hclosed, hreleased⟩
  | _ => constructor <;> first | assumption | grind -linarith

/-- The writer has sent the result of the request write. -/
@[grind] def Stage.reported : Stage → Bool
  | .mark | .cancel | .postCancel | .abandonCancel _ => true
  | _ => false

/-- The stages of the write of a cancel frame. -/
@[grind] def Stage.ofCancel : Stage → Bool
  | .check | .post | .posted _ | .fail _ | .report _ | .finish => true
  | _ => false

/-- The writer has either the only request write in its hand or a cancel frame at one of its stages. -/
structure Handed (v : RequestView) : Prop where
  control : ∀ st, v.hand = some (true, st) → st.ofCancel = true
  alone : ∀ st, v.hand = some (false, st) → v.queued = 0

theorem Handed.step (h : Handed v) (ho : Ordered v) (hs : ViewStep v w) : Handed w := by
  have hrequests := ho.requests
  have hnone := ho.unqueued
  clear ho
  obtain ⟨hcontrol, halone⟩ := h
  cases hs with
  | idle => exact ⟨hcontrol, halone⟩
  | stage hhand hm => cases hm <;> constructor <;> first | assumption | grind -linarith
  | _ => constructor <;> first | assumption | grind -linarith

/-- The result of a write comes when the write has left the queue and the writer is done with it, and
after a failed write the send state is gone unless the writer has stopped. -/
structure Reported (v : RequestView) : Prop where
  unqueued : ∀ c, v.call = some c → c.pc = .enqueue → c.writeResult = none
  left : ∀ c, v.call = some c → c.writeResult ≠ none → v.queued = 0
  reported : ∀ c st, v.call = some c → c.writeResult ≠ none → v.hand = some (false, st) → st.reported = true
  failed : ∀ c e, v.call = some c → c.writeResult = some (some e) → v.entry = none ∨ v.stopped = true

theorem Reported.move {pc : CallPc} (h : Reported v) (hcall : v.call = some c) (hm : CallMove v c pc) :
    Reported { v with call := some { c with pc } } := by
  obtain ⟨hunqueued, hleft, hreported, hfailed⟩ := h
  cases hm <;> constructor <;> first | assumption | grind -linarith

theorem Reported.stage (h : Reported v) (hhand : v.hand = some (control, st)) (hm : StageMove v control st st') :
    Reported { v with hand := some (control, st') } := by
  obtain ⟨hunqueued, hleft, hreported, hfailed⟩ := h
  cases hm <;> constructor <;> first | assumption | grind -linarith

/-- The result of a write is sent when no other write of the request is left. -/
theorem Reported.setResult {hand : Option (Bool × Stage)} {r : Option WriteErr} {queued : ℕ} {stopped : Bool}
    (ho : Ordered v) (hcall : v.call = some c) (hleft : queued = 0) (hwrite : v.hand ≠ none ∨ 0 < v.queued)
    (hhand : ∀ st, hand = some (false, st) → st.reported = true)
    (hfailed : ∀ e, r = some e → v.entry = none ∨ stopped = true) :
    Reported { v with hand, queued, stopped, call := some { c with writeResult := some r } } where
  unqueued := by
    rintro _ ⟨⟩ hpc
    obtain ⟨hqueued, hnone, -⟩ := ho.unqueued c hcall hpc
    obtain hwrite | hwrite := hwrite
    · exact absurd hnone hwrite
    · omega
  left := fun _ _ _ => hleft
  reported := fun _ st _ _ h => hhand st h
  failed := by
    rintro _ e ⟨⟩ hr
    exact hfailed e (Option.some.inj hr)

theorem Reported.step (h : Reported v) (ho : Ordered v) (hc : Closed v) (hh : Handed v) (hs : ViewStep v w) :
    Reported w := by
  cases hs with
  | idle => exact h
  | move hcall hm => exact h.move hcall hm
  | stage hhand hm => exact h.stage hhand hm
  | @refuse control _ hhand hcall _ =>
    have hcontrol : control = false := by
      cases control with
      | false => rfl
      | true => exact absurd (hh.control _ hhand) (by simp [Stage.ofCancel])
    subst hcontrol
    exact setResult ho hcall (hh.alone _ hhand) (by simp [hhand]) (fun _ h => nomatch h)
      fun _ _ => .inl (ho.entry_none_of_refuse hhand)
  | report hhand hcall _ =>
    exact setResult ho hcall (hh.alone _ hhand) (by simp [hhand]) (by rintro _ ⟨⟩; rfl) (fun _ h => nomatch h)
  | reportFail hhand hcall _ =>
    exact setResult ho hcall (hh.alone _ hhand) (by simp [hhand]) (fun _ h => nomatch h)
      fun _ _ => .inl (ho.entry_none_of_report hhand)
  | drainSend hstop hq hcall _ =>
    have hnone := hc.released hstop
    have hone : v.queued - 1 = 0 := by
      have hrequests := ho.requests
      omega
    exact setResult ho hcall hone (.inr hq) (fun st h => absurd (hnone.symm.trans h) (by simp)) fun _ _ => .inr hstop
  | _ =>
    obtain ⟨hunqueued, hleft, hreported, hfailed⟩ := h
    constructor <;> first | assumption | grind -linarith

/-- The failure a caller is about to return. -/
@[grind] def CallPc.failure? : CallPc → Option CallFailure
  | .cancel f | .postCancel f | .abandonCancel f _ | .returned (.failed f) => some f
  | _ => none

/-- The caller gives up for the reason `e`. -/
@[grind] def CallPc.exit? : CallPc → Option Exit
  | .removePending e | .classify e => some e
  | _ => none

/-- The writer has not decided to write the request frame. -/
@[grind] def Stage.undecided : Stage → Bool
  | .lookup | .refuse | .check | .fail _ | .report (some _) => true
  | _ => false

/-- The request frame is not written and will not be: its context has ended before the writer looked at
it, or it can no longer reach the writer. -/
@[grind] def RequestView.withheld (v : RequestView) : Prop :=
  v.frames = [] ∧ (∀ st, v.hand = some (false, st) → st.undecided = true) ∧
    ((∃ c, v.call = some c ∧ c.expired = true) ∨ v.queued = 0 ∧ v.hand = none ∧ v.stopped = true)

/-- A caller gives up for the reason it has noted. -/
structure Noted (v : RequestView) : Prop where
  expired : ∀ c, v.call = some c → c.pc.exit? = some .timeout → c.expired = true
  failed : ∀ c, v.call = some c → c.pc.exit? = some .writeTimeout ∨ c.pc.exit? = some .writeError →
    ∃ e, c.writeResult = some (some e)
  done : ∀ c, v.call = some c → c.pc.exit? = some .done → v.done = true

theorem Noted.step (h : Noted v) (hs : ViewStep v w) : Noted w := by
  obtain ⟨hexpired, hfailed, hdone⟩ := h
  cases hs with
  | idle => exact ⟨hexpired, hfailed, hdone⟩
  | move hcall hm => cases hm <;> constructor <;> first | assumption | grind -linarith
  | _ => constructor <;> first | assumption | grind -linarith

/-- A caller that fails with the outcome `not_started` has its request frame withheld. -/
def Justified (v : RequestView) : Prop :=
  ∀ c f, v.call = some c → c.pc.failure? = some f → f.failure.outcome = .notStarted → v.withheld

theorem unsent_queued (h : Ordered v) (hu : unsent v.entry = true) : ∃ e, v.entry = some e ∧ e.phase = .queued := by
  cases hentry : v.entry with
  | none => simp [unsent, hentry] at hu
  | some e =>
    refine ⟨e, rfl, ?_⟩
    have hlive := h.live e hentry
    simpa [unsent, hentry, hlive] using hu

theorem agentTimeoutFor_notStarted {st : Option RequestSendState}
    (h : (agentTimeoutFor st).failure.outcome = .notStarted) : unsent st = true := by
  by_contra hu
  simp [agentTimeoutFor, hu, agentTimeoutResult] at h

theorem agentOfflineFor_notStarted {st : Option RequestSendState}
    (h : (agentOfflineFor st).failure.outcome = .notStarted) : unsent st = true := by
  by_contra hu
  simp [agentOfflineFor, hu, CallFailure.withOutcome] at h

/-- While the send state is queued, no frame is written and the writer has not looked at the request. -/
theorem Ordered.undecided {e : RequestSendState} (h : Ordered v) (hentry : v.entry = some e)
    (hphase : e.phase = .queued) : v.frames = [] ∧ ∀ st, v.hand = some (false, st) → st.undecided = true := by
  refine ⟨h.unwritten e hentry hphase, fun st hst => ?_⟩
  have hallow := h.hand _ e hst hentry
  cases st with
  | report r => cases r <;> grind -linarith
  | _ => grind -linarith

/-- The writer does not come to write a withheld frame. -/
theorem RequestView.withheld.stage (h : v.withheld) (hhand : v.hand = some (control, st))
    (hm : StageMove v control st st') : RequestView.withheld { v with hand := some (control, st') } := by
  obtain ⟨hframes, hundecided, hwhy⟩ := h
  cases hm <;> refine ⟨?_, ?_, ?_⟩ <;> first | assumption | grind -linarith

/-- No frame of a request whose frame is withheld is about to be written. -/
theorem RequestView.withheld.not_written (h : v.withheld) (ho : Ordered v) (control : Bool) :
    v.hand ≠ some (control, .posted true) := by
  intro hhand
  cases control with
  | false => exact absurd (h.2.1 _ hhand) (by simp [Stage.undecided])
  | true =>
    refine ho.begun ?_ h.1
    have hone : handCancels v.hand = 1 := by rw [hhand]; rfl
    unfold RequestView.cancelling
    omega

/-- A withheld frame stays withheld. -/
theorem RequestView.withheld.step (h : v.withheld) (ho : Ordered v) (hcall : v.call = some c) (hpc : c.pc ≠ .enqueue)
    (hs : ViewStep v w) : w.withheld := by
  have hunwritten := h.not_written ho
  cases hs with
  | stage hh hm => exact h.stage hh hm
  | @runJob control hh | @runJobFail control _ hh => exact absurd hh (hunwritten control)
  | _ =>
    obtain ⟨hframes, hhand, hwhy⟩ := h
    refine ⟨?_, ?_, ?_⟩ <;> first | assumption | grind -linarith

/-- Where the failure of a caller comes from: it had it before, or it has just classified the send
state. -/
theorem ViewStep.failure {f : CallFailure} (hs : ViewStep v w) (hcall : w.call = some c)
    (hf : c.pc.failure? = some f) :
    ∃ c₀, v.call = some c₀ ∧ (c₀.pc.failure? = some f ∨
      ∃ e, c₀.pc = .classify e ∧ (f = agentTimeoutFor v.entry ∨ f = agentOfflineFor v.entry)) := by
  cases hs with
  | move h hm =>
    refine ⟨_, h, ?_⟩
    cases hm <;> grind -linarith
  | _ => grind -linarith

theorem Justified.classify {e : Exit} {entry : RequestSendState} (ho : Ordered v) (hc : Closed v) (hr : Reported v)
    (hn : Noted v) (hcall : v.call = some c) (hpc : c.pc = .classify e) (hentry : v.entry = some entry)
    (hphase : entry.phase = .queued) : v.withheld := by
  obtain ⟨hframes, hhand⟩ := ho.undecided hentry hphase
  have hexit : c.pc.exit? = some e := by rw [hpc]; rfl
  have hfailed : (∃ r, c.writeResult = some (some r)) → v.withheld := by
    rintro ⟨r, hw⟩
    have hstop : v.stopped = true := (hr.failed c r hcall hw).resolve_left (by simp [hentry])
    exact ⟨hframes, hhand, .inr ⟨hr.left c hcall (by simp [hw]), hc.released hstop, hstop⟩⟩
  cases e with
  | timeout => exact ⟨hframes, hhand, .inl ⟨c, hcall, hn.expired c hcall hexit⟩⟩
  | writeTimeout => exact hfailed (hn.failed c hcall (.inl hexit))
  | writeError => exact hfailed (hn.failed c hcall (.inr hexit))
  | done =>
    have hnone := hc.forgotten (hc.closed (.inl (hn.done c hcall hexit)))
    simp [hentry] at hnone

theorem Justified.step (h : Justified v) (ho : Ordered v) (hc : Closed v) (hr : Reported v) (hn : Noted v)
    (hs : ViewStep v w) : Justified w := by
  intro c f hcall hf hout
  obtain ⟨c₀, hcall₀, hfail | ⟨e, hpc, hfor⟩⟩ := hs.failure hcall hf
  · refine (h c₀ f hcall₀ hfail hout).step ho hcall₀ ?_ hs
    intro hpc
    simp [hpc, CallPc.failure?] at hfail
  · have hu : unsent v.entry = true := by
      obtain rfl | rfl := hfor
      · exact agentTimeoutFor_notStarted hout
      · exact agentOfflineFor_notStarted hout
    obtain ⟨entry, hentry, hphase⟩ := unsent_queued ho hu
    exact (Justified.classify ho hc hr hn hcall₀ hpc hentry hphase).step ho hcall₀ (by simp [hpc]) hs

end Onprest.Gateway
