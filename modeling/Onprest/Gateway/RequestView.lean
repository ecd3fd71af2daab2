import Onprest.Gateway.AgentConn
import Mathlib.Data.List.Count

/-! One request seen in isolation: the part of an agent connection that concerns a single request
identifier, and everything a step of the connection can do to it. -/

namespace Onprest.Gateway
open Lib Contract

/-- The state of a connection that concerns one request: how often it is pending, queued, queued for a
cancel frame and about to be delivered, what the writer does with it, and which of its frames were
written (`true` for a cancel frame). -/
structure RequestView where
  call : Option Call
  entry : Option RequestSendState
  pending : ℕ
  queued : ℕ
  controls : ℕ
  reading : ℕ
  hand : Option (Bool × Stage)
  frames : List Bool
  stopped : Bool
  closed : Bool
  closing : Bool
  done : Bool

def WriterPc.hand (w : WriterPc) (id : String) : Option (Bool × Stage) :=
  match w with
  | .busy id' control stage => if id' = id then some (control, stage) else none
  | _ => none

def WriterPc.hasStopped : WriterPc → Bool
  | .draining | .stopped => true
  | _ => false

def ReaderPc.reading (r : ReaderPc) (id : String) : ℕ :=
  match r with
  | .deliver id' => if id' = id then 1 else 0
  | .closing ids | .notify ids => ids.count id
  | _ => 0

/-- The reader has closed the connection and not yet said that it is done. -/
def ReaderPc.isClosing : ReaderPc → Bool
  | .closing _ => true
  | _ => false

def framesOf (id : String) (l : List WireFrame) : List Bool := (l.filter fun f => f.id = id).map (·.cancel)

def AgentConn.view (s : AgentConn) (id : String) : RequestView where
  call := s.calls id
  entry := s.sendStates id
  pending := s.pending.count id
  queued := s.send.count id
  controls := s.control.count id
  reading := s.reader.reading id
  hand := s.writer.hand id
  frames := framesOf id s.frames
  stopped := s.writer.hasStopped
  closed := s.closed
  closing := s.reader.isClosing
  done := s.done

/-- The steps of a caller that only move it on. -/
inductive CallMove (v : RequestView) (c : Call) : CallPc → Prop
  | seeDone (hpc : c.pc = .enqueue ∨ c.pc = .awaitWrite) (hdone : v.done = true) :
      CallMove v c (.removePending .done)
  | seeExpired (hpc : c.pc = .enqueue ∨ c.pc = .awaitWrite ∨ c.pc = .awaitResponse) (hexp : c.expired = true) :
      CallMove v c (.removePending .timeout)
  | seeWritten (hpc : c.pc = .awaitWrite) (hr : c.writeResult = some none) : CallMove v c .awaitResponse
  | seeTimeout (hpc : c.pc = .awaitWrite) (hr : c.writeResult = some (some .context)) :
      CallMove v c (.removePending .writeTimeout)
  | seeError (hpc : c.pc = .awaitWrite) (hr : c.writeResult = some (some .other)) :
      CallMove v c (.removePending .writeError)
  | timeout (hpc : c.pc = .classify .timeout) : CallMove v c (.cancel (agentTimeoutFor v.entry))
  | writeTimeout (hpc : c.pc = .classify .writeTimeout) :
      CallMove v c (.returned (.failed (agentTimeoutFor v.entry)))
  | done (hpc : c.pc = .classify .done) : CallMove v c (.returned (.failed (agentOfflineFor v.entry)))
  | writeError (hpc : c.pc = .classify .writeError) :
      CallMove v c (.returned (.failed (agentOfflineFor v.entry)))
  | abandon {f : CallFailure} {close : Bool} (hpc : c.pc = .postCancel f) :
      CallMove v c (.abandonCancel f close)

/-- The steps of the writer that only move it on. -/
inductive StageMove (v : RequestView) (control : Bool) : Stage → Stage → Prop
  | refuse (h : ∀ st, v.entry = some st → st.phase = .canceled) : StageMove v control .lookup .refuse
  | post (h : control = false → ∀ c, v.call = some c → c.expired = false) : StageMove v control .check .post
  | posted : StageMove v control .post (.posted false)
  | checked : StageMove v control (.posted false) (.posted true)
  | checkFail : StageMove v control .check (.fail .context)
  | postFail (e : WriteErr) : StageMove v control .post (.fail e)
  | jobFail (e : WriteErr) : StageMove v control (.posted false) (.fail e)
  | abandon (close : Bool) : StageMove v control .postCancel (.abandonCancel close)

/-- Everything a step of the connection can do to a request. -/
inductive ViewStep (v : RequestView) : RequestView → Prop
  | idle : ViewStep v v
  | stop (hhand : v.hand = none) : ViewStep v { v with stopped := true }
  | disconnect :
      ViewStep v { v with
        closed := true, closing := true, pending := 0, entry := none, reading := v.reading + v.pending }
  | closeDone (hclosing : v.closing = true) : ViewStep v { v with done := true, closing := false }
  | refused (hcall : v.call = none) : ViewStep v { v with call := some { pc := .returned .refused } }
  | register (hcall : v.call = none) (hclosed : v.closed = false) :
      ViewStep v { v with call := some {}, entry := some {}, pending := v.pending + 1 }
  | expire {c : Call} (hcall : v.call = some c) : ViewStep v { v with call := some { c with expired := true } }
  | enqueue {c : Call} (hcall : v.call = some c) (hpc : c.pc = .enqueue) :
      ViewStep v { v with call := some { c with pc := .awaitWrite }, queued := v.queued + 1 }
  | move {c : Call} {pc : CallPc} (hcall : v.call = some c) (hm : CallMove v c pc) :
      ViewStep v { v with call := some { c with pc } }
  | seeResponse {c : Call} (hcall : v.call = some c) (hpc : c.pc = .awaitResponse) :
      ViewStep v { v with call := some { c with pc := .settle, inbox := false } }
  | removePending {c : Call} {e : Exit} (hcall : v.call = some c) (hpc : c.pc = .removePending e) :
      ViewStep v { v with call := some { c with pc := .classify e }, pending := v.pending - 1 }
  | cancel {c : Call} {f : CallFailure} (hcall : v.call = some c) (hpc : c.pc = .cancel f) :
      ViewStep v { v with
        entry := (AgentConn.requestAgentCancel v.entry).1
        call := some { c with
          pc := if (AgentConn.requestAgentCancel v.entry).2 then .postCancel f else .returned (.failed f) } }
  | queueCancel {c : Call} {f : CallFailure} (hcall : v.call = some c) (hpc : c.pc = .postCancel f) :
      ViewStep v { v with call := some { c with pc := .returned (.failed f) }, controls := v.controls + 1 }
  | abandonCancel {c : Call} {f : CallFailure} {close : Bool} (hcall : v.call = some c)
      (hpc : c.pc = .abandonCancel f close) :
      ViewStep v { v with call := some { c with pc := .returned (.failed f) }, entry := none }
  | settle {c : Call} (hcall : v.call = some c) (hpc : c.pc = .settle) :
      ViewStep v { v with call := some { c with pc := .returned .response }, entry := none }
  | takeControl (hhand : v.hand = none) (hstop : v.stopped = false) (hq : 0 < v.controls) :
      ViewStep v { v with hand := some (true, .check), controls := v.controls - 1 }
  | takeSend (hhand : v.hand = none) (hstop : v.stopped = false) (hq : 0 < v.queued) :
      ViewStep v { v with hand := some (false, .lookup), queued := v.queued - 1 }
  | stage {control : Bool} {st st' : Stage} (hhand : v.hand = some (control, st))
      (hm : StageMove v control st st') : ViewStep v { v with hand := some (control, st') }
  | lookup {control : Bool} {e : RequestSendState} (hhand : v.hand = some (control, .lookup))
      (hentry : v.entry = some e) (hphase : e.phase ≠ .canceled) :
      ViewStep v { v with hand := some (control, .check), entry := some { e with phase := .sending } }
  | refuse {control : Bool} {c : Call} (hhand : v.hand = some (control, .refuse)) (hcall : v.call = some c)
      (hr : c.writeResult = none) :
      ViewStep v { v with hand := none, call := some { c with writeResult := some (some .context) } }
  | runJob {control : Bool} (hhand : v.hand = some (control, .posted true)) :
      ViewStep v { v with hand := some (control, .report none), frames := v.frames ++ [control] }
  | runJobFail {control : Bool} {e : WriteErr} (hhand : v.hand = some (control, .posted true)) :
      ViewStep v { v with hand := some (control, .fail e), frames := v.frames ++ [control] }
  | fail {control : Bool} {e : WriteErr} (hhand : v.hand = some (control, .fail e)) :
      ViewStep v { v with hand := some (control, .report (some e)), entry := none }
  | reportCancel (hhand : v.hand = some (true, .report none)) :
      ViewStep v { v with hand := some (true, .finish) }
  | reportCancelFail {e : WriteErr} (hhand : v.hand = some (true, .report (some e))) :
      ViewStep v { v with hand := none, stopped := true }
  | report {c : Call} (hhand : v.hand = some (false, .report none)) (hcall : v.call = some c)
      (hr : c.writeResult = none) :
      ViewStep v { v with hand := some (false, .mark), call := some { c with writeResult := some none } }
  | reportFail {c : Call} {e : WriteErr} {stop : Bool} (hhand : v.hand = some (false, .report (some e)))
      (hcall : v.call = some c) (hr : c.writeResult = none) :
      ViewStep v { v with
        hand := none, stopped := v.stopped || stop, call := some { c with writeResult := some (some e) } }
  | finish {control : Bool} (hhand : v.hand = some (control, .finish)) :
      ViewStep v { v with hand := none, entry := none }
  | markNone {control : Bool} (hhand : v.hand = some (control, .mark)) (hentry : v.entry = none) :
      ViewStep v { v with hand := none }
  | mark {control : Bool} {e : RequestSendState} (hhand : v.hand = some (control, .mark))
      (hentry : v.entry = some e) :
      ViewStep v { v with
        hand := if e.cancelAfterSend then some (control, .cancel) else none
        entry := some { e with phase := .sent } }
  | writerCancel {control : Bool} (hhand : v.hand = some (control, .cancel)) :
      ViewStep v { v with
        entry := (AgentConn.requestAgentCancel v.entry).1
        hand := if (AgentConn.requestAgentCancel v.entry).2 then some (control, .postCancel) else none }
  | writerQueueCancel {control : Bool} (hhand : v.hand = some (control, .postCancel)) :
      ViewStep v { v with hand := none, controls := v.controls + 1 }
  | writerAbandon {control close : Bool} (hhand : v.hand = some (control, .abandonCancel close)) :
      ViewStep v { v with hand := none, entry := none }
  | drainSend {c : Call} (hstop : v.stopped = true) (hq : 0 < v.queued) (hcall : v.call = some c)
      (hr : c.writeResult = none) :
      ViewStep v { v with
        queued := v.queued - 1, call := some { c with writeResult := some (some .context) } }
  | drainControl (hstop : v.stopped = true) (hq : 0 < v.controls) :
      ViewStep v { v with controls := v.controls - 1 }
  | respond (hq : 0 < v.pending) :
      ViewStep v { v with entry := none, pending := v.pending - 1, reading := v.reading + 1 }
  | respondLate (hq : v.pending = 0) : ViewStep v { v with entry := none }
  | deliver {c : Call} (hq : 0 < v.reading) (hcall : v.call = some c) :
      ViewStep v { v with
        reading := v.reading - 1, call := some { c with inbox := true, received := c.received + 1 } }

attribute [simp] WriterPc.hand WriterPc.hasStopped

variable {v w : RequestView}

theorem ViewStep.of_eq {w' : RequestView} (h : ViewStep v w) (e : w' = w) : ViewStep v w' := e ▸ h

theorem ViewStep.of_some {t s' : AgentConn} {i : String} (hs : some t = some s') (h : ViewStep v w)
    (e : t.view i = w) :
    ViewStep v (s'.view i) := by
  cases hs
  exact .of_eq h e

namespace AgentConn
variable {s s' : AgentConn} {id i : String} {c : Call}

attribute [local simp] view setCall setState goto finishSendState abandonCancel afterReport framesOf
  ReaderPc.reading ReaderPc.isClosing

theorem callStep_other {a : CallAction} (hi : i ≠ id) (hs : s.callStep id c a = some s') :
    s'.view i = s.view i := by
  have hni : ¬ id = i := fun h => hi h.symm
  cases a
  all_goals
    simp only [callStep] at hs
    repeat' split at hs
    all_goals first | cases hs; done | skip
    all_goals
      cases hs
      simp [hi, hni, List.count_append, List.count_erase_of_ne hi]

theorem callStep_view {a : CallAction} (hc : s.calls id = some c) (hs : s.callStep id c a = some s') :
    ViewStep (s.view id) (s'.view id) := by
  have hcall : (s.view id).call = some c := hc
  cases a with
  | expire =>
    exact .of_some hs (.expire hcall) (by simp)
  | enqueue =>
    simp only [callStep] at hs
    split at hs
    · rename_i h
      exact .of_some hs (.enqueue hcall h.1) (by simp)
    · cases hs
  | seeDone =>
    simp only [callStep] at hs
    split at hs
    · rename_i h
      exact .of_some hs (.move hcall (.seeDone h.1 h.2)) (by simp)
    · cases hs
  | seeExpired =>
    simp only [callStep] at hs
    split at hs
    · rename_i h
      exact .of_some hs (.move hcall (.seeExpired h.1 h.2)) (by simp)
    · cases hs
  | seeWrite =>
    simp only [callStep] at hs
    split at hs
    · exact .of_some hs (.move hcall (.seeWritten ‹_› ‹_›)) (by simp)
    · exact .of_some hs (.move hcall (.seeTimeout ‹_› ‹_›)) (by simp)
    · exact .of_some hs (.move hcall (.seeError ‹_› ‹_›)) (by simp)
    · cases hs
  | seeResponse =>
    simp only [callStep] at hs
    split at hs
    · rename_i h
      exact .of_some hs (.seeResponse hcall h.1) (by simp)
    · cases hs
  | removePending =>
    simp only [callStep] at hs
    split at hs
    · exact .of_some hs (.removePending hcall ‹_›) (by simp [List.count_erase_self])
    · cases hs
  | classify =>
    simp only [callStep] at hs
    split at hs
    · exact .of_some hs (.move hcall (.timeout ‹_›)) (by simp)
    · exact .of_some hs (.move hcall (.writeTimeout ‹_›)) (by simp)
    · exact .of_some hs (.move hcall (.done ‹_›)) (by simp)
    · exact .of_some hs (.move hcall (.writeError ‹_›)) (by simp)
    · cases hs
  | cancel =>
    simp only [callStep] at hs
    split at hs
    · exact .of_some hs (.cancel hcall ‹_›) (by
        simp only [view, setCall, setState, Function.update_self]
        rfl)
    · cases hs
  | postCancel viaDone =>
    simp only [callStep] at hs
    split at hs
    · exact .of_some hs (.queueCancel hcall ‹_›) (by simp)
    · rename_i f close hpc _
      exact .of_some hs (.move hcall (@CallMove.abandon _ _ f close hpc)) (by simp)
    · cases hs
  | abandonCancel =>
    simp only [callStep] at hs
    split at hs
    · exact .of_some hs (.abandonCancel hcall ‹_›) (by simp)
    · cases hs
  | settle =>
    simp only [callStep] at hs
    split at hs
    · exact .of_some hs (.settle hcall ‹_›) (by simp)
    · cases hs

theorem register_view (hs : s.register id = some s') : ViewStep (s.view i) (s'.view i) := by
  unfold register at hs
  split at hs
  · cases hs
  rename_i hnone
  have hnone : s.calls id = none := by simpa using hnone
  split at hs
  · cases hs
    by_cases hi : i = id
    · subst hi
      exact .of_eq (.refused hnone) (by simp)
    · exact .of_eq .idle (by simp [hi])
  · rename_i hfree
    cases hs
    simp only [Bool.or_eq_true, not_or, Bool.not_eq_true] at hfree
    by_cases hi : i = id
    · subst hi
      exact .of_eq (.register hnone hfree.1.1.1) (by simp)
    · exact .of_eq .idle (by simp [hi, List.count_cons_of_ne (Ne.symm hi)])

theorem sendResult_eq {r : Option WriteErr} (hs : s.sendResult id r = some s') :
    ∃ c, s.calls id = some c ∧ c.writeResult = none ∧ s' = s.setCall id { c with writeResult := some r } := by
  unfold sendResult at hs
  split at hs
  · rename_i c hc
    split at hs
    · cases hs
      exact ⟨c, hc, ‹_›, rfl⟩
    · cases hs
  · cases hs

variable {a : WriterAction} {control : Bool} {stage : Stage}

theorem hand_self (hw : s.writer = .busy id control stage) : (s.view id).hand = some (control, stage) := by
  simp [hw]

theorem busyStep_view (hw : s.writer = .busy id control stage) (hs : s.busyStep id control stage a = some s') :
    ViewStep (s.view id) (s'.view id) := by
  have hhand := hand_self hw
  unfold busyStep at hs
  split at hs
  · split at hs
    · rename_i e he
      split at hs
      · rename_i hphase
        refine .of_some hs (.stage hhand (.refuse fun e' he' => ?_)) (by simp [hw])
        obtain rfl := Option.some.inj (he.symm.trans he')
        exact hphase
      · exact .of_some hs (.lookup hhand he ‹_›) (by simp [hw])
    · rename_i he
      refine .of_some hs (.stage hhand (.refuse fun e' he' => ?_)) (by simp [hw])
      exact absurd (he.symm.trans he') (by simp)
  · obtain ⟨t, ht, rfl⟩ := Option.map_eq_some_iff.mp hs
    obtain ⟨c, hc, hr, rfl⟩ := sendResult_eq ht
    exact .of_eq (.refuse hhand hc hr) (by simp [hw])
  · rename_i expired
    split at hs
    · rename_i hctx
      cases hs
      cases expired with
      | true => exact .of_eq (.stage hhand .checkFail) (by simp [hw])
      | false =>
        refine .of_eq (.stage hhand (.post fun hcontrol c hc => ?_)) (by simp [hw])
        have hc : s.calls id = some c := hc
        simpa [contextIs, hcontrol, hc] using hctx
    · cases hs
  · exact .of_some hs (.stage hhand .posted) (by simp [hw])
  · rename_i e
    exact .of_some hs (.stage hhand (.postFail e)) (by simp [hw])
  · rename_i e
    exact .of_some hs (.stage hhand (.jobFail e)) (by simp [hw])
  · rename_i expired
    split at hs
    · cases hs
      cases expired with
      | true => exact .of_eq (.stage hhand (.jobFail .context)) (by simp [hw])
      | false => exact .of_eq (.stage hhand .checked) (by simp [hw])
    · cases hs
  · rename_i e
    cases hs
    cases e with
    | none => exact .of_eq (.runJob hhand) (by simp [hw])
    | some e => exact .of_eq (@ViewStep.runJobFail _ _ e hhand) (by simp [hw])
  · exact .of_some hs (.fail hhand) (by simp [hw])
  · rename_i r
    cases control with
    | true =>
      cases hs
      cases r with
      | none => exact .of_eq (.reportCancel hhand) (by simp [hw])
      | some e => exact .of_eq (.reportCancelFail hhand) (by simp)
    | false =>
      obtain ⟨t, ht, rfl⟩ := Option.map_eq_some_iff.mp hs
      obtain ⟨c, hc, hr, rfl⟩ := sendResult_eq ht
      cases r with
      | none => exact .of_eq (.report hhand hc hr) (by simp [hw])
      | some e =>
        cases e with
        | context =>
          exact .of_eq (@ViewStep.reportFail _ _ _ false hhand hc hr)
            (by simp [hw])
        | other =>
          exact .of_eq (@ViewStep.reportFail _ _ _ true hhand hc hr) (by simp)
  · exact .of_some hs (.finish hhand) (by simp [hw])
  · split at hs
    · rename_i e he
      refine .of_some hs (.mark hhand he) ?_
      cases hafter : e.cancelAfterSend <;> simp [hw]
    · exact .of_some hs (.markNone hhand ‹_›) (by simp [hw])
  · refine .of_eq (.writerCancel hhand) ?_
    cases hcancel : requestAgentCancel (s.sendStates id) with
    | mk st posts =>
      have hentry : requestAgentCancel (s.view id).entry = (st, posts) := hcancel
      rw [hcancel] at hs
      cases hs
      rw [hentry]
      cases posts <;> simp [hw]
  · split at hs
    · exact .of_some hs (.writerQueueCancel hhand) (by simp [hw])
    · rename_i close _
      exact .of_some hs (.stage hhand (.abandon close)) (by simp [hw])
    · cases hs
  · exact .of_some hs (.writerAbandon hhand) (by simp [hw])
  · cases hs

/-- A write in the writer's hand does not concern other requests, except that the writer may stop. -/
theorem busyStep_other (hi : i ≠ id) (hw : s.writer = .busy id control stage)
    (hs : s.busyStep id control stage a = some s') : ViewStep (s.view i) (s'.view i) := by
  have hni : ¬id = i := fun h => hi h.symm
  have hreport : ∀ r, ViewStep (s.view i) ((s.afterReport id control r).view i) := by
    intro r
    unfold afterReport
    split
    · exact .of_eq .idle (by simp [hw, hni])
    · split
      · exact .of_eq .idle (by simp [hw, hni])
      · exact .of_eq (.stop (by simp [hw, hni])) (by simp [hw, hni])
  unfold busyStep at hs
  split at hs
  case h_10 r =>
    cases control with
    | true =>
      cases hs
      exact hreport r
    | false =>
      obtain ⟨t, ht, rfl⟩ := Option.map_eq_some_iff.mp hs
      obtain ⟨c, -, -, rfl⟩ := sendResult_eq ht
      refine .of_eq (hreport r) ?_
      cases r with
      | none => simp [hi]
      | some e => cases e <;> simp [hi]
  case h_2 =>
    obtain ⟨t, ht, rfl⟩ := Option.map_eq_some_iff.mp hs
    obtain ⟨c, -, -, rfl⟩ := sendResult_eq ht
    exact .of_eq .idle (by simp [hi, hw, hni])
  -- all other branches leave the writer idle or with the same request in hand
  all_goals
    repeat' split at hs
    all_goals first | cases hs; done | skip
    all_goals exact .of_some hs .idle (by simp [hi, hni, hw])

theorem writerStep_view (hs : s.writerStep a = some s') : ViewStep (s.view i) (s'.view i) := by
  unfold writerStep at hs
  split at hs
  · rename_i hw
    split at hs
    · rename_i id rest hq
      cases hs
      by_cases hi : i = id
      · subst hi
        exact .of_eq (.takeControl (by simp [hw]) (by simp [hw]) (by simp [hq]))
          (by simp [hw, hq])
      · have hni : ¬id = i := fun h => hi h.symm
        exact .of_eq .idle (by simp [hw, hq, hni])
    · cases hs
  · rename_i hw
    split at hs
    · rename_i id rest hq
      cases hs
      by_cases hi : i = id
      · subst hi
        exact .of_eq (.takeSend (by simp [hw]) (by simp [hw]) (by simp [hq]))
          (by simp [hw, hq])
      · have hni : ¬id = i := fun h => hi h.symm
        exact .of_eq .idle (by simp [hw, hq, hni])
    · cases hs
  · rename_i hw
    split at hs
    · exact .of_some hs (.stop (by simp [hw])) (by simp [hw])
    · cases hs
  · rename_i id control stage hw
    by_cases hi : i = id
    · subst hi
      exact busyStep_view hw hs
    · exact busyStep_other hi hw hs
  · rename_i hw
    split at hs
    · rename_i id rest hq
      obtain ⟨c, hc, hr, rfl⟩ := sendResult_eq hs
      by_cases hi : i = id
      · subst hi
        exact .of_eq (.drainSend (by simp [hw]) (by simp [hq]) hc hr) (by simp [hq])
      · have hni : ¬id = i := fun h => hi h.symm
        exact .of_eq .idle (by simp [hi, hq, hni])
    · cases hs
  · rename_i hw
    split at hs
    · rename_i id rest hq
      cases hs
      by_cases hi : i = id
      · subst hi
        exact .of_eq (.drainControl (by simp [hw]) (by simp [hq])) (by simp [hq])
      · have hni : ¬id = i := fun h => hi h.symm
        exact .of_eq .idle (by simp [hq, hni])
    · cases hs
  · rename_i hw
    split at hs
    · exact .of_some hs .idle (by simp [hw])
    · cases hs
  · cases hs

theorem deliverTo_eq (hs : s.deliverTo id = some s') :
    ∃ c, s.calls id = some c ∧
      s' = s.setCall id { c with inbox := true, received := c.received + 1 } := by
  unfold deliverTo at hs
  split at hs
  · rename_i c hc
    split at hs
    · cases hs
      exact ⟨c, hc, rfl⟩
    · cases hs
  · cases hs

theorem readerStep_view {a : ReaderAction} (hs : s.readerStep a = some s') :
    ViewStep (s.view i) (s'.view i) := by
  unfold readerStep at hs
  split at hs
  · rename_i id hr
    cases hs
    by_cases hi : i = id
    · subst hi
      by_cases hmem : i ∈ s.pending
      · exact .of_eq (.respond (List.count_pos_iff.mpr hmem))
          (by simp [hmem, hr])
      · exact .of_eq (.respondLate (List.count_eq_zero.mpr hmem))
          (by simp [hmem, hr, List.count_eq_zero.mpr hmem])
    · have hni : ¬id = i := fun h => hi h.symm
      refine .of_eq .idle ?_
      by_cases hmem : id ∈ s.pending <;>
        simp [hmem, hr, hi, hni, List.count_erase_of_ne hi]
  · rename_i id hr
    obtain ⟨t, ht, rfl⟩ := Option.map_eq_some_iff.mp hs
    obtain ⟨c, hc, rfl⟩ := deliverTo_eq ht
    by_cases hi : i = id
    · subst hi
      exact .of_eq (.deliver (by simp [hr]) hc)
        (by simp [hr])
    · have hni : ¬id = i := fun h => hi h.symm
      exact .of_eq .idle (by simp [hr, hi, hni])
  · rename_i hr
    exact .of_some hs .disconnect (by simp [hr])
  · rename_i ids hr
    exact .of_some hs (.closeDone (by simp [hr])) (by simp [hr])
  · rename_i id ids hr
    obtain ⟨t, ht, rfl⟩ := Option.map_eq_some_iff.mp hs
    obtain ⟨c, hc, rfl⟩ := deliverTo_eq ht
    by_cases hi : i = id
    · subst hi
      exact .of_eq (.deliver (by simp [hr]) hc)
        (by simp [hr])
    · have hni : ¬id = i := fun h => hi h.symm
      exact .of_eq .idle (by simp [hr, hi, hni])
  · rename_i hr
    exact .of_some hs .idle (by simp [hr])
  · cases hs

/-- Every step of the connection, seen from any request. -/
theorem step_view {a : ConnAction} (hs : s.step a = some s') (i : String) :
    ViewStep (s.view i) (s'.view i) := by
  cases a with
  | register id => exact register_view hs
  | call id a =>
    simp only [step] at hs
    split at hs
    · rename_i c hc
      by_cases hi : i = id
      · subst hi
        exact callStep_view hc hs
      · exact .of_eq .idle (callStep_other hi hs)
    · cases hs
  | writer a => exact writerStep_view hs
  | reader a => exact readerStep_view hs

end AgentConn
end Onprest.Gateway
