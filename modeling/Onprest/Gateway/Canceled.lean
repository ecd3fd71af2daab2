import Onprest.Gateway.Settled

/-! Cancel frames of the plain request path: the agent is told to stop only what nobody waits for any more. -/

namespace Onprest.Gateway
open Lib Contract

/-- The failure of a caller whose time is over. -/
@[grind] def CallFailure.isTimeout (f : CallFailure) : Prop := f.status = 504 ∧ f.failure.code = "EXECUTION_TIMEOUT"

theorem isTimeout_agentTimeoutFor (st : Option RequestSendState) : (agentTimeoutFor st).isTimeout := by
  unfold agentTimeoutFor
  split <;> exact ⟨rfl, rfl⟩

/-- The failure a caller is about to return when it has asked for a cancel frame. -/
@[grind] def CallPc.canceling : CallPc → Option CallFailure
  | .cancel f | .postCancel f | .abandonCancel f _ => some f
  | _ => none

@[grind] def Call.timedOut (c : Call) : Prop := c.expired = true ∧ ∃ f, c.pc = .returned (.failed f) ∧ f.isTimeout

/-- A cancel frame of the request is to follow, waits, is in hand or was written. -/
@[grind] def RequestView.revoked (v : RequestView) : Bool :=
  v.entry.any (·.cancelAfterSend) || v.hand.any (fun x => x.1 || x.2 = .cancel || x.2 = .postCancel) ||
    0 < v.controls ||
    v.frames.any id

variable {v w : RequestView} {c : Call}

theorem ViewStep.timedOut (hs : ViewStep v w) (hcall : v.call = some c) (h : c.timedOut) :
    ∃ c', w.call = some c' ∧ c'.timedOut := by
  obtain ⟨hexpired, f, hpc, hf⟩ := h
  cases hs with
  | move hcall' hm => cases hm <;> grind
  | _ => grind

/-- Only a caller that returns from its cancellation asks for a cancel frame. -/
theorem ViewStep.revoked (hs : ViewStep v w) (h : w.revoked = true) :
    v.revoked = true ∨ ∃ c f, v.call = some c ∧ c.pc.canceling = some f ∧
      w.call = some { c with pc := .returned (.failed f) } := by
  cases hs with
  | stage hst hm => cases hm <;> grind
  | cancel hcall hpc =>
    cases he : v.entry with
    | none => grind
    | some e => cases hphase : e.phase <;> grind
  | _ => grind

/-- Only a caller whose time is over cancels. -/
def RequestView.timely (v : RequestView) : Prop :=
  ∀ c f, v.call = some c → c.pc.canceling = some f → c.expired = true ∧ f.isTimeout

/-- A cancel frame is one of a caller that has timed out. -/
structure Revoked (v : RequestView) : Prop where
  timely : v.timely
  timedOut : v.revoked = true → ∃ c, v.call = some c ∧ c.timedOut

theorem ViewStep.timely (hs : ViewStep v w) (hn : Noted v) (h : v.timely) : w.timely := by
  unfold RequestView.timely at *
  have hexpired := hn.expired
  have htimeout := isTimeout_agentTimeoutFor v.entry
  clear hn
  cases hs with
  | move hcall hm => cases hm <;> grind
  | _ => first | assumption | grind

theorem Revoked.step (h : Revoked v) (hn : Noted v) (hs : ViewStep v w) : Revoked w := by
  refine ⟨hs.timely hn h.timely, fun hw => ?_⟩
  obtain hv | ⟨c, f, hcall, hpc, hw⟩ := hs.revoked hw
  · obtain ⟨c, hcall, hc⟩ := h.timedOut hv
    exact hs.timedOut hcall hc
  · obtain ⟨hexpired, hf⟩ := h.timely c f hcall hpc
    exact ⟨_, hw, hexpired, f, rfl, hf⟩

theorem revoked_init (id : String) : Revoked (({} : AgentConn).view id) := by
  constructor <;> simp [AgentConn.view, RequestView.timely, RequestView.revoked, framesOf]

variable {s : AgentConn} {as : List ConnAction}

theorem AgentConn.run_revoked (hrun : AgentConn.machine.run {} as = some s) (id : String) :
    Settled (s.view id) ∧ Revoked (s.view id) :=
  Machine.run_invariant AgentConn.machine (I := fun s => Settled (s.view id) ∧ Revoked (s.view id))
    (fun _ _ _ h hstep => ⟨h.1.step (AgentConn.step_view hstep id),
      h.2.step h.1.noted (AgentConn.step_view hstep id)⟩)
    ⟨settled_init id, revoked_init id⟩ hrun

theorem AgentConn.timedOut_of_cancel {id : String} (hrun : AgentConn.machine.run {} as = some s)
    (hcancel : (⟨id, true⟩ : WireFrame) ∈ s.frames ∨ id ∈ s.control) : ∃ c, s.calls id = some c ∧ c.timedOut := by
  refine (AgentConn.run_revoked hrun id).2.timedOut ?_
  obtain hmem | hmem := hcancel
  · simp [RequestView.revoked, AgentConn.view, mem_framesOf hmem]
  · simp [RequestView.revoked, AgentConn.view, List.count_pos_iff.mpr hmem]

/-- A cancel frame is queued or written only for a caller whose context has ended and that has returned a timeout,
and written only behind the request frame. A caller that returned anything else, its response above all, is never
followed by a cancel frame. Posting the cancel frame and returning are one step of a caller, so that it has returned
means that it takes no further step. -/
theorem cancel_only_timed_out (hrun : AgentConn.machine.run {} as = some s) (id : String) :
    ((⟨id, true⟩ : WireFrame) ∈ s.frames ∨ id ∈ s.control → ∃ c, s.calls id = some c ∧ c.timedOut) ∧
    ((⟨id, true⟩ : WireFrame) ∈ s.frames → framesOf id s.frames = [false, true]) ∧
    ∀ c r, s.calls id = some c → c.pc = .returned r → (∀ f, r = .failed f → ¬ f.isTimeout) →
      ∀ bs t, AgentConn.machine.run s bs = some t → (⟨id, true⟩ : WireFrame) ∉ t.frames := by
  refine ⟨AgentConn.timedOut_of_cancel hrun, fun hmem => ?_, fun c r hcall hpc hr bs t ht hmem => ?_⟩
  · have hmem := mem_framesOf hmem
    have hshape := (AgentConn.run_revoked hrun id).1.ordered.shape
    change framesOf id s.frames = _ ∨ framesOf id s.frames = _ ∨ framesOf id s.frames = _ at hshape
    generalize framesOf id s.frames = frames at hmem hshape
    obtain rfl | rfl | rfl := hshape
    · cases hmem
    · cases hmem with | tail _ hmem => cases hmem
    · rfl
  · have hlater := AgentConn.machine.run_append.mpr ⟨s, hrun, ht⟩
    obtain ⟨c', hcall', -, f, hpc', hf⟩ := AgentConn.timedOut_of_cancel hlater (.inl hmem)
    obtain ⟨d, hd, hdpc⟩ := AgentConn.run_returned ⟨c, hcall, hpc⟩ ht
    rw [hd, Option.some.injEq] at hcall'
    subst hcall'
    rw [hdpc, CallPc.returned.injEq] at hpc'
    exact hr f hpc' hf

theorem cancel_only_timed_out_giveUp :
    ∃ s, AgentConn.machine.run {} (giveUp ++ windUp) = some s ∧ (⟨"a", true⟩ : WireFrame) ∈ s.frames ∧
      ∃ c, s.calls "a" = some c ∧ c.timedOut := by
  have hrun : (AgentConn.machine.run {} (giveUp ++ windUp)).map (·.frames) = some [⟨"a", false⟩, ⟨"a", true⟩] := by
    rfl
  obtain ⟨s, hs, hframes⟩ := Option.map_eq_some_iff.mp hrun
  have hmem : (⟨"a", true⟩ : WireFrame) ∈ s.frames := by simp [hframes]
  exact ⟨s, hs, hmem, (cancel_only_timed_out hs "a").1 (.inl hmem)⟩

end Onprest.Gateway
