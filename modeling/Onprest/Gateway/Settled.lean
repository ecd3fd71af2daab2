import Onprest.Gateway.NotStarted

/-! What holds of the plain request path along every run of an agent connection: the outcome
`not_started` is truthful, frames come in order, a caller is answered at most once, and no send state is
left behind while the writer runs. -/

namespace Onprest.Gateway
open Lib Contract

/-- Somebody still has to deal with the send state of a request. -/
structure Tended (v : RequestView) : Prop where
  queued : ∀ e, v.entry = some e → e.phase = .queued → e.cancelAfterSend = false
  sending : ∀ e, v.entry = some e → e.phase = .sending → v.hand ≠ none
  sent : ∀ e, v.entry = some e → e.phase = .sent → e.cancelAfterSend = true → v.hand ≠ none
  canceling : ∀ e, v.entry = some e → e.phase = .canceling → v.stopped = true ∨ v.hand ≠ none ∨ 0 < v.controls ∨
    ∃ c f, v.call = some c ∧ (c.pc = .postCancel f ∨ ∃ close, c.pc = .abandonCancel f close)

namespace Tended
variable {v w : RequestView} {c : Call}

theorem of_none (h : v.entry = none) : Tended v := by
  constructor <;> simp [h]

theorem move {pc : CallPc} (h : Tended v) (hcall : v.call = some c) (hm : CallMove v c pc) :
    Tended { v with call := some { c with pc } } := by
  obtain ⟨hqueued, hsending, hsent, hcanceling⟩ := h
  cases hm <;> constructor <;> first | assumption | grind -linarith

/-- A step that keeps the writer at work leaves the send state tended. -/
theorem setHand {x : Bool × Stage} {entry : Option RequestSendState}
    (hqueued : ∀ e, entry = some e → e.phase = .queued → e.cancelAfterSend = false) :
    Tended { v with hand := some x, entry } := by
  constructor <;> grind -linarith

theorem cancel {f : CallFailure} (h : Tended v) (ho : Ordered v) (hcall : v.call = some c) (hpc : c.pc = .cancel f) :
    Tended { v with
      entry := (AgentConn.requestAgentCancel v.entry).1
      call := some { c with
        pc := if (AgentConn.requestAgentCancel v.entry).2 then .postCancel f else .returned (.failed f) } } := by
  have hlive := ho.live
  obtain ⟨hqueued, hsending, hsent, hcanceling⟩ := h
  cases hentry : v.entry with
  | none => exact of_none rfl
  | some e =>
    obtain ⟨phase, late⟩ := e
    cases phase with
    | queued => exact of_none rfl
    | canceled => exact absurd rfl (hlive _ hentry)
    | _ =>
      simp only [AgentConn.requestAgentCancel, Bool.false_eq_true, ↓reduceIte]
      constructor <;> first | assumption | grind -linarith

theorem step (h : Tended v) (ho : Ordered v) (hs : ViewStep v w) : Tended w := by
  cases hs with
  | idle => exact h
  | register hcall _ | mark _ _ => constructor <;> grind -linarith
  | disconnect => exact of_none rfl
  | move hcall hm => exact h.move hcall hm
  | abandonCancel _ _ => exact of_none rfl
  | settle _ _ => exact of_none rfl
  | cancel hcall hpc => exact h.cancel ho hcall hpc
  | stage _ _ | reportCancel _ => exact setHand h.queued
  | lookup _ _ _ => exact setHand (by grind)
  | refuse hhand _ _ => exact of_none (ho.entry_none_of_refuse hhand)
  | runJob _ | runJobFail _ | report _ _ _ => constructor <;> first | exact h.queued | grind -linarith
  | fail _ => exact of_none rfl
  | reportCancelFail hhand =>
    have hcanceling : ∀ e, v.entry = some e → e.phase = .canceling := fun e => ho.hand _ e hhand
    constructor <;> grind -linarith
  | reportFail hhand _ _ => exact of_none (ho.entry_none_of_report hhand)
  | finish _ => exact of_none rfl
  | markNone _ hentry => exact of_none hentry
  | writerCancel hhand =>
    cases hentry : v.entry with
    | none => exact of_none rfl
    | some e =>
      obtain ⟨phase, late⟩ := e
      obtain ⟨rfl, rfl, rfl⟩ := ho.sent_of_cancel hhand hentry
      exact setHand (by grind)
  | writerQueueCancel hhand =>
    have hcanceling := fun e => ho.canceling_of_postCancel hhand (e := e)
    constructor <;> grind -linarith
  | writerAbandon _ => exact of_none rfl
  | respond _ => exact of_none rfl
  | respondLate _ => exact of_none rfl
  | _ =>
    have hfresh := ho.fresh
    obtain ⟨hqueued, hsending, hsent, hcanceling⟩ := h
    constructor <;> first | assumption | grind -linarith

end Tended

/-- The send state a returned caller leaves behind is marked for the writer, unless the writer has
stopped. -/
def Marked (v : RequestView) : Prop :=
  ∀ c r e, v.call = some c → c.pc = .returned r → v.entry = some e →
    v.stopped = true ∨ e.phase = .canceling ∨ e.cancelAfterSend = true

namespace Marked
variable {v w : RequestView} {c : Call}

theorem of_none (h : v.entry = none) : Marked v := by
  intro c r e _ _ hentry
  simp [h] at hentry

theorem move {pc : CallPc} (hc : Closed v) (hr : Reported v) (hn : Noted v) (hcall : v.call = some c)
    (hm : CallMove v c pc) : Marked { v with call := some { c with pc } } := by
  have hfailed := hr.failed c
  have hnoted := hn.failed c hcall
  rintro _ r e ⟨⟩ hpc hentry
  cases hm with
  | writeTimeout hpc₀ =>
    obtain ⟨err, hw⟩ := hnoted (.inl (by rw [hpc₀]; rfl))
    exact .inl ((hfailed err hcall hw).resolve_left (by simp_all))
  | writeError hpc₀ =>
    obtain ⟨err, hw⟩ := hnoted (.inr (by rw [hpc₀]; rfl))
    exact .inl ((hfailed err hcall hw).resolve_left (by simp_all))
  | done hpc₀ =>
    have hnone := hc.forgotten (hc.closed (.inl (hn.done c hcall (by rw [hpc₀]; rfl))))
    simp_all
  | _ => cases hpc

theorem cancel {f : CallFailure} (ho : Ordered v) :
    Marked { v with
      entry := (AgentConn.requestAgentCancel v.entry).1
      call := some { c with
        pc := if (AgentConn.requestAgentCancel v.entry).2 then .postCancel f else .returned (.failed f) } } := by
  have hlive := ho.live
  rintro _ r e ⟨⟩ hpc hentry
  cases hentry₀ : v.entry with
  | none => simp [hentry₀, AgentConn.requestAgentCancel] at hentry
  | some e₀ =>
    obtain ⟨phase, late⟩ := e₀
    cases phase <;> simp_all [AgentConn.requestAgentCancel] <;> grind -linarith

theorem step (h : Marked v) (ho : Ordered v) (hc : Closed v) (hr : Reported v) (hn : Noted v) (ht : Tended v)
    (hs : ViewStep v w) : Marked w := by
  cases hs with
  | idle => exact h
  | refused hcall => exact of_none (ho.fresh hcall).1
  | register hcall _ => rintro _ r e ⟨⟩ hpc; cases hpc
  | disconnect => exact of_none rfl
  | move hcall hm => exact move hc hr hn hcall hm
  | cancel _ _ => exact cancel ho
  | abandonCancel _ _ => exact of_none rfl
  | settle _ _ => exact of_none rfl
  | queueCancel hcall hpc =>
    rintro _ r e ⟨⟩ - hentry
    exact .inr (.inl (ho.posts _ _ e hcall hpc hentry))
  | lookup hhand hentry _ =>
    have hqueued := ht.queued _ hentry (ho.queued_of_lookup hhand hentry)
    have hphase := ho.queued_of_lookup hhand hentry
    have hreleased := hc.released
    grind [Marked]
  | mark hhand hentry =>
    have hphase := ho.sending_of_mark hhand hentry
    grind [Marked]
  | fail _ => exact of_none rfl
  | finish _ => exact of_none rfl
  | markNone _ hentry => exact of_none hentry
  | writerCancel hhand =>
    cases hentry : v.entry with
    | none => exact of_none rfl
    | some e =>
      obtain ⟨phase, late⟩ := e
      obtain ⟨rfl, rfl, rfl⟩ := ho.sent_of_cancel hhand hentry
      rintro _ r _ - - ⟨⟩
      exact .inr (.inl rfl)
  | writerAbandon _ => exact of_none rfl
  | respond _ => exact of_none rfl
  | respondLate _ => exact of_none rfl
  | _ => first | exact h | grind [Marked]

end Marked

variable {v : RequestView} {c : Call} {r : CallResult} {s t : AgentConn} {as : List ConnAction} {id : String}

/-- A caller that has returned stays as it is. -/
theorem ViewStep.returned {w : RequestView} (hs : ViewStep v w) (hcall : v.call = some c)
    (hpc : c.pc = .returned r) :
    ∃ c', w.call = some c' ∧ c'.pc = .returned r := by
  cases hs with
  | move hcall₀ hm => cases hm <;> grind -linarith
  | _ => grind -linarith

/-- What holds of every request of a connection that was reached from a new one. -/
structure Settled (v : RequestView) : Prop where
  ordered : Ordered v
  answered : Answered v
  closed : Closed v
  handed : Handed v
  reported : Reported v
  noted : Noted v
  justified : Justified v
  tended : Tended v
  marked : Marked v

theorem Settled.step {v w : RequestView} (h : Settled v) (hs : ViewStep v w) : Settled w where
  ordered := h.ordered.step hs
  answered := h.answered.step hs
  closed := h.closed.step hs
  handed := h.handed.step h.ordered hs
  reported := h.reported.step h.ordered h.closed h.handed hs
  noted := h.noted.step hs
  justified := h.justified.step h.ordered h.closed h.reported h.noted hs
  tended := h.tended.step h.ordered hs
  marked := h.marked.step h.ordered h.closed h.reported h.noted h.tended hs

/-- A new connection has no requests. -/
theorem settled_init (id : String) : Settled (({} : AgentConn).view id) := by
  refine ⟨?_, ?_, ?_, ?_, ?_, ?_, (fun _ _ h => nomatch h), ?_, (fun _ _ _ h => nomatch h)⟩ <;> constructor <;>
    simp [AgentConn.view, framesOf, RequestView.cancelling, handRequests, handCancels, posting, ReaderPc.reading,
      ReaderPc.isClosing]

theorem AgentConn.run_settled (hs : ∀ id, Settled (s.view id)) (hrun : AgentConn.machine.run s as = some t)
    (id : String) : Settled (t.view id) :=
  Machine.run_invariant AgentConn.machine (I := fun s => ∀ id, Settled (s.view id))
    (fun _ _ _ h hstep id => (h id).step (AgentConn.step_view hstep id)) hs hrun id

theorem AgentConn.run_returned (hs : ∃ c, s.calls id = some c ∧ c.pc = .returned r)
    (hrun : AgentConn.machine.run s as = some t) : ∃ c, t.calls id = some c ∧ c.pc = .returned r :=
  Machine.run_invariant AgentConn.machine (I := fun s => ∃ c, s.calls id = some c ∧ c.pc = .returned r)
    (fun _ _ _ ⟨_, hcall, hpc⟩ hstep => (AgentConn.step_view hstep id).returned hcall hpc) hs hrun

/-- With a response for a caller in its hand, the reader finds the channel of that caller empty. -/
theorem Settled.deliverTo (h : Settled (s.view id)) (hread : 0 < s.reader.reading id) :
    (s.deliverTo id).isSome = true := by
  cases hcall : s.calls id with
  | none => exact absurd (h.answered.fresh hcall).2 (Nat.pos_iff_ne_zero.mp hread)
  | some c =>
    have honce := h.answered.once c hcall
    have hinbox : c.inbox = false := by
      by_contra hfull
      have hone := h.answered.inbox c hcall (by simpa using hfull)
      simp only [AgentConn.view] at honce
      omega
    simp [AgentConn.deliverTo, hcall, hinbox]

/-- A send state that outlives its caller is in the hands of the writer or in its queue. -/
theorem Settled.cleared (h : Settled v) (hcall : v.call = some c) (hpc : c.pc = .returned r)
    (hstop : v.stopped = false) (hcontrols : v.controls = 0) (hhand : v.hand = none) : v.entry = none := by
  cases hentry : v.entry with
  | none => rfl
  | some e =>
    exfalso
    have hcanceling : e.phase ≠ .canceling := by
      intro hphase
      have htended := h.tended.canceling e hentry hphase
      grind -linarith
    have hlate : e.cancelAfterSend = true := by
      have hmarked := h.marked c r e hcall hpc hentry
      grind -linarith
    have hqueued := h.tended.queued e hentry
    have hsending := h.tended.sending e hentry
    have hsent := h.tended.sent e hentry
    have hlive := h.ordered.live e hentry
    cases hphase : e.phase <;> grind -linarith

theorem mem_framesOf {cancel : Bool} {l : List WireFrame} (h : ⟨id, cancel⟩ ∈ l) : cancel ∈ framesOf id l :=
  List.mem_map.mpr ⟨⟨id, cancel⟩, List.mem_filter.mpr ⟨h, by simp⟩, rfl⟩

/-- The plain request path keeps its word. A request whose caller reports `not_started` has no frame on
the connection, now or later; frames of a request are its request frame and then at most one cancel
frame; a caller is given at most one response and the reader never blocks on it; and the send state of a
returned caller is gone once the writer, still running, has no write of it left, or once the connection
is closed. -/
theorem request_path_truthful {as bs : List ConnAction} {s t : AgentConn}
    (hs : AgentConn.machine.run {} as = some s) (ht : AgentConn.machine.run s bs = some t) (id : String) :
    (∀ c f, s.calls id = some c → c.pc = .returned (.failed f) → f.failure.outcome = .notStarted →
        (⟨id, false⟩ : WireFrame) ∉ t.frames) ∧
      (framesOf id t.frames = [] ∨ framesOf id t.frames = [false] ∨ framesOf id t.frames = [false, true]) ∧
      (∀ c, t.calls id = some c → c.received ≤ 1) ∧
      (t.reader = .deliver id → (t.step (.reader .deliver)).isSome = true) ∧
      (∀ ids, t.reader = .notify (id :: ids) → (t.step (.reader .notify)).isSome = true) ∧
      (∀ c r, t.calls id = some c → c.pc = .returned r → t.writer.hasStopped = false → id ∉ t.send →
        id ∉ t.control → t.writer.hand id = none → t.sendStates id = none) ∧
      (t.closed = true → t.sendStates id = none) := by
  have hsettled : ∀ i, Settled (t.view i) :=
    AgentConn.run_settled (AgentConn.run_settled settled_init hs) ht
  have h := hsettled id
  refine ⟨?_, h.ordered.shape, ?_, ?_, ?_, ?_, h.closed.forgotten⟩
  · intro c f hcall hpc hout hmem
    obtain ⟨c', hcall', hpc'⟩ := AgentConn.run_returned ⟨c, hcall, hpc⟩ ht
    have hheld := h.justified c' f hcall' (by rw [hpc']; rfl) hout
    have hframe := mem_framesOf hmem
    rw [show framesOf id t.frames = [] from hheld.1] at hframe
    exact absurd hframe List.not_mem_nil
  · intro c hcall
    have honce := h.answered.once c hcall
    omega
  · intro hreader
    have hsome := h.deliverTo (by simp [hreader, ReaderPc.reading])
    simpa [AgentConn.step, AgentConn.readerStep, hreader] using hsome
  · intro ids hreader
    have hsome := h.deliverTo (by simp [hreader, ReaderPc.reading])
    simpa [AgentConn.step, AgentConn.readerStep, hreader] using hsome
  · intro c r hcall hpc hstop _ hcontrol hhand
    exact h.cleared hcall hpc hstop (List.count_eq_zero.mpr hcontrol) hhand

/-- Request `a` is given up while its frame is being written, request `b` while it is queued. -/
def giveUp : List ConnAction :=
  [.register "a", .register "b", .call "a" .enqueue, .call "b" .enqueue, .writer .takeSend, .writer .lookup,
    .writer (.check false), .writer (.post none), .writer (.checkJob false), .call "a" .expire,
    .call "a" .seeExpired, .call "a" .removePending, .call "a" .classify, .call "a" .cancel, .call "b" .expire,
    .call "b" .seeExpired, .call "b" .removePending, .call "b" .classify, .call "b" .cancel]

/-- The writer then writes the frame of `a` and its cancel frame, and refuses the write of `b`. -/
def windUp : List ConnAction :=
  [.writer (.runJob none), .writer .report, .writer .mark, .writer .cancel, .writer (.postCancel false),
    .writer .takeControl, .writer (.check false), .writer (.post none), .writer (.checkJob false),
    .writer (.runJob none), .writer .report, .writer .finish, .writer .takeSend, .writer .lookup, .writer .refuse]

theorem request_path_truthful_giveUp :
    ∃ s t, AgentConn.machine.run {} giveUp = some s ∧ AgentConn.machine.run s windUp = some t ∧
      t.frames = [⟨"a", false⟩, ⟨"a", true⟩] ∧ (⟨"b", false⟩ : WireFrame) ∉ t.frames ∧
      t.sendStates "a" = none ∧ t.sendStates "b" = none := by
  have hgive : ((AgentConn.machine.run {} giveUp).bind fun s => s.calls "b").map (·.pc) =
      some (.returned (.failed (agentTimeoutResult.withOutcome .notStarted))) := by decide +kernel
  have hrun : (AgentConn.machine.run {} (giveUp ++ windUp)).map
      (fun t => (t.frames, t.send, t.control, t.writer, (t.calls "a").map (·.pc), (t.calls "b").map (·.pc))) =
      some ([⟨"a", false⟩, ⟨"a", true⟩], [], [], .idle, some (.returned (.failed agentTimeoutResult)),
        some (.returned (.failed (agentTimeoutResult.withOutcome .notStarted)))) := by rfl
  obtain ⟨t, hst, hlast⟩ := Option.map_eq_some_iff.mp hrun
  obtain ⟨s, hs, ht⟩ := (AgentConn.machine.run_append).mp hst
  simp only [Prod.mk.injEq, Option.map_eq_some_iff] at hlast
  obtain ⟨hframes, hsend, hcontrol, hwriter, ⟨ca, hca, hpa⟩, ⟨cb, hcb, hpb⟩⟩ := hlast
  obtain ⟨c, hc, hpc⟩ := Option.map_eq_some_iff.mp hgive
  rw [hs, Option.bind_some] at hc
  have ha := request_path_truthful hs ht "a"
  have hb := request_path_truthful hs ht "b"
  refine ⟨s, t, hs, ht, hframes, hb.1 c _ hc hpc rfl, ?_, ?_⟩
  · exact ha.2.2.2.2.2.1 ca _ hca hpa (by rw [hwriter]; rfl) (by simp [hsend]) (by simp [hcontrol])
      (by simp [hwriter])
  · exact hb.2.2.2.2.2.1 cb _ hcb hpb (by rw [hwriter]; rfl) (by simp [hsend]) (by simp [hcontrol])
      (by simp [hwriter])

/-- The write of `a` fails, and the stopping writer answers the queued write of `b`. -/
def failedWrite : List ConnAction :=
  [.register "a", .register "b", .call "a" .enqueue, .call "b" .enqueue, .writer .takeSend, .writer .lookup,
    .writer (.check false), .writer (.post none), .writer (.checkJob false), .writer (.runJob (some .other)),
    .writer .fail, .writer .report, .writer .drainSend, .writer .stop, .call "b" .seeWrite,
    .call "b" .removePending, .call "b" .classify]

/-- A stopped writer leaves the send state of a returned caller behind. -/
theorem failedWrite_leaves_state :
    ((AgentConn.machine.run {} failedWrite).map fun t =>
        (t.send, t.control, t.writer, (t.calls "b").map (·.pc), t.sendStates "b")) =
      some ([], [], .stopped, some (.returned (.failed (agentTimeoutResult.withOutcome .notStarted))),
        some ⟨.queued, false⟩) := by
  rfl

end Onprest.Gateway
