import Onprest.Ws.Link.Basic

/-! Every step of the peers, projected to one transfer. -/

namespace Onprest.Ws
open Lib Protocol

/-- The jobs of a transfer carry frames of that transfer. -/
def Local.Tagged (l : Local) (id : String) : Prop := ∀ k j, l.jobs k = some j → j.frame.transferID = id

variable {l l' : Local} {id : String} {sha256 : List UInt8 → String} {t : Transfers} {a : Action} {out : List Output}
  {f : Frame}

theorem Local.Tagged.sub (h : l.Tagged id) (hsub : SubJobs l'.jobs l.jobs) : l'.Tagged id := by
  intro k j' hj'
  obtain ⟨j, hj, hframe, -⟩ := hsub k j' hj'
  rw [hframe]
  exact h k j hj

theorem Local.Tagged.step (h : l.Tagged id) (hs : LocalStep sha256 t a id l l' out) : l'.Tagged id := by
  cases hs with
  | move ha hu hfree =>
    rename_i v m u r jobs
    intro k j hj
    cases hjob : u.job with
    | none =>
      rw [hjob] at hj
      exact h k j hj
    | some i =>
      simp only [hjob, addJob, Function.update_apply] at hj
      split at hj
      · cases hj
        exact ((Transfers.move_moved sha256 hu).job hjob).2.2.1
      · exact h k j hj
  | check hj => exact h.sub (.check hj)
  | drop | run | runLate | grant | refuse => exact h.sub (.drop _ _)
  | idle => exact h
  | retire => exact h
  | cancel => exact h

theorem LocalHandled.jobs (h : LocalHandled f l l') : l'.jobs = l.jobs := by
  cases h <;> rfl

theorem Pruned.jobs (h : Pruned l l') : l'.jobs = l.jobs := by
  obtain rfl | rfl := h <;> rfl

/-- Nothing happens locally to a transfer the engine does not know. -/
theorem LocalStep.of_unknown (hs : LocalStep sha256 t a id ⟨none, none, fun _ => none⟩ l' out) :
    l' = ⟨none, none, fun _ => none⟩ ∧ out = [] := by
  cases hs with
  | idle => exact ⟨rfl, rfl⟩
  | drop hj => cases hj
  | check hj => cases hj
  | runLate hj => cases hj
  | refuse hj => cases hj

theorem LocalHandled.of_unknown (hs : LocalHandled f ⟨none, none, fun _ => none⟩ l') :
    l' = ⟨none, none, fun _ => none⟩ := by
  cases hs
  rfl

theorem Pruned.of_unknown (h : Pruned ⟨none, none, fun _ => none⟩ l') : l' = ⟨none, none, fun _ => none⟩ := by
  obtain rfl | rfl := h <;> rfl

theorem LinkStep.unopened {p : Peers} {a : PeerAction} {s : Side} {L L' : Link} (h : L.unopened)
    (hclosed : p.openings.lookup id = none) (hs : LinkStep sha256 p a id s L L') : L'.unopened := by
  obtain ⟨hrx, htx, hdata, hback, hoffers, hstray, hlog⟩ := h
  cases hs with
  | idle => exact ⟨hrx, htx, hdata, hback, hoffers, hstray, hlog⟩
  | prune hprx hptx =>
    rw [hrx] at hprx
    rw [htx] at hptx
    exact ⟨hprx.of_unknown, hptx.of_unknown, hdata, hback, hoffers, hstray, hlog⟩
  | rxLocal ha hl =>
    rw [hrx] at hl
    obtain ⟨rfl, rfl⟩ := hl.of_unknown
    exact ⟨rfl, htx, hdata, by simp [hback, Channel.write], hoffers, hstray, by simp [hlog, callbacks]⟩
  | txLocal ha hl =>
    rw [htx] at hl
    obtain ⟨rfl, rfl⟩ := hl.of_unknown
    exact ⟨hrx, rfl, by simp [hdata, Channel.write], hback, hoffers, hstray, hlog⟩
  | accept hopen => simp [hclosed] at hopen
  | start hf => simp [hoffers] at hf
  | startFailed hptx =>
    rw [htx] at hptx
    exact ⟨hrx, hptx.of_unknown, hdata, hback, by simp [hoffers], hstray, hlog⟩
  | cancelRx hr => simp [hrx] at hr
  | cancelTx hr => simp [htx] at hr
  | toRx hwire => simp [hdata] at hwire
  | toTx hwire | offer hwire => simp [hback] at hwire
  | stray h =>
    obtain h | ⟨f, hf, -⟩ := h
    · exact absurd hstray h
    · simp [hdata] at hf

namespace Transfers
variable {t t' : Transfers}

theorem tagged_iff : t.Tagged ↔ ∀ id, (t.view id).Tagged id := by
  constructor
  · intro h id k j hj
    obtain ⟨hj, hid⟩ := view_jobs_iff.mp hj
    rw [h k j hj, hid]
  · intro h k j hj
    exact h j.transfer k j (view_jobs hj rfl)

theorem Tagged.of_jobs (h : t.Tagged) (hjobs : ∀ id, (t'.view id).jobs = (t.view id).jobs) : t'.Tagged := by
  rw [tagged_iff] at h ⊢
  intro id k j hj
  exact h id k j (hjobs id ▸ hj)

theorem Tagged.handle (h : t.Tagged) (hacc : Accounting t) (hok : (t.handle f).2.isProtocol = false) :
    (t.handle f).1.Tagged := by
  refine h.of_jobs fun id => ?_
  by_cases hid : id = f.transferID
  · subst hid
    exact (handle_local hacc hok).jobs
  · rw [handle_other hacc hid]

theorem Tagged.add (h : t.Tagged) (ctx : Context) (request id : String) (sending : Bool) (pc : Pc)
    (source : List ReadResult) : (t.add ctx request id sending pc source).1.Tagged := by
  cases hadd : t.add ctx request id sending pc source with
  | mk u result =>
    refine h.of_jobs fun i => ?_
    cases result with
    | error e => exact (add_error hadd i).jobs
    | ok v =>
      obtain ⟨-, hview, hother⟩ := add_ok hadd
      by_cases hi : i = id
      · subst hi
        rw [hview]
      · exact (hother i hi).jobs

/-- A posted job, seen from its transfer and from the others. -/
theorem view_post (j : Job) : (t.post j).view j.transfer = (t.view j.transfer).post t.tickets j := by
  have hjobs := view_jobs_insert t t.tickets (j := j) rfl
  simp only [view, post, Local.post]
  rw [hjobs]
  rfl

variable {j : Job}

theorem view_post_other (hacc : Accounting t) {i : String} (hne : i ≠ j.transfer) :
    (t.post j).view i = t.view i := by
  have hjobs := view_jobs_insert_other hne.symm
    (fun i hi => absurd (hacc.ticket_free.symm.trans hi) (by simp))
  simp only [view, post]
  rw [hjobs]
  rfl

theorem Tagged.post (h : t.Tagged) (hj : j.frame.transferID = j.transfer) : (t.post j).Tagged := by
  intro k i hi
  simp only [Transfers.post, Table.lookup_insert_eq] at hi
  split at hi
  · cases hi
    exact hj
  · exact h k i hi

theorem Tagged.step (h : t.Tagged) (hacc : Accounting t)
    (ha : a.isLocal = true) (hs : t.step sha256 a = some (t', out)) : t'.Tagged := by
  rw [tagged_iff]
  intro id
  exact (tagged_iff.mp h id).step (step_local hacc h ha hs id)

end Transfers

namespace Peers
variable {sha256 : List UInt8 → String} {p p' : Peers}

variable {s : Side} {request id : String} {ctx : Transfers.Context} {a : PeerAction}

theorem Sound.setEngine (h : p.Sound) (hacc : Accounting t) (htag : t.Tagged) :
    (p.setEngine s t).Sound := by
  constructor
  · intro s'
    simp only [Peers.setEngine, Function.update_apply]
    split
    · exact hacc
    · exact h.accounting s'
  · intro s'
    simp only [Peers.setEngine, Function.update_apply]
    split
    · exact htag
    · exact h.tagged s'

theorem Sound.of_engine (h : p.Sound) (he : p'.engine = p.engine) : p'.Sound :=
  ⟨fun s => he ▸ h.accounting s, fun s => he ▸ h.tagged s⟩

theorem sound_init : ({} : Peers).Sound := ⟨fun _ => .init, fun _ _ _ hj => nomatch hj⟩

theorem Sound.reserveStep (h : p.Sound) (hs : p.reserveStep s request id ctx = some p') : p'.Sound := by
  have hacc : Accounting ((p.engine s).add ctx request id false (.starting false) []).1 :=
    (h.accounting s).add ctx request id [] (fun b hb => by cases hb; rfl) rfl rfl
  have htag := (h.tagged s).add ctx request id false (.starting false) []
  unfold Peers.reserveStep at hs
  split at hs
  · cases hs
  split at hs
  · rename_i t v hadd
    cases hs
    rw [hadd] at hacc htag
    exact (h.setEngine hacc htag).of_engine rfl
  · rename_i t e hadd
    cases hs
    rw [hadd] at hacc htag
    exact h.setEngine hacc htag

theorem Sound.startStep (h : p.Sound) {source : List ReadResult} {opened : Bool}
    (hs : p.startStep s id ctx source opened = some p') : p'.Sound := by
  have hacc : ∀ f : Frame, Accounting ((p.engine s).add ctx f.id id true
      (if opened then .reserve else .opening) source).1 := by
    intro f
    cases opened with
    | true | false => exact (h.accounting s).add ctx f.id id source (fun b hb => by cases hb; rfl) rfl rfl
  unfold Peers.startStep at hs
  split at hs
  · rename_i f o hf ho
    have hacc := hacc f
    have htag := (h.tagged s).add ctx f.id id true (if opened then .reserve else .opening) source
    dsimp only at hs
    split at hs
    · rename_i t v hadd
      cases hs
      rw [hadd] at hacc htag
      exact (h.setEngine hacc htag).of_engine rfl
    · rename_i t e hadd
      cases hs
      rw [hadd] at hacc htag
      exact (h.setEngine hacc htag).of_engine rfl
  · cases hs

theorem Sound.acceptStep (h : p.Sound) (hs : p.acceptStep s id = some p') : p'.Sound := by
  unfold Peers.acceptStep at hs
  split at hs
  · split at hs
    · cases hs
      exact h.setEngine ((h.accounting s).post_grant rfl) ((h.tagged s).post rfl)
    · cases hs
  · cases hs

theorem Sound.cancelFrameStep (h : p.Sound) (hs : p.cancelFrameStep s id = some p') : p'.Sound := by
  unfold Peers.cancelFrameStep at hs
  split at hs
  · cases hs
    exact h.of_engine rfl
  · cases hs

theorem Sound.deliverStep (h : p.Sound) (hs : p.deliverStep s = some p') : p'.Sound := by
  unfold Peers.deliverStep at hs
  split at hs
  · rename_i f rest hrej hwire
    split at hs
    · cases hs
      exact h.of_engine rfl
    · dsimp only at hs
      split at hs
      · cases hs
        exact h.of_engine rfl
      · rename_i hok
        cases hs
        rw [Bool.not_eq_true] at hok
        have hacc : (p.accepted s f rest).Sound := h.of_engine rfl
        exact hacc.setEngine ((h.accounting s).handle f).accounting
          ((h.tagged s).handle (h.accounting s) hok)
  · cases hs

theorem Sound.step (h : p.Sound) (hs : p.step sha256 a = some p') : p'.Sound := by
  cases a with
  | reserve s request id ctx => exact h.reserveStep hs
  | accept s id => exact h.acceptStep hs
  | start s id ctx source opened => exact h.startStep hs
  | act s b =>
    simp only [Peers.step] at hs
    split at hs
    · rename_i hb
      obtain ⟨⟨t, out⟩, hstep, rfl⟩ := Option.map_eq_some_iff.mp hs
      exact (h.setEngine ((h.accounting s).step sha256 hstep)
        ((h.tagged s).step (h.accounting s) hb hstep)).of_engine rfl
    · cases hs
  | cancelFrame s id => exact h.cancelFrameStep hs
  | deliver s => exact h.deliverStep hs

/-! ### The link after a step -/

section Link
variable {id : String} {o : Opening} {s : Side} {t : Transfers}

theorem link_setEngine_rx : (p.setEngine o.receiver t).link id o = { p.link id o with rx := t.view id } := by
  simp [link, Peers.setEngine, channel, Function.update_of_ne o.receiver.other_ne]

theorem link_setEngine_tx :
    (p.setEngine o.receiver.other t).link id o = { p.link id o with tx := t.view id } := by
  simp [link, Peers.setEngine, channel, Function.update_of_ne o.receiver.other_ne.symm]

theorem link_emit_rx (out : List Output) :
    (p.emit o.receiver out).link id o =
      { p.link id o with
        back := (p.link id o).back.write ((out.filter (Output.about id)).filterMap Output.frame?)
        log := (p.link id o).log ++ callbacks (out.filter (Output.about id)) } := by
  simp [link, emit, channel, Function.update_of_ne o.receiver.other_ne, Channel.write, framesOf_append,
    framesOf_outputs, callbacks, Bool.and_comm]

theorem link_emit_tx (out : List Output) :
    (p.emit o.receiver.other out).link id o =
      { p.link id o with
        data := (p.link id o).data.write ((out.filter (Output.about id)).filterMap Output.frame?) } := by
  simp [link, emit, channel, Function.update_of_ne o.receiver.other_ne.symm, Channel.write, framesOf_append,
    framesOf_outputs]

variable {f : Frame} {rest : List Frame} {i : String} {a : PeerAction} {ctx : Transfers.Context}

/-- The receiving side accepts a frame. -/
theorem link_accepted_rx :
    (p.accepted o.receiver f rest).link id o =
      { p.link id o with
        data := ⟨(p.link id o).data.handled ++ framesOf id [f], framesOf id rest⟩ } := by
  simp [link, accepted, channel, Function.update_of_ne o.receiver.other_ne.symm, framesOf_append]

/-- The sending side accepts a frame. -/
theorem link_accepted_tx :
    (p.accepted o.receiver.other f rest).link id o =
      { p.link id o with
        back := ⟨(p.link id o).back.handled ++ framesOf id [f], framesOf id rest⟩ } := by
  simp [link, accepted, channel, Function.update_of_ne o.receiver.other_ne, framesOf_append]

theorem act_link (h : p.Sound) {b : Action} (hb : b.isLocal = true)
    (hs : (p.engine s).step sha256 b = some (t, out)) :
    LinkStep sha256 p (.act s b) id o.receiver (p.link id o) (((p.setEngine s t).emit s out).link id o) := by
  have hlocal := Transfers.step_local (h.accounting s) (h.tagged s) hb hs id
  obtain rfl | rfl := s.eq_or_other o.receiver
  · rw [link_emit_rx, link_setEngine_rx]
    exact .rxLocal rfl hlocal
  · rw [link_emit_tx, link_setEngine_tx]
    exact .txLocal rfl hlocal

theorem cancelFrame_link (hs : p.cancelFrameStep s i = some p') :
    LinkStep sha256 p (.cancelFrame s i) id o.receiver (p.link id o) (p'.link id o) := by
  unfold Peers.cancelFrameStep at hs
  split at hs
  · rename_i r hr
    cases hs
    by_cases hi : i = id
    · subst hi
      obtain rfl | rfl := s.eq_or_other o.receiver
      · rw [link_emit_rx]
        have hout : ∀ g : Frame, g.transferID = i →
            [Output.frame g].filter (Output.about i) = [Output.frame g] := fun g hg => by
          simp [Output.about, hg]
        rw [hout _ rfl]
        simpa [callbacks, Output.frame?] using LinkStep.cancelRx (L := p.link i o) hr rfl
      · rw [link_emit_tx]
        have hout : ∀ g : Frame, g.transferID = i →
            [Output.frame g].filter (Output.about i) = [Output.frame g] := fun g hg => by
          simp [Output.about, hg]
        rw [hout _ rfl]
        exact .cancelTx hr rfl
    · have hout : ∀ g : Frame, g.transferID = i → [Output.frame g].filter (Output.about id) = [] :=
        fun g hg => by simp [Output.about, hg, hi]
      have hidle : LinkStep sha256 p (.cancelFrame s i) id o.receiver (p.link id o) (p.link id o) :=
        .idle _ (by rintro ⟨⟩)
      obtain rfl | rfl := s.eq_or_other o.receiver
      · rw [link_emit_rx, hout _ rfl]
        simpa [callbacks, Channel.write] using hidle
      · rw [link_emit_tx, hout _ rfl]
        simpa [Channel.write] using hidle
  · cases hs

theorem link_prune_rx (hp : Pruned ((p.engine o.receiver).view id) (t.view id)) (hquiet : p.concerns id a = false) :
    LinkStep sha256 p a id o.receiver (p.link id o) ((p.setEngine o.receiver t).link id o) := by
  rw [link_setEngine_rx]
  exact .prune hp (.inl rfl) hquiet

theorem link_prune_tx (hp : Pruned ((p.engine o.receiver.other).view id) (t.view id))
    (hquiet : p.concerns id a = false) :
    LinkStep sha256 p a id o.receiver (p.link id o) ((p.setEngine o.receiver.other t).link id o) := by
  rw [link_setEngine_tx]
  exact .prune (.inl rfl) hp hquiet

theorem link_prune (hp : Pruned ((p.engine s).view id) (t.view id)) {a : PeerAction}
    (hquiet : p.concerns id a = false) :
    LinkStep sha256 p a id o.receiver (p.link id o) ((p.setEngine s t).link id o) := by
  obtain rfl | rfl := s.eq_or_other o.receiver
  · exact link_prune_rx hp hquiet
  · exact link_prune_tx hp hquiet

/-- The opening the link of a transfer is taken with; any one, while the transfer is not opened. -/
def OpensAs (p : Peers) (id : String) (o : Opening) : Prop := ∀ o', p.openings.lookup id = some o' → o' = o

theorem accept_link (h : p.Sound) (ho : p.OpensAs id o) (hs : p.acceptStep s i = some p') :
    LinkStep sha256 p (.accept s i) id o.receiver (p.link id o) (p'.link id o) := by
  unfold Peers.acceptStep at hs
  split at hs
  · rename_i o' ho'
    split at hs
    · rename_i hc
      cases hs
      by_cases hi : id = i
      · subst hi
        obtain rfl := (ho _ ho').symm
        obtain ⟨rfl, hres⟩ := hc
        rw [link_setEngine_rx]
        have hview : ((p.engine o.receiver).post (grantJob o.receiver id o.request)).view id =
            ((p.engine o.receiver).view id).post (p.engine o.receiver).tickets
              (grantJob o.receiver id o.request) := Transfers.view_post (grantJob o.receiver id o.request)
        rw [hview]
        refine .accept (by simp [ho']) (Transfers.view_free (h.accounting _)) (fun v g hv hpc => ?_) rfl
        have hv : (p.engine o.receiver).live.lookup id = some v := hv
        simp [reserved, hv, hpc] at hres
      · exact link_prune (.inl (Transfers.view_post_other (h.accounting s) hi)) rfl
    · cases hs
  · cases hs

/-- Opening another transfer may end grace periods and does nothing else. -/
theorem reserve_link (hi : id ≠ i) (hs : p.reserveStep s request i ctx = some p') :
    p'.openings.lookup id = p.openings.lookup id ∧
      LinkStep sha256 p (.reserve s request i ctx) id o.receiver (p.link id o) (p'.link id o) := by
  unfold Peers.reserveStep at hs
  split at hs
  · cases hs
  split at hs
  · rename_i t v hadd
    cases hs
    refine ⟨by simp [AList.lookup_insert_ne hi], ?_⟩
    exact link_prune (p := p) (s := s) ((Transfers.add_ok hadd).2.2 id hi) rfl
  · rename_i t e hadd
    cases hs
    exact ⟨rfl, link_prune (Transfers.add_error hadd id) rfl⟩

theorem link_offers_rx (l : List Frame) :
    ({ p with offers := Function.update p.offers o.receiver l } : Peers).link id o =
      { p.link id o with stray := framesOf id l } := by
  simp [link, channel, Function.update_of_ne o.receiver.other_ne]

theorem link_offers_tx (l : List Frame) :
    ({ p with offers := Function.update p.offers o.receiver.other l } : Peers).link id o =
      { p.link id o with offers := framesOf id l } := by
  simp [link, channel, Function.update_of_ne o.receiver.other_ne.symm]

/-- The offers of other transfers do not concern this one. -/
theorem link_offers_other {l : List Frame} (hl : framesOf id l = framesOf id (p.offers s)) :
    ({ p with offers := Function.update p.offers s l } : Peers).link id o = p.link id o := by
  obtain rfl | rfl := s.eq_or_other o.receiver
  · rw [link_offers_rx, hl]
    rfl
  · rw [link_offers_tx, hl]
    rfl

theorem framesOf_erase (l : List Frame) (f : Frame) : framesOf id (l.erase f) = (framesOf id l).erase f :=
  List.erase_filter.symm

theorem framesOf_erase_other (hf : f.transferID ≠ id) (l : List Frame) :
    framesOf id (l.erase f) = framesOf id l := by
  rw [framesOf_erase, List.erase_of_not_mem]
  simp [framesOf, hf]

theorem started_link (p : Peers) (id : String) (o : Opening) (f : Frame) (t : Transfers)
    (source : List ReadResult) :
    (({ p with offers := Function.update p.offers o.receiver.other ((p.offers o.receiver.other).erase f) } :
      Peers).setEngine o.receiver.other t).link id { o with source := some source } =
      { p.link id o with
        offers := (p.link id o).offers.erase f, source := some source, tx := t.view id } := by
  simp [link, Peers.setEngine, channel, Function.update_of_ne o.receiver.other_ne.symm, framesOf_erase]

theorem OpensAs.map_eq (h : p.OpensAs id o) :
    p.openings.lookup id = (p.openings.lookup id).map fun _ => o := by
  cases hl : p.openings.lookup id with
  | none => rfl
  | some o' => rw [h o' hl, Option.map_some]

theorem start_link {source : List ReadResult} {opened : Bool} (ho : p.OpensAs id o)
    (hs : p.startStep s i ctx source opened = some p') :
    ∃ o', p'.openings.lookup id = (p.openings.lookup id).map (fun _ => o') ∧ o'.receiver = o.receiver ∧
      LinkStep sha256 p (.start s i ctx source opened) id o.receiver (p.link id o) (p'.link id o') := by
  unfold Peers.startStep at hs
  split at hs
  · rename_i f o' hfind ho'
    have hf : f.transferID = i := by simpa using List.find?_some hfind
    have hmem : f ∈ p.offers s := List.mem_of_find?_eq_some hfind
    dsimp only at hs
    by_cases hi : id = i
    · subst hi
      obtain rfl := (ho _ ho').symm
      rw [ho']
      have hframe : f ∈ framesOf id (p.offers s) := by simp [framesOf, hmem, hf]
      obtain rfl | rfl := s.eq_or_other o.receiver
      · have hstray : (p.link id o).stray ≠ [] := List.ne_nil_of_mem hframe
        split at hs
        · cases hs
          exact ⟨_, AList.lookup_insert _, rfl, .stray (.inl hstray)⟩
        · cases hs
          exact ⟨_, ho', rfl, .stray (.inl hstray)⟩
      · split at hs
        · rename_i t v hadd
          cases hs
          obtain ⟨⟨expiry, rfl⟩, hview, -⟩ := Transfers.add_ok hadd
          refine ⟨_, AList.lookup_insert _, rfl, ?_⟩
          have hlink := started_link p id o f t source
          rw [hview] at hlink
          exact hlink ▸ .start hframe rfl
        · rename_i t e hadd
          cases hs
          refine ⟨_, ho', rfl, ?_⟩
          rw [link_setEngine_tx, link_offers_tx, framesOf_erase]
          exact .startFailed (Transfers.add_error hadd id) rfl
    · have hne : f.transferID ≠ id := fun h => hi (h.symm.trans hf)
      have hsame : p.openings.lookup id = (p.openings.lookup id).map fun _ => o := ho.map_eq
      have hlink := link_offers_other (p := p) (o := o) (framesOf_erase_other hne (p.offers s))
      have hother : ∀ t : Transfers, Pruned ((p.engine s).view id) (t.view id) →
          LinkStep sha256 p (.start s i ctx source opened) id o.receiver (p.link id o)
            ((({ p with offers := Function.update p.offers s ((p.offers s).erase f) } : Peers).setEngine s
              t).link id o) := by
        intro t hp
        obtain rfl | rfl := s.eq_or_other o.receiver
        · rw [link_setEngine_rx, hlink]
          exact .prune hp (.inl rfl) rfl
        · rw [link_setEngine_tx, hlink]
          exact .prune (.inl rfl) hp rfl
      split at hs
      · rename_i t v hadd
        cases hs
        refine ⟨o, ?_, rfl, hother t ((Transfers.add_ok hadd).2.2 id hi)⟩
        rw [← hsame]
        exact AList.lookup_insert_ne hi
      · rename_i t e hadd
        cases hs
        exact ⟨o, hsame, rfl, hother t (Transfers.add_error hadd id)⟩
  · cases hs

theorem wire_self {r : Side} (hwire : p.wire r = f :: rest) (hf : f.transferID = id) :
    (p.channel r id).wire = f :: framesOf id rest := by
  simp only [channel, hwire]
  exact framesOf_self hf rest

theorem framesOf_accepted (hf : f.transferID = id) : framesOf id [f] = [f] := framesOf_self hf []

/-- A frame of another transfer is accepted. -/
theorem link_accepted_other (hwire : p.wire s.other = f :: rest) (hf : f.transferID ≠ id) :
    (p.accepted s f rest).link id o = p.link id o := by
  have hnil : framesOf id [f] = [] := framesOf_other hf []
  have hrest : framesOf id rest = framesOf id (p.wire s.other) := by rw [hwire, framesOf_other hf]
  obtain rfl | rfl := s.eq_or_other o.receiver
  · rw [link_accepted_rx, hnil, hrest, List.append_nil]
    rfl
  · rw [link_accepted_tx, hnil, hrest, List.append_nil, Side.other_other]
    rfl

theorem deliver_link (h : p.Sound) (hs : p.deliverStep s = some p') :
    LinkStep sha256 p (.deliver s) id o.receiver (p.link id o) (p'.link id o) := by
  unfold Peers.deliverStep at hs
  split at hs
  · rename_i f rest hrej hwire
    by_cases hf : f.transferID = id
    · split at hs
      · rename_i hgrant
        cases hs
        obtain rfl | rfl := s.eq_or_other o.receiver
        · exact .stray (.inr ⟨f, by simp [link, wire_self hwire hf], hf, hgrant⟩)
        · rw [Side.other_other] at hwire
          have hlink : ({ p.accepted o.receiver.other f rest with
              offers := Function.update p.offers o.receiver.other (f :: p.offers o.receiver.other) } :
              Peers).link id o =
              { p.link id o with
                back := (p.link id o).back.read f (framesOf id rest), offers := f :: (p.link id o).offers } := by
            have hoffers := @link_offers_tx (p.accepted o.receiver.other f rest) id o
              (f :: p.offers o.receiver.other)
            rw [link_accepted_tx, framesOf_accepted hf, framesOf_self hf] at hoffers
            exact hoffers
          exact hlink ▸ .offer (wire_self hwire hf) hf hgrant (by simp [concerns, hwire, hgrant])
      · rename_i hgrant
        dsimp only at hs
        split at hs
        · rename_i hbad
          cases hs
          exact .idle _ fun _ => by simp [rejects, hwire, hgrant, hbad]
        · rename_i hok
          rw [Bool.not_eq_true] at hok
          cases hs
          have hlocal := Transfers.handle_local (h.accounting s) hok
          rw [hf] at hlocal
          obtain rfl | rfl := s.eq_or_other o.receiver
          · rw [link_setEngine_rx, link_accepted_rx, framesOf_accepted hf]
            exact .toRx (wire_self hwire hf) hf hlocal
          · rw [Side.other_other] at hwire
            rw [link_setEngine_tx, link_accepted_tx, framesOf_accepted hf]
            exact .toTx (wire_self hwire hf) hf hlocal
    · have hlink := link_accepted_other (o := o) hwire hf
      have hidle : p.concerns id (.deliver s) = true → p.rejects (.deliver s) = true := by
        simp [concerns, hwire, hf]
      split at hs
      · cases hs
        have hoffers : framesOf id (f :: p.offers s) = framesOf id ((p.accepted s f rest).offers s) :=
          framesOf_other hf _
        have hsame := link_offers_other (o := o) hoffers
        rw [hlink] at hsame
        exact hsame ▸ .idle _ hidle
      · dsimp only at hs
        split at hs
        · cases hs
          exact .idle _ hidle
        · cases hs
          have hview := Transfers.handle_other (h.accounting s) (Ne.symm hf)
          obtain rfl | rfl := s.eq_or_other o.receiver
          · rw [link_setEngine_rx, hlink, hview]
            exact .idle _ hidle
          · rw [link_setEngine_tx, hlink, hview]
            exact .idle _ hidle
  · cases hs

/-- Every step of the peers, seen from a transfer it does not open. -/
theorem step_link (h : p.Sound) (ho : p.OpensAs id o)
    (hother : ∀ s request ctx, a = .reserve s request id ctx → (p.openings.lookup id).isSome = true)
    (hs : p.step sha256 a = some p') :
    ∃ o', p'.openings.lookup id = (p.openings.lookup id).map (fun _ => o') ∧ o'.receiver = o.receiver ∧
      LinkStep sha256 p a id o.receiver (p.link id o) (p'.link id o') := by
  have hsame : p'.openings = p.openings →
      p'.openings.lookup id = (p.openings.lookup id).map fun _ => o := fun he => by rw [he, ← ho.map_eq]
  cases a with
  | reserve s request i ctx =>
    by_cases hi : id = i
    · subst hi
      simp [Peers.step, Peers.reserveStep, hother s request ctx rfl] at hs
    · obtain ⟨ho', hlink⟩ := reserve_link hi hs
      exact ⟨o, by rw [ho', ← ho.map_eq], rfl, hlink⟩
  | accept s i =>
    refine ⟨o, hsame ?_, rfl, accept_link h ho hs⟩
    simp only [Peers.step, Peers.acceptStep] at hs
    split at hs
    · split at hs
      · cases hs
        rfl
      · cases hs
    · cases hs
  | start s i ctx source opened => exact start_link ho hs
  | act s b =>
    simp only [Peers.step] at hs
    split at hs
    · rename_i hb
      obtain ⟨⟨t, out⟩, hstep, rfl⟩ := Option.map_eq_some_iff.mp hs
      exact ⟨o, hsame rfl, rfl, act_link h hb hstep⟩
    · cases hs
  | cancelFrame s i =>
    refine ⟨o, hsame ?_, rfl, cancelFrame_link hs⟩
    simp only [Peers.step, Peers.cancelFrameStep] at hs
    split at hs
    · cases hs
      rfl
    · cases hs
  | deliver s =>
    refine ⟨o, hsame ?_, rfl, deliver_link h hs⟩
    simp only [Peers.step, Peers.deliverStep] at hs
    split at hs
    · split at hs
      · cases hs
        rfl
      · split at hs
        · cases hs
          rfl
        · cases hs
          rfl
    · cases hs

end Link

/-- The engines are sound, and nothing exists of a transfer that was never opened. -/
structure Base (p : Peers) : Prop extends p.Sound where
  unopened : ∀ id, p.openings.lookup id = none → ∀ o, (p.link id o).unopened

theorem Base.init : ({} : Peers).Base := ⟨sound_init, fun _ _ _ => ⟨rfl, rfl, rfl, rfl, rfl, rfl, rfl⟩⟩

/-- A transfer that was just opened for the first time. -/
def Opened (p : Peers) (id : String) (o : Opening) : Prop :=
  ∃ request v serial expiry,
    v = { serial, request, sending := false, expiry, pc := .starting false, source := [] } ∧
      p.link id o = .fresh request v

theorem Base.reserve_new (h : p.Base) (hclosed : p.openings.lookup id = none)
    (hs : p.reserveStep s request id ctx = some p') :
    (p'.openings.lookup id = none → ∀ o, (p'.link id o).unopened) ∧
      ∀ o, p'.openings.lookup id = some o → p'.Opened id o := by
  have hun := h.unopened id hclosed
  unfold Peers.reserveStep at hs
  split at hs
  · cases hs
  split at hs
  · rename_i t v hadd
    cases hs
    obtain ⟨⟨expiry, hv⟩, hview, -⟩ := Transfers.add_ok hadd
    refine ⟨fun hnone => ?_, fun o ho => ?_⟩
    · rw [AList.lookup_insert] at hnone
      cases hnone
    · rw [AList.lookup_insert] at ho
      cases ho
      obtain ⟨hrx, htx, hdata, hback, hoffers, hstray, hlog⟩ := hun ⟨s, request, none⟩
      have hjobs : ((p.engine s).view id).jobs = fun _ => none := congrArg Local.jobs hrx
      have hlink : ({ p.setEngine s t with openings := p.openings.insert id ⟨s, request, none⟩ } : Peers).link id
          ⟨s, request, none⟩ = { p.link id ⟨s, request, none⟩ with rx := t.view id } :=
        @link_setEngine_rx p id ⟨s, request, none⟩ t
      refine ⟨request, v, (p.engine s).serial, expiry, hv, ?_⟩
      rw [hlink, hview, hjobs]
      dsimp only
      rw [htx, hdata, hback, hoffers, hstray, hlog]
      rfl
  · rename_i t e hadd
    cases hs
    refine ⟨fun _ o => ?_, fun o ho => ?_⟩
    · exact (@link_prune (fun _ => "") p id o s t (Transfers.add_error hadd id) (.accept s id) rfl).unopened
        (hun o) hclosed
    · exact absurd (hclosed.symm.trans ho) (by simp)

/-- Every step of the peers, seen from any transfer: it opens the transfer, does not concern it yet, or
acts on it. -/
theorem Base.cases (h : p.Base) (hs : p.step sha256 a = some p') (id : String) :
    (p'.openings.lookup id = none → ∀ o, (p'.link id o).unopened) ∧
      ∀ o', p'.openings.lookup id = some o' → p'.Opened id o' ∨
        ∃ o, p.openings.lookup id = some o ∧ o'.receiver = o.receiver ∧
          LinkStep sha256 p a id o.receiver (p.link id o) (p'.link id o') := by
  by_cases hnew : ∃ s request ctx, a = .reserve s request id ctx ∧ p.openings.lookup id = none
  · obtain ⟨s, request, ctx, rfl, hclosed⟩ := hnew
    obtain ⟨hunopened, hopened⟩ := h.reserve_new hclosed hs
    exact ⟨hunopened, fun o ho => .inl (hopened o ho)⟩
  have hother : ∀ s request ctx, a = .reserve s request id ctx → (p.openings.lookup id).isSome = true := by
    intro s request ctx ha
    by_contra hnone
    exact hnew ⟨s, request, ctx, ha, by simpa using hnone⟩
  cases hlookup : p.openings.lookup id with
  | none =>
    have hun := h.unopened id hlookup
    have hstay : ∀ o, p'.openings.lookup id = none ∧ (p'.link id o).unopened := by
      intro o
      obtain ⟨o', ho', hrecv, hlink⟩ := step_link (o := o) h.toSound
        (fun o' ho' => absurd (hlookup.symm.trans ho') (by simp)) hother hs
      rw [hlookup] at ho'
      have hunopened := hlink.unopened (hun o) hlookup
      simp only [Link.unopened, Peers.link, hrecv] at hunopened ⊢
      exact ⟨ho', hunopened⟩
    refine ⟨fun _ o => (hstay o).2, fun o ho => ?_⟩
    exact absurd ((hstay o).1.symm.trans ho) (by simp)
  | some o =>
    obtain ⟨o', ho', hrecv, hlink⟩ := step_link (o := o) h.toSound
      (fun o' ho' => Option.some.inj (ho'.symm.trans hlookup)) hother hs
    rw [hlookup, Option.map_some] at ho'
    refine ⟨fun hnone => absurd (hnone.symm.trans ho') (by simp), fun o'' ho'' => .inr ?_⟩
    obtain rfl := Option.some.inj (ho'.symm.trans ho'')
    exact ⟨o, rfl, hrecv, hlink⟩

theorem Base.step (h : p.Base) (hs : p.step sha256 a = some p') : p'.Base :=
  ⟨h.toSound.step hs, fun id => (h.cases hs id).1⟩

end Peers
end Onprest.Ws
