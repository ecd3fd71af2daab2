import Onprest.Ws.Scheduler

/-! What one step of the scheduler does to its lanes, and what every run keeps of them: the order list names the
transfers with a job, and jobs leave their lane in the order in which they were posted. -/

namespace Onprest.Ws.Scheduler
open Lib

/-! ### What a step does to the lanes -/

/-- The order list names the transfers with a job, each once, and no queue is kept empty. -/
structure Ordered (s : Sched) : Prop where
  nodup : s.order.Nodup
  mem : ∀ id, id ∈ s.order ↔ s.queue (.transfer id) ≠ []
  stored : ∀ id q, s.transfers.lookup id = some q → q ≠ []

/-- What every taking of a job leaves alone. -/
structure Frame (s t : Sched) (j : Job) : Prop where
  phase : t.phase = .took j
  history : t.history = .took j s.both :: s.history
  wake : t.wake = s.wake
  failed : t.failed = s.failed
  ctxDone : t.ctxDone = s.ctxDone
  next : t.next = s.next
  stored : ∀ id q, t.transfers.lookup id = some q → q ≠ []

/-- From which lane a job was taken, and what that does to the turns. -/
inductive Pick (s t : Sched) (j : Job) : Prop
  | control (taken : s.control = j :: t.control) (others : ∀ l, l ≠ .control → t.queue l = s.queue l)
      (order : t.order = s.order) (last : t.lastNormal = s.lastNormal)
  | normal (taken : s.normal = j :: t.normal) (others : ∀ l, l ≠ .normal → t.queue l = s.queue l)
      (turn : s.order = [] ∨ s.lastNormal = false) (order : t.order = s.order) (last : t.lastNormal = true)
  | transfer (id : String) (rest : List String)
      (taken : s.queue (.transfer id) = j :: t.queue (.transfer id))
      (others : ∀ l, l ≠ .transfer id → t.queue l = s.queue l) (turn : s.normal = [] ∨ s.lastNormal = true)
      (first : s.order = id :: rest)
      (order : t.order = if t.queue (.transfer id) = [] then rest else rest ++ [id]) (last : t.lastNormal = false)

namespace Sched

@[simp] theorem queue_answer (s : Sched) (j : Job) (a : Answer) (p : Phase) (l : Lane) :
    (s.answer j a p).queue l = s.queue l := by
  cases l <;> rfl

variable {s t : Sched}

theorem takeTransfer_cases (hs : Ordered s) (hcontrol : s.control = [])
    (hturn : s.normal = [] ∨ s.order ≠ [] ∧ s.lastNormal = true) (h : s.takeTransfer = some t) :
    t = s.sleep ∧ (∀ l, s.queue l = []) ∨ ∃ j, Frame s t j ∧ Pick s t j := by
  unfold takeTransfer at h
  cases horder : s.order with
  | nil =>
    rw [horder] at h
    cases h
    refine .inl ⟨rfl, ?_⟩
    have hnormal : s.normal = [] := by simpa [horder] using hturn
    intro l
    cases l with
    | control => exact hcontrol
    | normal => exact hnormal
    | transfer id =>
      by_contra hq
      have hmem := (hs.mem id).mpr hq
      rw [horder] at hmem
      cases hmem
  | cons id rest =>
    rw [horder] at h
    have hturn' : s.normal = [] ∨ s.lastNormal = true := hturn.imp_right And.right
    cases hq : s.queue (.transfer id) with
    | nil => simp [hq] at h
    | cons j q =>
      right
      refine ⟨j, ?_⟩
      cases q with
      | nil =>
        simp only [hq] at h
        cases h
        refine ⟨⟨rfl, rfl, rfl, rfl, rfl, rfl, ?_⟩, .transfer id rest ?_ ?_ hturn' horder ?_ rfl⟩
        · intro id' q hlookup
          dsimp only at hlookup
          rw [Table.lookup_erase_eq] at hlookup
          split at hlookup
          · cases hlookup
          · exact hs.stored id' q hlookup
        · simpa [queue] using hq
        · intro l hl
          cases l with
          | control => rfl
          | normal => rfl
          | transfer id' =>
            have hne : id' ≠ id := fun heq => hl (by rw [heq])
            simp [queue, hne]
        · simp [queue]
      | cons k q =>
        simp only [hq] at h
        cases h
        refine ⟨⟨rfl, rfl, rfl, rfl, rfl, rfl, ?_⟩, .transfer id rest ?_ ?_ hturn' horder ?_ rfl⟩
        · intro id' q' hlookup
          dsimp only at hlookup
          rw [Table.lookup_insert_eq] at hlookup
          split at hlookup
          · cases hlookup
            simp
          · exact hs.stored id' q' hlookup
        · simpa [queue] using hq
        · intro l hl
          cases l with
          | control => rfl
          | normal => rfl
          | transfer id' =>
            have hne : id' ≠ id := fun heq => hl (by rw [heq])
            simp [queue, hne]
        · simp [queue]

/-- `next` finds nothing to do, or takes a job from the front of a lane. -/
theorem takeNext_cases (hs : Ordered s) (h : s.takeNext = some t) :
    t = s.sleep ∧ (∀ l, s.queue l = []) ∨ ∃ j, Frame s t j ∧ Pick s t j := by
  unfold takeNext at h
  cases hcontrol : s.control with
  | cons j control =>
    rw [hcontrol] at h
    cases h
    refine .inr ⟨j, ⟨rfl, rfl, rfl, rfl, rfl, rfl, hs.stored⟩, .control hcontrol ?_ rfl rfl⟩
    intro l hl
    cases l with
    | control => exact absurd rfl hl
    | normal => rfl
    | transfer id => rfl
  | nil =>
    rw [hcontrol] at h
    dsimp only at h
    by_cases hturn : (s.order = [] || !s.lastNormal) = true
    · rw [if_pos hturn] at h
      cases hnormal : s.normal with
      | cons j normal =>
        rw [hnormal] at h
        cases h
        refine .inr ⟨j, ⟨rfl, rfl, rfl, rfl, rfl, rfl, hs.stored⟩, .normal hnormal ?_ (by simpa using hturn) rfl rfl⟩
        intro l hl
        cases l with
        | control => rfl
        | normal => exact absurd rfl hl
        | transfer id => rfl
      | nil =>
        rw [hnormal] at h
        exact takeTransfer_cases hs hcontrol (.inl hnormal) h
    · rw [if_neg hturn] at h
      exact takeTransfer_cases hs hcontrol (.inr (by simpa using hturn)) h

/-- The index expression of `next` never panics. -/
theorem takeNext_isSome (hs : Ordered s) : s.takeNext.isSome = true := by
  have htransfer : s.takeTransfer.isSome = true := by
    unfold takeTransfer
    cases horder : s.order with
    | nil => rfl
    | cons id rest =>
      cases hq : s.queue (.transfer id) with
      | nil =>
        have hmem : id ∈ s.order := by simp [horder]
        exact absurd hq ((hs.mem id).mp hmem)
      | cons j q => cases q <;> simp [hq]
  unfold takeNext
  cases s.control with
  | cons j control => rfl
  | nil =>
    dsimp only
    split
    · rfl
    · exact htransfer

end Sched

/-- A job was put at the end of its lane; a transfer that had none goes to the end of the order. -/
structure Posted (s t : Sched) (j : Job) : Prop where
  id : j.id = s.next
  admitted : s.failed = none ∧ s.ctxDone = false
  lane : t.queue j.lane = s.queue j.lane ++ [j]
  others : ∀ l, l ≠ j.lane → t.queue l = s.queue l
  order : t.order = s.order ∧ (∀ id, j.lane = .transfer id → s.queue j.lane ≠ []) ∨
    ∃ id, j.lane = .transfer id ∧ s.queue j.lane = [] ∧ t.order = s.order ++ [id]
  last : t.lastNormal = s.lastNormal
  phase : t.phase = s.phase
  wake : t.wake = true
  failed : t.failed = s.failed
  ctxDone : t.ctxDone = s.ctxDone
  next : t.next = s.next + 1
  history : t.history = .posted j :: s.history
  stored : (∀ id q, s.transfers.lookup id = some q → q ≠ []) → ∀ id q, t.transfers.lookup id = some q → q ≠ []

theorem Sched.post_cases (s : Sched) (priority : Bool) (transfer : String) :
    s.post priority transfer = s ∨ ∃ j, Posted s (s.post priority transfer) j := by
  unfold post
  split
  · exact .inl rfl
  · rename_i hopen
    have hopen : s.failed = none ∧ s.ctxDone = false := by simpa using hopen
    split
    · dsimp only
      split
      · exact .inl rfl
      · refine .inr ⟨⟨s.next, .control⟩, rfl, hopen, rfl, ?_, .inl ⟨rfl, nofun⟩, rfl, rfl, rfl,
          rfl, rfl, rfl, rfl, id⟩
        intro l hl
        cases l with
        | control => exact absurd rfl hl
        | normal => rfl
        | transfer id => rfl
    · split
      · dsimp only
        split
        · exact .inl rfl
        · refine .inr ⟨⟨s.next, .normal⟩, rfl, hopen, rfl, ?_, .inl ⟨rfl, nofun⟩, rfl, rfl, rfl,
            rfl, rfl, rfl, rfl, id⟩
          intro l hl
          cases l with
          | control => rfl
          | normal => exact absurd rfl hl
          | transfer id => rfl
      · dsimp only
        split
        · exact .inl rfl
        · refine .inr ⟨⟨s.next, .transfer transfer⟩, rfl, hopen, ?_, ?_, ?_, rfl, rfl, rfl, rfl, rfl, rfl, rfl, ?_⟩
          · simp [queue]
          · intro l hl
            cases l with
            | control => rfl
            | normal => rfl
            | transfer id =>
              have hne : id ≠ transfer := fun heq => hl (by rw [heq])
              simp [queue, hne]
          · by_cases hq : s.queue (.transfer transfer) = []
            · exact .inr ⟨transfer, rfl, hq, by simp [hq]⟩
            · exact .inl ⟨by simp [hq], fun _ _ => hq⟩
          · intro hstored id q hlookup
            dsimp only at hlookup
            rw [Table.lookup_insert_eq] at hlookup
            split at hlookup
            · cases hlookup
              simp
            · exact hstored id q hlookup

/-- What a step does. -/
inductive Effect (s : Sched) : Sched → Prop
  | refused : Effect s s
  | posted {t : Sched} {j : Job} (h : Posted s t j) : Effect s t
  | cancel : Effect s { s with ctxDone := true }
  | sleep (phase : s.phase = .looking) (empty : ∀ l, s.queue l = []) : Effect s s.sleep
  | took {t : Sched} {j : Job} (phase : s.phase = .looking) (frame : Frame s t j) (pick : Pick s t j) : Effect s t
  | check {j : Job} (jobEnded : Bool) (phase : s.phase = .took j) : Effect s (s.check j jobEnded)
  | finish {j : Job} (r : RunResult) (phase : s.phase = .running j) : Effect s (s.finish j r)
  | fail {e : ℕ} (phase : s.phase = .failing e) : Effect s { s with failed := some e, phase := .leaving }
  | wake (phase : s.phase = .idle) (token : s.wake = true) : Effect s { s with wake := false, phase := .looking }
  | quit (phase : s.phase = .idle) (ended : s.ctxDone = true) : Effect s { s with phase := .leaving }
  | drain {ids : List String} (phase : s.phase = .leaving) (keys : ids.Perm s.transfers.keys) :
      Effect s (s.drain ids)

variable {s t : Sched} {j : Job}

theorem effect_of_step {a : Act} (hs : Ordered s) (h : scheduler.step s a = some t) : Effect s t := by
  cases a with
  | post priority transfer =>
    cases h
    rcases s.post_cases priority transfer with heq | ⟨j, hj⟩
    · rw [heq]
      exact .refused
    · exact .posted hj
  | cancel =>
    cases h
    exact .cancel
  | next =>
    simp only [scheduler, Option.ite_none_right_eq_some] at h
    obtain ⟨hphase, h⟩ := h
    rcases Sched.takeNext_cases hs h with ⟨rfl, hempty⟩ | ⟨j, hframe, hpick⟩
    · exact .sleep hphase hempty
    · exact .took hphase hframe hpick
  | check jobEnded =>
    simp only [scheduler] at h
    split at h
    · cases h
      exact .check jobEnded ‹_›
    · cases h
  | finish r =>
    simp only [scheduler] at h
    split at h
    · cases h
      exact .finish r ‹_›
    · cases h
  | fail =>
    simp only [scheduler] at h
    split at h
    · cases h
      exact .fail ‹_›
    · cases h
  | wake =>
    simp only [scheduler, Option.ite_none_right_eq_some, Option.some.injEq] at h
    obtain ⟨⟨hphase, htoken⟩, rfl⟩ := h
    exact .wake hphase htoken
  | quit =>
    simp only [scheduler, Option.ite_none_right_eq_some, Option.some.injEq] at h
    obtain ⟨⟨hphase, hended⟩, rfl⟩ := h
    exact .quit hphase hended
  | drain ids =>
    simp only [scheduler, Option.ite_none_right_eq_some, Option.some.injEq] at h
    obtain ⟨⟨hphase, hkeys⟩, rfl⟩ := h
    exact .drain hphase hkeys

/-! ### Lanes and turns along a run -/

/-- The jobs posted to a lane, the newest first. -/
def postedOf (l : Lane) (history : List Event) : List Job :=
  history.filterMap fun
    | .posted j => if j.lane = l then some j else none
    | _ => none

/-- All jobs that were taken, the newest first. -/
def takenAll (history : List Event) : List Job :=
  history.filterMap fun
    | .took j _ => some j
    | _ => none

/-- All jobs that were run, the newest first. -/
def ranAll (history : List Event) : List Job :=
  history.filterMap fun
    | .ran j => some j
    | _ => none

def takenOf (l : Lane) (history : List Event) : List Job := (takenAll history).filter (·.lane = l)

def ranOf (l : Lane) (history : List Event) : List Job := (ranAll history).filter (·.lane = l)

/-- A step that neither posts nor takes a job leaves the lanes and the turns alone. -/
structure SameLanes (s t : Sched) : Prop where
  control : t.control = s.control
  normal : t.normal = s.normal
  transfers : t.transfers = s.transfers
  order : t.order = s.order
  last : t.lastNormal = s.lastNormal
  next : t.next = s.next
  done : s.phase = .done → t.phase = .done
  history : t.history = s.history ∨ ∃ e, t.history = e :: s.history ∧
    (∀ j, e ≠ .posted j) ∧ (∀ j both, e ≠ .took j both)

theorem SameLanes.queue (h : SameLanes s t) (l : Lane) : t.queue l = s.queue l := by
  cases l with
  | control => exact h.control
  | normal => exact h.normal
  | transfer id => simp only [Sched.queue, h.transfers]

theorem Effect.lanes (h : Effect s t) :
    (∃ j, Posted s t j) ∨ (∃ j, s.phase = .looking ∧ Frame s t j ∧ Pick s t j) ∨
      (∃ ids, s.phase = .leaving ∧ ids.Perm s.transfers.keys ∧ t = s.drain ids) ∨ SameLanes s t := by
  cases h with
  | posted h => exact .inl ⟨_, h⟩
  | took phase frame pick => exact .inr (.inl ⟨_, phase, frame, pick⟩)
  | @drain ids phase keys => exact .inr (.inr (.inl ⟨ids, phase, keys, rfl⟩))
  | @check j jobEnded phase =>
    refine .inr (.inr (.inr ?_))
    have hdone : ∀ p, s.phase = .done → p = Phase.done := fun p h => by simp [phase] at h
    unfold Sched.check
    split
    · exact ⟨rfl, rfl, rfl, rfl, rfl, rfl, hdone _, .inr ⟨_, rfl, nofun, nofun⟩⟩
    · split
      · exact ⟨rfl, rfl, rfl, rfl, rfl, rfl, hdone _, .inr ⟨_, rfl, nofun, nofun⟩⟩
      · exact ⟨rfl, rfl, rfl, rfl, rfl, rfl, hdone _, .inr ⟨_, rfl, nofun, nofun⟩⟩
  | @finish j r phase =>
    refine .inr (.inr (.inr ?_))
    have hdone : ∀ p, s.phase = .done → p = Phase.done := fun p h => by simp [phase] at h
    cases r <;> exact ⟨rfl, rfl, rfl, rfl, rfl, rfl, hdone _, .inr ⟨_, rfl, nofun, nofun⟩⟩
  | refused | cancel => exact .inr (.inr (.inr ⟨rfl, rfl, rfl, rfl, rfl, rfl, id, .inl rfl⟩))
  | sleep phase | fail phase | wake phase | quit phase =>
    exact .inr (.inr (.inr ⟨rfl, rfl, rfl, rfl, rfl, rfl, fun h => by simp [phase] at h, .inl rfl⟩))

theorem queue_drain (s : Sched) (ids : List String) (l : Lane) : (s.drain ids).queue l = [] := by
  cases l <;> rfl

theorem ordered_posted (hs : Ordered s) (h : Posted s t j) : Ordered t := by
  refine ⟨?_, ?_, h.stored hs.stored⟩
  · rcases h.order with ⟨horder, -⟩ | ⟨id, hlane, hempty, horder⟩
    · rw [horder]
      exact hs.nodup
    · rw [horder, List.nodup_append]
      refine ⟨hs.nodup, List.nodup_singleton _, ?_⟩
      intro a ha b hb
      rw [List.mem_singleton] at hb
      rintro rfl
      subst hb
      exact (hs.mem a).mp ha (hlane ▸ hempty)
  · intro id
    by_cases hid : j.lane = .transfer id
    · rw [← hid, h.lane]
      rcases h.order with ⟨horder, hne⟩ | ⟨id', hlane, -, horder⟩
      · rw [horder, hs.mem id, ← hid]
        simpa using hne id hid
      · obtain rfl : id = id' := by simpa [hlane] using hid.symm
        simp [horder]
    · rw [h.others _ (Ne.symm hid), ← hs.mem id]
      rcases h.order with ⟨horder, -⟩ | ⟨id', hlane, -, horder⟩
      · rw [horder]
      · have hne : id ≠ id' := fun heq => hid (heq ▸ hlane)
        simp [horder, hne]

theorem ordered_pick (hs : Ordered s) (hstored : ∀ id q, t.transfers.lookup id = some q → q ≠ []) (h : Pick s t j) :
    Ordered t := by
  cases h with
  | control taken others order last | normal taken others turn order last =>
    refine ⟨order ▸ hs.nodup, ?_, hstored⟩
    intro id
    rw [order, others _ (by simp), hs.mem]
  | transfer id rest taken others turn first order last =>
    have hnodup := hs.nodup
    rw [first, List.nodup_cons] at hnodup
    refine ⟨?_, ?_, hstored⟩
    · rw [order]
      split
      · exact hnodup.2
      · rw [List.nodup_append]
        refine ⟨hnodup.2, List.nodup_singleton _, ?_⟩
        intro a ha b hb
        rw [List.mem_singleton] at hb
        rintro rfl
        exact hnodup.1 (hb ▸ ha)
    · intro id'
      by_cases hid : id' = id
      · subst hid
        rw [order]
        split
        · simp [*]
        · simp [*]
      · have hother := hs.mem id'
        rw [first, List.mem_cons] at hother
        rw [others (.transfer id') (by simpa using hid), order]
        split <;> simpa [hid] using hother

theorem ordered_effect (hs : Ordered s) (h : Effect s t) : Ordered t := by
  rcases h.lanes with ⟨j, h⟩ | ⟨j, -, hframe, hpick⟩ | ⟨ids, -, -, rfl⟩ | h
  · exact ordered_posted hs h
  · exact ordered_pick hs hframe.stored hpick
  · exact ⟨List.nodup_nil, fun id => by rw [queue_drain]; simp [Sched.drain],
      fun id q h => by simp [Sched.drain] at h⟩
  · refine ⟨h.order ▸ hs.nodup, ?_, ?_⟩
    · intro id
      rw [h.order, h.queue, hs.mem]
    · rw [h.transfers]
      exact hs.stored

/-- Every state a run reaches has the invariant of the order list, and its steps have the effects listed above. -/
theorem run_effect {I : Sched → Prop} (hstep : ∀ s t, Ordered s → I s → Effect s t → I t) {as : List Act}
    (hs : Ordered s) (hi : I s) (hrun : scheduler.run s as = some t) : Ordered t ∧ I t := by
  refine scheduler.run_invariant (I := fun s => Ordered s ∧ I s) ?_ ⟨hs, hi⟩ hrun
  rintro s a t ⟨hs, hi⟩ hstep'
  have heffect := effect_of_step hs hstep'
  exact ⟨ordered_effect hs heffect, hstep s t hs hi heffect⟩

theorem ordered_start : Ordered {} := ⟨List.nodup_nil, fun id => by simp [Sched.queue], fun id q h => by simp at h⟩

/-- A job is taken from the front of one lane. -/
theorem Pick.lane (h : Pick s t j) : ∃ l, s.queue l = j :: t.queue l ∧ ∀ l', l' ≠ l → t.queue l' = s.queue l' := by
  cases h with
  | control taken others => exact ⟨.control, taken, others⟩
  | normal taken others => exact ⟨.normal, taken, others⟩
  | transfer id rest taken others => exact ⟨.transfer id, taken, others⟩

/-- Every job waits in its own lane. -/
def Sorted (s : Sched) : Prop := ∀ l, ∀ j ∈ s.queue l, j.lane = l

theorem Sorted.front (hs : Sorted s) {l : Lane} {q : List Job} (h : s.queue l = j :: q) : j.lane = l :=
  hs l j (h ▸ List.mem_cons_self)

theorem sorted_effect (hs : Sorted s) (h : Effect s t) : Sorted t := by
  intro l k hk
  rcases h.lanes with ⟨j, h⟩ | ⟨j, -, -, hpick⟩ | ⟨ids, -, -, rfl⟩ | h
  · by_cases hl : l = j.lane
    · subst hl
      rw [h.lane, List.mem_append, List.mem_singleton] at hk
      rcases hk with hk | rfl
      · exact hs _ k hk
      · rfl
    · exact hs l k (h.others l hl ▸ hk)
  · obtain ⟨l', hq, hothers⟩ := hpick.lane
    by_cases hl : l = l'
    · subst hl
      exact hs l k (hq ▸ List.mem_cons_of_mem _ hk)
    · exact hs l k (hothers l hl ▸ hk)
  · rw [queue_drain] at hk
    cases hk
  · exact hs l k (h.queue l ▸ hk)

/-- The lane of a job that was taken, and what is left of the lanes. -/
theorem Pick.own (hs : Sorted s) (h : Pick s t j) :
    s.queue j.lane = j :: t.queue j.lane ∧ ∀ l, l ≠ j.lane → t.queue l = s.queue l := by
  obtain ⟨l, hq, hothers⟩ := h.lane
  obtain rfl : j.lane = l := hs.front hq
  exact ⟨hq, hothers⟩

/-- The jobs posted to a lane are those taken from it, in the same order, and those that wait; after `Run` has
returned, those that waited then. -/
def Fifo (s : Sched) : Prop :=
  ∀ l, ∃ left, postedOf l s.history = left ++ takenOf l s.history ∧ (s.phase ≠ .done → left = (s.queue l).reverse)

theorem postedOf_answered (l : Lane) (js : List Job) (a : Answer) (history : List Event) :
    postedOf l ((js.map fun j => Event.answered j a).reverse ++ history) = postedOf l history := by
  rw [postedOf, List.filterMap_append, ← List.map_reverse, List.filterMap_map]
  simp [postedOf]

theorem takenAll_answered (js : List Job) (a : Answer) (history : List Event) :
    takenAll ((js.map fun j => Event.answered j a).reverse ++ history) = takenAll history := by
  rw [takenAll, List.filterMap_append, ← List.map_reverse, List.filterMap_map]
  simp [takenAll]

theorem fifo_effect (hsorted : Sorted s) (hs : Fifo s) (h : Effect s t) : Fifo t := by
  intro l
  obtain ⟨left, hposted, hleft⟩ := hs l
  rcases h.lanes with ⟨j, h⟩ | ⟨j, hphase, hframe, hpick⟩ | ⟨ids, hphase, -, rfl⟩ | h
  · rw [h.history, h.phase]
    by_cases hl : l = j.lane
    · subst hl
      refine ⟨j :: left, by simpa [postedOf, takenOf, takenAll] using hposted, ?_⟩
      intro hdone
      simp [h.lane, hleft hdone]
    · refine ⟨left, by simpa [postedOf, takenOf, takenAll, Ne.symm hl] using hposted, ?_⟩
      intro hdone
      rw [h.others l hl, hleft hdone]
  · have hleft := hleft (by simp [hphase])
    obtain ⟨hq, hothers⟩ := hpick.own hsorted
    rw [hframe.history]
    by_cases hl : l = j.lane
    · subst hl
      refine ⟨(t.queue j.lane).reverse, ?_, fun _ => rfl⟩
      rw [hleft, hq] at hposted
      simpa [postedOf, takenOf, takenAll] using hposted
    · refine ⟨left, by simpa [postedOf, takenOf, takenAll, Ne.symm hl] using hposted, ?_⟩
      intro _
      rw [hothers l hl, hleft]
  · refine ⟨left, ?_, fun h => absurd rfl h⟩
    simp only [Sched.drain]
    rw [postedOf_answered, takenOf, takenAll_answered]
    exact hposted
  · refine ⟨left, ?_, ?_⟩
    · rcases h.history with heq | ⟨e, heq, hposts, htakes⟩
      · rw [heq]
        exact hposted
      · rw [heq]
        cases e with
        | posted j => exact absurd rfl (hposts j)
        | took j both => exact absurd rfl (htakes j both)
        | ran j => exact hposted
        | answered j a => exact hposted
    · intro hdone
      rw [h.queue, hleft (fun hp => hdone (h.done hp))]

end Onprest.Ws.Scheduler
