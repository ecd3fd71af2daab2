import Onprest.Ws.Scheduler.Lanes

/-! Every job that was posted is answered once, and it runs at most once and not after its answer. -/

namespace Onprest.Ws.Scheduler
open Lib

/-! ### One answer for every job -/

/-- All jobs that were posted. -/
def postedAll (history : List Event) : List Job :=
  history.filterMap fun
    | .posted j => some j
    | _ => none

/-- All jobs that were answered, one entry for each answer. -/
def answeredAll (history : List Event) : List Job :=
  history.filterMap fun
    | .answered j _ => some j
    | _ => none

section Histories
variable (j : Job) (both : Bool) (a : Answer) (history : List Event)

@[simp] theorem postedAll_posted : postedAll (.posted j :: history) = j :: postedAll history := rfl
@[simp] theorem postedAll_took : postedAll (.took j both :: history) = postedAll history := rfl
@[simp] theorem postedAll_ran : postedAll (.ran j :: history) = postedAll history := rfl
@[simp] theorem postedAll_answered : postedAll (.answered j a :: history) = postedAll history := rfl
@[simp] theorem answeredAll_posted : answeredAll (.posted j :: history) = answeredAll history := rfl
@[simp] theorem answeredAll_took : answeredAll (.took j both :: history) = answeredAll history := rfl
@[simp] theorem answeredAll_ran : answeredAll (.ran j :: history) = answeredAll history := rfl
@[simp] theorem answeredAll_answered : answeredAll (.answered j a :: history) = j :: answeredAll history := rfl

end Histories

/-- The job `Run` holds. -/
def Sched.hand (s : Sched) : List Job :=
  match s.phase with
  | .took j => [j]
  | .running j => [j]
  | _ => []

/-- Every posted job waits, is held by `Run` or has been answered, and only once. -/
structure Answers (s : Sched) : Prop where
  fresh : ∀ j ∈ postedAll s.history, j.id < s.next
  nodup : (postedAll s.history).Nodup
  count : ∀ j, (postedAll s.history).count j =
    (s.queue j.lane).count j + s.hand.count j + (answeredAll s.history).count j
  shut : s.phase = .leaving ∨ s.phase = .done → s.failed ≠ none ∨ s.ctxDone = true
  empty : s.phase = .done → ∀ l, s.queue l = []

variable {s t : Sched} {ids : List String} {j : Job} {p : Phase}

theorem count_waiting (hsorted : Sorted s) (hkeys : ids.Perm s.transfers.keys) (j : Job) :
    (s.waiting ids).count j = (s.queue j.lane).count j := by
  have hother : ∀ l, l ≠ j.lane → (s.queue l).count j = 0 :=
    fun l hl => List.count_eq_zero.mpr fun hmem => hl (hsorted l j hmem).symm
  have hids : ids.Nodup := hkeys.nodup_iff.mpr s.transfers.keys_nodup
  have htransfers : (ids.flatMap fun id => s.queue (.transfer id)).count j =
      if ∃ id ∈ ids, j.lane = .transfer id then (s.queue j.lane).count j else 0 := by
    clear hkeys
    induction ids with
    | nil => simp
    | cons id ids ih =>
      rw [List.nodup_cons] at hids
      rw [List.flatMap_cons, List.count_append, ih hids.2]
      by_cases hid : j.lane = .transfer id
      · have hrest : ¬∃ id' ∈ ids, j.lane = .transfer id' := by
          rintro ⟨id', hmem, hlane⟩
          obtain rfl : id = id' := by simpa [hid] using hlane
          exact hids.1 hmem
        simp [hid, hids.1]
      · rw [hother _ (Ne.symm hid), Nat.zero_add]
        simp [hid]
  rw [Sched.waiting, List.count_append, List.count_append, htransfers]
  cases hlane : j.lane with
  | control =>
    have hnormal := hother .normal (by simp [hlane])
    simp only [Sched.queue] at hnormal ⊢
    simp [hnormal]
  | normal =>
    have hcontrol := hother .control (by simp [hlane])
    simp only [Sched.queue] at hcontrol ⊢
    simp [hcontrol]
  | transfer id =>
    have hcontrol := hother .control (by simp [hlane])
    have hnormal := hother .normal (by simp [hlane])
    have hzero : id ∉ ids → (s.queue (.transfer id)).count j = 0 := by
      intro hid
      rw [hkeys.mem_iff, ← AList.mem_keys, ← AList.lookup_eq_none] at hid
      simp [Sched.queue, hid]
    simp only [Sched.queue] at hcontrol hnormal hzero ⊢
    by_cases hid : id ∈ ids <;> simp_all

theorem answers_posted (hs : Answers s) (h : Posted s t j) : Answers t := by
  have hnew : j ∉ postedAll s.history := by
    intro hmem
    have hlt := hs.fresh j hmem
    rw [h.id] at hlt
    omega
  refine ⟨?_, ?_, ?_, ?_, ?_⟩
  · intro k hk
    rw [h.history, postedAll_posted, List.mem_cons] at hk
    rw [h.next]
    rcases hk with rfl | hk
    · rw [h.id]
      omega
    · exact Nat.lt_succ_of_lt (hs.fresh k hk)
  · rw [h.history]
    exact List.nodup_cons.mpr ⟨hnew, hs.nodup⟩
  · intro k
    have hcount := hs.count k
    have hhand : t.hand = s.hand := by rw [Sched.hand, h.phase, Sched.hand]
    have hqueue : (t.queue k.lane).count k = (s.queue k.lane).count k + [j].count k := by
      by_cases hl : k.lane = j.lane
      · rw [hl, h.lane, List.count_append]
      · have hne : j ≠ k := fun heq => hl (by rw [heq])
        rw [h.others _ hl]
        simp [hne]
    rw [h.history, postedAll_posted, answeredAll_posted, hhand, hqueue, ← List.singleton_append, List.count_append]
    omega
  · intro hphase
    rw [h.phase] at hphase
    rw [h.failed, h.ctxDone]
    exact hs.shut hphase
  · intro hphase
    rw [h.phase] at hphase
    have hshut := hs.shut (.inr hphase)
    simp [h.admitted] at hshut

theorem answers_took (hsorted : Sorted s) (hs : Answers s) (hphase : s.phase = .looking) (hframe : Frame s t j)
    (hpick : Pick s t j) : Answers t := by
  obtain ⟨hq, hothers⟩ := hpick.own hsorted
  have hhand : s.hand = [] ∧ t.hand = [j] := by simp [Sched.hand, hphase, hframe.phase]
  refine ⟨?_, ?_, ?_, ?_, ?_⟩
  · rw [hframe.history, hframe.next]
    exact hs.fresh
  · rw [hframe.history]
    exact hs.nodup
  · intro k
    have hcount := hs.count k
    have hqueue : (s.queue k.lane).count k = (t.queue k.lane).count k + [j].count k := by
      by_cases hl : k.lane = j.lane
      · rw [hl, hq, ← List.singleton_append, List.count_append, Nat.add_comm]
      · have hne : j ≠ k := fun heq => hl (by rw [heq])
        rw [hothers _ hl]
        simp [hne]
    rw [hframe.history, postedAll_took, answeredAll_took, hhand.2]
    rw [hhand.1, hqueue, List.count_nil] at hcount
    omega
  · simp [hframe.phase]
  · simp [hframe.phase]

/-- Answering the job that `Run` holds. -/
theorem answers_answer (hs : Answers s) (hhand : s.hand = [j]) (a : Answer) (hp : ∀ k, p ≠ .took k ∧ p ≠ .running k)
    (hdone : p ≠ .done) (hshut : p = .leaving → s.ctxDone = true) : Answers (s.answer j a p) := by
  have hhand' : (s.answer j a p).hand = [] := by
    cases p with
    | took k => exact absurd rfl (hp k).1
    | running k => exact absurd rfl (hp k).2
    | _ => rfl
  refine ⟨hs.fresh, hs.nodup, ?_, ?_, fun h => absurd h hdone⟩
  · intro k
    have hcount := hs.count k
    rw [hhand] at hcount
    rw [hhand', Sched.queue_answer]
    change (postedAll s.history).count k = _ + _ + (j :: answeredAll s.history).count k
    rw [← List.singleton_append, List.count_append, List.count_nil]
    omega
  · rintro (h | h)
    · exact .inr (hshut h)
    · exact absurd h hdone

theorem answers_drain (hsorted : Sorted s) (hs : Answers s) (hphase : s.phase = .leaving)
    (hkeys : ids.Perm s.transfers.keys) : Answers (s.drain ids) := by
  have hposted : postedAll (s.drain ids).history = postedAll s.history := by
    simp only [Sched.drain]
    rw [postedAll, List.filterMap_append, ← List.map_reverse, List.filterMap_map]
    simp [postedAll]
  have hanswered : answeredAll (s.drain ids).history = (s.waiting ids).reverse ++ answeredAll s.history := by
    simp only [Sched.drain]
    rw [answeredAll, List.filterMap_append, ← List.map_reverse, List.filterMap_map]
    simp [answeredAll]
  refine ⟨?_, ?_, ?_, ?_, fun _ l => queue_drain s ids l⟩
  · rw [hposted]
    exact hs.fresh
  · rw [hposted]
    exact hs.nodup
  · intro k
    have hcount := hs.count k
    have hhand : s.hand = [] ∧ (s.drain ids).hand = [] := by simp [Sched.hand, hphase, Sched.drain]
    rw [hhand.1, List.count_nil] at hcount
    rw [hposted, hanswered, queue_drain, hhand.2, List.count_append, List.count_reverse, count_waiting hsorted hkeys]
    simp only [List.count_nil]
    omega
  · intro _
    exact hs.shut (.inl hphase)

/-- `Run` moves on without a job in hand. -/
theorem Answers.move (hs : Answers s) (hqueue : ∀ l, t.queue l = s.queue l) (hhand : t.hand = s.hand)
    (hhistory : t.history = s.history) (hnext : t.next = s.next) (hdone : t.phase ≠ .done)
    (hshut : t.phase = .leaving → t.failed ≠ none ∨ t.ctxDone = true) : Answers t := by
  refine ⟨?_, hhistory ▸ hs.nodup, ?_, ?_, fun h => absurd h hdone⟩
  · rw [hhistory, hnext]
    exact hs.fresh
  · intro j
    rw [hhistory, hqueue, hhand]
    exact hs.count j
  · rintro (h | h)
    · exact hshut h
    · exact absurd h hdone

theorem answers_effect (hsorted : Sorted s) (hs : Answers s) (h : Effect s t) : Answers t := by
  cases h with
  | refused => exact hs
  | posted h => exact answers_posted hs h
  | took phase frame pick => exact answers_took hsorted hs phase frame pick
  | drain phase keys => exact answers_drain hsorted hs phase keys
  | cancel => exact ⟨hs.fresh, hs.nodup, hs.count, fun _ => .inr rfl, hs.empty⟩
  | @check j jobEnded phase =>
    have hhand : s.hand = [j] := by simp [Sched.hand, phase]
    unfold Sched.check
    split
    · exact answers_answer hs hhand _ (by simp) (by simp) (fun _ => ‹_›)
    · split
      · exact answers_answer hs hhand _ (by simp) (by simp) (by simp)
      · refine ⟨hs.fresh, hs.nodup, ?_, by simp, by simp⟩
        intro k
        have hcount := hs.count k
        rw [hhand] at hcount
        exact hcount
  | @finish j r phase =>
    have hhand : s.hand = [j] := by simp [Sched.hand, phase]
    cases r <;> exact answers_answer hs hhand _ (by simp) (by simp) (by simp)
  | sleep phase empty =>
    exact hs.move (fun _ => rfl) (by simp [Sched.hand, phase, Sched.sleep]) rfl rfl (by simp [Sched.sleep])
      (by simp [Sched.sleep])
  | fail phase | wake phase token =>
    exact hs.move (fun _ => rfl) (by simp [Sched.hand, phase]) rfl rfl (by simp) (by simp)
  | quit phase ended =>
    exact hs.move (fun _ => rfl) (by simp [Sched.hand, phase]) rfl rfl (by simp) (fun _ => .inr ended)

theorem Answers.subperm (hs : Answers s) : (answeredAll s.history).Subperm (postedAll s.history) := by
  rw [List.subperm_ext_iff]
  intro j _
  have hcount := hs.count j
  omega

/-- With all lanes empty and no job in hand, every posted job has its answer. -/
theorem Answers.perm (hs : Answers s) (hempty : ∀ l, s.queue l = []) (hhand : s.hand = []) :
    (answeredAll s.history).Perm (postedAll s.history) := by
  rw [List.perm_iff_count]
  intro j
  have hcount := hs.count j
  rw [hempty, hhand] at hcount
  simpa using hcount.symm

/-! ### Runs of jobs -/

/-- A job is run at most once, not after its answer, and before what it returned is its answer. -/
def RunsFirst : Event → List Event → Prop
  | .ran j, earlier => .ran j ∉ earlier ∧ j ∉ answeredAll earlier
  | .answered j (.returned _), earlier => .ran j ∈ earlier
  | _, _ => True

/-- What was run is what was taken, less the job `Run` has just taken and those it did not run. -/
structure Runs (s : Sched) : Prop where
  kept : ∀ j, .ran j ∈ s.history → j ∈ answeredAll s.history ∨ s.phase = .running j
  running : ∀ j, s.phase = .running j → .ran j ∈ s.history
  history : Causal RunsFirst s.history
  taken : (ranAll s.history).Sublist (takenAll s.history)
  holding : ∀ j, s.phase = .took j → ∃ rest, takenAll s.history = j :: rest ∧ (ranAll s.history).Sublist rest

theorem causal_answered {P : Event → List Event → Prop} {a : Answer} (hP : ∀ j earlier, P (.answered j a) earlier)
    {history : List Event} (h : Causal P history) (js : List Job) :
    Causal P ((js.map fun j => Event.answered j a).reverse ++ history) := by
  rw [← List.map_reverse]
  induction js.reverse with
  | nil => exact h
  | cons j js ih => exact ⟨hP j _, ih⟩

theorem not_answered_of_hand (hs : Answers s) (hhand : s.hand = [j]) : j ∉ answeredAll s.history := by
  have hcount := hs.count j
  have hle := List.nodup_iff_count_le_one.mp hs.nodup j
  rw [hhand, List.count_singleton_self] at hcount
  rw [← List.count_eq_zero]
  omega

/-- A step that answers the job in hand, or changes nothing but the phase. -/
theorem runs_answer (hs : Runs s) (hphase : s.phase = .took j ∨ s.phase = .running j) {a : Answer}
    (ha : RunsFirst (.answered j a) s.history) (hp : ∀ k, p ≠ .took k ∧ p ≠ .running k) : Runs (s.answer j a p) := by
  refine ⟨?_, fun k hk => absurd hk (hp k).2, ⟨ha, hs.history⟩, hs.taken, fun k hk => absurd hk (hp k).1⟩
  intro k hk
  have hran : Event.ran k ∈ s.history := by simpa [Sched.answer] using hk
  left
  change k ∈ j :: answeredAll s.history
  rcases hs.kept k hran with h | h
  · exact List.mem_cons_of_mem _ h
  · rcases hphase with hp' | hp'
    · rw [hp'] at h
      cases h
    · rw [hp'] at h
      cases h
      exact List.mem_cons_self

theorem runs_effect (hanswers : Answers s) (hs : Runs s) (h : Effect s t) : Runs t := by
  -- Where no job is in hand, `Run` only changes its phase.
  have hmove : ∀ {t : Sched}, t.history = s.history → (∀ k, s.phase ≠ .running k) →
      (∀ k, t.phase ≠ .took k ∧ t.phase ≠ .running k) → Runs t := by
    intro t hhistory hrunning hp
    refine ⟨?_, fun k hk => absurd hk (hp k).2, hhistory ▸ hs.history, hhistory ▸ hs.taken,
      fun k hk => absurd hk (hp k).1⟩
    intro k hk
    rw [hhistory] at hk ⊢
    exact .inl ((hs.kept k hk).resolve_right (hrunning k))
  cases h with
  | refused => exact hs
  | cancel => exact ⟨hs.kept, hs.running, hs.history, hs.taken, hs.holding⟩
  | sleep phase => exact hmove rfl (by simp [phase]) (by simp [Sched.sleep])
  | fail phase | wake phase | quit phase => exact hmove rfl (by simp [phase]) (by simp)
  | @posted t j h =>
    refine ⟨?_, ?_, ?_, ?_, ?_⟩
    · intro k hk
      rw [h.history] at hk ⊢
      rw [h.phase]
      exact hs.kept k (by simpa using hk)
    · intro k hk
      rw [h.phase] at hk
      rw [h.history]
      exact List.mem_cons_of_mem _ (hs.running k hk)
    · rw [h.history]
      exact ⟨trivial, hs.history⟩
    · rw [h.history]
      exact hs.taken
    · rw [h.history, h.phase]
      exact hs.holding
  | @took t j phase frame pick =>
    refine ⟨?_, by simp [frame.phase], ?_, ?_, ?_⟩
    · intro k hk
      rw [frame.history] at hk ⊢
      exact .inl ((hs.kept k (by simpa using hk)).resolve_right (by simp [phase]))
    · rw [frame.history]
      exact ⟨trivial, hs.history⟩
    · rw [frame.history]
      exact hs.taken.cons j
    · intro k hk
      rw [frame.phase, Phase.took.injEq] at hk
      subst hk
      rw [frame.history]
      exact ⟨takenAll s.history, rfl, hs.taken⟩
  | @check j jobEnded phase =>
    unfold Sched.check
    split
    · exact runs_answer hs (.inl phase) trivial (by simp)
    · split
      · exact runs_answer hs (.inl phase) trivial (by simp)
      · have hhand : s.hand = [j] := by simp [Sched.hand, phase]
        have hnot := not_answered_of_hand hanswers hhand
        have hran : Event.ran j ∉ s.history := by
          intro hmem
          rcases hs.kept j hmem with h | h
          · exact hnot h
          · rw [phase] at h
            cases h
        refine ⟨?_, ?_, ⟨⟨hran, hnot⟩, hs.history⟩, ?_, by simp⟩
        · intro k hk
          rcases List.mem_cons.mp hk with heq | hk
          · cases heq
            exact .inr rfl
          · exact .inl ((hs.kept k hk).resolve_right (by simp [phase]))
        · rintro k ⟨⟩
          exact List.mem_cons_self
        · obtain ⟨rest, htaken, hsub⟩ := hs.holding j phase
          change (j :: ranAll s.history).Sublist (takenAll s.history)
          rw [htaken]
          exact hsub.cons_cons j
  | @finish j r phase => cases r <;> exact runs_answer hs (.inr phase) (hs.running j phase) (by simp)
  | @drain ids phase keys =>
    have hanswered : ranAll (s.drain ids).history = ranAll s.history := by
      simp only [Sched.drain]
      rw [ranAll, List.filterMap_append, ← List.map_reverse, List.filterMap_map]
      simp [ranAll]
    refine ⟨?_, by simp [Sched.drain], causal_answered (fun _ _ => trivial) hs.history _, ?_, by simp [Sched.drain]⟩
    · intro k hk
      have hran : Event.ran k ∈ s.history := by simpa [Sched.drain] using hk
      left
      have hkept := (hs.kept k hran).resolve_right (by simp [phase])
      simp only [Sched.drain, answeredAll, List.filterMap_append]
      exact List.mem_append_right _ hkept
    · rw [hanswered]
      simp only [Sched.drain]
      rw [takenAll_answered]
      exact hs.taken

end Onprest.Ws.Scheduler
