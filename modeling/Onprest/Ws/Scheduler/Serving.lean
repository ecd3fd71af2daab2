import Onprest.Ws.Scheduler.Turns

/-! `Run` on its own: it never sleeps while a job waits, each of its steps brings it closer to rest, and at rest
every posted job has its answer. -/

namespace Onprest.Ws.Scheduler
open Lib

/-! ### No lost wake-up -/

/-- A sleeping `Run` without a token has nothing to do. -/
def Awake (s : Sched) : Prop := s.phase = .idle → s.wake = false → ∀ l, s.queue l = []

variable {s t : Sched} {as : List Act}

theorem awake_effect (hs : Awake s) (h : Effect s t) : Awake t := by
  cases h with
  | refused => exact hs
  | posted h =>
    intro _ hwake
    rw [h.wake] at hwake
    cases hwake
  | cancel => exact hs
  | sleep phase empty => exact fun _ _ => empty
  | took phase frame pick =>
    intro hidle
    rw [frame.phase] at hidle
    cases hidle
  | @check j jobEnded phase =>
    intro hidle
    unfold Sched.check at hidle
    split at hidle
    · cases hidle
    · split at hidle
      · cases hidle
      · cases hidle
  | @finish j r phase =>
    intro hidle
    cases r <;> cases hidle
  | fail phase => exact nofun
  | wake phase token => exact nofun
  | quit phase ended => exact nofun
  | drain phase keys => exact nofun

/-! ### The steps that are left -/

/-- The steps of `Run`: all but the calls of `Post` and the end of the context. -/
def Act.ofRun : Act → Bool
  | .post _ _ => false
  | .cancel => false
  | _ => true

/-- `Run` without further calls. -/
def alone : Machine Sched Act := scheduler.guarded fun _ a => a.ofRun

def Phase.rank : Phase → ℕ
  | .looking => 5
  | .took _ => 4
  | .running _ => 3
  | .failing _ => 2
  | .idle => 2
  | .leaving => 1
  | .done => 0

/-- A bound for the steps `Run` takes on its own: four for every job without an answer, four for a token. -/
def Sched.work (s : Sched) : ℕ :=
  4 * ((postedAll s.history).length - (answeredAll s.history).length) + 4 * s.wake.toNat + s.phase.rank

theorem work_answer {j : Job} {a : Answer} {p : Phase} (hs : Answers (s.answer j a p))
    (hp : p.rank < s.phase.rank + 4) :
    (s.answer j a p).work < s.work := by
  have hlength : (answeredAll s.history).length + 1 ≤ (postedAll s.history).length := hs.subperm.length_le
  simp only [Sched.work, Sched.answer, postedAll_answered, answeredAll_answered, List.length_cons]
  omega

theorem work_step {a : Act} (hs : Ordered s) (ht : Answers t) (h : alone.step s a = some t) : t.work < s.work := by
  obtain ⟨hown, h⟩ := scheduler.guarded_step.mp h
  cases a with
  | post priority transfer => cases hown
  | cancel => cases hown
  | next =>
    simp only [scheduler, Option.ite_none_right_eq_some] at h
    obtain ⟨hphase, h⟩ := h
    rcases Sched.takeNext_cases hs h with ⟨rfl, -⟩ | ⟨j, hframe, -⟩
    · simp [Sched.work, Sched.sleep, hphase, Phase.rank]
    · simp [Sched.work, hframe.history, hframe.wake, hframe.phase, hphase, Phase.rank]
  | check jobEnded =>
    simp only [scheduler] at h
    split at h
    case h_2 => cases h
    case h_1 j hphase =>
      cases h
      unfold Sched.check at ht ⊢
      split
      · rw [if_pos ‹_›] at ht
        exact work_answer ht (by simp [hphase, Phase.rank])
      · rw [if_neg ‹_›] at ht
        split
        · rw [if_pos ‹_›] at ht
          exact work_answer ht (by simp [hphase, Phase.rank])
        · simp [Sched.work, hphase, Phase.rank]
  | finish r =>
    simp only [scheduler] at h
    split at h
    case h_2 => cases h
    case h_1 j hphase =>
      cases h
      cases r <;> exact work_answer ht (by simp [hphase, Phase.rank])
  | fail =>
    simp only [scheduler] at h
    split at h
    case h_2 => cases h
    case h_1 e hphase =>
      cases h
      simp [Sched.work, hphase, Phase.rank]
  | wake =>
    simp only [scheduler, Option.ite_none_right_eq_some, Option.some.injEq] at h
    obtain ⟨⟨hphase, htoken⟩, rfl⟩ := h
    simp only [Sched.work, hphase, htoken, Phase.rank, Bool.toNat_true, Bool.toNat_false]
    omega
  | quit =>
    simp only [scheduler, Option.ite_none_right_eq_some, Option.some.injEq] at h
    obtain ⟨⟨hphase, -⟩, rfl⟩ := h
    simp [Sched.work, hphase, Phase.rank]
  | drain ids =>
    simp only [scheduler, Option.ite_none_right_eq_some, Option.some.injEq] at h
    obtain ⟨⟨hphase, -⟩, rfl⟩ := h
    have hanswered : (answeredAll s.history).length ≤ (answeredAll (s.drain ids).history).length := by
      simp [Sched.drain, answeredAll]
    have hposted : postedAll (s.drain ids).history = postedAll s.history := by
      simp [Sched.drain, postedAll, ← List.map_reverse, List.filterMap_map]
    have hwake : (s.drain ids).wake = s.wake := rfl
    have hdone : (s.drain ids).phase.rank = 0 := rfl
    have hleaving : s.phase.rank = 1 := by rw [hphase]; rfl
    rw [Sched.work, Sched.work, hposted, hwake, hdone, hleaving]
    omega

/-- Where `Run` has no step left, nothing waits and nothing is in hand. -/
theorem rest_of_stuck (hs : Ordered s) (hanswers : Answers s) (hawake : Awake s)
    (hstuck : ∀ a, alone.step s a = none) :
    (∀ l, s.queue l = []) ∧ s.hand = [] := by
  have hstep : ∀ a, a.ofRun = true → scheduler.step s a = none := by
    intro a ha
    have hnone := hstuck a
    simpa [alone, Machine.guarded, ha] using hnone
  cases hphase : s.phase with
  | looking =>
    have hnone := hstep .next rfl
    have hsome := Sched.takeNext_isSome hs
    simp only [scheduler, hphase, if_true] at hnone
    simp [hnone] at hsome
  | took j =>
    have hnone := hstep (.check false) rfl
    simp [scheduler, hphase] at hnone
  | running j =>
    have hnone := hstep (.finish .ok) rfl
    simp [scheduler, hphase] at hnone
  | failing e =>
    have hnone := hstep .fail rfl
    simp [scheduler, hphase] at hnone
  | idle =>
    have hnone := hstep .wake rfl
    simp only [scheduler, hphase, true_and, ite_eq_right_iff, reduceCtorEq, imp_false, Bool.not_eq_true] at hnone
    exact ⟨hawake hphase hnone, by simp [Sched.hand, hphase]⟩
  | leaving =>
    have hnone := hstep (.drain s.transfers.keys) rfl
    simp [scheduler, hphase] at hnone
  | done => exact ⟨hanswers.empty hphase, by simp [Sched.hand, hphase]⟩

/-! ### Whole runs -/

/-- What holds after every step of the scheduler and its callers. -/
structure Serving (s : Sched) : Prop where
  sorted : Sorted s
  fifo : Fifo s
  answers : Answers s
  runs : Runs s
  turns : Turns s
  awake : Awake s

theorem serving_effect (s t : Sched) (hs : Serving s) (h : Effect s t) : Serving t where
  sorted := sorted_effect hs.sorted h
  fifo := fifo_effect hs.sorted hs.fifo h
  answers := answers_effect hs.sorted hs.answers h
  runs := runs_effect hs.answers hs.runs h
  turns := turns_effect hs.sorted hs.turns h
  awake := awake_effect hs.awake h

theorem serving_start : Serving {} where
  sorted := fun l j h => by cases l <;> simp [Sched.queue] at h
  fifo := fun l => ⟨[], rfl, fun _ => by cases l <;> rfl⟩
  answers := ⟨nofun, List.nodup_nil, fun j => by cases j.lane <;> rfl, by simp, nofun⟩
  runs := ⟨nofun, nofun, trivial, List.Sublist.slnil, nofun⟩
  turns := ⟨rfl, trivial⟩
  awake := nofun

theorem serving_run (hs : Ordered s ∧ Serving s) (h : scheduler.run s as = some t) : Ordered t ∧ Serving t :=
  run_effect (fun s t _ => serving_effect s t) hs.1 hs.2 h

/-- Left alone, `Run` takes a bounded number of steps and leaves no posted job without its answer. -/
theorem alone_run (hs : Ordered s ∧ Serving s) (h : alone.run s as = some t) :
    as.length ≤ s.work ∧
      ((∀ a, alone.step t a = none) → (answeredAll t.history).Perm (postedAll t.history)) := by
  induction as generalizing s with
  | nil =>
    obtain rfl : s = t := Option.some.inj h
    refine ⟨Nat.zero_le _, fun hstuck => ?_⟩
    obtain ⟨hempty, hhand⟩ := rest_of_stuck hs.1 hs.2.answers hs.2.awake hstuck
    exact hs.2.answers.perm hempty hhand
  | cons a as ih =>
    obtain ⟨s', hstep, h⟩ := alone.run_cons.mp h
    have heffect := effect_of_step hs.1 (scheduler.guarded_step.mp hstep).2
    have hs' : Ordered s' ∧ Serving s' := ⟨ordered_effect hs.1 heffect, serving_effect s s' hs.2 heffect⟩
    obtain ⟨hlength, hrest⟩ := ih hs' h
    have hwork := work_step hs.1 hs'.2.answers hstep
    exact ⟨by rw [List.length_cons]; omega, hrest⟩

/-- A job that `Run` has taken stays in its hand or is run, unless its own context or the scheduler's has ended. -/
theorem taken_step {a : Act} {j : Job} (hphase : s.phase = .took j) (h : scheduler.step s a = some t) :
    t.phase = .took j ∨ t.history = .ran j :: s.history ∨ a = .check true ∨ s.ctxDone = true := by
  cases a with
  | post priority transfer =>
    cases h
    rcases s.post_cases priority transfer with heq | ⟨k, hk⟩
    · exact .inl (heq.symm ▸ hphase)
    · exact .inl (hk.phase.trans hphase)
  | cancel =>
    cases h
    exact .inl hphase
  | check ended =>
    simp only [scheduler, hphase, Option.some.injEq] at h
    subst h
    cases ended with
    | true => exact .inr (.inr (.inl rfl))
    | false =>
      cases hctx : s.ctxDone with
      | true => exact .inr (.inr (.inr rfl))
      | false => exact .inr (.inl (by simp [Sched.check, hctx]))
  | _ => simp [scheduler, hphase] at h

/-- The scheduler under every interleaving of calls of `Post` with the steps of `Run`: each lane is served in posting
order; the order list holds the transfers that wait, each once; no job is answered twice or run after its answer, and
`Run` leaves none without an answer. Jobs run in the order of their turns, a taken job is run unless a context has
ended, and only a job that ran is answered by what it returned. While both wait, normal and transfer jobs have their
turns alternately; and until a waiting transfer has its turn, every other one has at most one, with at most one
normal job before each and one after them. -/
theorem scheduler_serves {as : List Act} {s : Sched} (h : scheduler.run {} as = some s) :
    (∀ l, (ranOf l s.history).Sublist (postedOf l s.history)) ∧
    (s.order.Nodup ∧ ∀ id, id ∈ s.order ↔ s.queue (.transfer id) ≠ []) ∧
    ((postedAll s.history).Nodup ∧ (answeredAll s.history).Subperm (postedAll s.history)) ∧
    (∀ later j earlier, s.history = later ++ .ran j :: earlier → j ∉ answeredAll earlier) ∧
    ((ranAll s.history).Sublist (takenAll s.history) ∧
      (∀ j a t, s.phase = .took j → scheduler.step s a = some t →
        t.phase = .took j ∨ t.history = .ran j :: s.history ∨ a = .check true ∨ s.ctxDone = true) ∧
      ∀ later j r earlier, s.history = later ++ .answered j (.returned r) :: earlier → .ran j ∈ earlier) ∧
    (∀ bs t, alone.run s bs = some t → bs.length ≤ s.work ∧
      ((∀ a, alone.step t a = none) → (answeredAll t.history).Perm (postedAll t.history))) ∧
    (∀ later j earlier, s.history = later ++ .took j true :: earlier →
      j.lane = .control ∨ (j.lane = .normal ↔ lastNormalOf earlier = false)) ∧
    (∀ ahead id behind, s.order = ahead ++ id :: behind → id ∉ ahead ∧
      ∀ bs t, scheduler.run s bs = some t → ∃ recent, t.history = recent ++ s.history ∧
        (id ∉ turnsOf recent → (turnsOf recent).Nodup ∧ (∀ other ∈ turnsOf recent, other ∈ ahead) ∧
          normalsOf recent ≤ (turnsOf recent).length + 1)) := by
  obtain ⟨hordered, hs⟩ := serving_run ⟨ordered_start, serving_start⟩ h
  refine ⟨?_, ⟨hordered.nodup, hordered.mem⟩, ⟨hs.answers.nodup, hs.answers.subperm⟩, ?_,
    ⟨hs.runs.taken, fun j a t => taken_step, ?_⟩, ?_, ?_, ?_⟩
  · intro l
    obtain ⟨left, hposted, -⟩ := hs.fifo l
    rw [hposted]
    exact (hs.runs.taken.filter _).trans (List.sublist_append_right _ _)
  · intro later j earlier heq
    have hruns := hs.runs.history
    rw [heq] at hruns
    exact hruns.at.2
  · intro later j r earlier heq
    have hruns := hs.runs.history
    rw [heq] at hruns
    exact hruns.at
  · intro bs t
    exact alone_run ⟨hordered, hs⟩
  · intro later j earlier heq
    have hturns := hs.turns.history
    rw [heq] at hturns
    exact hturns.at
  · intro ahead id behind horder
    have hnodup := hordered.nodup
    rw [horder, List.nodup_append] at hnodup
    refine ⟨fun hid => hnodup.2.2 id hid id List.mem_cons_self rfl, ?_⟩
    intro bs t hrun
    obtain ⟨recent, hhistory, hwaits⟩ := waits_run hordered hs.sorted horder hrun
    refine ⟨recent, hhistory, fun hnot => ?_⟩
    have hw := hwaits hnot
    obtain ⟨left, hahead, -⟩ := hw.turns
    have hnormals := hw.normals
    have hflag := t.lastNormal.toNat_le
    refine ⟨?_, ?_, by omega⟩
    · rw [hahead, List.nodup_append, List.nodup_reverse] at hnodup
      exact hnodup.1.1
    · intro other hother
      rw [hahead]
      exact List.mem_append_left _ (List.mem_reverse.mpr hother)

/-- Two transfers and a normal job; the job of the first transfer fails, and the others are drained. -/
def failingRun : List Act :=
  [.post false "a", .post false "b", .post false "", .next, .check false, .finish .ok, .next, .check false,
    .finish (.broken 7), .post true "", .fail, .drain ["b"]]

theorem scheduler_serves_failingRun :
    ∃ s, scheduler.run {} failingRun = some s ∧ s.phase = .done ∧ (answeredAll s.history).length = 4 ∧
      (answeredAll s.history).Perm (postedAll s.history) := by
  have hrun : (scheduler.run {} failingRun).isSome = true := by decide +kernel
  have hend : (scheduler.run {} failingRun).map (fun s => (s.phase, (answeredAll s.history).length)) =
      some (.done, 4) := by decide +kernel
  obtain ⟨s, hs⟩ := Option.isSome_iff_exists.mp hrun
  obtain ⟨hphase, hlength⟩ : s.phase = .done ∧ (answeredAll s.history).length = 4 := by simpa [hs] using hend
  obtain ⟨-, -, -, -, -, halone, -⟩ := scheduler_serves hs
  refine ⟨s, hs, hphase, hlength, (halone [] s rfl).2 ?_⟩
  intro a
  cases a <;> simp [alone, Machine.guarded, scheduler, hphase, Act.ofRun]

/-- Three jobs of each of two transfers; the contexts of the first two jobs of `a` have ended when they are taken. -/
def endedPosts : List Act := List.replicate 3 (.post false "a") ++ List.replicate 3 (.post false "b")

def endedTurns : List Act :=
  [.next, .check true, .next, .check false, .finish .ok, .next, .check true, .next, .check false, .finish .ok]

/-- A turn need not be a run: two jobs of `b` run while `a` waits, and none of `a`. -/
theorem scheduler_runs_unfair :
    ∃ s t, scheduler.run {} endedPosts = some s ∧ s.order = ["a", "b"] ∧ scheduler.run s endedTurns = some t ∧
      "a" ∈ t.order ∧ (ranAll t.history).map (·.lane) = [.transfer "b", .transfer "b"] := by
  have hrun : (scheduler.run {} endedPosts).any fun s => s.order = ["a", "b"] ∧
      (scheduler.run s endedTurns).any fun t =>
        "a" ∈ t.order ∧ (ranAll t.history).map (·.lane) = [.transfer "b", .transfer "b"] := by decide +kernel
  simpa [Option.any_eq_true] using hrun

end Onprest.Ws.Scheduler
