import Onprest.Agent.Outcome

/-! What a mutation asks of database/sql: one transaction with one statement and one end, and a commit only of a
statement that the capability allows. -/

namespace Onprest.Agent.State
open Lib Contract

variable {c : Config} {s t : State}

/-! ### The order of the calls -/

/-- What a step asks of database/sql, and from where. -/
inductive Asks (s t : State) : Prop
  | nothing (h : t.log = s.log)
    (hpanic : t.pc = .unwind → (s.inProvider = true ∨ s.pc = .unwind) ∧ t.tx.isSome = s.tx.isSome)
  | begin (h : s.pc = .beginTx) (h' : t.log = s.log ++ [.begun]) (hpc : t.pc ≠ .unwind)
  | send (h : s.pc = .exec) (h' : t.log = s.log ++ [.sent]) (hpc : t.pc ≠ .unwind)
  | commit (h : s.pc = .commit) (ok : Bool) (h' : t.log = s.log ++ [.commit ok]) (hpc : t.pc ≠ .unwind)
  | rollback (h : s.pc = .unwind ∧ s.tx.isSome = true ∨ ∃ cause, s.pc = .rollback cause) (ok : Bool)
    (h' : t.log = s.log ++ [.rollback ok]) (hpc : t.pc ≠ .unwind)

theorem stepEnv_frame {a : Env} (hstep : s.stepEnv c a = some t) :
    t.log = s.log ∧ t.pc = s.pc ∧ t.tx.isSome = s.tx.isSome ∧ t.lifetimeOver = s.lifetimeOver := by
  unfold stepEnv cancelGate at hstep
  grind

variable {a : Act} {acts : List Act}

theorem step_asks (hstep : step c s a = some t) : Asks s t := by
  cases a with
  | env a =>
    obtain ⟨hlog, hpc, htx, -⟩ := stepEnv_frame hstep
    exact .nothing hlog fun h => ⟨.inr (hpc ▸ h), htx⟩
  | opening a =>
    change s.stepOpening c a = some t at hstep
    unfold stepOpening cancelGate afterBegin at hstep
    grind [Asks]
  | running a =>
    change s.stepRunning c a = some t at hstep
    unfold stepRunning commitDone commitTx rollbackDone rollbackTx at hstep
    grind [Asks]

/-- Nobody has ended the transaction, if there is one. -/
def Unended (s : State) : Prop := s.log = [] ∧ s.tx = none ∨ s.log = [.begun] ∨ s.log = [.begun, .sent]

/-- One transaction, at most one statement in it and one end of it, a commit only after the statement. -/
def Orderly (log : List Event) : Prop :=
  log ∈ [[], [.begun], [.begun, .sent]] ∨ ∃ ok, log ∈ [[.begun, .sent, .commit ok], [.begun, .rollback ok],
    [.begun, .sent, .rollback ok]]

theorem unended_of_at (h : s.record.At s.pc) (hin : s.inProvider = true) : s.Unended := by
  unfold inProvider at hin
  unfold Unended
  cases hpc : s.pc <;> rw [hpc] at h hin
  case stopWatcher state e => cases state <;> simp_all [Record.At, record, Record.idle]
  case opened state e => cases state <;> simp_all [Record.At, record, Record.idle]
  all_goals simp_all [Record.At, record, Record.idle]

theorem step_orderly (hat : s.record.At s.pc) (h : Orderly s.log ∧ (s.pc = .unwind → s.Unended))
    (hstep : step c s a = some t) : Orderly t.log ∧ (t.pc = .unwind → t.Unended) := by
  have hin := @unended_of_at s hat
  obtain ⟨hlog, hpanic⟩ | ⟨hpc, hlog, hne⟩ | ⟨hpc, hlog, hne⟩ | ⟨hpc, ok, hlog, hne⟩ | ⟨hpc, ok, hlog, hne⟩ :=
    step_asks hstep
  · rw [hlog]
    refine ⟨h.1, fun hunwind => ?_⟩
    obtain ⟨hfrom, htx⟩ := hpanic hunwind
    have hopen : s.Unended := hfrom.elim hin h.2
    simpa only [Unended, hlog, ← Option.not_isSome_iff_eq_none, htx] using hopen
  · rw [hpc] at hat
    have hs : s.log = [] := congrArg Record.log hat
    simp [hlog, hs, Orderly, hne]
  · rw [hpc] at hat
    have hs : s.log = [.begun] := hat.2
    simp [hlog, hs, Orderly, hne]
  · rw [hpc] at hat
    have hs : s.log = [.begun, .sent] := hat.2
    simp [hlog, hs, Orderly, hne]
  · have hopen : s.log = [.begun] ∨ s.log = [.begun, .sent] := by
      obtain ⟨hpc, htx⟩ | ⟨cause, hpc⟩ := hpc
      · obtain ⟨-, hnone⟩ | hopen := h.2 hpc
        · simp [hnone] at htx
        · exact hopen
      · rw [hpc] at hat
        exact hat.2
    obtain hs | hs := hopen <;> simp [hlog, hs, Orderly, hne]

/-! ### What a commit takes -/

/-- The driver has counted no more rows than the capability allows. -/
def WithinLimit (c : Config) (acts : List Act) : Prop :=
  ∃ n, .running (.rowsAffected (.ok n)) ∈ acts ∧ 0 ≤ n ∧ ∀ m, c.maxAffectedRows = some m → n ≤ m

/-- What has been answered before the main goroutine is here. -/
def Earned (c : Config) (acts : List Act) : Pc → Prop
  | .rowsAffected => .running (.exec (.ok ())) ∈ acts
  | .publish => .running (.exec (.ok ())) ∈ acts ∧ WithinLimit c acts
  | .recheck | .commit =>
    .running (.exec (.ok ())) ∈ acts ∧ WithinLimit c acts ∧ .running (.publish (.ok ())) ∈ acts
  | _ => True

theorem Earned.cons {pc : Pc} (h : Earned c acts pc) (a : Act) : Earned c (a :: acts) pc := by
  cases pc <;> grind [Earned, WithinLimit]

theorem step_earned (h : Earned c acts s.pc) (hstep : step c s a = some t) : Earned c (a :: acts) t.pc := by
  cases a with
  | env a =>
    obtain ⟨-, hpc, -⟩ := stepEnv_frame hstep
    rw [hpc]
    exact h.cons _
  | opening a =>
    change s.stepOpening c a = some t at hstep
    unfold stepOpening cancelGate afterBegin at hstep
    grind [Earned, WithinLimit]
  | running a =>
    change s.stepRunning c a = some t at hstep
    unfold stepRunning commitDone rollbackDone at hstep
    grind [Earned, WithinLimit]

/-! ### The end -/

/-- The contexts are released once the provider has been left. -/
def Released (s : State) : Prop :=
  match s.pc with
  | .respond _ | .releaseInput _ | .recover | .returned _ => s.tx = none ∨ s.lifetimeOver = true
  | _ => True

theorem step_released (hat : s.record.At s.pc) (h : s.Released) (hstep : step c s a = some t) : t.Released := by
  cases a with
  | env a =>
    obtain ⟨-, hpc, htx, hlife⟩ := stepEnv_frame hstep
    simpa only [Released, hpc, hlife, ← Option.not_isSome_iff_eq_none, htx] using h
  | opening a =>
    change s.stepOpening c a = some t at hstep
    unfold stepOpening cancelGate afterBegin at hstep
    grind [Released, Record.At, record, Record.idle]
  | running a =>
    change s.stepRunning c a = some t at hstep
    unfold stepRunning commitDone rollbackDone at hstep
    grind [Released]

/-- What holds of a mutation at any time. -/
structure Disciplined (c : Config) (acts : List Act) (s : State) : Prop where
  orderly : Orderly s.log
  unwind : s.pc = .unwind → s.Unended
  earned : Earned c acts s.pc
  commit : ∀ ok, .commit ok ∈ s.log → Earned c acts .commit
  released : s.Released

theorem step_disciplined (hat : s.record.At s.pc) (h : Disciplined c acts s) (hstep : step c s a = some t) :
    Disciplined c (a :: acts) t := by
  obtain ⟨horderly, hunwind⟩ := step_orderly hat ⟨h.orderly, h.unwind⟩ hstep
  refine ⟨horderly, hunwind, step_earned h.earned hstep, fun ok hmem => ?_, step_released hat h.released hstep⟩
  have hearned := h.earned
  refine Earned.cons ?_ a
  obtain ⟨hlog, -⟩ | ⟨-, hlog, -⟩ | ⟨-, hlog, -⟩ | ⟨hpc, ok', hlog, -⟩ | ⟨-, ok', hlog, -⟩ := step_asks hstep
  case commit => rwa [hpc] at hearned
  all_goals exact h.commit ok (by simpa [hlog] using hmem)

/-- Nothing is asked after the end. -/
theorem step_returned {result : Except ErrorValue Unit} (hpc : s.pc = .returned result)
    (hstep : step c s a = some t) :
    t.log = s.log ∧ t.pc = .returned result := by
  cases a with
  | env a =>
    obtain ⟨hlog, hpc', -⟩ := stepEnv_frame hstep
    exact ⟨hlog, hpc'.trans hpc⟩
  | opening a =>
    change s.stepOpening c a = some t at hstep
    unfold stepOpening at hstep
    grind
  | running a =>
    change s.stepRunning c a = some t at hstep
    unfold stepRunning at hstep
    grind [inProvider]

theorem run_disciplined (hrun : (machine c).run {} acts = some s) : Disciplined c acts.reverse s := by
  have hinit : Record.At (State.record {}) (State.pc {}) ∧ Disciplined c [] {} :=
    ⟨show State.record {} = Record.idle {} from rfl, .inl (by simp), nofun, trivial, nofun, trivial⟩
  have h := (machine c).run_history (I := fun past s => s.record.At s.pc ∧ Disciplined c past s)
    (fun _ _ _ _ h hstep => ⟨step_at h.1 hstep, step_disciplined h.1 h.2 hstep⟩) hinit hrun
  simpa using h.2

/-- Two rows are changed, of three that may be. -/
def committedTwo : List Act :=
  [.opening .admission, .opening (.build true), .opening (.connect (.ok ())), .opening .arm, .opening .check,
    .opening (.beginTx (.ok ())), .opening .gate, .opening .stopWatcher, .env .watchStop, .opening .watcherDone,
    .opening .opened, .running (.exec (.ok ())), .running (.rowsAffected (.ok 2)), .running (.publish (.ok ())),
    .running .recheck, .running (.commit (.ok ())), .running .leave, .running .respond]

end Onprest.Agent.State
