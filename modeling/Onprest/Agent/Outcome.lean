import Onprest.Agent.Mutation

/-! The outcome of a database mutation: what the effects log says when `Execute` returns agrees with what
database/sql was asked and answered, at every point where the mutation can fail, panic or be canceled. -/

namespace Onprest.Agent
open Lib Contract

/-- What is recorded of a mutation and its transaction. -/
structure Record where
  effects : Effects
  log : List Event
  tx : Option Bool
  fate : Fate

def State.record (s : State) : Record := ⟨s.effects, s.log, s.tx, s.fate⟩

/-- The record once nothing more is asked of database/sql. -/
inductive Record.Settled : Record → Prop
  | notStarted : Settled ⟨{}, [], none, .none⟩
  | noChange : Settled ⟨{ started := true, noChange := true }, [], none, .none⟩
  | committed : Settled
      ⟨{ started := true, operations := [.committed] }, [.begun, .sent, .commit true], some true, .committed⟩
  | rolledBack : Settled
      ⟨{ started := true, operations := [.rolledBack] }, [.begun, .rollback true], some true, .rolledBack⟩
  | rolledBackSent : Settled
      ⟨{ started := true, operations := [.rolledBack] }, [.begun, .sent, .rollback true], some true, .rolledBack⟩
  | unknown {r : Record}
      (h : r.effects = { started := true } ∨ r.effects = { started := true, operations := [.unknown] }) : Settled r

/-- Nothing was asked of database/sql beyond a connection. -/
def Record.idle (fx : Effects) : Record := ⟨fx, [], none, .none⟩

/-- The record where the main goroutine is. -/
def Record.At (r : Record) : Pc → Prop
  | .admission | .startInput => r = idle {}
  | .build | .connect | .arm | .check | .beginTx | .beginFailed _ | .beginFailedGate _ =>
    r = idle { started := true }
  | .begun | .stopWatcher .started _ | .stopWatcher .canceledWithTx _ | .opened .started _
  | .opened .canceledWithTx _ => r.effects = { started := true } ∧ r.log = [.begun]
  | .stopWatcher .notStarted _ | .stopWatcher .outcomeUnknown _ | .opened .notStarted _
  | .opened .outcomeUnknown _ => r = idle { started := true }
  | .exec => r.effects = { started := true, operations := [.unknown] } ∧ r.log = [.begun]
  | .rowsAffected | .publish | .recheck | .commit =>
    r.effects = { started := true, operations := [.unknown] } ∧ r.log = [.begun, .sent]
  | .rollback _ =>
    r.effects = { started := true, operations := [.unknown] } ∧ (r.log = [.begun] ∨ r.log = [.begun, .sent])
  | .leave result | .respond result =>
    r.Settled ∧ (result = .ok () → r.effects = { started := true, operations := [.committed] })
  | .releaseInput result | .returned result =>
    r.Settled ∧ (result = .ok () → r.effects = { started := true, operations := [.committed] }) ∧
      ∀ e, result = .error e → e.outcome = r.effects.outcome
  | .unwind | .recover =>
    r.effects = { started := true } ∨ r.effects = { started := true, operations := [.unknown] }

/-! ### The transaction -/

variable {r : Record}

/-- Only the transaction of an outcome that is not known can still change. -/
theorem Record.Settled.awaitDone (h : r.Settled) (htx : r.tx = some false) (fate : Fate) :
    Settled { r with tx := some true, fate := fate } := by
  cases h with
  | unknown hfx => exact .unknown hfx
  | _ => cases htx

/-- The rollback of database/sql on its own changes nothing that is recorded of the effects. -/
theorem Record.At.awaitDone {pc : Pc} (h : r.At pc) (htx : r.tx = some false) (fate : Fate) :
    At { r with tx := some true, fate := fate } pc := by
  have hidle : ∀ fx, r ≠ idle fx := by
    rintro fx rfl
    cases htx
  cases pc with
  | begun => exact h
  | stopWatcher state e | opened state e =>
    cases state with
    | started => exact h
    | canceledWithTx => exact h
    | _ => exact absurd h (hidle _)
  | exec => exact h
  | rowsAffected => exact h
  | publish => exact h
  | recheck => exact h
  | commit => exact h
  | rollback cause => exact h
  | leave result | respond result | releaseInput result | returned result => exact ⟨h.1.awaitDone htx fate, h.2⟩
  | unwind => exact h
  | recover => exact h
  | _ => exact absurd h (hidle _)

/-- A panic inside the provider leaves an effect that is not known, if there is one. -/
theorem Record.At.panic {s : State} (h : r.At s.pc) (hin : s.inProvider = true) :
    r.effects = { started := true } ∨ r.effects = { started := true, operations := [.unknown] } := by
  unfold State.inProvider at hin
  cases hpc : s.pc <;> rw [hpc] at h hin
  case stopWatcher state e => cases state <;> first | exact .inl (congrArg Record.effects h) | exact .inl h.1
  case opened state e => cases state <;> first | exact .inl (congrArg Record.effects h) | exact .inl h.1
  all_goals first
    | (cases hin; done)
    | exact .inl (congrArg Record.effects h)
    | exact .inl h.1
    | exact .inr h.1

namespace State
variable {c : Config} {s t : State}

theorem rollbackTx_cases (s : State) (ok : Bool) :
    s.tx = some false ∧ s.rollbackTx ok =
      (ok, { s with
        tx := some true, fate := if ok then .rolledBack else .doubtful, log := s.log ++ [.rollback ok] }) ∨
    s.rollbackTx ok = (false, { s with log := s.log ++ [.rollback false] }) := by
  unfold rollbackTx
  split
  · rename_i htx
    exact .inl ⟨htx, rfl⟩
  · exact .inr rfl

theorem commitTx_cases (c : Config) (s : State) (ok : Bool) :
    s.commitTx c ok =
      (ok, { s with tx := some true, fate := if ok then .committed else .doubtful, log := s.log ++ [.commit ok] }) ∨
    s.commitTx c ok = (false, { s with log := s.log ++ [.commit false] }) := by
  unfold commitTx
  split
  · exact .inr rfl
  · exact .inl rfl

theorem outcome_publicError (s : State) (e : ProviderErr) : (s.publicError e).outcome = s.effects.outcome := by
  unfold publicError
  cases e with
  | failure code reason =>
    simp only
    split
    · split <;> rfl
    · split
      · rfl
      · split <;> rfl
  | output code | plain =>
    simp only
    split <;> rfl

variable {result : Except ProviderErr Unit} {ok : Bool}

theorem outcome_response {e : ErrorValue} (h : s.response result = .error e) : e.outcome = s.effects.outcome := by
  unfold response at h
  split at h
  · obtain rfl := Except.error.inj h
    exact outcome_publicError s _
  · split at h
    · obtain rfl := Except.error.inj h
      rfl
    · cases h

theorem response_ok (h : s.response result = .ok ()) : result = .ok () := by
  unfold response at h
  split at h
  · cases h
  · rfl

/-! ### One step -/

theorem afterBegin_at {state : BeginState} {e : DbErr} (h : s.record.At (.opened state e)) :
    (s.afterBegin state e).record.At (s.afterBegin state e).pc := by
  cases state with
  | notStarted =>
    have hrecord : (s.afterBegin .notStarted e).record = ⟨{ started := true, noChange := true },
        [], none, .none⟩ := by
      simp only [Record.At, record, Record.idle, Record.mk.injEq] at h
      simp [afterBegin, record, Effects.setNoChange, h]
    refine ⟨?_, nofun⟩
    rw [hrecord]
    exact .noChange
  | outcomeUnknown =>
    have hfx : s.effects = { started := true } := congrArg Record.effects h
    exact ⟨.unknown (.inr (by simp [afterBegin, record, Effects.begin, hfx])), nofun⟩
  | started => exact ⟨by simp [afterBegin, record, Effects.begin, show s.effects = _ from h.1], h.2⟩
  | canceledWithTx =>
    exact ⟨by simp [afterBegin, record, Effects.begin, show s.effects = _ from h.1], .inl h.2⟩

theorem rollbackDone_at {cause : ProviderErr} (h : s.record.At (.rollback cause)) :
    (s.rollbackDone c ok cause).record.At (s.rollbackDone c ok cause).pc := by
  obtain ⟨hfx, hlog⟩ : s.effects = { started := true, operations := [.unknown] } ∧
    (s.log = [.begun] ∨ s.log = [.begun, .sent]) := h
  obtain ⟨htx, heq⟩ | heq := rollbackTx_cases s ok
  · simp only [rollbackDone, heq]
    cases ok with
    | true =>
      refine ⟨?_, nofun⟩
      obtain hlog | hlog := hlog
      · simp only [record, hfx, hlog]
        exact .rolledBack
      · simp only [record, hfx, hlog]
        exact .rolledBackSent
    | false => exact ⟨.unknown (.inr hfx), nofun⟩
  · simp only [rollbackDone, heq]
    exact ⟨.unknown (.inr hfx), nofun⟩

theorem commitDone_at (h : s.record.At .commit) : (s.commitDone c ok).record.At (s.commitDone c ok).pc := by
  obtain ⟨hfx, hlog⟩ : s.effects = { started := true, operations := [.unknown] } ∧ s.log = [.begun, .sent] := h
  obtain heq | heq := commitTx_cases c s ok
  · simp only [commitDone, heq]
    cases ok with
    | true =>
      refine ⟨?_, fun _ => by simp [record, hfx, Effects.finish]⟩
      simp only [record, hfx, hlog]
      exact .committed
    | false => exact ⟨.unknown (.inr hfx), nofun⟩
  · simp only [commitDone, heq]
    exact ⟨.unknown (.inr hfx), nofun⟩

theorem cancelGate_record (s : State) : s.cancelGate.record = s.record ∧ s.cancelGate.pc = s.pc := by
  unfold cancelGate
  split
  · exact ⟨rfl, rfl⟩
  · exact ⟨rfl, rfl⟩

/-- The steps of the other goroutines. -/
theorem stepEnv_at {a : Env} (h : s.record.At s.pc) (hstep : s.stepEnv c a = some t) : t.record.At t.pc := by
  cases a with
  | expire =>
    simp only [stepEnv, Option.ite_none_left_eq_some] at hstep
    obtain ⟨-, hstep⟩ := hstep
    cases hstep
    exact h
  | watch =>
    simp only [stepEnv, Option.ite_none_right_eq_some] at hstep
    obtain ⟨-, hstep⟩ := hstep
    cases hstep
    obtain ⟨hrecord, hpc⟩ := cancelGate_record s
    change s.cancelGate.record.At s.cancelGate.pc
    rw [hrecord, hpc]
    exact h
  | watchStop =>
    simp only [stepEnv, Option.ite_none_right_eq_some] at hstep
    obtain ⟨-, hstep⟩ := hstep
    cases hstep
    exact h
  | awaitDone ok =>
    simp only [stepEnv, Option.ite_none_right_eq_some] at hstep
    obtain ⟨⟨htx, -⟩, hstep⟩ := hstep
    cases hstep
    exact h.awaitDone htx _

/-- The steps up to the transaction. -/
theorem stepOpening_at {a : Opening} (h : s.record.At s.pc) (hstep : s.stepOpening c a = some t) :
    t.record.At t.pc := by
  cases a with
  | refuse code =>
    simp only [stepOpening] at hstep
    split at hstep
    · rename_i hpc
      rw [hpc] at h
      simp only [Option.ite_none_right_eq_some] at hstep
      obtain ⟨-, hstep⟩ := hstep
      cases hstep
      refine ⟨?_, nofun, ?_⟩
      · change s.record.Settled
        rw [show s.record = _ from h]
        exact .notStarted
      · rintro _ ⟨⟩
        rfl
    · cases hstep
  | admission =>
    simp only [stepOpening] at hstep
    split at hstep
    · rename_i hpc
      rw [hpc] at h
      cases hstep
      split
      · exact h
      · simp only [Record.At, record, Record.idle, Record.mk.injEq] at h ⊢
        simp [h, Effects.start]
    · cases hstep
  | startInput ok =>
    simp only [stepOpening] at hstep
    split at hstep
    · rename_i hpc
      rw [hpc] at h
      cases hstep
      split
      · simp only [Record.At, record, Record.idle, Record.mk.injEq] at h ⊢
        simp [h, Effects.start]
      · refine ⟨?_, nofun, ?_⟩
        · change s.record.Settled
          rw [show s.record = _ from h]
          exact .notStarted
        · rintro _ ⟨⟩
          rfl
    · cases hstep
  | build ok =>
    simp only [stepOpening] at hstep
    split at hstep
    · rename_i hpc
      rw [hpc] at h
      cases hstep
      split
      · exact h
      · refine ⟨?_, nofun⟩
        simp only [Record.At, record, Record.idle, Record.mk.injEq] at h
        simp only [record, Effects.setNoChange, h]
        exact .noChange
    · cases hstep
  | connect result =>
    simp only [stepOpening] at hstep
    split at hstep
    · rename_i hpc
      rw [hpc] at h
      cases hstep
      exact h
    · rename_i hpc
      rw [hpc] at h
      cases hstep
      exact h
    · cases hstep
  | arm =>
    simp only [stepOpening] at hstep
    split at hstep
    · rename_i hpc
      rw [hpc] at h
      cases hstep
      exact h
    · cases hstep
  | check =>
    simp only [stepOpening] at hstep
    split at hstep
    · rename_i hpc
      rw [hpc] at h
      cases hstep
      split
      · change s.cancelGate.record = _
        rw [(cancelGate_record s).1]
        exact h
      · exact h
    · cases hstep
  | beginTx result =>
    simp only [stepOpening] at hstep
    split at hstep
    · rename_i hpc
      rw [hpc] at h
      cases hstep
      simp only [Record.At, record, Record.idle, Record.mk.injEq] at h
      exact ⟨h.1, by simp [record, h]⟩
    · rename_i hpc
      rw [hpc] at h
      cases hstep
      exact h
    · cases hstep
  | gate =>
    simp only [stepOpening] at hstep
    split at hstep
    · rename_i hpc
      rw [hpc] at h
      cases hstep
      split
      · exact h
      · exact h
    · rename_i hpc
      rw [hpc] at h
      cases hstep
      split
      · exact h
      · exact h
    · rename_i hpc
      rw [hpc] at h
      cases hstep
      exact h
    · cases hstep
  | stopWatcher =>
    simp only [stepOpening] at hstep
    split at hstep
    · simp only [Option.ite_none_left_eq_some] at hstep
      obtain ⟨-, hstep⟩ := hstep
      cases hstep
      exact h
    · cases hstep
  | watcherDone =>
    simp only [stepOpening] at hstep
    split at hstep
    · rename_i hpc
      rw [hpc] at h
      simp only [Option.ite_none_right_eq_some] at hstep
      obtain ⟨-, hstep⟩ := hstep
      split at hstep <;> cases hstep <;> exact h
    · cases hstep
  | opened =>
    simp only [stepOpening] at hstep
    split at hstep
    · rename_i hpc
      rw [hpc] at h
      cases hstep
      exact afterBegin_at h
    · cases hstep

/-- The steps from the transaction on. -/
theorem stepRunning_at {a : Running} (h : s.record.At s.pc) (hstep : s.stepRunning c a = some t) :
    t.record.At t.pc := by
  cases a with
  | exec result =>
    simp only [stepRunning] at hstep
    split at hstep
    · rename_i hpc
      rw [hpc] at h
      obtain ⟨hfx, hlog⟩ := h
      split at hstep
      · simp only [Option.ite_none_right_eq_some] at hstep
        obtain ⟨htx, hstep⟩ := hstep
        cases hstep
        rw [if_pos htx]
        exact ⟨hfx, by simp [record, show s.log = _ from hlog]⟩
      · cases hstep
        split
        · exact ⟨hfx, .inr (by simp [record, show s.log = _ from hlog])⟩
        · exact ⟨hfx, .inl hlog⟩
    · cases hstep
  | rowsAffected result =>
    simp only [stepRunning] at hstep
    split at hstep
    · rename_i hpc
      rw [hpc] at h
      cases hstep
      exact ⟨h.1, .inr h.2⟩
    · rename_i hpc
      rw [hpc] at h
      cases hstep
      split
      · exact ⟨h.1, .inr h.2⟩
      split
      · exact ⟨h.1, .inr h.2⟩
      · exact h
    · cases hstep
  | publish result =>
    simp only [stepRunning] at hstep
    split at hstep
    · rename_i hpc
      rw [hpc] at h
      cases hstep
      exact h
    · rename_i hpc
      rw [hpc] at h
      cases hstep
      exact ⟨h.1, .inr h.2⟩
    · cases hstep
  | recheck =>
    simp only [stepRunning] at hstep
    split at hstep
    · rename_i hpc
      rw [hpc] at h
      cases hstep
      split
      · exact ⟨h.1, .inr h.2⟩
      · exact h
    · cases hstep
  | commit result =>
    simp only [stepRunning] at hstep
    split at hstep
    · rename_i hpc
      rw [hpc] at h
      cases hstep
      exact commitDone_at h
    · cases hstep
  | rollback ok =>
    simp only [stepRunning] at hstep
    split at hstep
    · rename_i hpc
      rw [hpc] at h
      cases hstep
      exact rollbackDone_at h
    · cases hstep
  | panic =>
    simp only [stepRunning, Option.ite_none_right_eq_some] at hstep
    obtain ⟨hin, hstep⟩ := hstep
    cases hstep
    exact h.panic hin
  | leave =>
    simp only [stepRunning] at hstep
    split at hstep
    · rename_i hpc
      rw [hpc] at h
      cases hstep
      exact h
    · cases hstep
  | respond =>
    simp only [stepRunning] at hstep
    split at hstep
    · rename_i hpc
      rw [hpc] at h
      cases hstep
      split
      · exact ⟨h.1, fun hr => h.2 (response_ok hr), fun e he => outcome_response he⟩
      · exact ⟨h.1, fun hr => h.2 (response_ok hr), fun e he => outcome_response he⟩
    · cases hstep
  | releaseInput ok =>
    simp only [stepRunning] at hstep
    split at hstep
    · rename_i result hpc
      rw [hpc] at h
      cases hstep
      cases result with
      | error e => exact ⟨h.1, nofun, h.2.2⟩
      | ok u =>
        cases ok with
        | true => exact ⟨h.1, h.2.1, nofun⟩
        | false =>
          refine ⟨h.1, nofun, ?_⟩
          rintro _ ⟨⟩
          rfl
    · cases hstep
  | unwind ok =>
    simp only [stepRunning] at hstep
    split at hstep
    · rename_i hpc
      rw [hpc] at h
      cases hstep
      split
      · obtain ⟨-, heq⟩ | heq := rollbackTx_cases s ok
        · simp only [heq]
          exact h
        · simp only [heq]
          exact h
      · exact h
    · cases hstep
  | recover =>
    simp only [stepRunning] at hstep
    split at hstep
    · rename_i hpc
      rw [hpc] at h
      cases hstep
      refine ⟨.unknown h, nofun, ?_⟩
      rintro _ ⟨⟩
      rfl
    · cases hstep

theorem step_at {a : Act} (h : s.record.At s.pc) (hstep : step c s a = some t) : t.record.At t.pc := by
  cases a with
  | env a => exact stepEnv_at h hstep
  | opening a => exact stepOpening_at h hstep
  | running a => exact stepRunning_at h hstep

/-! ### Runs -/

/-- The outcome agrees with what was asked of database/sql and with what became of the transaction. -/
def Agrees (s : State) : Outcome → Prop
  | .committed => .commit true ∈ s.log ∧ s.fate = .committed
  | .rolledBack => .begun ∈ s.log ∧ .rollback true ∈ s.log ∧ (∀ ok, .commit ok ∉ s.log) ∧ s.fate = .rolledBack
  | .noChange | .notStarted => .sent ∉ s.log ∧ s.fate = .none
  | .unknown => True

theorem Settled.agrees (h : s.record.Settled) : s.Agrees s.effects.outcome := by
  generalize hr : s.record = r at h
  obtain ⟨pc, expired, gate, watcher, stop, start, life, tx, bs, terminal, discard, effects, log, fate⟩ := s
  cases h with
  | unknown hfx =>
    subst hr
    obtain hfx | hfx : effects = _ ∨ effects = _ := hfx
    · subst hfx
      trivial
    · subst hfx
      trivial
  | _ =>
    simp only [record, Record.mk.injEq] at hr
    obtain ⟨rfl, rfl, rfl, rfl⟩ := hr
    simp [Agrees, Effects.outcome]

theorem run_at {acts : List Act} (hrun : (machine c).run {} acts = some s) : s.record.At s.pc := by
  have hinit : Record.At (State.record {}) (State.pc {}) := show State.record {} = Record.idle {} from rfl
  exact (machine c).run_invariant (I := fun s => s.record.At s.pc) (fun _ _ _ h hstep => step_at h hstep) hinit hrun

/-- Whatever fails, panics or is canceled, and in whatever order the begin gate, the end of the context and
the answers of the driver come: when `Execute` returns, success means that `Commit` returned no error, and
the outcome of a failure is committed, rolled back, no change or not started only if database/sql was
asked and has answered accordingly. -/
theorem mutation_outcome_sound {acts : List Act} {result : Except ErrorValue Unit}
    (hrun : (machine c).run {} acts = some s) (hreturned : s.pc = .returned result) :
    (result = .ok () → .commit true ∈ s.log ∧ s.fate = .committed) ∧
    ∀ e, result = .error e →
      (e.outcome = .committed → .commit true ∈ s.log ∧ s.fate = .committed) ∧
      (e.outcome = .rolledBack →
        .begun ∈ s.log ∧ .rollback true ∈ s.log ∧ (∀ ok, .commit ok ∉ s.log) ∧ s.fate = .rolledBack) ∧
      (e.outcome = .noChange ∨ e.outcome = .notStarted → .sent ∉ s.log ∧ s.fate = .none) := by
  have hat := run_at hrun
  rw [hreturned] at hat
  obtain ⟨hsettled, hok, herror⟩ := hat
  have hagrees := Settled.agrees hsettled
  refine ⟨fun hresult => ?_, fun e he => ?_⟩
  · have hfx : s.effects = { started := true, operations := [.committed] } := hok hresult
    rw [hfx] at hagrees
    exact hagrees
  · have heq : e.outcome = s.effects.outcome := herror e he
    rw [← heq] at hagrees
    refine ⟨fun ho => ?_, fun ho => ?_, fun ho => ?_⟩
    · rw [ho] at hagrees
      exact hagrees
    · rw [ho] at hagrees
      exact hagrees
    · obtain ho | ho := ho
      · rw [ho] at hagrees
        exact hagrees
      · rw [ho] at hagrees
        exact hagrees

/-- The context ends while the transaction is begun: the gate is canceled first, and the transaction that
was begun all the same is rolled back. -/
def canceledBegin : List Act :=
  [.opening .admission, .opening (.build true), .opening (.connect (.ok ())), .opening .arm,
    .opening .check, .env .expire, .env .watch, .opening (.beginTx (.ok ())), .opening .gate, .opening .stopWatcher,
    .opening .watcherDone, .opening .opened, .running (.rollback true), .running .leave, .running .respond]

theorem mutation_outcome_sound_canceledBegin :
    ∃ s, (machine ⟨.postgres, none, false⟩).run {} canceledBegin = some s ∧
      s.pc = .returned (.error ⟨"EXECUTION_TIMEOUT", "execution exceeded the configured deadline",
        "", .rolledBack⟩) ∧
      .begun ∈ s.log ∧ .rollback true ∈ s.log ∧ (∀ ok, .commit ok ∉ s.log) ∧ s.fate = .rolledBack := by
  refine ⟨_, rfl, rfl, ?_⟩
  exact ((@mutation_outcome_sound ⟨.postgres, none, false⟩ _ canceledBegin _ rfl rfl).2 _ rfl).2.1 rfl

end State
end Onprest.Agent
