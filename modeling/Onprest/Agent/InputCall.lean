import Onprest.Agent.Mutation

/-! A file-input call of an agent session after `request_begin` was accepted: the handlers of its later
frames, its transfer, the periodic sweep and its execution run in goroutines of their own, and each of
them may answer the call. Every section under the session's mutex and every post of a frame is one step.
Of the gateway it is assumed that it sends one `input_open` or `request_commit` at a time, the next one after
`input_ready` and none after a refusal, and that it does not cancel the call. -/

namespace Onprest.Agent
open Lib Contract

def inputFailure (code : String) : ErrorValue :=
  { code := code, message := executionMessage code, outcome := .notStarted }

/-- A Response frame that carries the id of the call. -/
inductive Reply
  | error (e : ErrorValue)
  | result
deriving DecidableEq, Repr

/-- Where a goroutine of the call is. `opening` says that it still has to count itself out of
`c.opening`. -/
inductive Job
  /-- `dispatch` of `input_open`: the wait for the management byte budget -/
  | openBudget
  /-- `openInput`: the check of the call, the transfer slot, the context of the request -/
  | openCheck | openSlot | openContext
  /-- `ReceiveReservedDone`, `NewFile` and the `input_accept` frame -/
  | openReceive | openFile | openAccept
  /-- the transfer, and the `input_ready` frame after it -/
  | receiving | ready
  /-- `dispatch` of `request_commit`, and `commit` -/
  | commitBudget | commitCheck | commitScope | execute
  /-- `abort` -/
  | aborting (code : String) (opening : Bool)
  /-- `respond` -/
  | answering (r : Reply) (opening : Bool)
deriving DecidableEq, Repr

/-- The call and its goroutines. `expired` says that its context has ended or its deadline has passed,
`deleted` that the session has forgotten it, and `outstanding` that a frame of the gateway has not been
answered by `input_ready`. -/
structure Call where
  outputFiles : Bool
  terminal : Bool := false
  executing : Bool := false
  opening : ℕ := 0
  expired : Bool := false
  deleted : Bool := false
  outstanding : Bool := false
  jobs : List Job := []
  posted : List Reply := []
deriving DecidableEq, Repr

/-- What a goroutine gets at its next step. -/
inductive Answer
  | ok
  | busy
  | failed (code : String)
  | executed (r : Reply)
deriving DecidableEq, Repr

inductive CallAct
  | expire
  | sweep
  | forget
  /-- an `input_open` arrives; `refusal` is the code with which `controls.admit` refuses it -/
  | inputOpen (refusal : Option String)
  | requestCommit (refusal : Option String)
  /-- a `request_commit` whose parameters cannot be accepted -/
  | rejectCommit (code : String)
  /-- the goroutine at position `i` takes a step -/
  | job (i : ℕ) (a : Answer)
deriving DecidableEq, Repr

namespace Call

/-- `finishOpening`. -/
def finishOpening (c : Call) (opening : Bool) : Call :=
  if opening && !c.deleted then { c with opening := c.opening - 1 } else c

/-- The check of `openInput` and `commit` fails. -/
def conflicts (c : Call) : Bool := c.deleted || c.terminal || c.executing

/-- One step of a goroutine: the call after it, and the goroutines that continue. -/
def stepJob (c : Call) : Job → Answer → Option (Call × List Job)
  | .openBudget, .ok => some (c, [.openCheck])
  | .openBudget, .failed _ =>
    if c.expired || c.deleted then some (c, [.answering (.error (inputFailure "EXECUTION_TIMEOUT")) true]) else none
  | .openCheck, .ok =>
    some (c, if c.conflicts then [.answering (.error (inputFailure "CONFLICT")) true] else [.openSlot])
  | .openSlot, .ok => some (c, [.openContext])
  | .openSlot, .busy => some (c, [.answering (.error (inputFailure "BUSY")) true])
  | .openContext, .ok => some (c, [.openReceive])
  | .openContext, .failed code => some (c, [.aborting code true])
  | .openReceive, .ok => some (c, [.openFile, .receiving])
  | .openReceive, .busy => some (c, [.answering (.error (inputFailure "BUSY")) true])
  | .openFile, .ok => some (c.finishOpening true, [.openAccept])
  | .openFile, .failed code => some (c, [.aborting code true])
  | .openAccept, .ok => some (c, [])
  | .openAccept, .failed _ => some (c, [.aborting "EXECUTION_TIMEOUT" false])
  | .receiving, .ok => some (c, [.ready])
  | .receiving, .failed code => some (c, [.aborting code false])
  | .ready, .ok => some ({ c with outstanding := false }, [])
  | .ready, .failed _ => some (c, [.aborting "EXECUTION_TIMEOUT" false])
  | .commitBudget, .ok => some (c, [.commitCheck])
  | .commitBudget, .failed _ =>
    if c.expired || c.deleted then some (c, [.answering (.error (inputFailure "EXECUTION_TIMEOUT")) false]) else none
  | .commitCheck, .ok =>
    if c.conflicts then some (c, [.answering (.error (inputFailure "CONFLICT")) false])
    else if 0 < c.opening then some (c, [.aborting "VALIDATION_FAILED" false])
    else some ({ c with executing := true }, [if c.outputFiles then .commitScope else .execute])
  | .commitCheck, .failed _ =>
    -- the parameters or the artifact store refuse the commit
    if c.conflicts || 0 < c.opening then none else some (c, [.aborting "VALIDATION_FAILED" false])
  | .commitScope, .ok => some (c, [.execute])
  | .commitScope, .failed code => some (c, [.aborting code false])
  | .execute, .executed r => some ({ c with terminal := true }, [.answering r false])
  | .aborting code opening, .ok =>
    if c.terminal then some (c.finishOpening opening, [])
    else if c.executing then some ({ c with terminal := true, expired := true }.finishOpening opening, [])
    else some ({ c with terminal := true, expired := true }, [.answering (.error (inputFailure code)) opening])
  | .answering r opening, .ok => some ({ c with posted := c.posted ++ [r] }.finishOpening opening, [])
  | _, _ => none

def step (c : Call) : CallAct → Option Call
  | .expire => if c.expired then none else some { c with expired := true }
  | .sweep =>
    if !c.executing && !c.terminal && c.expired then
      some { c with jobs := c.jobs ++ [.aborting "EXECUTION_TIMEOUT" false] }
    else none
  | .forget => if c.terminal && !c.deleted then some { c with deleted := true } else none
  | .inputOpen refusal =>
    if c.outstanding then none
    else
      match refusal with
      | some code =>
        some { c with outstanding := true, jobs := c.jobs ++ [.answering (.error (inputFailure code)) false] }
      | none =>
        some { c with
          outstanding := true
          opening := if c.conflicts then c.opening else c.opening + 1
          jobs := c.jobs ++ [.openBudget] }
  | .requestCommit refusal =>
    if c.outstanding then none
    else
      match refusal with
      | some code =>
        some { c with outstanding := true, jobs := c.jobs ++ [.answering (.error (inputFailure code)) false] }
      | none => some { c with outstanding := true, jobs := c.jobs ++ [.commitBudget] }
  | .rejectCommit code =>
    if c.outstanding || c.deleted then none
    else some { c with outstanding := true, jobs := c.jobs ++ [.aborting code false] }
  | .job i a =>
    match c.jobs[i]? with
    | some j => (c.stepJob j a).map fun r => { r.1 with jobs := c.jobs.take i ++ r.2 ++ c.jobs.drop (i + 1) }
    | none => none

def machine : Machine Call CallAct where
  step := step

/-- The step answers the call without ending it: the byte budget of its frame expires, a limit refuses the
frame, or its handler finds the call ended. -/
@[simp] def strayJob (c : Call) : Job → Answer → Bool
  | .openBudget, .failed _ | .openSlot, .busy | .openReceive, .busy | .commitBudget, .failed _ => true
  | .openCheck, .ok | .commitCheck, .ok => c.conflicts
  | _, _ => false

def stray (c : Call) : CallAct → Bool
  | .inputOpen refusal | .requestCommit refusal => refusal.isSome
  | .job i a => (c.jobs[i]?).any fun j => c.strayJob j a
  | _ => false

/-- The step ends a committed call without an answer: the output scope is refused. -/
@[simp] def lostJob : Job → Answer → Bool
  | .commitScope, .failed _ => true
  | _, _ => false

def lost (c : Call) : CallAct → Bool
  | .job i a => (c.jobs[i]?).any fun j => lostJob j a
  | _ => false

/-! ### Counting answers -/

end Call

namespace Job

/-- A goroutine about to answer. -/
@[simp] def answers : Job → Bool
  | .answering .. => true
  | _ => false

/-- A goroutine that holds the committed call. -/
@[simp] def runs : Job → Bool
  | .commitScope | .execute => true
  | _ => false

/-- A goroutine that handles the outstanding frame of the gateway. -/
@[simp] def handles : Job → Bool
  | .openBudget | .openCheck | .openSlot | .openContext | .openReceive | .receiving | .ready | .commitBudget
  | .commitCheck => true
  | _ => false

end Job

namespace Call

/-- After `b` stray answers and `z` lost ones: a call that has ended or executes is answered once, or
about to be, or its execution is to answer it. -/
structure Counted (c : Call) (b z : ℕ) : Prop where
  answers : c.posted.length + c.jobs.countP Job.answers + c.jobs.countP Job.runs + z =
    (c.terminal || c.executing).toNat + b
  frame : c.jobs.countP Job.handles + b + c.executing.toNat ≤ c.outstanding.toNat
  committed : c.jobs.countP Job.runs + z ≤ c.executing.toNat

@[simp] theorem finishOpening_fields (c : Call) (o : Bool) :
    (c.finishOpening o).posted = c.posted ∧ (c.finishOpening o).terminal = c.terminal ∧
      (c.finishOpening o).executing = c.executing ∧ (c.finishOpening o).outstanding = c.outstanding := by
  unfold finishOpening
  split <;> simp

/-- What a step of one goroutine changes of the counts. -/
structure Balanced (c : Call) (j : Job) (a : Answer) (c' : Call) (js : List Job) : Prop where
  answers : c'.posted.length + js.countP Job.answers + js.countP Job.runs + (lostJob j a).toNat +
      (c.terminal || c.executing).toNat =
    c.posted.length + j.answers.toNat + j.runs.toNat + (c.strayJob j a).toNat + (c'.terminal || c'.executing).toNat
  frame : js.countP Job.handles + (c.strayJob j a).toNat + c'.executing.toNat ≤ j.handles.toNat + c.executing.toNat
  outstanding : c'.outstanding = c.outstanding ∨
    j.handles = true ∧ js = [] ∧ c'.executing = c.executing ∧ c.strayJob j a = false
  committed : js.countP Job.runs + (lostJob j a).toNat + c.executing.toNat ≤ j.runs.toNat + c'.executing.toNat

variable {c c' : Call} {j : Job} {a : Answer} {i b z : ℕ}

variable {js : List Job}

theorem stepJob_balanced (h : c.stepJob j a = some (c', js)) (hruns : j.runs = true → c.executing = true) :
    c.Balanced j a c' js := by
  cases j with
  | openBudget | commitBudget =>
    cases a <;> simp only [stepJob, Option.ite_none_right_eq_some, Option.some.injEq,
      Prod.mk.injEq, reduceCtorEq] at h
    case ok =>
      obtain ⟨rfl, rfl⟩ := h
      constructor <;> simp
    case failed =>
      obtain ⟨-, rfl, rfl⟩ := h
      constructor <;> simp
  | openCheck =>
    cases a <;> simp only [stepJob, Option.some.injEq, Prod.mk.injEq, reduceCtorEq] at h
    obtain ⟨rfl, rfl⟩ := h
    cases hc : c.conflicts <;> constructor <;> simp [hc]
  | openSlot | openContext | openReceive | openFile | openAccept | receiving | ready | commitScope =>
    cases a <;> simp only [stepJob, Option.some.injEq, Prod.mk.injEq, reduceCtorEq] at h
    all_goals
      obtain ⟨rfl, rfl⟩ := h
      constructor <;> simp
  | commitCheck =>
    cases a <;> simp only [stepJob, reduceCtorEq] at h
    case ok =>
      split at h
      · rename_i hc
        simp only [Option.some.injEq, Prod.mk.injEq] at h
        obtain ⟨rfl, rfl⟩ := h
        constructor <;> simp [hc]
      split at h
      · rename_i hc _
        simp only [Option.some.injEq, Prod.mk.injEq] at h
        obtain ⟨rfl, rfl⟩ := h
        constructor <;> simp [hc]
      · rename_i hc _
        obtain ⟨⟨-, hterminal⟩, hexecuting⟩ : (c.deleted = false ∧ c.terminal = false) ∧ c.executing = false := by
          simpa [conflicts] using hc
        simp only [Option.some.injEq, Prod.mk.injEq] at h
        obtain ⟨rfl, rfl⟩ := h
        cases c.outputFiles <;> constructor <;> simp [hc, hterminal, hexecuting]
    case failed =>
      simp only [Option.ite_none_left_eq_some, Option.some.injEq, Prod.mk.injEq] at h
      obtain ⟨-, rfl, rfl⟩ := h
      constructor <;> simp
  | execute =>
    have hexecuting := hruns rfl
    cases a <;> simp only [stepJob, Option.some.injEq, Prod.mk.injEq, reduceCtorEq] at h
    obtain ⟨rfl, rfl⟩ := h
    constructor <;> simp [hexecuting]
  | aborting code opening =>
    cases a <;> simp only [stepJob, reduceCtorEq] at h
    split at h
    · simp only [Option.some.injEq, Prod.mk.injEq] at h
      obtain ⟨rfl, rfl⟩ := h
      constructor <;> simp
    rename_i hterminal
    split at h
    · rename_i hexecuting
      simp only [Option.some.injEq, Prod.mk.injEq] at h
      obtain ⟨rfl, rfl⟩ := h
      constructor <;> simp [hexecuting]
    · rename_i hexecuting
      simp only [Option.some.injEq, Prod.mk.injEq] at h
      obtain ⟨rfl, rfl⟩ := h
      constructor <;> simp [hterminal, hexecuting]
  | answering r opening =>
    cases a <;> simp only [stepJob, Option.some.injEq, Prod.mk.injEq, reduceCtorEq] at h
    obtain ⟨rfl, rfl⟩ := h
    constructor <;> simp

/-- The goroutine at position `i` and the others. -/
theorem jobs_split {l : List Job} (h : l[i]? = some j) (p : Job → Bool) :
    l.countP p = (l.take i).countP p + (p j).toNat + (l.drop (i + 1)).countP p := by
  obtain ⟨hi, rfl⟩ := List.getElem?_eq_some_iff.mp h
  conv_lhs => rw [← List.take_append_drop i l, List.drop_eq_getElem_cons hi]
  rw [List.countP_append, List.countP_cons]
  cases hp : p l[i]
  · simp
  · simp only [↓reduceIte, Bool.toNat_true]
    omega

theorem Counted.job (h : c.Counted b z) (hstep : c.step (.job i a) = some c') :
    c'.Counted (b + (c.stray (.job i a)).toNat) (z + (c.lost (.job i a)).toNat) := by
  obtain ⟨hanswers, hframe, hcommitted⟩ := h
  simp only [step] at hstep
  split at hstep
  · rename_i j hj
    obtain ⟨⟨c₁, js⟩, hstepJob, rfl⟩ := Option.map_eq_some_iff.mp hstep
    have hcountA := jobs_split hj Job.answers
    have hcountR := jobs_split hj Job.runs
    have hcountH := jobs_split hj Job.handles
    have hruns : j.runs = true → c.executing = true := by
      intro hr
      rw [hr, Bool.toNat_true] at hcountR
      cases hexecuting : c.executing with
      | true => rfl
      | false =>
        rw [hexecuting, Bool.toNat_false] at hcommitted
        omega
    obtain ⟨hA, hF, hO, hC⟩ := stepJob_balanced hstepJob hruns
    simp only [stray, lost, hj, Option.any_some]
    refine ⟨?_, ?_, ?_⟩
    · simp only [List.countP_append]
      omega
    · simp only [List.countP_append]
      obtain hO | ⟨hhandles, rfl, hexecuting, hstray⟩ := hO
      · rw [hO]
        omega
      · -- the frame is answered: it was the only one
        have hone : c.outstanding.toNat ≤ 1 := Bool.toNat_le _
        rw [hhandles] at hcountH
        simp only [hexecuting, hstray, Bool.toNat_true, Bool.toNat_false, List.countP_nil] at hcountH ⊢
        omega
    · simp only [List.countP_append]
      omega
  · cases hstep

/-- Without an outstanding frame no goroutine handles one. -/
theorem Counted.idle (h : c.Counted b z) (hidle : c.outstanding = false) :
    c.posted.length + c.jobs.countP Job.answers + c.jobs.countP Job.runs + z =
      (c.terminal || c.executing).toNat + b ∧
      c.jobs.countP Job.handles + b + c.executing.toNat = 0 ∧ c.jobs.countP Job.runs + z ≤ c.executing.toNat := by
  have hframe := h.frame
  rw [hidle, Bool.toNat_false] at hframe
  exact ⟨h.answers, Nat.le_zero.mp hframe, h.committed⟩

theorem Counted.step {a : CallAct} (h : c.Counted b z) (hstep : c.step a = some c') :
    c'.Counted (b + (c.stray a).toNat) (z + (c.lost a).toNat) := by
  cases a with
  | job i a => exact h.job hstep
  | expire =>
    simp only [Call.step, Option.ite_none_left_eq_some, Option.some.injEq] at hstep
    obtain ⟨-, rfl⟩ := hstep
    exact ⟨h.answers, h.frame, h.committed⟩
  | forget =>
    simp only [Call.step, Option.ite_none_right_eq_some, Option.some.injEq] at hstep
    obtain ⟨-, rfl⟩ := hstep
    exact ⟨h.answers, h.frame, h.committed⟩
  | sweep =>
    simp only [Call.step, Option.ite_none_right_eq_some, Option.some.injEq] at hstep
    obtain ⟨-, rfl⟩ := hstep
    obtain ⟨hanswers, hframe, hcommitted⟩ := h
    constructor <;> simpa [stray, lost]
  | rejectCommit code =>
    simp only [Call.step, Option.ite_none_left_eq_some, Option.some.injEq, Bool.or_eq_true, not_or] at hstep
    obtain ⟨⟨hidle, -⟩, rfl⟩ := hstep
    obtain ⟨hanswers, hframe, hcommitted⟩ := h.idle (by simpa using hidle)
    exact ⟨by simpa [stray, lost] using hanswers, by simp [stray]; omega, by simpa [lost] using hcommitted⟩
  | inputOpen refusal | requestCommit refusal =>
    simp only [Call.step, Option.ite_none_left_eq_some] at hstep
    obtain ⟨hidle, hstep⟩ := hstep
    obtain ⟨hanswers, hframe, hcommitted⟩ := h.idle (by simpa using hidle)
    cases refusal with
    | none =>
      cases hstep
      exact ⟨by simpa [stray, lost] using hanswers, by simp [stray]; omega, by simpa [lost] using hcommitted⟩
    | some code =>
      cases hstep
      exact ⟨by simp [stray, lost]; omega, by simp [stray]; omega, by simpa [lost] using hcommitted⟩

/-! ### Runs -/

theorem Counted.run {acts : List CallAct} (h : c.Counted b z) (hrun : machine.run c acts = some c') :
    c'.Counted (b + machine.steps stray c acts) (z + machine.steps lost c acts) := by
  induction acts generalizing c b z with
  | nil =>
    cases hrun
    exact h
  | cons a acts ih =>
    obtain ⟨c₁, hstep, hrun⟩ := machine.run_cons.mp hrun
    have hnext := ih (h.step hstep) hrun
    simp only [Machine.steps, hstep]
    rw [← Nat.add_assoc, ← Nat.add_assoc]
    exact hnext

/-- When the call has ended and its goroutines have returned, it was answered exactly once if and only if
no answer was given without ending it and no committed call was dropped without one. -/
theorem answered_once_iff {f : Bool} {acts : List CallAct} {c : Call}
    (hrun : machine.run { outputFiles := f } acts = some c) (hterminal : c.terminal = true) (hdone : c.jobs = []) :
    c.posted.length = 1 ↔
      machine.steps stray { outputFiles := f } acts = 0 ∧ machine.steps lost { outputFiles := f } acts = 0 := by
  have hinit : Call.Counted { outputFiles := f } 0 0 := by constructor <;> simp
  obtain ⟨hanswers, hframe, hcommitted⟩ := hinit.run hrun
  rw [hdone] at hanswers hframe hcommitted
  simp only [List.countP_nil, hterminal, Bool.true_or, Bool.toNat_true] at hanswers hframe hcommitted
  have hone : c.outstanding.toNat ≤ 1 := Bool.toNat_le _
  omega

/-- One file is transferred, and the call is committed and executed. -/
def oneFileCall : List CallAct :=
  [.inputOpen none, .job 0 .ok, .job 0 .ok, .job 0 .ok, .job 0 .ok, .job 0 .ok, .job 0 .ok, .job 0 .ok, .job 0 .ok,
    .job 0 .ok, .requestCommit none, .job 0 .ok, .job 0 .ok, .job 0 (.executed .result), .job 0 .ok]

theorem answered_once_iff_oneFileCall :
    ∃ c, machine.run { outputFiles := false } oneFileCall = some c ∧ c.terminal = true ∧ c.jobs = [] ∧
      c.posted.length = 1 := by
  refine ⟨_, rfl, rfl, rfl, ?_⟩
  exact (@answered_once_iff false oneFileCall _ rfl rfl rfl).mpr (by decide)

/-- The byte budget of an `input_open` expires with the deadline of the call, and the sweep ends it. -/
def budgetExpires : List CallAct :=
  [.inputOpen none, .expire, .job 0 (.failed "EXECUTION_TIMEOUT"), .job 0 .ok, .sweep, .job 0 .ok, .job 0 .ok]

/-- The sweep ends the call while its `request_commit` waits for the byte budget. -/
def sweptBeforeCommit : List CallAct :=
  [.requestCommit none, .expire, .sweep, .job 1 .ok, .job 1 .ok, .job 0 .ok, .job 0 .ok, .job 0 .ok]

/-- The artifact store refuses the output scope of a committed call. -/
def scopeRefused : List CallAct :=
  [.requestCommit none, .job 0 .ok, .job 0 .ok, .job 0 (.failed "DEPENDENCY_UNAVAILABLE"), .job 0 .ok]

theorem answered_twice_or_never :
    (machine.run { outputFiles := false } budgetExpires).map (fun c => (c.terminal, c.jobs, c.posted)) =
      some (true, [], [.error (inputFailure "EXECUTION_TIMEOUT"), .error (inputFailure "EXECUTION_TIMEOUT")]) ∧
    (machine.run { outputFiles := false } sweptBeforeCommit).map (fun c => (c.terminal, c.jobs, c.posted)) =
      some (true, [], [.error (inputFailure "EXECUTION_TIMEOUT"), .error (inputFailure "CONFLICT")]) ∧
    (machine.run { outputFiles := true } scopeRefused).map (fun c => (c.terminal, c.jobs, c.posted)) =
      some (true, [], []) :=
  ⟨rfl, rfl, rfl⟩

/-! ### Execution -/

/-- The step ends the execution of the call. -/
@[simp] def executedJob : Job → Answer → Bool
  | .execute, .executed _ => true
  | _, _ => false

def executed (c : Call) : CallAct → Bool
  | .job i a => (c.jobs[i]?).any fun j => executedJob j a
  | _ => false

/-- The executions the call may still have. -/
def executions (c : Call) : ℕ := c.jobs.countP Job.runs + (!c.executing).toNat

theorem stepJob_executions (h : c.stepJob j a = some (c', js)) :
    js.countP Job.runs + (!c'.executing).toNat + (executedJob j a).toNat ≤ j.runs.toNat + (!c.executing).toNat ∧
      (c.terminal = true → c'.terminal = true ∧ c'.executing = c.executing) := by
  unfold stepJob at h
  split at h
  case h_20 =>
    -- a commit starts the execution of a call that neither executes nor has ended
    split at h
    · cases h
      simp
    rename_i hc
    have hfree : (c.deleted = false ∧ c.terminal = false) ∧ c.executing = false := by simpa [conflicts] using hc
    split at h <;> cases h
    · simp
    · cases c.outputFiles <;> simp [hfree]
  case h_24 =>
    cases h
    simp [Nat.add_comm]
  all_goals
    repeat' split at h
    all_goals cases h
    all_goals simp

theorem step_executions {a : CallAct} (hstep : c.step a = some c') :
    c'.executions + (c.executed a).toNat ≤ c.executions ∧
      (c.terminal = true → c'.terminal = true ∧ c'.executing = c.executing) := by
  cases a with
  | job i a =>
    simp only [Call.step] at hstep
    split at hstep
    · rename_i j hj
      obtain ⟨⟨c₁, js⟩, hjob, rfl⟩ := Option.map_eq_some_iff.mp hstep
      obtain ⟨hcount, hended⟩ := stepJob_executions hjob
      refine ⟨?_, hended⟩
      rw [executions, executions, jobs_split hj Job.runs]
      simp only [executed, hj, Option.any_some, List.countP_append]
      omega
    · cases hstep
  | _ =>
    simp only [Call.step] at hstep
    repeat' split at hstep
    all_goals cases hstep
    all_goals simp [executions, executed]

/-- A call that was answered before it was committed has ended or has a frame outstanding for good, so it is never
committed. -/
theorem Counted.never_executing {more : List CallAct} (h : c.Counted b z) (hposted : c.posted ≠ [])
    (hidle : c.executing = false) (hrun : machine.run c more = some c') : c'.executing = false := by
  have hanswers := h.answers
  have hlength := List.length_pos_iff.mpr hposted
  rw [hidle, Bool.or_false] at hanswers
  cases hended : c.terminal with
  | true =>
    have hkept : c'.terminal = true ∧ c'.executing = false := by
      refine machine.run_invariant (I := fun c => c.terminal = true ∧ c.executing = false) ?_ ⟨hended, hidle⟩ hrun
      rintro c a c' ⟨hterminal, hexecuting⟩ hstep
      obtain ⟨hterminal', hsame⟩ := (step_executions hstep).2 hterminal
      exact ⟨hterminal', hsame.trans hexecuting⟩
    exact hkept.2
  | false =>
    rw [hended, Bool.toNat_false] at hanswers
    have hframe := (h.run hrun).frame
    have hone : c'.outstanding.toNat ≤ 1 := Bool.toNat_le _
    cases hexecuting : c'.executing with
    | false => rfl
    | true =>
      rw [hexecuting, Bool.toNat_true] at hframe
      omega

/-- Under a gateway that sends one `input_open` or `request_commit` at a time, none after a refusal and no cancel, in
every order of frames, goroutines, sweeps and deadlines a call is executed at most once and answered at most twice,
and a call that was answered without being committed is not executed afterwards. -/
theorem executed_at_most_once {f : Bool} {acts : List CallAct} {c : Call}
    (hrun : machine.run { outputFiles := f } acts = some c) :
    machine.steps executed { outputFiles := f } acts ≤ 1 ∧ c.posted.length ≤ 2 ∧
      (c.posted ≠ [] → c.executing = false → ∀ more c', machine.run c more = some c' →
        c'.executing = false ∧ machine.steps executed c more = 0) := by
  have hinit : Call.Counted { outputFiles := f } 0 0 := by constructor <;> simp
  have hcounted := hinit.run hrun
  have hmeasure {c c' : Call} {acts : List CallAct} (h : machine.run c acts = some c') :
      c'.executions + machine.steps executed c acts ≤ c.executions :=
    machine.run_measure (I := fun _ => True) (fun _ _ _ _ hstep => ⟨trivial, (step_executions hstep).1⟩) trivial h
  refine ⟨?_, ?_, fun hposted hidle more c' hmore => ?_⟩
  · exact Nat.le_of_add_left_le (hmeasure hrun)
  · have hanswers := hcounted.answers
    have hframe := hcounted.frame
    have hone : c.outstanding.toNat ≤ 1 := Bool.toNat_le _
    have hended : (c.terminal || c.executing).toNat ≤ 1 := Bool.toNat_le _
    omega
  · have hidle' := hcounted.never_executing hposted hidle hmore
    have hbound := hmeasure hmore
    have hruns := hcounted.committed
    rw [hidle, Bool.toNat_false] at hruns
    simp only [executions, hidle, hidle', Bool.not_false, Bool.toNat_true] at hbound
    exact ⟨hidle', by omega⟩

/-- An `input_open` is refused while the call is new, and its deadline passes. -/
theorem executed_at_most_once_refused :
    ∃ c c', machine.run { outputFiles := false } [.inputOpen (some "BUSY"), .job 0 .ok] = some c ∧
      machine.run c [.expire, .sweep, .job 0 .ok, .job 0 .ok] = some c' ∧ c.posted.length = 1 ∧
      c'.posted.length = 2 ∧
      c'.executing = false ∧ machine.steps executed c [.expire, .sweep, .job 0 .ok, .job 0 .ok] = 0 :=
  ⟨_, _, rfl, rfl, rfl, rfl, (@executed_at_most_once false [.inputOpen (some "BUSY"), .job 0 .ok] _ rfl).2.2
    (by simp) rfl _ _ rfl⟩

end Call
end Onprest.Agent
