import Onprest.Ws.Local.View

/-! Everything a local step of the engine can do to a single transfer identifier, stated once. Steps on
other transfers leave it alone. -/

namespace Onprest.Ws
open Lib Protocol

def Output.about (id : String) : Output → Bool
  | .frame f => f.transferID = id
  | .write id' _ => id' = id
  | .ended id' _ => id' = id

/-- An action that ends the context of a transfer. -/
def Action.cancels (a : Action) (id request : String) : Bool :=
  match a with
  | .cancel id' => id' = id
  | .cancelRequest request' => request = request'
  | .close => true
  | _ => false

/-- The action is a step of the goroutine of a transfer or of one of its chunks, acknowledgements or ends. -/
def Action.concerns (t : Transfers) (id : String) : Action → Bool
  | .move i _ | .retire i => i = id
  | .check k _ | .run k =>
    match t.jobs.lookup k with
    | some j => j.transfer = id && j.start ≠ .grant
    | none => false
  | _ => false

/-- What the local action `a` of the engine `t` can do to the transfer `id`. -/
inductive LocalStep (sha256 : List UInt8 → String) (t : Transfers) (a : Action) (id : String) :
    Local → Local → List Output → Prop
  | idle (l : Local) (hidle : a.concerns t id = false) : LocalStep sha256 t a id l l []
  | move {v : WireTransfer} {m : Move} {u : Update} {r : Option RetiredTransfer} {jobs : ℕ → Option Job}
      (ha : a = .move id m) (hu : t.move sha256 id v m = some u) (hfree : jobs t.tickets = none) :
      LocalStep sha256 t a id ⟨some v, r, jobs⟩ ⟨some u.entry, r, addJob jobs t.tickets u.job⟩ u.out
  | retire {v : WireTransfer} {err : Bool} {r : Option RetiredTransfer} {jobs : ℕ → Option Job}
      (ha : a = .retire id) (hpc : v.pc = .stopped err) :
      LocalStep sha256 t a id ⟨some v, r, jobs⟩ ⟨none, some (v.retired err), jobs⟩ []
  | cancel {v : WireTransfer} {r : Option RetiredTransfer} {jobs : ℕ → Option Job}
      (ha : a.cancels id v.request = true) :
      LocalStep sha256 t a id ⟨some v, r, jobs⟩ ⟨some { v with cancelled := true }, r, jobs⟩ []
  | drop {l : Local} {k : ℕ} {j : Job} (hj : l.jobs k = some j) (hchecked : j.checked = false)
      (hctx : j.start ≠ .grant → t.jobCancelled j = true)
      (hgrant : j.start = .grant → a.concerns t id = false) :
      LocalStep sha256 t a id l { l with jobs := Function.update l.jobs k none } []
  | check {l : Local} {k : ℕ} {j : Job} (hj : l.jobs k = some j) (hchecked : j.checked = false)
      (hctx : j.start ≠ .grant → t.jobCancelled j = false)
      (hgrant : j.start = .grant → a.concerns t id = false) :
      LocalStep sha256 t a id l
        { l with jobs := Function.update l.jobs k (some { j with checked := true }) } []
  | run {v : WireTransfer} {r : Option RetiredTransfer} {jobs : ℕ → Option Job} {k : ℕ} {j : Job}
      (hj : jobs k = some j) (hchecked : j.checked = true) (hstart : j.start ≠ .grant)
      (hserial : v.serial = j.serial) :
      LocalStep sha256 t a id ⟨some v, r, jobs⟩
        ⟨some (Transfers.started v j.start).entry, r, Function.update jobs k none⟩ [.frame j.frame]
  | runLate {l : Local} {k : ℕ} {j : Job} (hj : l.jobs k = some j) (hchecked : j.checked = true)
      (hstart : j.start ≠ .grant) (hserial : ∀ v, l.live = some v → v.serial ≠ j.serial) :
      LocalStep sha256 t a id l { l with jobs := Function.update l.jobs k none } [.frame j.frame]
  | grant {v : WireTransfer} {r : Option RetiredTransfer} {jobs : ℕ → Option Job} {k : ℕ} {j : Job}
      (hj : jobs k = some j) (hchecked : j.checked = true) (hstart : j.start = .grant)
      (hsending : v.sending = false) (hgranted : v.granted = false) (hquiet : a.concerns t id = false) :
      LocalStep sha256 t a id ⟨some v, r, jobs⟩
        ⟨some { v with granted := true }, r, Function.update jobs k none⟩ [.frame j.frame]
  | refuse {l : Local} {k : ℕ} {j : Job} (hj : l.jobs k = some j) (hchecked : j.checked = true)
      (hstart : j.start = .grant) (hquiet : a.concerns t id = false) :
      LocalStep sha256 t a id l { l with jobs := Function.update l.jobs k none } []

namespace Transfers
variable {t t' : Transfers} {id id' : String} {v : WireTransfer} {u : Update}

variable {sha256 : List UInt8 → String} {j : Job} {a : Action} {err : Bool} {k : ℕ}

/-- The frame a goroutine posts belongs to its own transfer. -/
theorem Moved.job (hm : t.Moved sha256 id v u) (hj : u.job = some j) :
    j.transfer = id ∧ j.serial = v.serial ∧ j.frame.transferID = id ∧ j.start ≠ .grant ∧
      j.checked = false := by
  cases hm with
  | read | drained | wrote =>
    cases hj
    exact ⟨rfl, rfl, rfl, nofun, rfl⟩
  | _ => cases hj

theorem Moved.out (hm : t.Moved sha256 id v u) {o : Output} (ho : o ∈ u.out) (i : String) :
    o.about i = decide (id = i) := by
  cases hm with
  | take =>
    obtain rfl := List.mem_singleton.mp ho
    split <;> rfl
  | _ => cases ho

/-- A goroutine writes no frame itself. -/
theorem Moved.no_frame (hm : t.Moved sha256 id v u) : u.out.filterMap Output.frame? = [] := by
  cases hm with
  | take =>
    rename_i item rest hpc hqueue
    by_cases hend : item.frame.type = .transferEnd
    · simp [hend, Output.frame?]
    · simp [hend, Output.frame?]
  | _ => rfl

/-- A goroutine that runs no callback leaves its queue alone. -/
theorem Moved.queue (hm : t.Moved sha256 id v u) (hout : u.out = []) : u.entry.queue = v.queue := by
  cases hm with
  | take => cases hout
  | _ => rfl

/-- A callback runs for the item at the head of the queue. -/
theorem Moved.taken (hm : t.Moved sha256 id v u) (hout : u.out ≠ []) :
    ∃ item rest, v.queue = item :: rest ∧ u.entry.queue = rest ∧
      u.out = [if item.frame.type = .transferEnd then .ended id item.frame else .write id item.body] := by
  cases hm with
  | take hpc hqueue => exact ⟨_, _, hqueue, rfl, rfl⟩
  | _ => exact absurd rfl hout

/-- The local part of a step on one transfer, from what it does to that transfer. -/
theorem local_other (id : String) (out : List Output)
    (hself : LocalStep sha256 t a id (t.view id) (t'.view id) (out.filter (Output.about id)))
    (hother : ∀ i, i ≠ id → t'.view i = t.view i) (hidle : ∀ i, i ≠ id → a.concerns t i = false)
    (hout : ∀ o ∈ out, ∀ i, i ≠ id → o.about i = false) (i : String) :
    LocalStep sha256 t a i (t.view i) (t'.view i) (out.filter (Output.about i)) := by
  by_cases hi : i = id
  · subst hi
    exact hself
  · have hnil : out.filter (Output.about i) = [] :=
      List.filter_eq_nil_iff.mpr fun o ho => by simp [hout o ho i hi]
    rw [hother i hi, hnil]
    exact .idle _ (hidle i hi)

theorem local_move (h : Accounting t) {m : Move} (hv : t.live.lookup id = some v)
    (hu : t.move sha256 id v m = some u) (i : String) :
    LocalStep sha256 t (.move id m) i (t.view i) ((t.apply id u).view i)
      (u.out.filter (Output.about i)) := by
  have hm := move_moved sha256 hu
  have hjob : ∀ j, u.job = some j → j.transfer = id := fun j hj => (hm.job hj).1
  refine local_other id u.out ?_ (fun i hi => view_apply_other h hi hjob)
    (fun i hi => by simp [Action.concerns, hi.symm]) ?_ i
  · have hout : u.out.filter (Output.about id) = u.out :=
      List.filter_eq_self.mpr fun o ho => (hm.out ho id).trans (decide_eq_true rfl)
    rw [hout, view_apply hjob, view_live hv]
    exact .move rfl hu (view_free h)
  · intro o ho i hi
    rw [hm.out ho i]
    exact decide_eq_false hi.symm

theorem local_retire (hv : t.live.lookup id = some v) (hpc : v.pc = .stopped err) (i : String) :
    LocalStep sha256 t (.retire id) i (t.view i) ((t.retire id v err).view i) [] := by
  refine local_other id [] ?_ (fun i hi => ?_) (fun i hi => by simp [Action.concerns, hi.symm])
    (fun o ho => nomatch ho) i
  · have hview : (t.retire id v err).view id = ⟨none, some (v.retired err), (t.view id).jobs⟩ := by
      simp [view, retire, WireTransfer.retired]
    rw [hview, view_live hv]
    exact .retire rfl hpc
  · simp [view, retire, AList.lookup_erase_ne hi, AList.lookup_insert_ne hi]

/-- The jobs of another transfer do not concern this one. -/
theorem concerns_other (hj : t.jobs.lookup k = some j) {i : String} (hi : i ≠ j.transfer) (err : Bool) :
    Action.concerns t i (.check k err) = false ∧ Action.concerns t i (.run k) = false := by
  simp [Action.concerns, hj, hi.symm]

/-- The grant of credit is not one of the frames of the goroutine. -/
theorem concerns_grant (hj : t.jobs.lookup k = some j) (hstart : j.start = .grant) (i : String) (err : Bool) :
    Action.concerns t i (.check k err) = false ∧ Action.concerns t i (.run k) = false := by
  simp [Action.concerns, hj, hstart]

theorem local_check (hs : t.checkStep k err = some t') (i : String) :
    LocalStep sha256 t (.check k err) i (t.view i) (t'.view i) [] := by
  unfold checkStep at hs
  split at hs
  · rename_i j hj
    split at hs
    · cases hs
    rename_i hc
    simp only [not_or, not_and, not_not, Bool.not_eq_true] at hc
    cases err with
    | true =>
      cases hs
      refine local_other j.transfer [] ?_ (fun i hi => view_dropJob_other hj hi)
        (fun i hi => (concerns_other hj hi true).1) (fun o ho => nomatch ho) i
      rw [view_dropJob]
      exact .drop (view_jobs hj rfl) hc.1 (fun hg => (hc.2 hg).symm) fun hg => (concerns_grant hj hg _ _).1
    | false =>
      cases hs
      refine local_other j.transfer [] ?_ (fun i hi => ?_) (fun i hi => (concerns_other hj hi false).1)
        (fun o ho => nomatch ho) i
      · rw [view_setJob k (by rfl)]
        exact .check (view_jobs hj rfl) hc.1 (fun hg => (hc.2 hg).symm) fun hg => (concerns_grant hj hg _ _).1
      · refine view_setJob_other hi.symm fun j' hj' => ?_
        obtain rfl := Option.some.inj (hj.symm.trans hj')
        exact hi.symm
  · cases hs

theorem local_startCallback (h : Accounting t) (hj : t.jobs.lookup k = some j) (hchecked : j.checked = true)
    (hstart : j.start ≠ .grant) (htag : j.frame.transferID = j.transfer) (i : String) :
    LocalStep sha256 t (.run k) i (t.view i)
      ((({ t with jobs := t.jobs.erase k } : Transfers).startCallback j).view i)
      ([Output.frame j.frame].filter (Output.about i)) := by
  have hout : [Output.frame j.frame].filter (Output.about j.transfer) = [Output.frame j.frame] := by
    simp [Output.about, htag]
  refine local_other j.transfer _ ?_ (fun i hi => ?_) (fun i hi => (concerns_other hj hi true).2)
    (fun o ho i hi => ?_) i
  · rw [hout]
    unfold startCallback
    split
    · rename_i v hv
      change t.live.lookup j.transfer = some v at hv
      split
      · rename_i hserial
        have hnone : (started v j.start).job = none := by unfold started; split <;> rfl
        rw [view_apply (fun i hi => by rw [hnone] at hi; cases hi), hnone, view_dropJob, view_live hv]
        exact .run (view_jobs hj rfl) hchecked hstart hserial
      · rename_i hserial
        rw [view_dropJob]
        refine .runLate (view_jobs hj rfl) hchecked hstart fun w hw => ?_
        obtain rfl := Option.some.inj (hv.symm.trans hw)
        exact hserial
    · rename_i hv
      change t.live.lookup j.transfer = none at hv
      rw [view_dropJob]
      refine .runLate (view_jobs hj rfl) hchecked hstart fun w hw => ?_
      exact absurd (hv.symm.trans hw) (by simp)
  · have hnone : ∀ v, (started v j.start).job = none := fun v => by unfold started; split <;> rfl
    unfold startCallback
    split
    · split
      · rw [view_apply_other (h.dropJob hj) hi (fun i hi => by rw [hnone] at hi; cases hi)]
        exact view_dropJob_other hj hi
      · exact view_dropJob_other hj hi
    · exact view_dropJob_other hj hi
  · obtain rfl := List.mem_singleton.mp ho
    simpa [Output.about, htag] using hi.symm

theorem local_run (h : Accounting t) (htag : t.Tagged) {out : List Output} (hs : t.runStep k = some (t', out))
    (i : String) : LocalStep sha256 t (.run k) i (t.view i) (t'.view i) (out.filter (Output.about i)) := by
  unfold runStep at hs
  split at hs
  · rename_i j hj
    split at hs
    · cases hs
    rename_i hchecked
    rw [Bool.not_eq_false] at hchecked
    dsimp only at hs
    split at hs
    · rename_i hstart
      split at hs
      · rename_i u hu
        cases hs
        unfold grant at hu
        split at hu
        · rename_i v hv
          change t.live.lookup j.transfer = some v at hv
          split at hu
          · cases hu
          rename_i hgrant
          simp only [Bool.or_eq_true, not_or, Bool.not_eq_true] at hgrant
          cases hu
          refine local_other j.transfer _ ?_ (fun i hi => ?_) (fun i hi => (concerns_other hj hi true).2)
            (fun o ho i hi => ?_) i
          · have hout : [Output.frame j.frame].filter (Output.about j.transfer) = [Output.frame j.frame] := by
              simp [Output.about, htag k j hj]
            rw [hout, view_apply (fun i hi => by cases hi), view_dropJob, view_live hv]
            exact .grant (view_jobs hj rfl) hchecked hstart hgrant.1 hgrant.2 (concerns_grant hj hstart _ true).2
          · rw [view_apply_other (h.dropJob hj) hi (fun i hi => by cases hi)]
            exact view_dropJob_other hj hi
          · obtain rfl := List.mem_singleton.mp ho
            simpa [Output.about, htag k j hj] using hi.symm
        · cases hu
      · cases hs
        refine local_other j.transfer [] ?_ (fun i hi => view_dropJob_other hj hi)
          (fun i hi => (concerns_other hj hi true).2) (fun o ho => nomatch ho) i
        rw [view_dropJob]
        exact .refuse (view_jobs hj rfl) hchecked hstart (concerns_grant hj hstart _ true).2
    · cases hs
      exact local_startCallback h hj hchecked ‹_› (htag k j hj) i
  · cases hs

theorem local_cancelWhere {p : WireTransfer → Bool} (hidle : ∀ i, a.concerns t i = false)
    (ha : ∀ i v, p v = true → a.cancels i v.request = true) (i : String) :
    LocalStep sha256 t a i (t.view i) ((t.cancelWhere p).view i) [] := by
  rw [view_cancelWhere]
  cases hv : (t.view i).live with
  | none =>
    have heq : ({ t.view i with live := none } : Local) = t.view i := by rw [← hv]
    rw [Option.map_none, heq]
    exact .idle _ (hidle i)
  | some v =>
    rw [Option.map_some]
    by_cases hp : p v = true
    · rw [if_pos hp, view_live hv]
      exact .cancel (ha i v hp)
    · rw [if_neg hp, ← hv]
      exact .idle _ (hidle i)

/-- One local action of the engine, seen from any transfer. -/
theorem step_local {out : List Output} (h : Accounting t) (htag : t.Tagged) (ha : a.isLocal = true)
    (hs : t.step sha256 a = some (t', out)) (i : String) :
    LocalStep sha256 t a i (t.view i) (t'.view i) (out.filter (Output.about i)) := by
  cases a with
  | move id m =>
    simp only [step] at hs
    split at hs
    · rename_i v hv
      obtain ⟨u, hu, heq⟩ := Option.map_eq_some_iff.mp hs
      obtain ⟨rfl, rfl⟩ := Prod.mk.inj heq
      exact local_move h hv hu i
    · cases hs
  | retire id =>
    simp only [step] at hs
    split at hs
    · split at hs
      · cases hs
        exact local_retire ‹_› ‹_› i
      · cases hs
    · cases hs
  | check k err =>
    obtain ⟨u, hu, heq⟩ := Option.map_eq_some_iff.mp hs
    obtain ⟨rfl, rfl⟩ := Prod.mk.inj heq
    exact local_check hu i
  | run k => exact local_run h htag hs i
  | cancel id =>
    cases hs
    unfold cancel
    split
    · rename_i v hv
      refine local_other id [] ?_ (fun i hi => ?_) (fun _ _ => rfl) (by simp) i
      · rw [view_apply (fun i hi => by cases hi), view_live hv]
        exact .cancel (by simp [Action.cancels])
      · exact view_apply_other h hi (fun i hi => by cases hi)
    · exact .idle _ rfl
  | cancelRequest request =>
    cases hs
    exact local_cancelWhere (fun _ => rfl) (fun i v hp => by simpa [Action.cancels] using hp) i
  | close =>
    cases hs
    exact local_cancelWhere (p := fun _ => true) (fun _ => rfl) (fun i v _ => rfl) i
  | finish | tick =>
    cases hs
    exact .idle _ rfl
  | _ => cases ha

end Transfers
end Onprest.Ws
