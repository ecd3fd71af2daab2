import Onprest.Ws.Accounting.Run
import Onprest.Ws.Peers

/-! One transfer seen in isolation: the part of an engine that concerns a single transfer identifier,
and how the primitive updates of the engine change it. -/

namespace Onprest.Ws
open Lib Protocol

/-- The state of an engine that concerns one transfer identifier. -/
structure Local where
  live : Option WireTransfer
  recent : Option RetiredTransfer
  jobs : ℕ → Option Job

def Transfers.view (t : Transfers) (id : String) : Local where
  live := t.live.lookup id
  recent := t.recent.lookup id
  jobs k := (t.jobs.lookup k).filter fun j => j.transfer = id

/-- Every posted frame names the transfer it was posted for. -/
def Transfers.Tagged (t : Transfers) : Prop :=
  ∀ k j, t.jobs.lookup k = some j → j.frame.transferID = j.transfer

/-- The jobs after a step posted `j` under ticket `k`. -/
def addJob (jobs : ℕ → Option Job) (k : ℕ) : Option Job → ℕ → Option Job
  | some j => Function.update jobs k (some j)
  | none => jobs

def Local.post (l : Local) (k : ℕ) (j : Job) : Local := { l with jobs := Function.update l.jobs k (some j) }

/-- Every job is one of the others, up to its context check. -/
def SubJobs (jobs' jobs : ℕ → Option Job) : Prop :=
  ∀ k j', jobs' k = some j' →
    ∃ j, jobs k = some j ∧ j'.frame = j.frame ∧ j'.start = j.start ∧ j'.serial = j.serial

theorem SubJobs.drop (jobs : ℕ → Option Job) (k : ℕ) : SubJobs (Function.update jobs k none) jobs := by
  intro k' j' hj'
  rw [Function.update_apply] at hj'
  split at hj'
  · cases hj'
  · exact ⟨j', hj', rfl, rfl, rfl⟩

theorem SubJobs.check {jobs : ℕ → Option Job} {k : ℕ} {j : Job} (hj : jobs k = some j) :
    SubJobs (Function.update jobs k (some { j with checked := true })) jobs := by
  intro k' j' hj'
  rw [Function.update_apply] at hj'
  split at hj'
  · subst k'
    cases hj'
    exact ⟨j, hj, rfl, rfl, rfl⟩
  · exact ⟨j', hj', rfl, rfl, rfl⟩

/-- What remains of a live transfer. -/
def WireTransfer.retired (v : WireTransfer) (err : Bool) : RetiredTransfer where
  expiry := v.expiry + Transfers.grace
  request := v.request
  sending := v.sending
  canceled := err || v.cancelled
  ending := v.ending
  next := v.next
  acked := v.acked
  sent := v.sent

variable {t : Transfers} {id : String} {k : ℕ} {j : Job}

theorem Transfers.view_jobs (hj : t.jobs.lookup k = some j) (hid : j.transfer = id) :
    (t.view id).jobs k = some j := by
  simp [view, hj, hid]

theorem Transfers.view_jobs_iff : (t.view id).jobs k = some j ↔ t.jobs.lookup k = some j ∧ j.transfer = id := by
  simp [view, Option.filter_eq_some_iff]

theorem view_jobs_erase (t : Transfers) (id : String) (k : ℕ) :
    (fun k' => ((t.jobs.erase k).lookup k').filter fun j => j.transfer = id) =
      Function.update (t.view id).jobs k none := by
  funext k'
  rw [Table.lookup_erase_eq, Function.update_apply]
  split
  · rfl
  · rfl

theorem view_jobs_insert (t : Transfers) (k : ℕ) (hid : j.transfer = id) :
    (fun k' => ((t.jobs.insert k j).lookup k').filter fun j => j.transfer = id) =
      Function.update (t.view id).jobs k (some j) := by
  funext k'
  rw [Table.lookup_insert_eq, Function.update_apply]
  split
  · simp [hid]
  · rfl

theorem view_jobs_insert_other (hne : j.transfer ≠ id) (hold : ∀ i, t.jobs.lookup k = some i → i.transfer ≠ id) :
    (fun k' => ((t.jobs.insert k j).lookup k').filter fun j => j.transfer = id) = (t.view id).jobs := by
  funext k'
  rw [Table.lookup_insert_eq]
  split
  · subst k'
    cases hk : t.jobs.lookup k with
    | none => simp [Transfers.view, hk, hne, Option.filter_some]
    | some i => simp [Transfers.view, hk, hne, hold i hk, Option.filter_some]
  · rfl

namespace Transfers
variable {t t' : Transfers} {id id' : String} {v : WireTransfer} {u : Update}

theorem view_apply (hjob : ∀ j, u.job = some j → j.transfer = id) :
    (t.apply id u).view id = ⟨some u.entry, t.recent.lookup id, addJob (t.view id).jobs t.tickets u.job⟩ := by
  unfold apply
  cases hu : u.job with
  | none => simp [view, set, addJob]
  | some j =>
    have hjobs := view_jobs_insert t t.tickets (hjob j hu)
    simp only [view, set, post, addJob, AList.lookup_insert]
    rw [hjobs]
    rfl

theorem view_apply_other (h : Accounting t) (hne : id' ≠ id)
    (hjob : ∀ j, u.job = some j → j.transfer = id) : (t.apply id u).view id' = t.view id' := by
  unfold apply
  cases hu : u.job with
  | none => simp [view, set, hne]
  | some j =>
    have hjobs := view_jobs_insert_other (fun he : j.transfer = id' => hne (he.symm.trans (hjob j hu)))
      (fun i hi => absurd (h.ticket_free.symm.trans hi) (by simp))
    simp only [view, set, post, AList.lookup_insert_ne hne]
    rw [hjobs]
    rfl

theorem view_free (h : Accounting t) : (t.view id).jobs t.tickets = none := by
  simp [view, h.ticket_free]

theorem view_live (hv : t.live.lookup id = some v) :
    t.view id = ⟨some v, t.recent.lookup id, (t.view id).jobs⟩ := by
  rw [view, hv]

theorem view_dropJob (k : ℕ) :
    ({ t with jobs := t.jobs.erase k } : Transfers).view id =
      { t.view id with jobs := Function.update (t.view id).jobs k none } := by
  rw [← view_jobs_erase]
  rfl

variable {k : ℕ} {j : Job}

theorem view_dropJob_other (hj : t.jobs.lookup k = some j) (hne : id ≠ j.transfer) :
    ({ t with jobs := t.jobs.erase k } : Transfers).view id = t.view id := by
  have hnone : (t.view id).jobs k = none := by
    simp [view, hj, hne.symm, Option.filter_some]
  rw [view_dropJob, Function.update_eq_self_iff.mpr hnone.symm]

theorem view_setJob (k : ℕ) (hid : j.transfer = id) :
    ({ t with jobs := t.jobs.insert k j } : Transfers).view id =
      { t.view id with jobs := Function.update (t.view id).jobs k (some j) } := by
  rw [← view_jobs_insert t k hid]
  rfl

theorem view_setJob_other (hne : j.transfer ≠ id) (hold : ∀ i, t.jobs.lookup k = some i → i.transfer ≠ id) :
    ({ t with jobs := t.jobs.insert k j } : Transfers).view id = t.view id := by
  have hjobs := view_jobs_insert_other hne hold
  rw [view, hjobs]
  rfl

theorem view_cancelWhere (p : WireTransfer → Bool) :
    (t.cancelWhere p).view id = { t.view id with
      live := (t.view id).live.map fun v => if p v then { v with cancelled := true } else v } := by
  rw [view, cancelWhere, Table.lookup_map]
  rfl

end Transfers
end Onprest.Ws
