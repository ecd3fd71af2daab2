import Onprest.Ws.Accounting.Basic

/-! Scheduler jobs, cancellation and the opening of transfers keep the accounting invariant. -/

namespace Onprest.Ws.Accounting
open Lib Protocol
variable {t t' : Transfers} {id : String} {v : WireTransfer}

theorem retire (h : Accounting t) (hv : t.live.lookup id = some v) (err : Bool) :
    Accounting (t.retire id v err) where
  retained := by
    change t.retained - v.credit = Table.total WireTransfer.credit (t.live.erase id)
    rw [Table.total_erase _ hv, h.retained]
  entry := by
    intro id' w hw
    change (t.live.erase id).lookup id' = some w at hw
    rw [Table.lookup_erase_eq] at hw
    split at hw
    · cases hw
    · exact h.entry id' w hw
  live_le := by
    have hsize := Table.size_erase hv
    have hlive := h.live_le
    change Table.size (t.live.erase id) ≤ 8
    omega
  table_le := by
    have hsize := Table.size_erase hv
    have htable := h.table_le
    refine le_trans (Nat.add_le_add_left (Table.size_insert_le _ _ _) _) ?_
    change Table.size (t.live.erase id) + (Table.size t.recent + 1) ≤ 4096
    omega
  serial_lt := by
    intro id' w hw
    change (t.live.erase id).lookup id' = some w at hw
    rw [Table.lookup_erase_eq] at hw
    split at hw
    · cases hw
    · exact h.serial_lt id' w hw
  job_serial := h.job_serial
  job_ticket := h.job_ticket

variable {k : ℕ} {j : Job}

theorem pending_erase_le (hj : t.jobs.lookup k = some j) (id : String) (serial : ℕ) (s : Start) :
    0 ≤ pending (t.jobs.erase k) id serial s ∧
      pending (t.jobs.erase k) id serial s ≤ pending t.jobs id serial s := by
  have herase := pending_erase hj id serial s
  have hpos := (Job.belongs_nonneg s id serial j).1
  exact ⟨pending_nonneg _ _ _ _, by omega⟩

theorem lookup_erase_job {k' : ℕ} (h : Accounting t) (hj : (t.jobs.erase k).lookup k' = some j) :
    (j.start ≠ .grant → j.serial < t.serial) ∧ k' < t.tickets := by
  rw [Table.lookup_erase_eq] at hj
  split at hj
  · cases hj
  · exact h.job_bounds hj

theorem dropJob (h : Accounting t) (hj : t.jobs.lookup k = some j) :
    Accounting { t with jobs := t.jobs.erase k } where
  retained := h.retained
  entry := fun id v hv => (h.entry id v hv).mono (pending_erase_le hj id v.serial .sent)
    (pending_erase_le hj id v.serial .acked)
  live_le := h.live_le
  table_le := h.table_le
  serial_lt := h.serial_lt
  job_serial := fun _ _ hi => (h.lookup_erase_job hi).1
  job_ticket := fun _ _ hi => (h.lookup_erase_job hi).2

theorem checkStep (h : Accounting t) {err : Bool} (hs : t.checkStep k err = some t') : Accounting t' := by
  unfold Transfers.checkStep at hs
  split at hs
  · rename_i j hj
    split at hs
    · cases hs
    split at hs
    · cases hs
      exact h.dropJob hj
    · cases hs
      have heq : ∀ id serial, pending (t.jobs.insert k { j with checked := true }) id serial =
          pending t.jobs id serial := fun id serial => funext fun s => pending_checked hj id serial s
      have hbounds : ∀ k' i, (t.jobs.insert k { j with checked := true }).lookup k' = some i →
          (i.start ≠ .grant → i.serial < t.serial) ∧ k' < t.tickets := by
        intro k' i hi
        rw [Table.lookup_insert_eq] at hi
        split at hi
        · subst k'
          cases hi
          exact ⟨h.job_serial k j hj, h.job_ticket k j hj⟩
        · exact h.job_bounds hi
      refine ⟨h.retained, fun id v hv => ?_, h.live_le, h.table_le, h.serial_lt,
        fun k' i hi => (hbounds k' i hi).1, fun k' i hi => (hbounds k' i hi).2⟩
      rw [heq]
      exact h.entry id v hv
  · cases hs

/-- The write-start callback of a posted frame keeps the invariant of its transfer. -/
theorem started {p q : Start → ℤ} {start : Start} (h : EntryOk p v) (hq : ∀ s, 0 ≤ q s ∧ q s ≤ p s)
    (hstart : q start + 1 ≤ p start) : UpdateOk q id v (Transfers.started v start) := by
  have hmono := h.mono (hq .sent) (hq .acked)
  have hpos := (hq start).1
  have hmark := hmono.goto (Transfers.markWritten v.pc) (fun b hb => h.role b (by simpa using hb))
    (by simp) (by simp)
  unfold Transfers.started
  split
  · have hsend : v.sending = true := by
      by_contra hr
      have hzero := (h.receiver (by simpa using hr)).2.2
      omega
    obtain ⟨h₁, h₂, -⟩ := h.sender hsend
    refine .same rfl rfl ⟨hmark.role, h.window, fun _ => ⟨?_, ?_, (hmono.sender hsend).2.2⟩,
      fun hr => absurd (hsend.symm.trans hr) (by decide)⟩
    · change v.acked ≤ v.sent + 1
      omega
    · simp only [markWritten_reserved]
      omega
  · have hrecv : v.sending = false := by
      by_contra hr
      have hzero := (h.sender (by simpa using hr)).2.2
      omega
    obtain ⟨h₁, h₂, -⟩ := h.receiver hrecv
    have hwindow := h.window
    refine .quiet rfl ?_ ⟨hmark.role, ?_, fun hr => absurd (hrecv.symm.trans hr) (by decide),
      fun _ => ⟨?_, h₂, (hmono.receiver hrecv).2.2⟩⟩
    · simp only [WireTransfer.credit]
      omega
    · change v.next - (v.acked + 1) ≤ transferWindow
      omega
    · simp only [markWritten_inHand]
      omega
  · exact .same rfl rfl hmark

theorem startCallback (h : Accounting t) (hj : t.jobs.lookup k = some j) :
    Accounting (({ t with jobs := t.jobs.erase k } : Transfers).startCallback j) := by
  unfold Transfers.startCallback
  split
  · rename_i v hv
    change t.live.lookup j.transfer = some v at hv
    split
    · rename_i hserial
      refine (h.dropJob hj).apply hv (started (h.entry j.transfer v hv)
        (pending_erase_le hj j.transfer v.serial) ?_)
      have herase := pending_erase hj j.transfer v.serial j.start
      have hself : j.belongs j.start j.transfer v.serial = 1 := if_pos ⟨rfl, hserial.symm, rfl⟩
      change pending (t.jobs.erase k) j.transfer v.serial j.start + 1 ≤ _
      omega
    · exact h.dropJob hj
  · exact h.dropJob hj

theorem grant (h : Accounting t) (hs : t.grant id = some t') : Accounting t' := by
  unfold Transfers.grant at hs
  split at hs
  · rename_i v hv
    split at hs
    · cases hs
    · cases hs
      have hentry := h.entry id v hv
      exact h.apply hv (.same rfl rfl ⟨hentry.role, hentry.window, hentry.sender, hentry.receiver⟩)
  · cases hs

theorem runStep (h : Accounting t) {out : List Output} (hs : t.runStep k = some (t', out)) : Accounting t' := by
  unfold Transfers.runStep at hs
  split at hs
  · rename_i j hj
    split at hs
    · cases hs
    dsimp only at hs
    split at hs
    · split at hs
      · rename_i u hu
        cases hs
        exact (h.dropJob hj).grant hu
      · cases hs
        exact h.dropJob hj
    · cases hs
      exact h.startCallback hj
  · cases hs

theorem cancel (h : Accounting t) (id : String) : Accounting (t.cancel id) := by
  unfold Transfers.cancel
  split
  · rename_i v hv
    have hentry := h.entry id v hv
    exact h.apply hv (.same rfl rfl ⟨hentry.role, hentry.window, hentry.sender, hentry.receiver⟩)
  · exact h

theorem cancelWhere (h : Accounting t) (p : WireTransfer → Bool) : Accounting (t.cancelWhere p) := by
  have hlookup : ∀ id w, (t.cancelWhere p).live.lookup id = some w →
      ∃ v, t.live.lookup id = some v ∧ w = if p v then { v with cancelled := true } else v := by
    intro id w hw
    rw [Transfers.cancelWhere, Table.lookup_map, Option.map_eq_some_iff] at hw
    obtain ⟨v, hv, hw⟩ := hw
    exact ⟨v, hv, hw.symm⟩
  refine ⟨?_, fun id w hw => ?_, ?_, ?_, fun id w hw => ?_, h.job_serial, h.job_ticket⟩
  · refine h.retained.trans (Table.total_map (fun v => ?_) t.live).symm
    split <;> rfl
  · obtain ⟨v, hv, rfl⟩ := hlookup id w hw
    have hentry := h.entry id v hv
    split
    · exact ⟨hentry.role, hentry.window, hentry.sender, hentry.receiver⟩
    · exact hentry
  · exact (Table.size_map _ _).trans_le h.live_le
  · refine le_trans (le_of_eq ?_) h.table_le
    exact congrArg (· + Table.size t.recent) (Table.size_map _ _)
  · obtain ⟨v, hv, rfl⟩ := hlookup id w hw
    have hserial := h.serial_lt id v hv
    split <;> exact hserial

theorem prune (h : Accounting t) : Accounting t.prune :=
  ⟨h.retained, h.entry, h.live_le,
    le_trans (Nat.add_le_add_left (Table.size_filter_le _ _) _) h.table_le, h.serial_lt, h.job_serial,
    h.job_ticket⟩

/-- A new entry starts with empty counters and no callback to run. -/
theorem insertNew (h : Accounting t) (hnew : t.live.lookup id = none) (hlive : Table.size t.live < 8)
    (htable : Table.size t.live + Table.size t.recent < 4096) (hserial : v.serial = t.serial)
    (hrole : ∀ b, v.pc.role = some b → v.sending = b) (hreserved : v.pc.reserved = 0)
    (hinHand : v.pc.inHand = 0) (hqueue : v.queue = []) (hnext : v.next = 0) (hacked : v.acked = 0)
    (hsent : v.sent = 0) : Accounting { t.set id v with serial := t.serial + 1 } where
  retained := by
    change t.retained = Table.total WireTransfer.credit (t.live.insert id v)
    have hcredit : v.credit = 0 := by rw [WireTransfer.credit, hnext, hacked, sub_zero]
    rw [Table.total_insert_new v _ hnew, hcredit, add_zero, h.retained]
  entry := by
    intro id' w hw
    change (t.live.insert id v).lookup id' = some w at hw
    rw [Table.lookup_insert_eq] at hw
    split at hw
    · cases hw
      have hzero : ∀ s, s ≠ .grant → pending t.jobs id' v.serial s = 0 := fun s hs =>
        pending_fresh (fun k j hj hg => hserial ▸ h.job_serial k j hj hg) hs
      have h₁ := hzero .sent (by decide)
      have h₂ := hzero .acked (by decide)
      refine ⟨hrole, ?_, fun _ => ⟨?_, ?_, h₂⟩, fun _ => ⟨?_, ?_, h₁⟩⟩
      · rw [hnext, hacked]
        decide
      · rw [hacked, hsent]
      · change v.sent + pending t.jobs id' v.serial .sent + v.pc.reserved ≤ v.next
        omega
      · change chunks v.queue + v.pc.inHand + pending t.jobs id' v.serial .acked ≤ v.next - v.acked
        rw [hqueue]
        change 0 + v.pc.inHand + pending t.jobs id' v.serial .acked ≤ v.next - v.acked
        omega
      · rw [hqueue]
        change 0 ≤ if v.ending = true then 1 else 0
        split <;> decide
    · exact h.entry id' w hw
  live_le := by
    have := Table.size_insert_le t.live id v
    change Table.size (t.live.insert id v) ≤ 8
    omega
  table_le := by
    have := Table.size_insert_le t.live id v
    change Table.size (t.live.insert id v) + Table.size t.recent ≤ 4096
    omega
  serial_lt := by
    intro id' w hw
    change (t.live.insert id v).lookup id' = some w at hw
    change w.serial < t.serial + 1
    rw [Table.lookup_insert_eq] at hw
    split at hw
    · cases hw
      omega
    · exact Nat.lt_succ_of_lt (h.serial_lt id' w hw)
  job_serial := fun k j hj hs => Nat.lt_succ_of_lt (h.job_serial k j hj hs)
  job_ticket := h.job_ticket

theorem add (h : Accounting t) (ctx : Transfers.Context) (request id : String) {sending : Bool} {pc : Pc}
    (source : List ReadResult) (hrole : ∀ b, pc.role = some b → sending = b) (hreserved : pc.reserved = 0)
    (hinHand : pc.inHand = 0) : Accounting (t.add ctx request id sending pc source).1 := by
  unfold Transfers.add
  split
  · exact h
  dsimp only
  split
  · exact h.prune
  rename_i hcapacity
  have hwindow : connectionWindow / transferWindow = 8 := by decide
  rw [hwindow] at hcapacity
  split
  · exact h.prune
  rename_i hfresh
  split
  · exact h.prune
  · refine h.prune.insertNew ?_ ?_ ?_ rfl hrole hreserved hinHand rfl rfl rfl rfl
    · by_contra hne
      exact hfresh (Or.inr (Or.inr (Or.inl (Option.isSome_iff_ne_none.mpr hne))))
    · omega
    · omega

end Onprest.Ws.Accounting
