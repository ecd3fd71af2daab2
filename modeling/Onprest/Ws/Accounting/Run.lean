import Onprest.Ws.Accounting.Goroutines
import Onprest.Ws.Accounting.Jobs

/-! Handling a frame and whole runs: the bounds of the engine against an arbitrary peer. -/

namespace Onprest.Ws
open Lib Protocol

/-- What every answer to a frame keeps: the accounting holds afterwards, the receive queue had room,
and a refused frame changes nothing. -/
structure Answered (t : Transfers) (r : Transfers × HandleResult) : Prop where
  accounting : Accounting r.1
  room : r.2 ≠ .queueFull
  refused : r.2 ≠ .ok → r.1 = t

namespace Accounting
variable {t t' : Transfers} {id : String} {v : WireTransfer}

theorem accept (h : Accounting t') : Answered t (t', .ok) := ⟨h, nofun, fun hne => absurd rfl hne⟩

theorem reject (h : Accounting t) : Answered t (t, .errProtocol) := ⟨h, nofun, fun _ => rfl⟩

theorem handleUnknown (h : Accounting t) (f : Frame) : Answered t (t.handleUnknown f) := by
  unfold Transfers.handleUnknown
  split
  · exact ⟨h, nofun, fun _ => rfl⟩
  · exact h.reject

/-- A receiver below its window has room for one more item. -/
theorem queue_room (h : Accounting t) (hv : t.live.lookup id = some v) (hrecv : v.sending = false)
    (hending : v.ending = false) : v.queue.length < Transfers.queueCapacity := by
  have hentry := h.entry id v hv
  obtain ⟨h₁, h₂, -⟩ := hentry.receiver hrecv
  have hwindow : v.next - v.acked ≤ 4 := hentry.window
  have hlength := chunks_add_ends v.queue
  have hinHand := v.pc.inHand_nonneg
  have hpending := pending_nonneg t.jobs id v.serial .acked
  rw [hending] at h₂
  change v.queue.length < 5
  simp only [Bool.false_eq_true, if_false] at h₂
  omega

variable {f : Frame}

theorem handleRetired (h : Accounting t) {r : RetiredTransfer} (hr : t.recent.lookup f.transferID = some r) :
    Answered t (t.handleRetired f r) := by
  have hinsert : ∀ r', Accounting { t with recent := t.recent.insert f.transferID r' } := by
    intro r'
    have hsize : Table.size (t.recent.insert f.transferID r') = Table.size t.recent :=
      Table.size_insert hr
    exact ⟨h.retained, h.entry, h.live_le, hsize.symm ▸ h.table_le, h.serial_lt, h.job_serial,
      h.job_ticket⟩
  unfold Transfers.handleRetired
  split
  · exact (hinsert _).accept
  split
  · exact h.reject
  split
  · exact h.accept
  split
  · split
    · exact (hinsert _).accept
    split
    · exact (hinsert _).accept
    · exact h.handleUnknown f
  · exact h.handleUnknown f

/-- What a live transfer does with a frame: a refusal, or an accepted update. -/
theorem handleLive (h : Accounting t) (hv : t.live.lookup f.transferID = some v) :
    t.handleLive f v = (none, .errProtocol) ∨
      ∃ u, t.handleLive f v = (some u, .ok) ∧
        UpdateOk (pending t.jobs f.transferID v.serial) f.transferID v u := by
  have hentry := h.entry _ v hv
  unfold Transfers.handleLive
  split
  · split
    · exact Or.inl rfl
    · rename_i hack
      simp only [not_or, Bool.not_eq_false, not_le] at hack
      obtain ⟨hsend, -, hlt⟩ := hack
      obtain ⟨h₁, h₂, h₃⟩ := hentry.sender hsend
      have hwindow := hentry.window
      refine Or.inr ⟨_, rfl, .quiet rfl ?_ ⟨hentry.role, ?_, fun _ => ⟨?_, h₂, h₃⟩, fun hr => ?_⟩⟩
      · simp only [WireTransfer.credit]
        omega
      · change v.next - (v.acked + 1) ≤ transferWindow
        omega
      · change v.acked + 1 ≤ v.sent
        omega
      · exact absurd (hsend.symm.trans hr) (by decide)
  split
  · exact Or.inl rfl
  split
  · exact Or.inr ⟨_, rfl, .same rfl rfl ⟨hentry.role, hentry.window, hentry.sender, hentry.receiver⟩⟩
  split
  · exact Or.inl rfl
  rename_i hopen
  simp only [not_or, Bool.not_eq_true, Bool.not_eq_false] at hopen
  obtain ⟨hrecv, hending, -⟩ := hopen
  have hroom := h.queue_room hv hrecv hending
  obtain ⟨h₁, h₂, h₃⟩ := hentry.receiver hrecv
  split
  · rename_i hchunk
    split
    · exact Or.inl rfl
    rename_i hwin
    simp only [not_or, not_le] at hwin
    split
    · exact Or.inl rfl
    rename_i b hb
    have hcons : ∀ q, chunks (q ++ [⟨f, b⟩]) = chunks q + 1 ∧ ends (q ++ [⟨f, b⟩]) = ends q := by
      intro q
      have hnot : (⟨f, b⟩ : ReceiveItem).isEnd = false := by simp [ReceiveItem.isEnd, hchunk]
      rw [chunks_append, ends_append, hnot]
      exact ⟨rfl, add_zero _⟩
    refine Or.inr ⟨_, if_pos hroom, .quiet rfl ?_ ⟨hentry.role, ?_, fun hr => ?_, fun _ => ⟨?_, ?_, h₃⟩⟩⟩
    · simp only [WireTransfer.credit]
      omega
    · change v.next + 1 - v.acked ≤ transferWindow
      omega
    · exact absurd (hrecv.symm.trans hr) (by decide)
    · have hq := (hcons v.queue).1
      simp only
      omega
    · exact (hcons v.queue).2.trans_le h₂
  split
  · rename_i hend
    have hisEnd : (⟨f, []⟩ : ReceiveItem).isEnd = true := by simp [ReceiveItem.isEnd, hend]
    refine Or.inr ⟨_, if_pos hroom, .same rfl rfl ⟨hentry.role, hentry.window, fun hr => ?_,
      fun _ => ⟨?_, ?_, h₃⟩⟩⟩
    · exact absurd (hrecv.symm.trans hr) (by decide)
    · rw [chunks_append, hisEnd]
      simpa using h₁
    · rw [hending] at h₂
      rw [ends_append, hisEnd]
      simp only [Bool.false_eq_true, if_false, if_true] at h₂ ⊢
      omega
  · exact Or.inl rfl

/-- A frame of any peer keeps the accounting, never overflows a receive queue, and changes nothing
when it is refused. -/
theorem handle (h : Accounting t) (f : Frame) : Answered t (t.handle f) := by
  unfold Transfers.handle
  split
  · rename_i v hv
    obtain hreject | ⟨u, haccept, hu⟩ := h.handleLive hv
    · rw [hreject]
      exact h.reject
    · rw [haccept]
      exact (h.apply hv hu).accept
  · split
    · split
      · exact h.handleRetired ‹_›
      · exact h.handleUnknown f
    · exact h.handleUnknown f

theorem post_grant (h : Accounting t) {j : Job} (hj : j.start = .grant) : Accounting (t.post j) := by
  have hlookup : ∀ k i, (t.jobs.insert t.tickets j).lookup k = some i →
      (i.start ≠ .grant → i.serial < t.serial) ∧ k < t.tickets + 1 := by
    intro k i hi
    rw [Table.lookup_insert_eq] at hi
    split at hi
    · cases hi
      exact ⟨fun hg => absurd hj hg, by omega⟩
    · obtain ⟨h₁, h₂⟩ := h.job_bounds hi
      exact ⟨h₁, by omega⟩
  have hsame : ∀ id serial s, s ≠ .grant → 0 ≤ pending (t.jobs.insert t.tickets j) id serial s ∧
      pending (t.jobs.insert t.tickets j) id serial s ≤ pending t.jobs id serial s := by
    intro id serial s hs
    have hzero : j.belongs s id serial = 0 := if_neg fun hb => hs (hb.2.2.symm.trans hj)
    rw [pending_insert_new h.ticket_free, hzero, add_zero]
    exact ⟨pending_nonneg _ _ _ _, le_rfl⟩
  exact ⟨h.retained, fun id v hv => (h.entry id v hv).mono (hsame id v.serial .sent (by decide))
    (hsame id v.serial .acked (by decide)), h.live_le, h.table_le, h.serial_lt,
    fun k i hi => (hlookup k i hi).1, fun k i hi => (hlookup k i hi).2⟩

theorem step (sha256 : List UInt8 → String) (h : Accounting t) {a : Action} {out : List Output}
    (hs : t.step sha256 a = some (t', out)) : Accounting t' := by
  cases a with
  | receive request id ctx granted =>
    cases hs
    exact h.add ctx request id [] (fun b hb => Option.some.inj hb) rfl rfl
  | send request id ctx source | sendOpen request id ctx source =>
    cases hs
    exact h.add ctx request id source (fun b hb => Option.some.inj hb) rfl rfl
  | move id m =>
    simp only [Transfers.step] at hs
    split at hs
    · rename_i v hv
      obtain ⟨u, hu, heq⟩ := Option.map_eq_some_iff.mp hs
      obtain ⟨rfl, -⟩ := Prod.mk.inj heq
      exact h.apply hv (.moved (h.entry id v hv) (Transfers.move_moved sha256 hu))
    · cases hs
  | retire id =>
    simp only [Transfers.step] at hs
    split at hs
    · split at hs
      · cases hs
        exact h.retire ‹_› _
      · cases hs
    · cases hs
  | accept f =>
    cases hs
    exact h.post_grant rfl
  | check ticket err =>
    obtain ⟨u, hu, heq⟩ := Option.map_eq_some_iff.mp hs
    obtain ⟨rfl, -⟩ := Prod.mk.inj heq
    exact h.checkStep hu
  | run ticket => exact h.runStep hs
  | cancel id =>
    cases hs
    exact h.cancel id
  | cancelRequest request =>
    cases hs
    exact h.cancelWhere _
  | close =>
    cases hs
    have hcancel := h.cancelWhere fun _ => true
    exact ⟨hcancel.retained, hcancel.entry, hcancel.live_le, hcancel.table_le, hcancel.serial_lt,
      hcancel.job_serial, hcancel.job_ticket⟩
  | finish | tick =>
    cases hs
    exact ⟨h.retained, h.entry, h.live_le, h.table_le, h.serial_lt, h.job_serial, h.job_ticket⟩
  | handle f =>
    cases hs
    exact (h.handle f).accounting

theorem init : Accounting {} where
  retained := rfl
  entry := fun _ _ hv => nomatch hv
  live_le := Nat.zero_le _
  table_le := Nat.zero_le _
  serial_lt := fun _ _ hv => nomatch hv
  job_serial := fun _ _ hj => nomatch hj
  job_ticket := fun _ _ hj => nomatch hj

theorem of_run {sha256 : List UInt8 → String} {as : List Action}
    (hrun : (Transfers.machine sha256).run {} as = some t) : Accounting t := by
  refine (Transfers.machine sha256).run_invariant (fun s a s' h hs => ?_) init hrun
  obtain ⟨⟨u, out⟩, hu, rfl⟩ := Option.map_eq_some_iff.mp hs
  exact h.step sha256 hu

theorem credit_bounds (h : Accounting t) (hv : t.live.lookup id = some v) :
    0 ≤ v.credit ∧ v.credit ≤ transferWindow :=
  (h.entry id v hv).credit_bounds

theorem retained_bounds (h : Accounting t) : 0 ≤ t.retained ∧ t.retained ≤ connectionWindow := by
  have hcredit : ∀ id v, t.live.lookup id = some v → 0 ≤ v.credit ∧ v.credit ≤ transferWindow :=
    fun _ _ hv => h.credit_bounds hv
  obtain ⟨h₀, h₁⟩ := Table.total_bounds hcredit
  have hlive := h.live_le
  have hretained := h.retained
  simp only [transferWindow, connectionWindow] at h₁ ⊢
  omega

theorem sender_order (h : Accounting t) (hv : t.live.lookup id = some v) (hs : v.sending = true) :
    v.acked ≤ v.sent ∧ v.sent ≤ v.next := by
  obtain ⟨h₁, h₂, -⟩ := (h.entry id v hv).sender hs
  have hpending := pending_nonneg t.jobs id v.serial .sent
  have hreserved := v.pc.reserved_nonneg
  exact ⟨h₁, by omega⟩

end Accounting

/-- Window accounting under an adversarial peer. After every finite sequence of local steps and frames,
`retained` is the sum of the live windows, every window, table and queue is within its bound, and a
refused frame has changed nothing. -/
theorem window_accounting (sha256 : List UInt8 → String) (as : List Action) (t : Transfers)
    (hrun : (Transfers.machine sha256).run {} as = some t) :
    t.retained = Table.total (fun v => v.next - v.acked) t.live ∧
    (∀ id v, t.live.lookup id = some v →
      0 ≤ v.next - v.acked ∧ v.next - v.acked ≤ 4 ∧
        (v.sending = true → v.acked ≤ v.sent ∧ v.sent ≤ v.next)) ∧
    Table.size t.live ≤ 8 ∧ Table.size t.live + Table.size t.recent ≤ 4096 ∧
    0 ≤ t.retained ∧ t.retained ≤ 32 ∧
    (∀ f, (t.handle f).2 ≠ .queueFull) ∧
    (∀ f, (t.handle f).2 ≠ .ok → (t.handle f).1 = t) ∧
    (Table.size t.live = 0 → t.retained = 0) := by
  have h := Accounting.of_run hrun
  obtain ⟨hlow, hhigh⟩ := h.retained_bounds
  refine ⟨h.retained, fun id v hv => ?_, h.live_le, h.table_le, hlow, hhigh, fun f => (h.handle f).room,
    fun f => (h.handle f).refused, fun hempty => ?_⟩
  · obtain ⟨h₀, h₁⟩ := h.credit_bounds hv
    exact ⟨h₀, h₁, h.sender_order hv⟩
  · have hnil : t.live.entries = [] := List.length_eq_zero_iff.mp hempty
    rw [h.retained, Table.total, hnil]
    rfl

/-- A receiver that was granted credit, got two chunks, wrote and acknowledged the first, and was
cancelled with the acknowledgement of the second still posted. -/
def cancelledReceiver : List Action :=
  let chunk (n : ℤ) : Frame :=
    { type := .transferChunk, id := "r", transferID := "t", sequence := n, dataBase64 := "QQ==".toList }
  [.receive "r" "t" { deadline := some 9 } true, .move "t" .granted, .handle (chunk 0), .handle (chunk 1),
    .move "t" .take, .move "t" (.wrote true true), .check 0 false, .run 0, .move "t" .submitted,
    .move "t" .take, .move "t" (.wrote true true), .check 1 false, .cancel "t", .move "t" .abort,
    .handle (chunk 7)]

theorem window_accounting_cancelledReceiver :
    ∃ t, (Transfers.machine fun _ => "").run {} cancelledReceiver = some t ∧ t.retained = 1 ∧
      0 ≤ t.retained ∧ t.retained ≤ 32 := by
  have hret : ((Transfers.machine fun _ => "").run {} cancelledReceiver).map (·.retained) = some 1 := by
    decide +kernel
  obtain ⟨t, hrun, hret⟩ := Option.map_eq_some_iff.mp hret
  obtain ⟨-, -, -, -, hlow, hhigh, -⟩ := window_accounting (fun _ => "") cancelledReceiver t hrun
  exact ⟨t, hrun, hret, hlow, hhigh⟩

end Onprest.Ws
