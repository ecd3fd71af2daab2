import Onprest.Ws.Goroutines

/-! Window accounting of the transfer engine against an arbitrary peer: the retained counter, the
per-transfer windows and the receive queues stay within their bounds along every run. -/

namespace Onprest.Ws
open Lib Protocol

/-- The side of a transfer a position belongs to. -/
def Pc.role : Pc → Option Bool
  | .starting _ | .select | .deliver _ | .acking _ => some false
  | .opening | .reserve | .read | .sending _ _ | .drain | .ending _ => some true
  | .stopped _ => none

/-- A chunk is reserved for the read that is about to happen. -/
def Pc.reserved : Pc → ℤ
  | .read => 1
  | _ => 0

def ReceiveItem.isEnd (item : ReceiveItem) : Bool := item.frame.type = .transferEnd

/-- The item a position holds is a chunk that has not been acknowledged. -/
def Pc.inHand : Pc → ℤ
  | .deliver item => if item.isEnd then 0 else 1
  | _ => 0

/-- The number of chunks in a receive queue. -/
def chunks (q : List ReceiveItem) : ℤ := q.countP fun i => !i.isEnd

/-- The number of end frames in a receive queue. -/
def ends (q : List ReceiveItem) : ℤ := q.countP fun i => i.isEnd

/-- The chunks a transfer retains. -/
def WireTransfer.credit (v : WireTransfer) : ℤ := v.next - v.acked

/-- A job runs the callback `s` for the transfer `id` with identity `serial`. -/
def Job.belongs (s : Start) (id : String) (serial : ℕ) (j : Job) : ℤ :=
  if j.transfer = id ∧ j.serial = serial ∧ j.start = s then 1 else 0

/-- The posted jobs that will run the callback `s` for a transfer. -/
def pending (jobs : Table ℕ Job) (id : String) (serial : ℕ) (s : Start) : ℤ :=
  Table.total (Job.belongs s id serial) jobs

/-- What holds of a live transfer, given how many of its callbacks are still to run. -/
structure EntryOk (p : Start → ℤ) (v : WireTransfer) : Prop where
  role : ∀ b, v.pc.role = some b → v.sending = b
  window : v.next - v.acked ≤ transferWindow
  sender : v.sending = true →
    v.acked ≤ v.sent ∧ v.sent + p .sent + v.pc.reserved ≤ v.next ∧ p .acked = 0
  receiver : v.sending = false →
    chunks v.queue + v.pc.inHand + p .acked ≤ v.next - v.acked ∧
      ends v.queue ≤ (if v.ending then 1 else 0) ∧ p .sent = 0

/-- The callback `s` of the frame a step posts, if it belongs to the transfer. -/
def Update.posts (u : Update) (id : String) (serial : ℕ) (s : Start) : ℤ :=
  match u.job with
  | some j => j.belongs s id serial
  | none => 0

/-- A step on a transfer moves `retained` with its credit, posts only its own frames and keeps its
invariant, the posted frame included. -/
structure UpdateOk (p : Start → ℤ) (id : String) (v : WireTransfer) (u : Update) : Prop where
  serial : u.entry.serial = v.serial
  retain : u.entry.credit = v.credit + u.retain
  job : ∀ j, u.job = some j → j.transfer = id ∧ j.serial = v.serial
  entry : EntryOk (fun s => p s + u.posts id v.serial s) u.entry

/-- The accounting invariant of the engine. -/
structure Accounting (t : Transfers) : Prop where
  retained : t.retained = Table.total WireTransfer.credit t.live
  entry : ∀ id v, t.live.lookup id = some v → EntryOk (pending t.jobs id v.serial) v
  live_le : Table.size t.live ≤ 8
  table_le : Table.size t.live + Table.size t.recent ≤ 4096
  serial_lt : ∀ id v, t.live.lookup id = some v → v.serial < t.serial
  job_serial : ∀ k j, t.jobs.lookup k = some j → j.start ≠ .grant → j.serial < t.serial
  job_ticket : ∀ k j, t.jobs.lookup k = some j → k < t.tickets

theorem Job.belongs_nonneg (s : Start) (id : String) (serial : ℕ) (j : Job) :
    0 ≤ j.belongs s id serial ∧ j.belongs s id serial ≤ 1 := by
  unfold Job.belongs
  split <;> decide

theorem pending_nonneg (jobs : Table ℕ Job) (id : String) (serial : ℕ) (s : Start) :
    0 ≤ pending jobs id serial s :=
  (Table.total_bounds fun _ j _ => Job.belongs_nonneg s id serial j).1

theorem chunks_nonneg (q : List ReceiveItem) : 0 ≤ chunks q := Int.natCast_nonneg _

theorem ends_nonneg (q : List ReceiveItem) : 0 ≤ ends q := Int.natCast_nonneg _

theorem chunks_add_ends (q : List ReceiveItem) : chunks q + ends q = q.length := by
  rw [chunks, ends, List.length_eq_countP_add_countP fun i : ReceiveItem => i.isEnd]
  simp only [Nat.cast_add, Bool.not_eq_true, Bool.decide_eq_false]
  exact add_comm _ _

theorem chunks_cons (i : ReceiveItem) (q : List ReceiveItem) :
    chunks (i :: q) = chunks q + (if i.isEnd then 0 else 1) := by
  cases h : i.isEnd <;> simp [chunks, h]

theorem ends_cons (i : ReceiveItem) (q : List ReceiveItem) :
    ends (i :: q) = ends q + (if i.isEnd then 1 else 0) := by
  cases h : i.isEnd <;> simp [ends, h]

theorem chunks_append (q : List ReceiveItem) (i : ReceiveItem) :
    chunks (q ++ [i]) = chunks q + (if i.isEnd then 0 else 1) := by
  cases h : i.isEnd <;> simp [chunks, h]

theorem ends_append (q : List ReceiveItem) (i : ReceiveItem) :
    ends (q ++ [i]) = ends q + (if i.isEnd then 1 else 0) := by
  cases h : i.isEnd <;> simp [ends, h]

theorem Pc.reserved_nonneg (pc : Pc) : 0 ≤ pc.reserved := by
  unfold Pc.reserved
  split <;> decide

theorem Pc.inHand_nonneg (pc : Pc) : 0 ≤ pc.inHand := by
  unfold Pc.inHand
  split
  · split <;> decide
  · decide

variable {p : Start → ℤ} {v w : WireTransfer} {jobs : Table ℕ Job} {id : String} {out : List Output} {k : ℕ}
  {j : Job}

/-- The goroutine moves without touching the counters. -/
theorem EntryOk.goto (h : EntryOk p v) (pc : Pc) (hrole : ∀ b, pc.role = some b → v.sending = b)
    (hreserved : pc.reserved ≤ v.pc.reserved) (hinHand : pc.inHand ≤ v.pc.inHand) : EntryOk p { v with pc } where
  role := hrole
  window := h.window
  sender := by
    intro hs
    obtain ⟨h₁, h₂, h₃⟩ := h.sender hs
    exact ⟨h₁, by change v.sent + p .sent + pc.reserved ≤ v.next; omega, h₃⟩
  receiver := by
    intro hs
    obtain ⟨h₁, h₂, h₃⟩ := h.receiver hs
    exact ⟨by change chunks v.queue + pc.inHand + p .acked ≤ v.next - v.acked; omega, h₂, h₃⟩

theorem EntryOk.stop (h : EntryOk p v) (err : Bool) : EntryOk p { v with pc := .stopped err } :=
  h.goto _ (fun _ hb => nomatch hb) v.pc.reserved_nonneg v.pc.inHand_nonneg

theorem EntryOk.credit_bounds (h : EntryOk (pending jobs id v.serial) v) :
    0 ≤ v.credit ∧ v.credit ≤ transferWindow := by
  refine ⟨?_, h.window⟩
  have hsent := pending_nonneg jobs id v.serial .sent
  have hacked := pending_nonneg jobs id v.serial .acked
  have hreserved := v.pc.reserved_nonneg
  have hinHand := v.pc.inHand_nonneg
  have hchunks := chunks_nonneg v.queue
  unfold WireTransfer.credit
  cases hs : v.sending with
  | true =>
    obtain ⟨h₁, h₂, -⟩ := h.sender hs
    omega
  | false =>
    obtain ⟨h₁, -, -⟩ := h.receiver hs
    omega

/-- Fewer callbacks to run keep the invariant. -/
theorem EntryOk.mono {p q : Start → ℤ} (h : EntryOk p v)
    (hsent : 0 ≤ q .sent ∧ q .sent ≤ p .sent) (hacked : 0 ≤ q .acked ∧ q .acked ≤ p .acked) :
    EntryOk q v where
  role := h.role
  window := h.window
  sender := by
    intro hs
    obtain ⟨h₁, h₂, h₃⟩ := h.sender hs
    exact ⟨h₁, by omega, by omega⟩
  receiver := by
    intro hs
    obtain ⟨h₁, h₂, h₃⟩ := h.receiver hs
    exact ⟨by omega, h₂, by omega⟩

@[simp] theorem markWritten_role (pc : Pc) : (Transfers.markWritten pc).role = pc.role := by
  cases pc <;> rfl

@[simp] theorem markWritten_reserved (pc : Pc) : (Transfers.markWritten pc).reserved = pc.reserved := by
  cases pc <;> rfl

@[simp] theorem markWritten_inHand (pc : Pc) : (Transfers.markWritten pc).inHand = pc.inHand := by
  cases pc <;> rfl

/-- A step that posts nothing. -/
theorem UpdateOk.quiet {n : ℤ} (hserial : w.serial = v.serial) (hcredit : w.credit = v.credit + n)
    (hok : EntryOk p w) :
    UpdateOk p id v { entry := w, retain := n, out } :=
  ⟨hserial, hcredit, (fun _ hj => nomatch hj), by simpa [Update.posts] using hok⟩

/-- A step that touches none of the counters. -/
theorem UpdateOk.same (hserial : w.serial = v.serial) (hcredit : w.credit = v.credit) (hok : EntryOk p w) :
    UpdateOk p id v { entry := w, out } :=
  .quiet hserial (hcredit.trans (add_zero _).symm) hok

/-! ### Jobs -/

theorem pending_insert_new (h : jobs.lookup k = none) (id : String) (serial : ℕ) (s : Start) :
    pending (jobs.insert k j) id serial s = pending jobs id serial s + j.belongs s id serial :=
  Table.total_insert_new j _ h

theorem pending_erase (h : jobs.lookup k = some j) (id : String) (serial : ℕ) (s : Start) :
    pending (jobs.erase k) id serial s = pending jobs id serial s - j.belongs s id serial :=
  Table.total_erase _ h

theorem pending_checked (h : jobs.lookup k = some j) (id : String) (serial : ℕ) (s : Start) :
    pending (jobs.insert k { j with checked := true }) id serial s = pending jobs id serial s := by
  rw [pending, Table.total_insert _ _ h]
  exact add_eq_left.mpr (sub_self _)

theorem pending_fresh {serial : ℕ} {s : Start}
    (h : ∀ k j, jobs.lookup k = some j → j.start ≠ .grant → j.serial < serial) (hs : s ≠ .grant) :
    pending jobs id serial s = 0 := by
  have hzero : ∀ k j, jobs.lookup k = some j →
      0 ≤ Job.belongs s id serial j ∧ Job.belongs s id serial j ≤ 0 := by
    intro k j hj
    refine ⟨(Job.belongs_nonneg s id serial j).1, ?_⟩
    unfold Job.belongs
    split
    · rename_i hb
      have := h k j hj (hb.2.2 ▸ hs)
      omega
    · exact le_rfl
  obtain ⟨h₀, h₁⟩ := Table.total_bounds hzero
  rw [mul_zero] at h₁
  exact le_antisymm h₁ h₀

namespace Accounting
variable {t t' : Transfers} {id : String} {v v' : WireTransfer}

/-- A step on one transfer keeps the accounting when it moves `retained` with the transfer's credit
and keeps the transfer's own invariant. -/
theorem touch (h : Accounting t) (hv : t.live.lookup id = some v)
    (hlive : t'.live = t.live.insert id v') (hrecent : t'.recent = t.recent)
    (hretained : t'.retained = t.retained + (v'.credit - v.credit)) (hserial : t'.serial = t.serial)
    (hsame : v'.serial = v.serial)
    (hjobs : ∀ k j, t'.jobs.lookup k = some j →
      (j.start ≠ .grant → j.serial < t.serial) ∧ k < t'.tickets)
    (hother : ∀ id' serial s, id' ≠ id → pending t'.jobs id' serial s = pending t.jobs id' serial s)
    (hok : EntryOk (pending t'.jobs id v.serial) v') : Accounting t' where
  retained := by
    rw [hretained, hlive, Table.total_insert _ _ hv, h.retained]
  entry := by
    intro id' w hw
    rw [hlive, Table.lookup_insert_eq] at hw
    split at hw
    · subst id'
      cases hw
      rwa [hsame]
    · rename_i hne
      have heq : pending t'.jobs id' w.serial = pending t.jobs id' w.serial :=
        funext fun s => hother id' w.serial s hne
      rw [heq]
      exact h.entry id' w hw
  live_le := by
    rw [hlive, Table.size_insert hv]
    exact h.live_le
  table_le := by
    rw [hlive, hrecent, Table.size_insert hv]
    exact h.table_le
  serial_lt := by
    intro id' w hw
    rw [hlive, Table.lookup_insert_eq] at hw
    rw [hserial]
    split at hw
    · cases hw
      exact hsame ▸ h.serial_lt id v hv
    · exact h.serial_lt id' w hw
  job_serial := fun k j hj hs => hserial ▸ (hjobs k j hj).1 hs
  job_ticket := fun k j hj => (hjobs k j hj).2

theorem job_bounds (h : Accounting t) (hj : t.jobs.lookup k = some j) :
    (j.start ≠ .grant → j.serial < t.serial) ∧ k < t.tickets :=
  ⟨h.job_serial k j hj, h.job_ticket k j hj⟩

theorem ticket_free (h : Accounting t) : t.jobs.lookup t.tickets = none := by
  cases hk : t.jobs.lookup t.tickets with
  | none => rfl
  | some k => exact absurd (h.job_ticket _ k hk) (lt_irrefl _)

/-- A step on one transfer keeps the accounting. -/
theorem apply (h : Accounting t) (hv : t.live.lookup id = some v) {u : Update}
    (hu : UpdateOk (pending t.jobs id v.serial) id v u) : Accounting (t.apply id u) := by
  have hentry := hu.entry
  have hretained : t.retained + u.retain = t.retained + (u.entry.credit - v.credit) := by
    rw [hu.retain, add_sub_cancel_left]
  unfold Transfers.apply
  unfold Update.posts at hentry
  cases hjob : u.job with
  | none =>
    rw [hjob] at hentry
    simp only [add_zero] at hentry
    exact h.touch hv rfl rfl hretained rfl hu.serial (fun _ _ hj => h.job_bounds hj)
      (fun _ _ _ _ => rfl) hentry
  | some j =>
    rw [hjob] at hentry
    obtain ⟨hid, hserial⟩ := hu.job j hjob
    refine h.touch hv rfl rfl hretained rfl hu.serial ?_ ?_ ?_
    · intro k i hi
      change (t.jobs.insert t.tickets j).lookup k = some i at hi
      change _ ∧ k < t.tickets + 1
      rw [Table.lookup_insert_eq] at hi
      split at hi
      · cases hi
        exact ⟨fun _ => hserial ▸ h.serial_lt id v hv, by omega⟩
      · obtain ⟨h₁, h₂⟩ := h.job_bounds hi
        exact ⟨h₁, by omega⟩
    · intro id' serial s hne
      have hzero : j.belongs s id' serial = 0 := by
        refine if_neg fun hb => hne ?_
        rw [← hb.1, hid]
      refine (pending_insert_new h.ticket_free id' serial s).trans ?_
      rw [hzero, add_zero]
    · have heq : pending (t.jobs.insert t.tickets j) id v.serial =
          fun s => pending t.jobs id v.serial s + j.belongs s id v.serial :=
        funext fun s => pending_insert_new h.ticket_free id v.serial s
      change EntryOk (pending (t.jobs.insert t.tickets j) id v.serial) _
      rw [heq]
      exact hentry

end Accounting
end Onprest.Ws
