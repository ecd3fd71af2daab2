import Onprest.Ws.Accounting.Basic

/-! The steps of the goroutine that owns a transfer keep its accounting invariant. -/

namespace Onprest.Ws
open Lib Protocol

variable {s : Start} {id : String} {serial : ℕ} {f : Frame} {checked b : Bool} {re : Option ReadErr}

theorem Job.belongs_self : Job.belongs s id serial ⟨f, id, serial, s, checked⟩ = 1 := if_pos ⟨rfl, rfl, rfl⟩

theorem Job.belongs_ne {s' : Start} (h : s ≠ s') : Job.belongs s id serial ⟨f, id, serial, s', checked⟩ = 0 :=
  if_neg fun hb => h hb.2.2.symm

theorem Transfers.afterSend_role (h : (afterSend re).role = some b) : b = true := by
  unfold afterSend at h
  split at h <;> simp_all [Pc.role]

theorem Transfers.afterEmpty_role (h : (afterEmpty re).role = some b) : b = true := by
  unfold afterEmpty at h
  split at h <;> simp_all [Pc.role]

@[simp] theorem Transfers.afterSend_reserved (re : Option ReadErr) : (afterSend re).reserved = 0 := by
  unfold afterSend
  split <;> rfl

@[simp] theorem Transfers.afterSend_inHand (re : Option ReadErr) : (afterSend re).inHand = 0 := by
  unfold afterSend
  split <;> rfl

@[simp] theorem Transfers.afterEmpty_reserved (re : Option ReadErr) : (afterEmpty re).reserved = 0 := by
  unfold afterEmpty
  split <;> rfl

namespace EntryOk
variable {p : Start → ℤ} {v w : WireTransfer}

/-- The invariant of a sender, from its counters. -/
theorem ofSender (hsend : w.sending = true) (hrole : ∀ b, w.pc.role = some b → b = true)
    (hwindow : w.next - w.acked ≤ transferWindow) (hacked : w.acked ≤ w.sent)
    (hsent : w.sent + p .sent + w.pc.reserved ≤ w.next) (hjobs : p .acked = 0) : EntryOk p w :=
  ⟨fun b hb => hsend.trans (hrole b hb).symm, hwindow, fun _ => ⟨hacked, hsent, hjobs⟩,
    fun hr => absurd (hsend.symm.trans hr) (by decide)⟩

/-- The invariant of a receiver, from its counters. -/
theorem ofReceiver (hrecv : w.sending = false) (hrole : ∀ b, w.pc.role = some b → b = false)
    (hwindow : w.next - w.acked ≤ transferWindow)
    (hchunks : chunks w.queue + w.pc.inHand + p .acked ≤ w.next - w.acked)
    (hends : ends w.queue ≤ if w.ending then 1 else 0) (hjobs : p .sent = 0) : EntryOk p w :=
  ⟨fun b hb => hrecv.trans (hrole b hb).symm, hwindow,
    fun hr => absurd (hrecv.symm.trans hr) (by decide), fun _ => ⟨hchunks, hends, hjobs⟩⟩

theorem sending_of_role (h : EntryOk p v) {pc : Pc} (hpc : v.pc = pc) (hrole : pc.role = some b) :
    v.sending = b := h.role b (hpc ▸ hrole)

end EntryOk

/-- Every step of the goroutine of a transfer keeps its accounting. -/
theorem UpdateOk.moved {sha256 : List UInt8 → String} {p : Start → ℤ} {v : WireTransfer} {u : Update} {t : Transfers}
    (h : EntryOk p v) (hm : t.Moved sha256 id v u) : UpdateOk p id v u := by
  have hwindow := h.window
  cases hm with
  | granted hpc =>
    have hrecv := h.sending_of_role hpc rfl
    have hgoto := h.goto .select (fun b hb => hrecv.trans (Option.some.inj hb))
      v.pc.reserved_nonneg v.pc.inHand_nonneg
    exact .same rfl rfl ⟨hgoto.role, hgoto.window, hgoto.sender, hgoto.receiver⟩
  | opened hpc =>
    have hsend := h.sending_of_role hpc rfl
    exact .same rfl rfl (h.goto .reserve (fun b hb => hsend.trans (Option.some.inj hb))
      v.pc.reserved_nonneg v.pc.inHand_nonneg)
  | reserve hpc hroom =>
    have hsend := h.sending_of_role hpc rfl
    obtain ⟨h₁, h₂, h₃⟩ := h.sender hsend
    rw [hpc] at h₂
    refine .quiet rfl ?_ (.ofSender hsend (fun b hb => (Option.some.inj hb).symm) ?_ h₁ ?_ h₃)
    · simp only [WireTransfer.credit]
      omega
    · change v.next + 1 - v.acked ≤ transferWindow
      omega
    · change v.sent + p .sent + 1 ≤ v.next + 1
      change v.sent + p .sent + 0 ≤ v.next at h₂
      omega
  | read hpc hr hbytes =>
    have hsend := h.sending_of_role hpc rfl
    obtain ⟨h₁, h₂, h₃⟩ := h.sender hsend
    rw [hpc] at h₂
    change v.sent + p .sent + 1 ≤ v.next at h₂
    refine ⟨rfl, (add_zero _).symm, fun j hj => ?_, .ofSender hsend
      (fun b hb => (Option.some.inj hb).symm) hwindow h₁ ?_ ?_⟩
    · cases hj
      exact ⟨rfl, rfl⟩
    · simp only [Update.posts, Job.belongs_self, Pc.reserved]
      omega
    · simp only [Update.posts, Job.belongs_ne (show Start.acked ≠ .sent by decide), h₃, add_zero]
  | empty hpc hread =>
    have hsend := h.sending_of_role hpc rfl
    obtain ⟨h₁, h₂, h₃⟩ := h.sender hsend
    rw [hpc] at h₂
    change v.sent + p .sent + 1 ≤ v.next at h₂
    refine .quiet rfl ?_ (.ofSender hsend (fun b hb => Transfers.afterEmpty_role hb) ?_ h₁ ?_ h₃)
    · simp only [WireTransfer.credit]
      omega
    · change v.next - 1 - v.acked ≤ transferWindow
      omega
    · simp only [Transfers.afterEmpty_reserved]
      omega
  | drained hpc hsent =>
    have hsend := h.sending_of_role hpc rfl
    obtain ⟨h₁, h₂, h₃⟩ := h.sender hsend
    rw [hpc] at h₂
    change v.sent + p .sent + 0 ≤ v.next at h₂
    refine ⟨rfl, (add_zero _).symm, fun j hj => ?_, .ofSender hsend
      (fun b hb => (Option.some.inj hb).symm) hwindow h₁ ?_ ?_⟩
    · cases hj
      exact ⟨rfl, rfl⟩
    · simp only [Update.posts, Job.belongs_ne (show Start.sent ≠ .none by decide), Pc.reserved]
      omega
    · simp only [Update.posts, Job.belongs_ne (show Start.acked ≠ .none by decide), h₃, add_zero]
  | @take item rest hpc hqueue =>
    have hrecv := h.sending_of_role hpc rfl
    obtain ⟨h₁, h₂, h₃⟩ := h.receiver hrecv
    rw [hpc, hqueue, chunks_cons] at h₁
    rw [hqueue, ends_cons] at h₂
    refine .same rfl rfl (.ofReceiver hrecv (fun b hb => (Option.some.inj hb).symm) hwindow ?_ ?_ h₃)
    · change chunks rest + (if item.isEnd then 0 else 1) + p .acked ≤ v.next - v.acked
      change chunks rest + (if item.isEnd then 0 else 1) + 0 + p .acked ≤ v.next - v.acked at h₁
      omega
    · change ends rest ≤ if v.ending then 1 else 0
      have hpos : (0 : ℤ) ≤ if item.isEnd then 1 else 0 := by split <;> decide
      omega
  | @wrote item hpc hchunk =>
    have hrecv := h.sending_of_role hpc rfl
    obtain ⟨h₁, h₂, h₃⟩ := h.receiver hrecv
    have hone : v.pc.inHand = 1 := by
      rw [hpc, Pc.inHand, ReceiveItem.isEnd, if_neg (by simpa using hchunk)]
    refine ⟨rfl, (add_zero _).symm, fun j hj => ?_, .ofReceiver hrecv
      (fun b hb => (Option.some.inj hb).symm) hwindow ?_ h₂ ?_⟩
    · cases hj
      exact ⟨rfl, rfl⟩
    · simp only [Update.posts, Job.belongs_self, Pc.inHand]
      omega
    · simp only [Update.posts, Job.belongs_ne (show Start.sent ≠ .acked by decide), h₃, add_zero]
  | ended hpc hend | finished hpc => exact .same rfl rfl (h.stop false)
  | acked hpc =>
    have hrecv := h.sending_of_role hpc rfl
    exact .same rfl rfl (h.goto .select (fun b hb => hrecv.trans (Option.some.inj hb))
      v.pc.reserved_nonneg v.pc.inHand_nonneg)
  | sent hpc =>
    have hsend := h.sending_of_role hpc rfl
    refine .same rfl rfl (h.goto _ (fun b hb => hsend.trans (Transfers.afterSend_role hb).symm) ?_ ?_)
    · exact (Transfers.afterSend_reserved _).trans_le v.pc.reserved_nonneg
    · exact (Transfers.afterSend_inHand _).trans_le v.pc.inHand_nonneg
  | stop source hashed =>
    have hstop := h.stop true
    exact .same rfl rfl ⟨hstop.role, hstop.window, hstop.sender, hstop.receiver⟩

end Onprest.Ws
