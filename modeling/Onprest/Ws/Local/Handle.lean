import Onprest.Ws.Local.View

/-! What accepting a frame of the peer, or opening a transfer, does to a single transfer identifier. -/

namespace Onprest.Ws
open Lib Protocol

/-- What an accepted frame can do to the transfer it names. -/
inductive LocalHandled (f : Frame) : Local → Local → Prop
  | ack {v : WireTransfer} {r : Option RetiredTransfer} {jobs : ℕ → Option Job} (hf : f.type = .ack)
      (hsending : v.sending = true) (hseq : f.sequence = v.acked) (hsent : v.acked < v.sent) :
      LocalHandled f ⟨some v, r, jobs⟩ ⟨some { v with acked := v.acked + 1 }, r, jobs⟩
  | cancel {v : WireTransfer} {r : Option RetiredTransfer} {jobs : ℕ → Option Job}
      (hf : f.type = .transferCancel) :
      LocalHandled f ⟨some v, r, jobs⟩ ⟨some { v with cancelled := true }, r, jobs⟩
  | chunk {v : WireTransfer} {r : Option RetiredTransfer} {jobs : ℕ → Option Job} {b : List UInt8}
      (hf : f.type = .transferChunk) (hsending : v.sending = false) (hending : v.ending = false)
      (hseq : f.sequence = v.next) (hb : f.chunk = some b) :
      LocalHandled f ⟨some v, r, jobs⟩
        ⟨some { v with next := v.next + 1, queue := v.queue ++ [⟨f, b⟩] }, r, jobs⟩
  | end {v : WireTransfer} {r : Option RetiredTransfer} {jobs : ℕ → Option Job}
      (hf : f.type = .transferEnd) (hsending : v.sending = false) (hending : v.ending = false) :
      LocalHandled f ⟨some v, r, jobs⟩
        ⟨some { v with ending := true, queue := v.queue ++ [⟨f, []⟩] }, r, jobs⟩
  | lateAck {r : RetiredTransfer} {jobs : ℕ → Option Job} (hf : f.type = .ack)
      (hsending : r.sending = true) (hseq : f.sequence = r.acked) (hsent : r.acked < r.sent) :
      LocalHandled f ⟨none, some r, jobs⟩ ⟨none, some { r with acked := r.acked + 1 }, jobs⟩
  | lateChunk {r : RetiredTransfer} {jobs : ℕ → Option Job} (hf : f.type = .transferChunk)
      (hsending : r.sending = false) (hending : r.ending = false) :
      LocalHandled f ⟨none, some r, jobs⟩ ⟨none, some { r with next := r.next + 1 }, jobs⟩
  | lateEnd {r : RetiredTransfer} {jobs : ℕ → Option Job} (hf : f.type = .transferEnd)
      (hsending : r.sending = false) (hending : r.ending = false) :
      LocalHandled f ⟨none, some r, jobs⟩ ⟨none, some { r with ending := true }, jobs⟩
  | ignored (l : Local) (hf : f.type = .transferCancel) : LocalHandled f l l

/-- Nothing has happened to a transfer, except that its grace period may have ended. -/
def Pruned (l l' : Local) : Prop := l' = l ∨ l' = { l with recent := none }

namespace Transfers
variable {t t' : Transfers} {id : String} {v : WireTransfer} {u : Update} {f : Frame} {result : HandleResult}

theorem view_apply_quiet (hjob : u.job = none) :
    (t.apply id u).view id = { t.view id with live := some u.entry } := by
  have hnone : ∀ j, u.job = some j → j.transfer = id := fun j hj => absurd (hjob.symm.trans hj) (by simp)
  rw [view_apply hnone, hjob]
  rfl

variable {r : RetiredTransfer} {ctx : Context} {request : String} {sending : Bool} {pc : Pc}
  {source : List ReadResult}

theorem view_retain (hv : t.live.lookup id = none) :
    ({ t with recent := t.recent.insert id r } : Transfers).view id = ⟨none, some r, (t.view id).jobs⟩ := by
  simp [view, hv]

theorem handleUnknown_local (h : (t.handleUnknown f).2.isProtocol = false) :
    LocalHandled f (t.view id) ((t.handleUnknown f).1.view id) := by
  unfold handleUnknown at h ⊢
  split at h
  · rename_i hf
    rw [if_pos hf]
    exact .ignored _ hf
  · cases h

theorem handleRetired_local (hv : t.live.lookup f.transferID = none) (hr : t.recent.lookup f.transferID = some r)
    (h : (t.handleRetired f r).2.isProtocol = false) :
    LocalHandled f (t.view f.transferID) ((t.handleRetired f r).1.view f.transferID) := by
  have hview : t.view f.transferID = ⟨none, some r, (t.view f.transferID).jobs⟩ := by simp [view, hv, hr]
  unfold handleRetired at h ⊢
  split_ifs at h ⊢ with hack hid hcancel hopen hchunk hend
  · rw [view_retain hv, hview]
    exact .lateAck hack.1 hack.2.1 hack.2.2.1 hack.2.2.2
  · cases h
  · exact .ignored _ hcancel
  · rw [view_retain hv, hview]
    exact .lateChunk hchunk.1 hopen.1 hopen.2
  · rw [view_retain hv, hview]
    exact .lateEnd hend hopen.1 hopen.2
  · exact handleUnknown_local h
  · exact handleUnknown_local h

theorem enqueue_entry {w : WireTransfer} {item : ReceiveItem} {n : ℤ}
    (h : enqueue w item n = (some u, result)) (hr : result.isProtocol = false) :
    u = { entry := { w with queue := w.queue ++ [item] }, retain := n } := by
  unfold enqueue at h
  split at h
  · obtain ⟨h, -⟩ := Prod.mk.inj h
    exact (Option.some.inj h).symm
  · obtain ⟨-, rfl⟩ := Prod.mk.inj h
    cases hr

theorem handleLive_local {r : Option RetiredTransfer} {jobs : ℕ → Option Job}
    (h : t.handleLive f v = (some u, result)) (hr : result.isProtocol = false) :
    u.job = none ∧ LocalHandled f ⟨some v, r, jobs⟩ ⟨some u.entry, r, jobs⟩ := by
  unfold handleLive at h
  split_ifs at h with hack hbad hid hcancel hshut hchunk hwindow hend
  · cases h
  · obtain rfl := Option.some.inj (Prod.mk.inj h).1
    simp only [not_or, Bool.not_eq_false, ne_eq, not_not, not_le] at hbad
    exact ⟨rfl, .ack hack hbad.1 hbad.2.1 hbad.2.2⟩
  · cases h
  · obtain rfl := Option.some.inj (Prod.mk.inj h).1
    exact ⟨rfl, .cancel hcancel⟩
  · cases h
  · cases h
  · simp only [not_or, Bool.not_eq_true, ne_eq, not_not] at hshut hwindow
    split at h
    · cases h
    · obtain rfl := enqueue_entry h hr
      exact ⟨rfl, .chunk hchunk hshut.1 hshut.2.1 hwindow.1 ‹_›⟩
  · simp only [not_or, Bool.not_eq_true] at hshut
    obtain rfl := enqueue_entry h hr
    exact ⟨rfl, .end hend hshut.1 hshut.2.1⟩
  · cases h

/-- An accepted frame, seen from the transfer it names. -/
theorem handle_local (hacc : Accounting t) (h : (t.handle f).2.isProtocol = false) :
    LocalHandled f (t.view f.transferID) ((t.handle f).1.view f.transferID) := by
  unfold handle at h ⊢
  cases hv : t.live.lookup f.transferID with
  | some v =>
    simp only [hv] at h ⊢
    obtain hreject | ⟨u, haccept, -⟩ := hacc.handleLive hv
    · rw [hreject] at h
      cases h
    · rw [haccept] at h ⊢
      obtain ⟨hjob, hlocal⟩ := handleLive_local haccept h
      rw [view_apply_quiet hjob, view_live hv]
      exact hlocal
  | none =>
    simp only [hv] at h ⊢
    cases hr : t.recent.lookup f.transferID with
    | some r =>
      simp only [hr] at h ⊢
      split at h
      · rw [if_pos ‹_›]
        exact handleRetired_local hv hr h
      · rw [if_neg ‹_›]
        exact handleUnknown_local h
    | none =>
      simp only [hr] at h ⊢
      exact handleUnknown_local h

theorem handleUnknown_state (t : Transfers) (f : Frame) : (t.handleUnknown f).1 = t := by
  unfold handleUnknown
  split <;> rfl

/-- Frames of other transfers leave a transfer alone. -/
theorem handle_other (hacc : Accounting t) (hne : id ≠ f.transferID) :
    (t.handle f).1.view id = t.view id := by
  unfold handle
  cases hv : t.live.lookup f.transferID with
  | some v =>
    obtain hreject | ⟨u, haccept, -⟩ := hacc.handleLive hv
    · simp only [hreject]
    · simp only [haccept]
      have hjob := (@handleLive_local t v u f .ok none (fun _ => none) haccept rfl).1
      exact view_apply_other hacc hne fun j hj => absurd (hjob.symm.trans hj) (by simp)
  | none =>
    cases hr : t.recent.lookup f.transferID with
    | some r =>
      have hinsert : ∀ r', ({ t with recent := t.recent.insert f.transferID r' } : Transfers).view id =
          t.view id := fun r' => by simp [view, hne]
      simp only
      split
      · unfold handleRetired
        split_ifs
        · exact hinsert _
        · rfl
        · rfl
        · exact hinsert _
        · exact hinsert _
        · rw [handleUnknown_state]
        · rw [handleUnknown_state]
      · rw [handleUnknown_state]
    | none => simp only [handleUnknown_state]

/-! ### Opening -/

theorem view_prune (t : Transfers) (i : String) : Pruned (t.view i) (t.prune.view i) := by
  have hrecent : t.prune.recent.lookup i = (t.recent.lookup i).filter fun r => t.now < r.expiry :=
    Table.lookup_filter ..
  cases hr : t.recent.lookup i with
  | none =>
    left
    simp only [view, hrecent, hr]
    rfl
  | some r =>
    rw [hr, Option.filter_some] at hrecent
    split at hrecent
    · left
      simp only [view, hrecent, hr]
      rfl
    · right
      simp only [view, hrecent]
      rfl

theorem add_error {e : AddError} (h : t.add ctx request id sending pc source = (t', .error e)) (i : String) :
    Pruned (t.view i) (t'.view i) := by
  unfold add at h
  split at h
  · obtain ⟨rfl, -⟩ := Prod.mk.inj h
    exact .inl rfl
  · dsimp only at h
    split_ifs at h
    · obtain ⟨rfl, -⟩ := Prod.mk.inj h
      exact view_prune t i
    · obtain ⟨rfl, -⟩ := Prod.mk.inj h
      exact view_prune t i
    · split at h
      · obtain ⟨rfl, -⟩ := Prod.mk.inj h
        exact view_prune t i
      · cases h

theorem add_ok (h : t.add ctx request id sending pc source = (t', .ok v)) :
    (∃ expiry, v = { serial := t.serial, request, sending, expiry, pc, source }) ∧
      t'.view id = ⟨some v, none, (t.view id).jobs⟩ ∧ ∀ i, i ≠ id → Pruned (t.view i) (t'.view i) := by
  unfold add at h
  split at h
  · cases h
  · dsimp only at h
    split_ifs at h with hfull hvalid
    · cases h
    · cases h
    split at h
    · cases h
    · rename_i deadline _
      obtain ⟨rfl, hv⟩ := Prod.mk.inj h
      cases hv
      simp only [not_or, Bool.not_eq_true, Option.isSome_eq_false_iff, Option.isNone_iff_eq_none] at hvalid
      refine ⟨⟨deadline, rfl⟩, ?_, fun i hi => ?_⟩
      · have hrecent : AList.lookup id t.prune.recent = none := hvalid.2.2.2
        simp only [view, set, AList.lookup_insert, hrecent]
        rfl
      · have hview : ∀ w, ({ t.prune.set id w with serial := t.prune.serial + 1 } : Transfers).view i =
            t.prune.view i := fun w => by simp [view, set, hi]
        rw [hview]
        exact view_prune t i

end Transfers
end Onprest.Ws
