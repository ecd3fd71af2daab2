import Onprest.Artifacts.Tables
import Onprest.Lib.Groups
import Mathlib.Algebra.Order.BigOperators.Group.List

/-! The quota of the artifact store: the bytes in use are the bytes of the stages in the table and of the
live reservations, after every operation and whatever the disk answers. -/

namespace Onprest.Artifacts
open Lib
namespace Store
variable {P : Type} {e : Setup} {op : Op P} {s t : Store P}

/-! ### Requests and scopes -/

theorem DiskWrite.count_le (w : DiskWrite) (p : List UInt8) : w.count p ≤ p.length := by
  unfold count
  split <;> omega

/-- Requests and scopes have the bytes of their stages. -/
structure Shares (s : Store P) : Prop where
  inputs : Grouped Stage.size s.requestAt (fun q => q.files.map (·.2)) (·.bytes)
    (fun q => q.limits.maxTotalFileBytes) s.stageAt (·.request)
  outputs : Grouped Stage.size s.scopeAt (·.stages) (·.bytes) (fun c => c.limits.maxTotalBytes) s.stageAt (·.scope)

namespace Shares

theorem setStage {id : ℕ} {st st' : Stage} (h : Shares s) (hst : s.stageAt id = some st)
    (hsize : st'.size = st.size) (hrequest : st'.request = st.request) (hscope : st'.scope = st.scope) :
    Shares (s.setStage id st') :=
  ⟨h.inputs.item hst hrequest hsize, h.outputs.item hst hscope hsize⟩

theorem piece (h : Shares s) (hp : Piece s t) : Shares t := by
  cases hp with
  | pop | poison | cancelled _ | readerLost _ _ _ => exact ⟨h.inputs, h.outputs⟩
  | flag hst | fileClosed hst => exact h.setStage hst rfl rfl rfl
  | @removed id st hst _ _ _ =>
    obtain ⟨l, -, heq⟩ := removeStage_eq s id st
    rw [heq]
    obtain ⟨hin, hout⟩ := @setStage P s id st { st with reserved := 0, onDisk := false } h hst rfl rfl rfl
    exact ⟨hin, hout⟩
  | @readerGone d rd st hd hopen hst =>
    obtain ⟨hin, hout⟩ := @setStage P s rd.stage st { st with readers := st.readers.erase d } h hst rfl rfl rfl
    exact ⟨hin, hout⟩

variable {st : Stage} {n : ℤ}

/-- The room a request has for a write. -/
theorem room_request {id r : ℕ} {q : Request P} (h : s.roomInRequest id st n = true) (hr : st.request = some r)
    (hq : s.requestAt r = some q) : q.state = .receiving ∧ q.bytes + n ≤ q.limits.maxTotalFileBytes := by
  simp only [roomInRequest, hr, Option.bind_some, hq, Bool.and_eq_true, decide_eq_true_eq] at h
  exact ⟨h.1.1, by omega⟩

theorem room_scope {v : ℕ} {c : OutputScope} (h : s.roomInScope st n = true) (hv : st.scope = some v)
    (hc : s.scopeAt v = some c) : c.bytes + n ≤ c.limits.maxTotalBytes := by
  simp only [roomInScope, hv, Option.bind_some, hc, Bool.and_eq_true, decide_eq_true_eq] at h
  omega

theorem write {id : ℕ} {st : Stage} {p : List UInt8} {w : DiskWrite} (h : Shares s) (hst : s.stageAt id = some st)
    (hreq : s.roomInRequest id st p.length = true) (hscope : s.roomInScope st p.length = true) (u : ℤ) :
    Shares (Store.written { s with used := u } id st p w) := by
  have hcount := DiskWrite.count_le w p
  rw [written_eq]
  constructor
  · refine h.inputs.count hst rfl rfl (fun _ => rfl) (fun _ => rfl) (fun _ => rfl) ?_
    intro r q hr hq
    have hroom := (room_request hreq hr hq).2
    omega
  · refine h.outputs.count hst rfl rfl (fun _ => rfl) (fun _ => rfl) (fun _ => rfl) ?_
    intro v c hv hc
    have hroom := room_scope hscope hv hc
    omega

theorem move (h : Shares s) (hm : Move e op s t) : Shares t := by
  cases hm with
  | pop | poison _ | closed | cancelReader _ | reserve _ _ _ | release _ _ => exact ⟨h.inputs, h.outputs⟩
  | slot r =>
    obtain ⟨l, -, heq⟩ := releaseSlotLocked_eq s r
    rw [heq]
    exact ⟨h.inputs, h.outputs⟩
  | stage hst hk => exact h.setStage hst hk.size hk.request hk.scope
  | request hq hk _ =>
    exact ⟨h.inputs.group hq (by rw [hk.files]) hk.bytes (by rw [hk.limits]), h.outputs⟩
  | publish hc => exact ⟨h.inputs, h.outputs.group hc rfl rfl rfl⟩
  | newScratch hst _ hr hv _ => exact ⟨h.inputs.newItem hst hr, h.outputs.newItem hst hv⟩
  | newInput hst hb hr hv _ hq _ _ _ =>
    exact ⟨h.inputs.newMember hst hr hb.size hq (by simp) rfl rfl, h.outputs.newItem hst hv⟩
  | newOutput hst hb hr hv _ hc =>
    exact ⟨h.inputs.newItem hst hr, h.outputs.newMember hst hv hb.size hc rfl rfl rfl⟩
  | newRequest hr hf hb _ _ hl =>
    exact ⟨h.inputs.newGroup hr (by simp [hf]) hb (by omega), h.outputs⟩
  | newScope hv hf hb hl => exact ⟨h.inputs, h.outputs.newGroup hv hf hb (by omega)⟩
  | write hst _ _ _ hreq hscope _ => exact h.write hst hreq hscope _
  | @sealStage id st bad hst _ _ _ =>
    obtain ⟨hin, hout⟩ := @setStage P s id st
      { st with sealed := true, reserved := 0, fileOpen := false, writeErr := bad } h hst rfl rfl rfl
    exact ⟨hin, hout⟩
  | @openReader id d st hst _ _ _ =>
    obtain ⟨hin, hout⟩ := @setStage P s id st { st with readers := d :: st.readers } h hst rfl rfl rfl
    exact ⟨hin, hout⟩

end Shares

/-! ### The balance -/

/-- The bytes a stage counts for. -/
def weightAt (s : Store P) (id : ℕ) : ℤ := (s.stageAt id).elim 0 fun st => st.size + st.reserved

/-- The bytes a reservation counts for. -/
def bytesAt (s : Store P) (v : ℕ) : ℤ := (s.reservationAt v).elim 0 (·.bytes)

/-- The bytes in use are those of the stages in the table and of the live reservations, and within the
quota. -/
structure Ledger (e : Setup) (s : Store P) : Prop where
  balance : s.used = (s.stages.map s.weightAt).sum + (s.reservations.map s.bytesAt).sum
  quota : s.used ≤ e.quotaBytes
  positive : ∀ v r, s.reservationAt v = some r → 1 ≤ r.bytes

namespace Ledger

/-- Only the bytes in use, the stages, the reservations and their tables matter. -/
theorem congr (h : Ledger e s) (hused : t.used = s.used) (hstages : t.stages = s.stages)
    (hres : t.reservations = s.reservations) (hstage : t.stageAt = s.stageAt)
    (hreservation : t.reservationAt = s.reservationAt) : Ledger e t := by
  obtain ⟨hbalance, hquota, hpositive⟩ := h
  refine ⟨?_, by rwa [hused], by rwa [hreservation]⟩
  have hweight : t.weightAt = s.weightAt := by
    funext id
    rw [weightAt, weightAt, hstage]
  have hbytes : t.bytesAt = s.bytesAt := by
    funext v
    rw [bytesAt, bytesAt, hreservation]
  rw [hused, hstages, hres, hweight, hbytes]
  exact hbalance

/-- A stage in the table changes its weight by `k`, and so do the bytes in use. -/
theorem setStage {id : ℕ} {st st' : Stage} {k : ℤ} (h : Ledger e s) (ht : Tables s) (hst : s.stageAt id = some st)
    (hmem : id ∈ s.stages ∨ k = 0) (hk : (st'.size + st'.reserved : ℤ) = st.size + st.reserved + k)
    (hquota : s.used + k ≤ e.quotaBytes) : Ledger e { s.setStage id st' with used := s.used + k } := by
  refine ⟨?_, hquota, h.positive⟩
  have hne : ∀ i, i ≠ id → weightAt { s.setStage id st' with used := s.used + k } i = s.weightAt i := by
    intro i hi
    simp [weightAt, stageAt_setStage_apply, hi]
  have hself : weightAt { s.setStage id st' with used := s.used + k } id = s.weightAt id + k := by
    simp [weightAt, hst, hk]
  have hsum : (s.stages.map (weightAt { s.setStage id st' with used := s.used + k })).sum =
      (s.stages.map s.weightAt).sum + k := by
    by_cases hid : id ∈ s.stages
    · exact sum_map_of_changed ht.stages hid hne hself
    · rw [map_of_unchanged hid hne, hmem.resolve_left hid, add_zero]
  have hbalance := h.balance
  change s.used + k = (s.stages.map _).sum + (s.reservations.map s.bytesAt).sum
  rw [hsum]
  omega

/-- A change of a stage that keeps its weight. -/
theorem keepStage {id : ℕ} {st st' : Stage} (h : Ledger e s) (ht : Tables s) (hst : s.stageAt id = some st)
    (hsize : st'.size = st.size) (hreserved : st'.reserved = st.reserved) : Ledger e (s.setStage id st') := by
  have hkept := @setStage P e s id st st' 0 h ht hst (.inr rfl) (by simp [hsize, hreserved])
    (by simpa using h.quota)
  exact hkept.congr (by simp [Store.setStage]) rfl rfl rfl rfl

/-- A new stage with its reserved bytes. -/
theorem newStage {id : ℕ} {st : Stage} (h : Ledger e s) (ht : Tables s) (hst : s.stageAt id = none)
    (hsize : st.size = 0) (hquota : s.used + st.reserved ≤ e.quotaBytes) :
    Ledger e { s.setStage id st with used := s.used + st.reserved, stages := id :: s.stages } := by
  refine ⟨?_, hquota, h.positive⟩
  have hnot : id ∉ s.stages := by
    intro hmem
    obtain ⟨x, hx⟩ := ht.present id hmem
    simp [hst] at hx
  have hne : ∀ i, i ≠ id → (s.setStage id st).weightAt i = s.weightAt i := by
    intro i hi
    simp [weightAt, stageAt_setStage_apply, hi]
  have hself : (s.setStage id st).weightAt id = st.reserved := by
    simp [weightAt, hsize]
  have hbalance := h.balance
  change s.used + st.reserved =
    ((id :: s.stages).map (s.setStage id st).weightAt).sum + (s.reservations.map s.bytesAt).sum
  rw [List.map_cons, List.sum_cons, hself, map_of_unchanged hnot hne]
  omega

/-- The credit for a removed stage is what it counted for. -/
theorem removeStage {id : ℕ} {st : Stage} (h : Ledger e s) (ht : Tables s) (hst : s.stageAt id = some st)
    (hmem : id ∈ s.stages) : Ledger e (s.removeStage id st) := by
  obtain ⟨l, -, heq⟩ := removeStage_eq s id st
  rw [heq]
  have hself : s.weightAt id = st.size + st.reserved := by simp [weightAt, hst]
  have hne : ∀ i, i ≠ id → (s.setStage id { st with reserved := 0, onDisk := false }).weightAt i = s.weightAt i := by
    intro i hi
    simp [weightAt, stageAt_setStage_apply, hi]
  have hnot : id ∉ s.stages.erase id := ht.stages.not_mem_erase
  have herase : s.weightAt id + ((s.stages.erase id).map s.weightAt).sum = (s.stages.map s.weightAt).sum :=
    List.sum_map_erase s.weightAt hmem
  have hbalance := h.balance
  have hquota := h.quota
  refine ⟨?_, ?_, h.positive⟩
  · change s.used - (st.size + st.reserved) = ((s.stages.erase id).map (s.setStage id _).weightAt).sum +
      (s.reservations.map s.bytesAt).sum
    rw [map_of_unchanged hnot hne]
    omega
  · simp only
    omega

theorem piece (h : Ledger e s) (ht : Tables s) (hp : Piece s t) : Ledger e t := by
  cases hp with
  | pop | poison | cancelled _ | readerLost _ _ _ => exact h.congr rfl rfl rfl rfl rfl
  | flag hst | fileClosed hst => exact h.keepStage ht hst rfl rfl
  | removed hst _ _ hmem => exact h.removeStage ht hst hmem
  | @readerGone d rd st hd hopen hst =>
    exact (@keepStage P e s rd.stage st { st with readers := st.readers.erase d } h ht hst rfl rfl).congr rfl rfl rfl
      rfl rfl

/-- A write moves its bytes from the reservation of the stage to its size and pays for the rest. -/
theorem write {id : ℕ} {st : Stage} {p : List UInt8} {w : DiskWrite} (h : Ledger e s) (ht : Tables s)
    (hst : s.stageAt id = some st) (hretired : st.retired = false)
    (hquota : s.used + (p.length - min p.length st.reserved : ℤ) ≤ e.quotaBytes) :
    Ledger e (Store.written { s with used := s.used + (p.length - min p.length st.reserved : ℤ) } id st p w) := by
  have hcount := DiskWrite.count_le w p
  rw [written_eq]
  have hset := @setStage P e s id st (Stage.after st p w) (w.count p - min p.length st.reserved) h ht hst
    (.inl (ht.live id st hst hretired)) (by simp only [Stage.after]; omega) (by omega)
  refine hset.congr ?_ rfl rfl rfl rfl
  simp only
  omega

theorem move (h : Ledger e s) (ht : Tables s) (hm : Move e op s t) : Ledger e t := by
  cases hm with
  | pop | poison _ | closed | request _ _ _ | publish _ | cancelReader _ | newRequest _ _ _ _ _ _
  | newScope _ _ _ _ => exact h.congr rfl rfl rfl rfl rfl
  | slot r =>
    obtain ⟨l, -, heq⟩ := releaseSlotLocked_eq s r
    rw [heq]
    exact h.congr rfl rfl rfl rfl rfl
  | stage hst hk => exact h.keepStage ht hst hk.size hk.reserved
  | @reserve v n hv hn hquota =>
    have hnot : v ∉ s.reservations := by
      intro hmem
      obtain ⟨r, hr, -⟩ := (ht.reserved v).mp hmem
      simp [hv] at hr
    have hbalance := h.balance
    refine ⟨?_, hquota, ?_⟩
    · have hne : ∀ i, i ≠ v → (Function.update s.reservationAt v (some { bytes := n }) i).elim 0 (·.bytes) =
          s.bytesAt i := by
        intro i hi
        simp [bytesAt, hi]
      change s.used + n = (s.stages.map s.weightAt).sum + ((v :: s.reservations).map
        fun i => (Function.update s.reservationAt v (some { bytes := n }) i).elim 0 (·.bytes)).sum
      rw [List.map_cons, List.sum_cons, map_of_unchanged hnot hne]
      simp only [Function.update_self, Option.elim_some]
      omega
    · intro i r hr
      by_cases hi : i = v
      · subst hi
        obtain rfl : { bytes := n } = r := by simpa using hr
        exact hn
      · exact h.positive i r (by simpa [hi] using hr)
  | @release v r hv hr =>
    have hmem : v ∈ s.reservations := (ht.reserved v).mpr ⟨r, hv, hr⟩
    have hself : s.bytesAt v = r.bytes := by simp [bytesAt, hv]
    have herase : s.bytesAt v + ((s.reservations.erase v).map s.bytesAt).sum = (s.reservations.map s.bytesAt).sum :=
      List.sum_map_erase s.bytesAt hmem
    have hbalance := h.balance
    have hquota := h.quota
    have hpositive := h.positive v r hv
    refine ⟨?_, ?_, ?_⟩
    · have hne : ∀ i, i ≠ v →
          (Function.update s.reservationAt v (some { r with released := true }) i).elim 0
            (·.bytes) = s.bytesAt i := by
        intro i hi
        simp [bytesAt, hi]
      change s.used - r.bytes = (s.stages.map s.weightAt).sum + ((s.reservations.erase v).map
        fun i => (Function.update s.reservationAt v (some { r with released := true }) i).elim 0 (·.bytes)).sum
      rw [map_of_unchanged ht.reservations.not_mem_erase hne]
      omega
    · simp only
      omega
    · intro i x hx
      by_cases hi : i = v
      · subst hi
        obtain rfl : { r with released := true } = x := by simpa using hx
        exact hpositive
      · exact h.positive i x (by simpa [hi] using hx)
  | newScratch hst hb _ _ hquota => exact h.newStage ht hst hb.size hquota
  | @newInput id r st q pointer hst hb _ _ hn _ _ _ _ =>
    refine (@newStage P e s id st h ht hst hb.size (by simpa [hn] using h.quota)).congr ?_ rfl rfl rfl rfl
    simp [hn, Store.setRequest, Store.setStage]
  | @newOutput id v st c hst hb _ _ hn _ =>
    refine (@newStage P e s id st h ht hst hb.size (by simpa [hn] using h.quota)).congr ?_ rfl rfl rfl rfl
    simp [hn, Store.setScope, Store.setStage]
  | write hst hretired _ _ _ _ hquota => exact h.write ht hst hretired hquota
  | @sealStage id st bad hst hretired _ _ =>
    have hquota := h.quota
    have hset := @setStage P e s id st { st with sealed := true, reserved := 0, fileOpen := false, writeErr := bad }
      (-st.reserved) h ht hst (.inl (ht.live id st hst hretired)) (by simp) (by omega)
    exact hset.congr (by simp only; omega) rfl rfl rfl rfl
  | @openReader id d st hst _ _ _ =>
    exact (@keepStage P e s id st { st with readers := d :: st.readers } h ht hst rfl rfl).congr rfl rfl rfl rfl rfl

end Ledger

/-! ### Runs -/

/-- What holds of the store after every operation. -/
structure Sound (e : Setup) (s : Store P) : Prop where
  tables : Tables s
  leases : Leases s
  shares : Shares s
  ledger : Ledger e s

theorem sound_init (e : Setup) : Sound e ({} : Store P) where
  tables := by constructor <;> simp
  leases := by constructor <;> simp
  shares := by constructor <;> constructor <;> simp
  ledger := by
    have hquota := e.quota_pos
    constructor
    · simp
    · simp only
      omega
    · simp

theorem Sound.deeds (h : Sound e s) (hd : Deeds e op s t) : Sound e t := by
  refine Deeds.invariant ?_ ?_ h hd
  · rintro s t ⟨htables, hleases, hshares, hledger⟩ hm
    exact ⟨htables.move hm, hleases.move hm, hshares.move hm, hledger.move htables hm⟩
  · rintro s t ⟨htables, hleases, hshares, hledger⟩ hp
    exact ⟨htables.piece hp, hleases.piece hp, hshares.piece hp, hledger.piece htables hp⟩

theorem Sound.step {a : Op P × List Bool} (h : Sound e s) (hstep : s.step e a = some t) : Sound e t := by
  obtain ⟨htables, hleases, hshares, hledger⟩ := h
  have hs : Sound e { s with faults := a.2 } :=
    ⟨htables.congr rfl rfl rfl rfl, hleases.congr rfl rfl, ⟨hshares.inputs, hshares.outputs⟩,
      hledger.congr rfl rfl rfl rfl rfl⟩
  exact hs.deeds (step_deeds hstep)

variable {ops : List (Op P × List Bool)}

theorem Sound.run (h : Sound e s) (hrun : (machine e).run s ops = some t) : Sound e t :=
  (machine e).run_invariant (fun _ _ _ hs hstep => hs.step hstep) h hrun

/-- A stage that has left the table stays away. -/
theorem Gone.run {id : ℕ} (h : Gone id s) (hrun : (machine e).run s ops = some t) : Gone id t := by
  refine (machine e).run_invariant ?_ h hrun
  intro s a t hs hstep
  have hs : Gone id { s with faults := a.2 } := hs
  exact Deeds.invariant (fun _ _ h hm => h.move hm) (fun _ _ h hp => h.piece hp) hs (step_deeds hstep)

theorem Ledger.used_nonneg (h : Ledger e s) : 0 ≤ s.used := by
  have hstages : 0 ≤ (s.stages.map s.weightAt).sum := by
    refine List.sum_nonneg fun x hx => ?_
    obtain ⟨id, -, rfl⟩ := List.mem_map.mp hx
    unfold weightAt
    cases s.stageAt id with
    | none => exact le_rfl
    | some st =>
      simp only [Option.elim_some]
      omega
  have hreservations : 0 ≤ (s.reservations.map s.bytesAt).sum := by
    refine List.sum_nonneg fun x hx => ?_
    obtain ⟨v, -, rfl⟩ := List.mem_map.mp hx
    unfold bytesAt
    cases hv : s.reservationAt v with
    | none => exact le_rfl
    | some r =>
      have hpositive := h.positive v r hv
      simp only [Option.elim_some]
      omega
  rw [h.balance]
  omega

/-- After every sequence of operations and whatever the disk answered: the bytes in use are those of the
stages in the table and of the live reservations and within the quota, requests and scopes count the
sizes of their stages, and a stage whose bytes were credited back is off the disk, has no open reader
and never counts again. -/
theorem used_balanced {ops : List (Op P × List Bool)} (hrun : (machine e).run {} ops = some s) :
    (s.stages.Nodup ∧ s.reservations.Nodup ∧
      (∀ v, v ∈ s.reservations ↔ ∃ r, s.reservationAt v = some r ∧ r.released = false) ∧
      s.used = (s.stages.map s.weightAt).sum + (s.reservations.map s.bytesAt).sum) ∧
    (0 ≤ s.used ∧ s.used ≤ e.quotaBytes) ∧
    (∀ r q, s.requestAt r = some q →
      q.bytes = (q.files.map fun f => sizeAt Stage.size s.stageAt f.2).sum ∧ q.bytes ≤ q.limits.maxTotalFileBytes) ∧
    (∀ v c, s.scopeAt v = some c →
      c.bytes = (c.stages.map (sizeAt Stage.size s.stageAt)).sum ∧ c.bytes ≤ c.limits.maxTotalBytes) ∧
    (∀ id st, s.stageAt id = some st → id ∉ s.stages →
      st.onDisk = false ∧ (∀ d rd, s.readerAt d = some rd → rd.stage = id → rd.closed = true) ∧
      ∀ more t, (machine e).run s more = some t → id ∉ t.stages) := by
  have h := (sound_init e).run hrun
  refine ⟨⟨h.tables.stages, h.tables.reservations, h.tables.reserved, h.ledger.balance⟩,
    ⟨h.ledger.used_nonneg, h.ledger.quota⟩, ?_, ?_, ?_⟩
  · intro r q hq
    have htotal := h.shares.inputs.total r q hq
    rw [List.map_map] at htotal
    exact ⟨htotal, h.shares.inputs.within r q hq⟩
  · intro v c hc
    exact ⟨h.shares.outputs.total v c hc, h.shares.outputs.within v c hc⟩
  · intro id st hst hnot
    refine ⟨?_, ?_, fun more t hmore => (Gone.run ⟨⟨st, hst⟩, hnot⟩ hmore).2⟩
    · by_contra hdisk
      exact hnot (h.tables.held id st hst (.inr (by simpa using hdisk)))
    · intro d rd hd hon
      by_contra hclosed
      have hmem := (h.leases.open_iff id st d hst).mpr ⟨rd, hd, hon, by simpa using hclosed⟩
      exact hnot (h.tables.held id st hst (.inl (List.ne_nil_of_mem hmem)))

/-- A small store. -/
def smallSetup : Setup where
  quotaBytes := 10
  maxPending := 1
  maxObjects := 4
  sha256 := fun _ => ""
  validFile := fun _ _ => true
  quota_pos := by decide
  pending_pos := by decide
  objects_pos := by decide

/-- A reservation, a short write into a prepaid stage, and an abort whose unlink fails. -/
def shortWrite : List (Op Unit × List Bool) :=
  [(.reserve 0 3, []), (.newScratch "part" "text/plain" 4 false 0, []), (.write 0 [1, 2, 3] ⟨2, true, [1, 2]⟩, []),
    (.release 0, []), (.abortStage 0, [true, false])]

theorem used_balanced_shortWrite : ∃ s, (machine smallSetup).run {} shortWrite = some s ∧
    s.used = 3 ∧ s.stages = [0] ∧
    s.used = (s.stages.map s.weightAt).sum + (s.reservations.map s.bytesAt).sum :=
  ⟨_, rfl, rfl, rfl, (@used_balanced Unit smallSetup _ shortWrite rfl).1.2.2.2⟩

end Store
end Onprest.Artifacts
