import Onprest.Artifacts.Deeds
import Mathlib.Algebra.BigOperators.Group.List.Basic

/-! The tables of the artifact store: what is in them and what has left them, and which request or scope
a stage belongs to. -/

namespace Onprest.Artifacts
namespace Store
variable {P : Type} {e : Setup} {op : Op P} {s t : Store P}

/-! ### What the small steps do to each part of the state -/

theorem releaseSlotLocked_eq (s : Store P) (r : ℕ) :
    ∃ l, l.Sublist s.requests ∧ s.releaseSlotLocked r = { s with requests := l } := by
  unfold releaseSlotLocked
  split
  · split
    · exact ⟨_, List.erase_sublist, rfl⟩
    · exact ⟨_, List.Sublist.refl _, rfl⟩
  · exact ⟨_, List.Sublist.refl _, rfl⟩

theorem removeStage_eq (s : Store P) (id : ℕ) (st : Stage) :
    ∃ l, l.Sublist s.requests ∧ s.removeStage id st =
      { s.setStage id { st with reserved := 0, onDisk := false } with
        used := s.used - (st.size + st.reserved), stages := s.stages.erase id, requests := l } := by
  unfold removeStage
  simp only
  split
  · obtain ⟨l, hl, heq⟩ := releaseSlotLocked_eq (Store.setStage
      { s with used := s.used - (st.size + st.reserved), stages := s.stages.erase id } id
      { st with reserved := 0, onDisk := false }) ‹ℕ›
    exact ⟨l, hl, heq⟩
  · exact ⟨_, List.Sublist.refl _, rfl⟩

theorem stageAt_setStage_apply (s : Store P) (id i : ℕ) (st : Stage) :
    (s.setStage id st).stageAt i = if i = id then some st else s.stageAt i := by
  simp [setStage, Function.update_apply]

theorem requestAt_setRequest_apply (s : Store P) (r i : ℕ) (q : Request P) :
    (s.setRequest r q).requestAt i = if i = r then some q else s.requestAt i := by
  simp [setRequest, Function.update_apply]

/-- Changing one value of a partial function, if there is one. -/
theorem update_eq_map {β : Type} (f : ℕ → Option β) (r : ℕ) (g : β → β) :
    (match f r with
      | some q => Function.update f r (some (g q))
      | none => f) = fun i => (f i).map fun q => if some r = some i then g q else q := by
  funext i
  cases hq : f r with
  | none =>
    by_cases hi : r = i
    · subst hi
      simp [hq]
    · simp [hi]
  | some q =>
    by_cases hi : r = i
    · subst hi
      simp [hq]
    · simp [hi, Ne.symm hi]

theorem countInRequest_eq (s : Store P) (st : Stage) (k : ℕ) :
    s.countInRequest st k = { s with
      requestAt := fun r => (s.requestAt r).map fun q =>
        if st.request = some r then { q with bytes := q.bytes + k } else q } := by
  unfold countInRequest
  cases st.request with
  | none => simp
  | some r =>
    rw [← update_eq_map s.requestAt r fun q => { q with bytes := q.bytes + k }]
    cases hq : s.requestAt r <;> simp [hq, setRequest]

theorem countInScope_eq (s : Store P) (st : Stage) (k : ℕ) :
    s.countInScope st k = { s with
      scopeAt := fun v => (s.scopeAt v).map fun c =>
        if st.scope = some v then { c with bytes := c.bytes + k } else c } := by
  unfold countInScope
  cases st.scope with
  | none => simp
  | some v =>
    rw [← update_eq_map s.scopeAt v fun c => { c with bytes := c.bytes + k }]
    cases hc : s.scopeAt v <;> simp [hc, setScope]

/-- The stage after a write. -/
def Stage.after (st : Stage) (p : List UInt8) (w : DiskWrite) : Stage :=
  { st with
    reserved := st.reserved - min p.length st.reserved
    size := st.size + w.count p
    hashed := st.hashed ++ p.take (w.count p)
    writeErr := w.bad p
    data := if w.bad p then w.content else st.data ++ p }

theorem written_eq (s : Store P) (id : ℕ) (st : Stage) (p : List UInt8) (w : DiskWrite) :
    s.written id st p w = { s with
      used := s.used - (p.length - w.count p)
      stageAt := Function.update s.stageAt id (some (Stage.after st p w))
      requestAt := fun r => (s.requestAt r).map fun q =>
        if st.request = some r then { q with bytes := q.bytes + w.count p } else q
      scopeAt := fun v => (s.scopeAt v).map fun c =>
        if st.scope = some v then { c with bytes := c.bytes + w.count p } else c } := by
  unfold written
  rw [countInScope_eq, countInRequest_eq]
  rfl

/-! ### The tables -/

/-- What is in the tables: every stage that is not retired, that is read or that is still on disk, and
every reservation that is not released. -/
structure Tables (s : Store P) : Prop where
  stages : s.stages.Nodup
  reservations : s.reservations.Nodup
  present : ∀ id ∈ s.stages, ∃ st, s.stageAt id = some st
  live : ∀ id st, s.stageAt id = some st → st.retired = false → id ∈ s.stages
  held : ∀ id st, s.stageAt id = some st → st.readers ≠ [] ∨ st.onDisk = true → id ∈ s.stages
  reserved : ∀ v, v ∈ s.reservations ↔ ∃ r, s.reservationAt v = some r ∧ r.released = false

namespace Tables

/-- Only the stages, the reservations and their tables matter. -/
theorem congr (h : Tables s) (hstages : t.stages = s.stages) (hres : t.reservations = s.reservations)
    (hstage : t.stageAt = s.stageAt) (hreservation : t.reservationAt = s.reservationAt) : Tables t := by
  obtain ⟨h₁, h₂, h₃, h₄, h₅, h₆⟩ := h
  exact ⟨hstages ▸ h₁, hres ▸ h₂, by rwa [hstages, hstage], by rwa [hstages, hstage], by rwa [hstages, hstage],
    by rwa [hres, hreservation]⟩

theorem setStage {id : ℕ} {st st' : Stage} (h : Tables s) (hst : s.stageAt id = some st)
    (hretired : st'.retired = false → st.retired = false)
    (hheld : st'.readers ≠ [] ∨ st'.onDisk = true → (st.readers ≠ [] ∨ st.onDisk = true) ∨ st.retired = false) :
    Tables (s.setStage id st') where
  stages := h.stages
  reservations := h.reservations
  present := by
    intro i hi
    rw [stageAt_setStage_apply]
    split
    · exact ⟨st', rfl⟩
    · exact h.present i hi
  live := by
    intro i x hx hr
    rw [stageAt_setStage_apply] at hx
    split at hx
    · rename_i heq
      cases hx
      exact heq ▸ h.live id st hst (hretired hr)
    · exact h.live i x hx hr
  held := by
    intro i x hx hr
    rw [stageAt_setStage_apply] at hx
    split at hx
    · rename_i heq
      cases hx
      obtain hkept | hlive := hheld hr
      · exact heq ▸ h.held id st hst hkept
      · exact heq ▸ h.live id st hst hlive
    · exact h.held i x hx hr
  reserved := h.reserved

/-- A new stage enters the table. -/
theorem addStage {id : ℕ} {st : Stage} (h : Tables s) (hst : s.stageAt id = none) :
    Tables { s.setStage id st with stages := id :: s.stages } where
  stages := by
    refine List.nodup_cons.mpr ⟨fun hmem => ?_, h.stages⟩
    obtain ⟨x, hx⟩ := h.present id hmem
    simp [hst] at hx
  reservations := h.reservations
  present := by
    intro i hi
    simp only [stageAt_setStage_apply]
    split
    · exact ⟨st, rfl⟩
    · rename_i hne
      exact h.present i ((List.mem_cons.mp hi).resolve_left hne)
  live := by
    intro i x hx hr
    simp only [stageAt_setStage_apply] at hx
    split at hx
    · rename_i heq
      exact heq ▸ List.mem_cons_self
    · exact List.mem_cons_of_mem _ (h.live i x hx hr)
  held := by
    intro i x hx hr
    simp only [stageAt_setStage_apply] at hx
    split at hx
    · rename_i heq
      exact heq ▸ List.mem_cons_self
    · exact List.mem_cons_of_mem _ (h.held i x hx hr)
  reserved := h.reserved

theorem removeStage {id : ℕ} {st : Stage} (h : Tables s) (hretired : st.retired = true)
    (hreaders : st.readers = []) :
    Tables (s.removeStage id st) := by
  obtain ⟨l, -, heq⟩ := removeStage_eq s id st
  rw [heq]
  refine ⟨h.stages.erase id, h.reservations, ?_, ?_, ?_, h.reserved⟩
  · intro i hi
    simp only [stageAt_setStage_apply]
    split
    · exact ⟨_, rfl⟩
    · exact h.present i (List.mem_of_mem_erase hi)
  · intro i x hx hr
    simp only [stageAt_setStage_apply] at hx
    split at hx
    · cases hx
      simp [hretired] at hr
    · rename_i hne
      exact (List.mem_erase_of_ne hne).mpr (h.live i x hx hr)
  · intro i x hx hr
    simp only [stageAt_setStage_apply] at hx
    split at hx
    · cases hx
      simp [hreaders] at hr
    · rename_i hne
      exact (List.mem_erase_of_ne hne).mpr (h.held i x hx hr)

theorem piece (h : Tables s) (hp : Piece s t) : Tables t := by
  cases hp with
  | pop | poison | cancelled _ | readerLost _ _ _ => exact h.congr rfl rfl rfl rfl
  | flag hst => exact h.setStage hst (fun hr => nomatch hr) .inl
  | fileClosed hst => exact h.setStage hst id .inl
  | removed _ hretired hreaders _ => exact h.removeStage hretired hreaders
  | readerGone hd hopen hst =>
    refine Tables.congr (h.setStage hst ?_ ?_) rfl rfl rfl rfl
    · exact id
    · rintro (hreaders | hdisk)
      · exact .inl (.inl fun hnil => hreaders (by simp [hnil]))
      · exact .inl (.inr hdisk)

theorem move (h : Tables s) (hm : Move e op s t) : Tables t := by
  cases hm with
  | pop | poison _ | closed | request _ _ _ | publish _ | cancelReader _ | newRequest _ _ _ _ _ _
  | newScope _ _ _ _ => exact h.congr rfl rfl rfl rfl
  | slot r =>
    obtain ⟨l, -, heq⟩ := releaseSlotLocked_eq s r
    rw [heq]
    exact h.congr rfl rfl rfl rfl
  | stage hst hk =>
    refine h.setStage hst (by rw [hk.retired]; exact id) ?_
    rw [hk.readers, hk.onDisk]
    exact .inl
  | @reserve v n hv _ _ =>
    refine ⟨h.stages, ?_, h.present, h.live, h.held, ?_⟩
    · refine List.nodup_cons.mpr ⟨fun hmem => ?_, h.reservations⟩
      obtain ⟨r, hr, -⟩ := (h.reserved v).mp hmem
      simp [hv] at hr
    · intro i
      by_cases hi : i = v
      · subst hi
        simp
      · simp [hi, h.reserved i]
  | @release v r hv hr =>
    refine ⟨h.stages, h.reservations.erase v, h.present, h.live, h.held, ?_⟩
    intro i
    by_cases hi : i = v
    · subst hi
      simp [h.reservations.mem_erase_iff]
    · simp [h.reservations.mem_erase_iff, hi, h.reserved i]
  | newScratch hst _ _ _ _ => exact (h.addStage hst).congr rfl rfl rfl rfl
  | newInput hst _ _ _ _ _ _ _ _ => exact (h.addStage hst).congr rfl rfl rfl rfl
  | newOutput hst _ _ _ _ _ => exact (h.addStage hst).congr rfl rfl rfl rfl
  | @write id st p w hst hretired _ _ _ _ _ =>
    rw [written_eq]
    refine Tables.congr (@setStage P s id st (Stage.after st p w) h hst ?_ ?_) rfl rfl rfl rfl
    · exact fun _ => hretired
    · exact fun _ => .inr hretired
  | @sealStage id st bad hst hretired _ _ =>
    refine Tables.congr (h.setStage hst ?_ ?_) rfl rfl rfl rfl
    · exact fun _ => hretired
    · exact fun _ => .inr hretired
  | @openReader id d st hst _ hretired _ =>
    refine Tables.congr (h.setStage hst ?_ ?_) rfl rfl rfl rfl
    · exact fun _ => hretired
    · exact fun _ => .inr hretired

end Tables

/-! ### The readers -/

theorem readerAt_setReader_apply (s : Store P) (d i : ℕ) (rd : Reader) :
    (s.setReader d rd).readerAt i = if i = d then some rd else s.readerAt i := by
  simp [setReader, Function.update_apply]

/-- The readers of a stage are the open readers on it. -/
structure Leases (s : Store P) : Prop where
  nodup : ∀ id st, s.stageAt id = some st → st.readers.Nodup
  open_iff : ∀ id st d, s.stageAt id = some st →
    (d ∈ st.readers ↔ ∃ rd, s.readerAt d = some rd ∧ rd.stage = id ∧ rd.closed = false)
  onStage : ∀ d rd, s.readerAt d = some rd → ∃ st, s.stageAt rd.stage = some st

namespace Leases

/-- Only the stages and the readers matter. -/
theorem congr (h : Leases s) (hstage : t.stageAt = s.stageAt) (hreader : t.readerAt = s.readerAt) : Leases t := by
  obtain ⟨hnodup, hopen, hon⟩ := h
  exact ⟨by rwa [hstage], by rwa [hstage, hreader], by rwa [hstage, hreader]⟩

theorem setStage {id : ℕ} {st st' : Stage} (h : Leases s) (hst : s.stageAt id = some st)
    (hreaders : st'.readers = st.readers) : Leases (s.setStage id st') where
  nodup := by
    intro i x hx
    rw [stageAt_setStage_apply] at hx
    split at hx
    · cases hx
      exact hreaders ▸ h.nodup id st hst
    · exact h.nodup i x hx
  open_iff := by
    intro i x d hx
    rw [stageAt_setStage_apply] at hx
    split at hx
    · rename_i heq
      cases hx
      rw [hreaders, heq]
      exact h.open_iff id st d hst
    · exact h.open_iff i x d hx
  onStage := by
    intro d rd hd
    rw [stageAt_setStage_apply]
    split
    · exact ⟨st', rfl⟩
    · exact h.onStage d rd hd

/-- A new stage has no reader. -/
theorem addStage {id : ℕ} {st : Stage} (h : Leases s) (hst : s.stageAt id = none) (hreaders : st.readers = []) :
    Leases (s.setStage id st) where
  nodup := by
    intro i x hx
    rw [stageAt_setStage_apply] at hx
    split at hx
    · cases hx
      simp [hreaders]
    · exact h.nodup i x hx
  open_iff := by
    intro i x d hx
    rw [stageAt_setStage_apply] at hx
    split at hx
    · rename_i heq
      cases hx
      simp only [hreaders, List.not_mem_nil, false_iff]
      rintro ⟨rd, hd, hon, -⟩
      obtain ⟨x, hx⟩ := h.onStage d rd hd
      simp [hon, heq, hst] at hx
    · exact h.open_iff i x d hx
  onStage := by
    intro d rd hd
    rw [stageAt_setStage_apply]
    split
    · exact ⟨st, rfl⟩
    · exact h.onStage d rd hd

theorem cancelled {d : ℕ} {rd : Reader} (h : Leases s) (hd : s.readerAt d = some rd) :
    Leases (s.setReader d { rd with cancelled := true }) where
  nodup := h.nodup
  open_iff := by
    intro i x k hx
    rw [readerAt_setReader_apply]
    split
    · rename_i heq
      subst heq
      rw [h.open_iff i x k hx, hd]
      simp
    · exact h.open_iff i x k hx
  onStage := by
    intro k x hk
    rw [readerAt_setReader_apply] at hk
    split at hk
    · cases hk
      exact h.onStage d rd hd
    · exact h.onStage k x hk

theorem readerGone {d : ℕ} {rd : Reader} {st : Stage} (h : Leases s) (hd : s.readerAt d = some rd)
    (hst : s.stageAt rd.stage = some st) :
    Leases ((s.setReader d { rd with cancelled := true, closed := true }).setStage rd.stage
      { st with readers := st.readers.erase d }) where
  nodup := by
    intro i x hx
    rw [stageAt_setStage_apply] at hx
    split at hx
    · cases hx
      exact (h.nodup _ st hst).erase d
    · exact h.nodup i x hx
  open_iff := by
    intro i x k hx
    change k ∈ x.readers ↔ ∃ rd', (s.setReader d _).readerAt k = some rd' ∧ _
    rw [stageAt_setStage_apply] at hx
    rw [readerAt_setReader_apply]
    by_cases hi : i = rd.stage
    · simp only [hi, ↓reduceIte, Option.some.injEq] at hx
      subst hx hi
      rw [(h.nodup _ st hst).mem_erase_iff, h.open_iff _ st k hst]
      by_cases hk : k = d
      · simp [hk]
      · simp [hk]
    · simp only [hi, ↓reduceIte] at hx
      rw [h.open_iff i x k hx]
      by_cases hk : k = d
      · subst hk
        simp [hd, Ne.symm hi]
      · simp [hk]
  onStage := by
    intro k x hk
    change (s.setReader d _).readerAt k = some x at hk
    rw [readerAt_setReader_apply] at hk
    rw [stageAt_setStage_apply]
    split
    · exact ⟨_, rfl⟩
    · split at hk
      · cases hk
        exact ⟨st, hst⟩
      · exact h.onStage k x hk

theorem openReader {id d : ℕ} {st : Stage} (h : Leases s) (hst : s.stageAt id = some st) (hd : s.readerAt d = none) :
    Leases ((s.setStage id { st with readers := d :: st.readers }).setReader d { stage := id }) := by
  have hnew : ∀ i x, s.stageAt i = some x → d ∉ x.readers := by
    intro i x hx hmem
    obtain ⟨rd, hrd, -⟩ := (h.open_iff i x d hx).mp hmem
    simp [hd] at hrd
  refine ⟨?_, ?_, ?_⟩
  · intro i x hx
    change (s.setStage id _).stageAt i = some x at hx
    rw [stageAt_setStage_apply] at hx
    split at hx
    · cases hx
      exact List.nodup_cons.mpr ⟨hnew id st hst, h.nodup id st hst⟩
    · exact h.nodup i x hx
  · intro i x k hx
    change (s.setStage id _).stageAt i = some x at hx
    rw [stageAt_setStage_apply] at hx
    rw [readerAt_setReader_apply]
    change _ ↔ ∃ rd, (if k = d then _ else s.readerAt k) = some rd ∧ _
    by_cases hi : i = id
    · simp only [hi, ↓reduceIte, Option.some.injEq] at hx
      subst hx hi
      rw [List.mem_cons, h.open_iff i st k hst]
      by_cases hk : k = d
      · simp [hk]
      · simp [hk]
    · simp only [hi, ↓reduceIte] at hx
      by_cases hk : k = d
      · subst hk
        simp [hnew i x hx, Ne.symm hi]
      · rw [h.open_iff i x k hx]
        simp [hk]
  · intro k x hk
    rw [readerAt_setReader_apply] at hk
    change ∃ y, (s.setStage id _).stageAt x.stage = some y
    rw [stageAt_setStage_apply]
    split at hk
    · cases hk
      exact ⟨_, if_pos rfl⟩
    · split
      · exact ⟨_, rfl⟩
      · exact h.onStage k x hk

theorem piece (h : Leases s) (hp : Piece s t) : Leases t := by
  cases hp with
  | pop | poison => exact h.congr rfl rfl
  | flag hst | fileClosed hst => exact h.setStage hst rfl
  | @removed id st hst _ _ _ =>
    obtain ⟨l, -, heq⟩ := removeStage_eq s id st
    rw [heq]
    exact (@setStage P s id st { st with reserved := 0, onDisk := false } h hst rfl).congr rfl rfl
  | cancelled hd => exact h.cancelled hd
  | readerGone hd _ hst => exact (h.readerGone hd hst).congr rfl rfl
  | readerLost hd _ hst =>
    obtain ⟨x, hx⟩ := h.onStage _ _ hd
    simp [hst] at hx

theorem move (h : Leases s) (hm : Move e op s t) : Leases t := by
  cases hm with
  | pop | poison _ | closed | request _ _ _ | publish _ | reserve _ _ _ | release _ _ | newRequest _ _ _ _ _ _
  | newScope _ _ _ _ => exact h.congr rfl rfl
  | slot r =>
    obtain ⟨l, -, heq⟩ := releaseSlotLocked_eq s r
    rw [heq]
    exact h.congr rfl rfl
  | stage hst hk => exact h.setStage hst hk.readers
  | cancelReader hd => exact h.cancelled hd
  | newScratch hst hb _ _ _ => exact (h.addStage hst hb.readers).congr rfl rfl
  | newInput hst hb _ _ _ _ _ _ _ => exact (h.addStage hst hb.readers).congr rfl rfl
  | newOutput hst hb _ _ _ _ => exact (h.addStage hst hb.readers).congr rfl rfl
  | @write id st p w hst _ _ _ _ _ _ =>
    rw [written_eq]
    exact (@setStage P s id st (Stage.after st p w) h hst rfl).congr rfl rfl
  | @sealStage id st bad hst _ _ _ =>
    exact (@setStage P s id st { st with sealed := true, reserved := 0, fileOpen := false, writeErr := bad } h hst
      rfl).congr rfl rfl
  | openReader hst _ _ hd => exact (h.openReader hst hd).congr rfl rfl

end Leases

/-! ### What has left the table -/

/-- A stage that has left the table. -/
def Gone (id : ℕ) (s : Store P) : Prop := (∃ st, s.stageAt id = some st) ∧ id ∉ s.stages

namespace Gone

theorem setStage {id k : ℕ} {st : Stage} (h : Gone id s) (l : List ℕ)
    (hl : ∀ i ∈ l, i = k ∧ s.stageAt k = none ∨ i ∈ s.stages) :
    Gone id { s.setStage k st with stages := l } := by
  obtain ⟨⟨x, hx⟩, hnot⟩ := h
  refine ⟨?_, ?_⟩
  · change ∃ y, (s.setStage k st).stageAt id = some y
    rw [stageAt_setStage_apply]
    split
    · exact ⟨st, rfl⟩
    · exact ⟨x, hx⟩
  · intro hmem
    obtain ⟨rfl, hnone⟩ | hmem := hl id hmem
    · simp [hx] at hnone
    · exact hnot hmem

theorem keep {id k : ℕ} {st : Stage} (h : Gone id s) : Gone id (s.setStage k st) :=
  h.setStage s.stages fun _ hi => .inr hi

theorem add {id k : ℕ} {st : Stage} (h : Gone id s) (hk : s.stageAt k = none) :
    Gone id { s.setStage k st with stages := k :: s.stages } :=
  h.setStage _ fun _ hi => (List.mem_cons.mp hi).imp_left fun heq => ⟨heq, hk⟩

variable {id : ℕ}

theorem piece (h : Gone id s) (hp : Piece s t) : Gone id t := by
  cases hp with
  | pop => exact h
  | poison => exact h
  | flag _ => exact h.keep
  | fileClosed _ => exact h.keep
  | @removed k st _ _ _ _ =>
    obtain ⟨l, -, heq⟩ := removeStage_eq s k st
    rw [heq]
    exact @setStage P s id k { st with reserved := 0, onDisk := false } h _ fun _ hi =>
      .inr (List.mem_of_mem_erase hi)
  | cancelled _ => exact h
  | @readerGone d rd st _ _ _ => exact @keep P s id rd.stage { st with readers := st.readers.erase d } h
  | readerLost _ _ _ => exact h

theorem move (h : Gone id s) (hm : Move e op s t) : Gone id t := by
  cases hm with
  | pop => exact h
  | poison _ => exact h
  | closed => exact h
  | slot r =>
    obtain ⟨l, -, heq⟩ := releaseSlotLocked_eq s r
    rw [heq]
    exact h
  | stage _ _ => exact h.keep
  | request _ _ _ => exact h
  | publish _ => exact h
  | cancelReader _ => exact h
  | reserve _ _ _ => exact h
  | release _ _ => exact h
  | newScratch hst _ _ _ _ => exact h.add hst
  | newInput hst _ _ _ _ _ _ _ _ => exact h.add hst
  | newOutput hst _ _ _ _ _ => exact h.add hst
  | newRequest _ _ _ _ _ _ => exact h
  | newScope _ _ _ _ => exact h
  | @write k st p w _ _ _ _ _ _ _ =>
    rw [written_eq]
    exact @keep P s id k (Stage.after st p w) h
  | @sealStage k st bad _ _ _ _ =>
    exact @keep P s id k { st with sealed := true, reserved := 0, fileOpen := false, writeErr := bad } h
  | @openReader k d st _ _ _ _ => exact @keep P s id k { st with readers := d :: st.readers } h

end Gone

end Store
end Onprest.Artifacts
