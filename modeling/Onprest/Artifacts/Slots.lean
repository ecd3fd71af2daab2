import Onprest.Artifacts.Quota

/-! The slots of input requests. Without failures of the operating system a retired stage leaves the table
as soon as no reader is open on it, and the last stage of a released request to go takes the request
with it. -/

namespace Onprest.Artifacts
open Lib Relation
namespace Store
variable {P : Type} {e : Setup} {op : Op P} {s t : Store P}

/-! ### Retired stages leave the table -/

/-- No operation of the operating system fails. -/
def Calm (s : Store P) : Prop := ∀ b ∈ s.faults, b = true

theorem Calm.answer (h : Calm s) : s.answer = true := by
  unfold Store.answer
  cases hf : s.faults with
  | nil => rfl
  | cons b l => exact h b (by simp [hf])

theorem Calm.pop (h : Calm s) : Calm s.pop := fun b hb => h b (List.mem_of_mem_tail hb)

theorem Calm.piece (h : Calm s) (hp : Piece s t) : Calm t := by
  cases hp with
  | pop => exact h.pop
  | @removed id st _ _ _ _ =>
    obtain ⟨l, -, heq⟩ := removeStage_eq s id st
    rw [heq]
    exact h
  | _ => exact h

theorem Calm.move (h : Calm s) (hm : Move e op s t) : Calm t := by
  cases hm with
  | pop => exact h.pop
  | poison _ => exact h.pop
  | slot r =>
    obtain ⟨l, -, heq⟩ := releaseSlotLocked_eq s r
    rw [heq]
    exact h
  | write _ _ _ _ _ _ _ =>
    rw [written_eq]
    exact h
  | _ => exact h

/-- Every retired stage without a reader has left the table, one stage perhaps excepted. -/
def SweptBut (k : Option ℕ) (s : Store P) : Prop :=
  ∀ id st, some id ≠ k → s.stageAt id = some st → st.retired = true → st.readers = [] → id ∉ s.stages

abbrev Swept (s : Store P) : Prop := SweptBut none s

theorem SweptBut.setStage {id : ℕ} {st' : Stage} {k : Option ℕ} (h : SweptBut k s)
    (hst : st'.retired = true → st'.readers = [] →
      some id = k ∨ ∃ st, s.stageAt id = some st ∧ st.retired = true ∧ st.readers = []) :
    SweptBut k (s.setStage id st') := by
  intro i x hne hx hretired hreaders
  rw [stageAt_setStage_apply] at hx
  split at hx
  · rename_i heq
    cases hx
    subst heq
    obtain hk | ⟨st, hst, hr, hd⟩ := hst hretired hreaders
    · exact absurd hk hne
    · exact h i st hne hst hr hd
  · exact h i x hne hx hretired hreaders

/-- Adding a stage that is not retired. -/
theorem SweptBut.addStage {id : ℕ} {st : Stage} (h : Swept s) (hst : st.retired = false) :
    Swept { s.setStage id st with stages := id :: s.stages } := by
  intro i x hne hx hretired hreaders
  simp only [stageAt_setStage_apply] at hx
  split at hx
  · cases hx
    simp [hst] at hretired
  · rename_i hi
    exact fun hmem => h i x hne hx hretired hreaders ((List.mem_cons.mp hmem).resolve_left hi)

theorem cleanupLocked_swept {id : ℕ} (hcalm : Calm s) (hnodup : s.stages.Nodup) (h : SweptBut (some id) s) :
    Swept (s.cleanupLocked id) := by
  have hother : s.stageAt id = none ∨ (∃ st, s.stageAt id = some st ∧ (st.retired = false ∨ st.readers ≠ [])) →
      Swept s := by
    intro hkept i x _ hx hretired hreaders
    by_cases hi : i = id
    · subst hi
      obtain hnone | ⟨st, hst, hst'⟩ := hkept
      · simp [hx] at hnone
      · obtain rfl := Option.some.inj (hx.symm.trans hst)
        simp [hretired, hreaders] at hst'
    · exact h i x (by simpa using hi) hx hretired hreaders
  unfold cleanupLocked
  split
  · rename_i hst
    exact hother (.inl hst)
  · rename_i st hst
    split
    · rename_i hkept
      exact hother (.inr ⟨st, hst, hkept⟩)
    · rw [if_neg (by simp [hcalm.answer])]
      have hclosed : SweptBut (some id) (s.closeFile id st) ∧ (s.closeFile id st).stages = s.stages ∧
          Calm (s.closeFile id st) := by
        unfold closeFile
        split
        · exact ⟨h.setStage fun _ _ => .inl rfl, rfl, hcalm.pop⟩
        · exact ⟨h, rfl, hcalm⟩
      obtain ⟨hbut, hstages, hcalm⟩ := hclosed
      unfold unlink
      split
      · rename_i hnot
        intro i x _ hx hretired hreaders
        by_cases hi : i = id
        · exact hi ▸ hnot
        · exact hbut i x (by simpa using hi) hx hretired hreaders
      · rw [if_neg (by simp [hcalm.answer])]
        obtain ⟨l, -, heq⟩ := removeStage_eq (s.closeFile id st).pop id { st with fileOpen := false }
        rw [heq]
        intro i x _ hx hretired hreaders
        change i ∉ (s.closeFile id st).stages.erase id
        by_cases hi : i = id
        · rw [hi, hstages]
          exact hnodup.not_mem_erase
        · simp only [stageAt_setStage_apply, hi, ↓reduceIte] at hx
          exact fun hmem => hbut i x (by simpa using hi) hx hretired hreaders (List.mem_of_mem_erase hmem)

theorem retire_swept (hcalm : Calm s) (hnodup : s.stages.Nodup) (h : Swept s) (id : ℕ) : Swept (s.retire id) := by
  unfold retire
  split
  · refine cleanupLocked_swept ?_ hnodup ?_
    · exact hcalm
    · intro i x hne hx hretired hreaders
      rw [stageAt_setStage_apply, if_neg (by simpa using hne)] at hx
      exact h i x nofun hx hretired hreaders
  · exact h

theorem closeReader_swept (hcalm : Calm s) (hnodup : s.stages.Nodup) (h : Swept s) (d : ℕ) :
    Swept (s.closeReader d) := by
  unfold closeReader
  split
  · exact h
  · rename_i rd _
    split
    · exact h
    · rw [if_neg (by simp [hcalm.answer])]
      simp only
      split
      · refine cleanupLocked_swept ?_ hnodup ?_
        · exact hcalm.pop
        · intro i x hne hx hretired hreaders
          rw [stageAt_setStage_apply, if_neg (by simpa using hne)] at hx
          exact h i x nofun hx hretired hreaders
      · exact h

theorem SweptBut.move (h : Swept s) (hm : Move e op s t) : Swept t := by
  cases hm with
  | slot r =>
    obtain ⟨l, -, heq⟩ := releaseSlotLocked_eq s r
    rw [heq]
    exact h
  | stage hst hk => exact h.setStage fun hr hd => .inr ⟨_, hst, hk.retired ▸ hr, hk.readers ▸ hd⟩
  | newScratch _ hb _ _ _ | newInput _ hb _ _ _ _ _ _ _ | newOutput _ hb _ _ _ _ =>
    exact SweptBut.addStage h hb.retired
  | @write id st p w hst hretired _ _ _ _ _ =>
    rw [written_eq]
    have hset : Swept (s.setStage id (Stage.after st p w)) := h.setStage fun hr hd => .inr ⟨st, hst, hr, hd⟩
    exact hset
  | @sealStage id st bad hst hretired _ _ =>
    have hset : Swept (s.setStage id { st with
        sealed := true, reserved := 0, fileOpen := false, writeErr := bad }) :=
      h.setStage fun hr hd => .inr ⟨st, hst, hr, hd⟩
    exact hset
  | @openReader id d st hst _ _ _ =>
    have hset : Swept (s.setStage id { st with readers := d :: st.readers }) := h.setStage nofun
    exact hset
  | _ => exact h

/-- What holds between the changes of an operation during which nothing fails. -/
structure Quiet (s : Store P) : Prop where
  tables : Tables s
  calm : Calm s
  swept : Swept s

theorem Quiet.pieces (h : Quiet s) (hp : Pieces s t) : Tables t ∧ Calm t :=
  Pieces.invariant (I := fun s => Tables s ∧ Calm s) (fun _ _ h hp => ⟨h.1.piece hp, h.2.piece hp⟩)
    ⟨h.tables, h.calm⟩ hp

theorem Quiet.deeds (h : Quiet s) (hd : Deeds e op s t) : Quiet t := by
  induction hd with
  | refl => exact h
  | tail _ hstep ih =>
    cases hstep with
    | move hm => exact ⟨ih.tables.move hm, ih.calm.move hm, SweptBut.move ih.swept hm⟩
    | retire id =>
      obtain ⟨htables, hcalm⟩ := ih.pieces (retire_pieces _ id)
      exact ⟨htables, hcalm, retire_swept ih.calm ih.tables.stages ih.swept id⟩
    | closeReader d =>
      obtain ⟨htables, hcalm⟩ := ih.pieces (closeReader_pieces _ d)
      exact ⟨htables, hcalm, closeReader_swept ih.calm ih.tables.stages ih.swept d⟩

/-! ### The request table -/

/-- The request table holds known requests, each once. -/
structure Slots (s : Store P) : Prop where
  nodup : s.requests.Nodup
  known : ∀ r ∈ s.requests, ∃ q, s.requestAt r = some q

namespace Slots

/-- The table shrinks and no request is forgotten. -/
theorem mono (h : Slots s) (hl : t.requests.Sublist s.requests)
    (hq : ∀ r q, s.requestAt r = some q → ∃ q', t.requestAt r = some q') : Slots t where
  nodup := h.nodup.sublist hl
  known := by
    intro r hr
    obtain ⟨q, hs⟩ := h.known r (hl.subset hr)
    exact hq r q hs

theorem piece (h : Slots s) (hp : Piece s t) : Slots t := by
  cases hp with
  | @removed id st _ _ _ _ =>
    obtain ⟨l, hl, heq⟩ := removeStage_eq s id st
    rw [heq]
    exact h.mono hl fun _ q hq => ⟨q, hq⟩
  | _ => exact ⟨h.nodup, h.known⟩

theorem setRequest {r : ℕ} {q : Request P} (h : Slots s) : Slots (s.setRequest r q) := by
  refine h.mono (List.Sublist.refl _) ?_
  intro i x hx
  rw [requestAt_setRequest_apply]
  split
  · exact ⟨q, rfl⟩
  · exact ⟨x, hx⟩

theorem move (h : Slots s) (hm : Move e op s t) : Slots t := by
  cases hm with
  | slot r =>
    obtain ⟨l, hl, heq⟩ := releaseSlotLocked_eq s r
    rw [heq]
    exact h.mono hl fun _ q hq => ⟨q, hq⟩
  | request _ _ _ => exact h.setRequest
  | @newInput id r st q pointer _ _ _ _ _ _ _ _ _ =>
    obtain ⟨hnodup, hknown⟩ := @setRequest P s r { q with files := q.files ++ [(pointer, id)] } h
    exact ⟨hnodup, hknown⟩
  | @newRequest r q hr _ _ _ _ _ =>
    obtain ⟨hnodup, hknown⟩ := @setRequest P s r q h
    refine ⟨List.nodup_cons.mpr ⟨fun hmem => ?_, hnodup⟩, ?_⟩
    · obtain ⟨x, hx⟩ := h.known r hmem
      simp [hr] at hx
    · intro i hi
      obtain rfl | hi := List.mem_cons.mp hi
      · exact ⟨q, by simp [Store.setRequest]⟩
      · exact hknown i hi
  | write _ _ _ _ _ _ _ =>
    rw [written_eq]
    refine h.mono (List.Sublist.refl _) fun r q hq => ?_
    exact Option.isSome_iff_exists.mp (by simp [hq])
  | _ => exact ⟨h.nodup, h.known⟩

end Slots

/-! ### Released requests -/

/-- A request that was released: its files are retired, and it is in the table only while one of them
is. -/
structure Freed (r : ℕ) (q : Request P) (s : Store P) : Prop where
  request : s.requestAt r = some q
  state : q.state = .released
  files : ∀ f ∈ q.files, ∃ st, s.stageAt f.2 = some st ∧ st.request = some r ∧ st.retired = true
  slot : r ∈ s.requests → ∃ f ∈ q.files, f.2 ∈ s.stages

namespace Freed
variable {r : ℕ} {q : Request P}

/-- Stages may come, and a stage that changes stays what it was to its request. -/
theorem mono (h : Freed r q s) (hq : t.requestAt r = some q)
    (hstage : ∀ id st, s.stageAt id = some st → ∃ st', t.stageAt id = some st' ∧ st'.request = st.request ∧
      (st.retired = true → st'.retired = true))
    (hrequests : r ∈ t.requests → r ∈ s.requests) (hstages : ∀ id ∈ s.stages, id ∈ t.stages) : Freed r q t where
  request := hq
  state := h.state
  files := by
    intro f hf
    obtain ⟨st, hst, hr, hretired⟩ := h.files f hf
    obtain ⟨st', hst', hr', hretired'⟩ := hstage f.2 st hst
    exact ⟨st', hst', hr'.trans hr, hretired' hretired⟩
  slot := by
    intro hmem
    obtain ⟨f, hf, hin⟩ := h.slot (hrequests hmem)
    exact ⟨f, hf, hstages _ hin⟩

theorem setStage {id : ℕ} {st st' : Stage} (h : Freed r q s) (hst : s.stageAt id = some st)
    (hrequest : st'.request = st.request) (hretired : st.retired = true → st'.retired = true) :
    Freed r q (s.setStage id st') := by
  refine h.mono h.request ?_ (fun hm => hm) fun _ hm => hm
  intro i x hx
  rw [stageAt_setStage_apply]
  split
  · rename_i heq
    obtain rfl : st = x := Option.some.inj (hst.symm.trans (heq ▸ hx))
    exact ⟨st', rfl, hrequest, hretired⟩
  · exact ⟨x, hx, rfl, fun hr => hr⟩

theorem addStage {id : ℕ} {st : Stage} (h : Freed r q s) (hst : s.stageAt id = none) :
    Freed r q { s.setStage id st with stages := id :: s.stages } := by
  refine h.mono h.request ?_ (fun hm => hm) fun _ hm => List.mem_cons_of_mem _ hm
  intro i x hx
  refine ⟨x, ?_, rfl, fun hr => hr⟩
  have hne : i ≠ id := by
    rintro rfl
    simp [hst] at hx
  simpa [stageAt_setStage_apply, hne] using hx

/-- A release of a slot takes a request out of the table whose files have all gone. -/
theorem slot_released (hslots : s.requests.Nodup) (hq : s.requestAt r = some q) (hstate : q.state = .released)
    (hmem : r ∈ (s.releaseSlotLocked r).requests) : ∃ f ∈ q.files, f.2 ∈ s.stages := by
  by_contra hnone
  rw [releaseSlotLocked, hq] at hmem
  simp only at hmem
  rw [if_pos ⟨hstate, fun f hf hin => hnone ⟨f, hf, hin⟩⟩] at hmem
  exact hslots.not_mem_erase hmem

theorem releaseSlot (h : Freed r q s) (k : ℕ) : Freed r q (s.releaseSlotLocked k) := by
  obtain ⟨l, hl, heq⟩ := releaseSlotLocked_eq s k
  rw [heq]
  exact h.mono h.request (fun _ st hst => ⟨st, hst, rfl, fun hr => hr⟩) (fun hm => hl.subset hm) fun _ hm => hm

theorem removeStage {id : ℕ} {st : Stage} (h : Freed r q s) (hslots : s.requests.Nodup)
    (hst : s.stageAt id = some st) : Freed r q (s.removeStage id st) := by
  obtain ⟨l, hl, heq⟩ := removeStage_eq s id st
  have hkept : Freed r q (s.setStage id { st with reserved := 0, onDisk := false }) :=
    h.setStage hst rfl fun hr => hr
  refine ⟨by rw [heq]; exact hkept.request, h.state, by rw [heq]; exact hkept.files, ?_⟩
  intro hmem
  have hin : r ∈ s.requests := hl.subset (by rwa [heq] at hmem)
  by_cases hown : st.request = some r
  · -- the removal has looked at the slot of this very request
    have hstages : (s.removeStage id st).stages = s.stages.erase id := by rw [heq]
    rw [hstages]
    simp only [Store.removeStage, hown] at hmem
    obtain ⟨f, hf, hfin⟩ := slot_released (by exact hslots) (by exact h.request) h.state hmem
    exact ⟨f, hf, hfin⟩
  · obtain ⟨f, hf, hfin⟩ := h.slot hin
    refine ⟨f, hf, ?_⟩
    have hne : f.2 ≠ id := by
      rintro rfl
      obtain ⟨x, hx, hr, -⟩ := h.files f hf
      obtain rfl := Option.some.inj (hst.symm.trans hx)
      exact hown hr
    rw [heq]
    exact (List.mem_erase_of_ne hne).mpr hfin

theorem piece (h : Freed r q s) (hslots : Slots s) (hp : Piece s t) : Freed r q t := by
  cases hp with
  | flag hst => exact h.setStage hst rfl fun _ => rfl
  | fileClosed hst => exact h.setStage hst rfl fun hr => hr
  | removed hst _ _ _ => exact h.removeStage hslots.nodup hst
  | @readerGone d rd st _ _ hst =>
    obtain ⟨h₁, h₂, h₃, h₄⟩ := @setStage P s r q rd.stage st { st with readers := st.readers.erase d } h hst rfl
      fun hr => hr
    exact ⟨h₁, h₂, h₃, h₄⟩
  | _ => exact ⟨h.request, h.state, h.files, h.slot⟩

/-- No operation takes a request back that was released, the revocation of its generation while it is
still in the table excepted. -/
theorem advance {i : ℕ} {x x' : Request P} (h : Freed r q s)
    (hspared : r ∈ s.requests → op ≠ .revokeGeneration q.owner.authGeneration) (hx : s.requestAt i = some x)
    (hk : x.Keeps x') (ha : Advance op s.requests i x x') :
    ∃ q', Freed r q' (s.setRequest i x') ∧ q'.owner = q.owner := by
  by_cases hi : i = r
  · subst hi
    obtain rfl : q = x := Option.some.inj (h.request.symm.trans hx)
    refine ⟨x', ⟨by simp [Store.setRequest], ?_, ?_, ?_⟩, hk.owner⟩
    · have hstate := h.state
      cases ha with
      | keep hkeep _ => exact hkeep.trans hstate
      | abort hne _ _ => exact absurd hstate hne
      | revoke hop hmem _ _ => exact absurd hop (hspared hmem)
      | release hreleased _ => exact hreleased
      | commit _ _ _ hreceiving _ _ => simp [hstate] at hreceiving
      | start _ _ _ hready _ _ => simp [hstate] at hready
    · rw [hk.files]
      exact h.files
    · rw [hk.files]
      exact h.slot
  · refine ⟨q, ?_, rfl⟩
    refine h.mono ?_ (fun _ st hst => ⟨st, hst, rfl, fun hr => hr⟩) (fun hm => hm) fun _ hm => hm
    rw [requestAt_setRequest_apply, if_neg (Ne.symm hi)]
    exact h.request

theorem move (h : Freed r q s) (hspared : r ∈ s.requests → op ≠ .revokeGeneration q.owner.authGeneration)
    (hm : Move e op s t) : ∃ q', Freed r q' t ∧ q'.owner = q.owner := by
  cases hm with
  | slot k => exact ⟨q, h.releaseSlot k, rfl⟩
  | stage hst hk => exact ⟨q, h.setStage hst hk.request fun hr => hk.retired.trans hr, rfl⟩
  | request hx hk ha => exact h.advance hspared hx hk ha
  | newScratch hst _ _ _ _ | newOutput hst _ _ _ _ _ =>
    obtain ⟨h₁, h₂, h₃, h₄⟩ := h.addStage hst
    exact ⟨q, ⟨h₁, h₂, h₃, h₄⟩, rfl⟩
  | @newInput id i st x pointer hst _ _ _ _ hx hstate _ _ =>
    -- a released request takes no file
    have hne : r ≠ i := by
      rintro rfl
      obtain rfl : q = x := Option.some.inj (h.request.symm.trans hx)
      simp [h.state] at hstate
    obtain ⟨h₁, h₂, h₃, h₄⟩ := @addStage P s r q id st h hst
    refine ⟨q, ⟨?_, h₂, h₃, h₄⟩, rfl⟩
    rw [requestAt_setRequest_apply, if_neg hne]
    exact h₁
  | @newRequest i x hx _ _ _ _ _ =>
    have hne : r ≠ i := by
      rintro rfl
      simp [h.request] at hx
    refine ⟨q, h.mono ?_ (fun _ st hst => ⟨st, hst, rfl, fun hr => hr⟩) ?_ fun _ hm => hm, rfl⟩
    · simpa [requestAt_setRequest_apply, hne] using h.request
    · exact fun hmem => (List.mem_cons.mp hmem).resolve_left hne
  | @write id st p w hst _ _ _ hreq _ _ =>
    -- a request that is not receiving has no room for a write
    have hother : st.request ≠ some r := by
      intro hr
      have hstate := (Shares.room_request hreq hr h.request).1
      simp [h.state] at hstate
    rw [written_eq]
    obtain ⟨h₁, h₂, h₃, h₄⟩ := @setStage P s r q id st (Stage.after st p w) h hst rfl fun hr => hr
    refine ⟨q, ⟨?_, h₂, h₃, h₄⟩, rfl⟩
    simp only [h.request, hother, ↓reduceIte, Option.map_some]
  | @sealStage id st bad hst _ _ _ =>
    obtain ⟨h₁, h₂, h₃, h₄⟩ := @setStage P s r q id st
      { st with sealed := true, reserved := 0, fileOpen := false, writeErr := bad } h hst rfl fun hr => hr
    exact ⟨q, ⟨h₁, h₂, h₃, h₄⟩, rfl⟩
  | @openReader id d st hst _ _ _ =>
    obtain ⟨h₁, h₂, h₃, h₄⟩ := @setStage P s r q id st { st with readers := d :: st.readers } h hst rfl fun hr => hr
    exact ⟨q, ⟨h₁, h₂, h₃, h₄⟩, rfl⟩
  | _ => exact ⟨q, ⟨h.request, h.state, h.files, h.slot⟩, rfl⟩

end Freed

/-! ### How a request is released -/

/-- The operation releases the request: it is stopped, one of its stages is aborted before execution has
started, or it is swept. -/
def releases (s : Store P) (op : Op P) (r : ℕ) : Bool :=
  match op with
  | .releaseStopped r' o => r' = r && s.ownedBy r o
  | .abortStage id =>
    (s.stageAt id).any (fun st => st.request = some r) && (s.requestAt r).any fun q => !q.started
  | .sweep past _ => r ∈ s.requests && (s.requestAt r).any fun q =>
      !q.started && (q.state = .receiving || q.state = .ready || q.state = .aborted) && (r ∈ past || q.ctxDone)
  | _ => false

theorem Piece.requestAt (hp : Piece s t) : t.requestAt = s.requestAt := by
  cases hp with
  | @removed id st _ _ _ _ =>
    obtain ⟨l, -, heq⟩ := removeStage_eq s id st
    rw [heq]
    rfl
  | _ => rfl

variable {st : Stage} {r : ℕ} {q : Request P} {a : Op P × List Bool} {ops : List (Op P × List Bool)}

/-- A stage stays with its request and stays retired. -/
theorem Piece.stageAt {id : ℕ} (hp : Piece s t) (hst : s.stageAt id = some st) :
    ∃ st', t.stageAt id = some st' ∧ st'.request = st.request ∧ (st.retired = true → st'.retired = true) := by
  have hset : ∀ {u : Store P} {k : ℕ} {x x' : Stage}, u.stageAt = s.stageAt → s.stageAt k = some x →
      x'.request = x.request → (x.retired = true → x'.retired = true) →
      ∃ st', (u.setStage k x').stageAt id = some st' ∧ st'.request = st.request ∧
        (st.retired = true → st'.retired = true) := by
    intro u k x x' hu hx hrequest hretired
    rw [stageAt_setStage_apply, hu]
    split
    · rename_i heq
      obtain rfl : x = st := Option.some.inj (hx.symm.trans (heq ▸ hst))
      exact ⟨x', rfl, hrequest, hretired⟩
    · exact ⟨st, hst, rfl, fun hr => hr⟩
  cases hp with
  | flag hx => exact hset rfl hx rfl fun _ => rfl
  | fileClosed hx | readerGone _ _ hx => exact hset rfl hx rfl fun hr => hr
  | @removed k x hx _ _ _ =>
    obtain ⟨l, -, heq⟩ := removeStage_eq s k x
    rw [heq]
    exact @hset s k x { x with reserved := 0, onDisk := false } rfl hx rfl fun hr => hr
  | _ => exact ⟨st, hst, rfl, fun hr => hr⟩

theorem Pieces.requestAt (hp : Pieces s t) : t.requestAt = s.requestAt :=
  Pieces.invariant (fun _ _ h hp => (Piece.requestAt hp).trans h) rfl hp

theorem Pieces.stageAt {id : ℕ} (hp : Pieces s t) (hst : s.stageAt id = some st) :
    ∃ st', t.stageAt id = some st' ∧ st'.request = st.request ∧ (st.retired = true → st'.retired = true) := by
  refine Pieces.invariant (I := fun u => ∃ st', u.stageAt id = some st' ∧ st'.request = st.request ∧
    (st.retired = true → st'.retired = true)) ?_ ⟨st, hst, rfl, fun hr => hr⟩ hp
  rintro u v ⟨x, hx, hrequest, hretired⟩ hp
  obtain ⟨x', hx', hrequest', hretired'⟩ := Piece.stageAt hp hx
  exact ⟨x', hx', hrequest'.trans hrequest, fun hr => hretired' (hretired hr)⟩

theorem retireAll_pieces (s : Store P) (ids : List ℕ) : Pieces s (s.retireAll ids) := by
  induction ids generalizing s with
  | nil => exact .refl
  | cons id ids ih => exact (retire_pieces s id).trans (ih _)

theorem retire_retired {id : ℕ} (hst : s.stageAt id = some st) :
    ∃ st', (s.retire id).stageAt id = some st' ∧ st'.request = st.request ∧ st'.retired = true := by
  unfold retire
  rw [hst]
  obtain ⟨st', hst', hrequest, hretired⟩ := Pieces.stageAt (cleanupLocked_pieces _ id)
    (stageAt_setStage s id { st with retired := true })
  exact ⟨st', hst', hrequest, hretired rfl⟩

theorem retireAll_retired {ids : List ℕ} {id : ℕ} (hid : id ∈ ids) (hst : s.stageAt id = some st) :
    ∃ st', (s.retireAll ids).stageAt id = some st' ∧ st'.request = st.request ∧ st'.retired = true := by
  induction ids generalizing s st with
  | nil => cases hid
  | cons k ids ih =>
    obtain rfl | hid := List.mem_cons.mp hid
    · obtain ⟨x, hx, hrequest, hretired⟩ := retire_retired hst
      obtain ⟨y, hy, hrequest', hretired'⟩ := Pieces.stageAt (retireAll_pieces (s.retire id) ids) hx
      exact ⟨y, hy, hrequest'.trans hrequest, hretired' hretired⟩
    · obtain ⟨x, hx, hrequest, -⟩ := Pieces.stageAt (retire_pieces s k) hst
      obtain ⟨y, hy, hrequest', hretired'⟩ := ih hid hx
      exact ⟨y, hy, hrequest'.trans hrequest, hretired'⟩

theorem releaseFiles_freed {q' : Request P} (hshares : Shares s) (hslots : Slots s) (hq : s.requestAt r = some q)
    (hfiles : q'.files = q.files) (hstate : q'.state = .released) :
    Freed r q' (((s.setRequest r q').retireAll (q.files.map (·.2))).releaseSlotLocked r) := by
  have hpieces := retireAll_pieces (s.setRequest r q') (q.files.map (·.2))
  have hat : ((s.setRequest r q').retireAll (q.files.map (·.2))).requestAt r = some q' := by
    rw [Pieces.requestAt hpieces]
    simp [setRequest]
  have hnodup : ((s.setRequest r q').retireAll (q.files.map (·.2))).requests.Nodup :=
    (Pieces.invariant (fun _ _ h hp => h.piece hp) hslots.setRequest hpieces).nodup
  obtain ⟨l, hl, heq⟩ := releaseSlotLocked_eq ((s.setRequest r q').retireAll (q.files.map (·.2))) r
  refine ⟨by rw [heq]; exact hat, hstate, ?_, ?_⟩
  · intro f hf
    rw [hfiles] at hf
    have hid : f.2 ∈ q.files.map (·.2) := List.mem_map_of_mem hf
    obtain ⟨st, hst, hrequest⟩ := hshares.inputs.members r q hq f.2 hid
    obtain ⟨st', hst', hrequest', hretired⟩ :=
      retireAll_retired hid (show (s.setRequest r q').stageAt f.2 = some st from hst)
    rw [heq]
    exact ⟨st', hst', hrequest'.trans hrequest, hretired⟩
  · intro hmem
    obtain ⟨f, hf, hin⟩ := Freed.slot_released hnodup hat hstate hmem
    exact ⟨f, hf, by rw [heq]; exact hin⟩

theorem Piece.request_mem (hp : Piece s t) (hmem : r ∈ t.requests) : r ∈ s.requests := by
  cases hp with
  | @removed id st _ _ _ _ =>
    obtain ⟨l, hl, heq⟩ := removeStage_eq s id st
    rw [heq] at hmem
    exact hl.subset hmem
  | _ => exact hmem

/-- A request that has left the table does not come back. -/
theorem Move.request_mem (hm : Move e op s t) (hq : s.requestAt r = some q) (hmem : r ∈ t.requests) :
    r ∈ s.requests := by
  cases hm with
  | slot k =>
    obtain ⟨l, hl, heq⟩ := releaseSlotLocked_eq s k
    rw [heq] at hmem
    exact hl.subset hmem
  | newRequest hr _ _ _ _ _ =>
    refine (List.mem_cons.mp hmem).resolve_left ?_
    rintro rfl
    simp [hq] at hr
  | write _ _ _ _ _ _ _ =>
    rw [written_eq] at hmem
    exact hmem
  | _ => exact hmem

theorem sweepRequest_requestAt (past : List ℕ) (s : Store P) {k : ℕ} (hne : r ≠ k) :
    (sweepRequest past s k).requestAt r = s.requestAt r := by
  unfold sweepRequest
  split
  · rename_i q _
    split
    · obtain ⟨l, -, heq⟩ := releaseSlotLocked_eq
        ((s.setRequest k { q with ctxDone := true, state := .released }).retireAll (q.files.map (·.2))) k
      rw [heq]
      change ((s.setRequest k _).retireAll _).requestAt r = _
      rw [Pieces.requestAt (retireAll_pieces _ _), requestAt_setRequest_apply, if_neg hne]
    · rfl
  · rfl

theorem Slots.deeds (h : Slots s) (hd : Deeds e op s t) : Slots t :=
  Deeds.invariant (fun _ _ h hm => h.move hm) (fun _ _ h hp => h.piece hp) h hd

theorem Freed.deeds (h : Freed r q s) (hslots : Slots s)
    (hspared : r ∈ s.requests → op ≠ .revokeGeneration q.owner.authGeneration) (hd : Deeds e op s t) :
    ∃ q', Freed r q' t := by
  have hkept := Deeds.invariant
    (I := fun u => Slots u ∧ ∃ x, Freed r x u ∧ (r ∈ u.requests → op ≠ .revokeGeneration x.owner.authGeneration))
    ?_ ?_ ⟨hslots, q, h, hspared⟩ hd
  · obtain ⟨-, x, hx, -⟩ := hkept
    exact ⟨x, hx⟩
  · rintro u v ⟨hslots, x, hx, hspared⟩ hm
    obtain ⟨x', hx', howner⟩ := hx.move hspared hm
    refine ⟨hslots.move hm, x', hx', fun hmem => ?_⟩
    rw [howner]
    exact hspared (hm.request_mem hx.request hmem)
  · rintro u v ⟨hslots, x, hx, hspared⟩ hp
    exact ⟨hslots.piece hp, x, hx.piece hslots hp, fun hmem => hspared (hp.request_mem hmem)⟩

/-- A fold that comes to `a` while `I` holds, and then makes `J` hold, ends with `J`. -/
theorem foldl_reaches {α σ : Type} {f : σ → α → σ} {I J : σ → Prop} {a : α} (hI : ∀ s b, b ≠ a → I s → I (f s b))
    (hIJ : ∀ s, I s → J (f s a)) (hJ : ∀ s b, J s → J (f s b)) {l : List α} (ha : a ∈ l) {s : σ} (hs : I s) :
    J (l.foldl f s) := by
  induction l generalizing s with
  | nil => cases ha
  | cons b l ih =>
    rw [List.foldl_cons]
    by_cases hb : b = a
    · subst hb
      exact List.foldlRecOn l f (hIJ s hs) fun s hs c _ => hJ s c hs
    · exact ih ((List.mem_cons.mp ha).resolve_left (Ne.symm hb)) (hI s b hb hs)

theorem releaseStoppedLocked_freed (hshares : Shares s) (hslots : Slots s) (hq : s.requestAt r = some q) :
    ∃ q', Freed r q' (s.releaseStoppedLocked r) := by
  unfold releaseStoppedLocked
  rw [hq]
  exact ⟨{ stopContexts q with state := .released }, releaseFiles_freed hshares hslots hq rfl rfl⟩

theorem abortStage_freed {id : ℕ} (hsound : Sound e s) (hslots : Slots s)
    (h : s.releases (.abortStage id) r = true) :
    ∃ q', Freed r q' (s.abortStage id) := by
  simp only [releases, Bool.and_eq_true, Option.any_eq_true, decide_eq_true_eq, Bool.not_eq_eq_eq_not,
    Bool.not_true] at h
  obtain ⟨⟨st, hst, hrequest⟩, q, hq, hstarted⟩ := h
  unfold abortStage
  rw [hst]
  simp only [hrequest]
  have haborted : ∃ q', (s.abortLocked r).requestAt r = some q' ∧ q'.started = false := by
    unfold abortLocked
    rw [hq]
    simp only
    split
    · exact ⟨q, hq, hstarted⟩
    · exact ⟨{ stopContexts q with state := .aborted }, by simp [setRequest], hstarted⟩
  obtain ⟨q', hq', hstarted'⟩ := haborted
  have hdeeds : Deeds e (.abortStage id) s (s.abortLocked r) := abortLocked_deeds s r
  rw [hq']
  simp only [hstarted', Bool.false_and, Bool.false_eq_true, ↓reduceIte]
  exact releaseStoppedLocked_freed (hsound.deeds hdeeds).shares (hslots.deeds hdeeds) hq'

theorem sweep_freed {past expired : List ℕ} (hsound : Sound e s) (hslots : Slots s)
    (h : s.releases (.sweep past expired) r = true) : ∃ q', Freed r q' (s.sweep past expired) := by
  simp only [releases, Bool.and_eq_true, Option.any_eq_true, decide_eq_true_eq] at h
  obtain ⟨hmem, q, hq, hdue⟩ := h
  have hspared : ∀ gen, (.sweep past expired : Op P) ≠ .revokeGeneration gen := nofun
  have hrequests : Slots (s.requests.foldl (sweepRequest past) s) ∧
      ∃ q', Freed r q' (s.requests.foldl (sweepRequest past) s) := by
    refine foldl_reaches (I := fun u => Sound e u ∧ Slots u ∧ u.requestAt r = some q)
      (J := fun u => Slots u ∧ ∃ q', Freed r q' u) ?_ ?_ ?_ hmem ⟨hsound, hslots, hq⟩
    · rintro u k hk ⟨hsound, hslots, hq⟩
      have hdeeds : Deeds e (.sweep past expired) u (sweepRequest past u k) := sweepRequest_deeds past u k
      exact ⟨hsound.deeds hdeeds, hslots.deeds hdeeds, (sweepRequest_requestAt past u (Ne.symm hk)).trans hq⟩
    · rintro u ⟨hsound, hslots, hq⟩
      have hdeeds : Deeds e (.sweep past expired) u (sweepRequest past u r) := sweepRequest_deeds past u r
      refine ⟨hslots.deeds hdeeds, ?_⟩
      unfold sweepRequest
      rw [hq]
      simp only
      rw [if_pos (by simpa [and_assoc, or_assoc] using hdue)]
      exact ⟨{ q with ctxDone := true, state := .released }, releaseFiles_freed hsound.shares hslots hq rfl rfl⟩
    · rintro u k ⟨hslots, q', hfreed⟩
      have hdeeds : Deeds e (.sweep past expired) u (sweepRequest past u k) := sweepRequest_deeds past u k
      exact ⟨hslots.deeds hdeeds, hfreed.deeds hslots (fun _ => hspared _) hdeeds⟩
  obtain ⟨hslots, q', hfreed⟩ := hrequests
  have hdeeds : Deeds e (.sweep past expired) (s.requests.foldl (sweepRequest past) s) (s.sweep past expired) :=
    foldl_deeds (sweepStage_deeds expired) _ _
  exact hfreed.deeds hslots (fun _ => hspared _) hdeeds

theorem exec_freed (hsound : Sound e s) (hslots : Slots s) (h : s.releases op r = true) :
    ∃ q, Freed r q (exec e s op) := by
  cases op with
  | releaseStopped k o =>
    simp only [releases, Bool.and_eq_true, decide_eq_true_eq] at h
    obtain ⟨rfl, howned⟩ := h
    simp only [exec, howned, ↓reduceIte]
    obtain ⟨q, hq⟩ : ∃ q, s.requestAt k = some q := by
      simp only [ownedBy, Option.any_eq_true] at howned
      exact howned.imp fun _ h => h.1
    exact releaseStoppedLocked_freed hsound.shares hslots hq
  | abortStage id => exact abortStage_freed hsound hslots h
  | sweep past expired => exact sweep_freed hsound hslots h
  | _ => cases h

/-! ### Runs -/

/-- Nothing fails during the operation, and it does not revoke the generation of a released request that
is still in the table. -/
def spares (s : Store P) (a : Op P × List Bool) : Bool :=
  a.2.all id &&
    match a.1 with
    | .revokeGeneration generation => s.requests.all fun r => (s.requestAt r).all fun q =>
        q.state ≠ .released || q.owner.authGeneration ≠ generation
    | _ => true

/-- What holds after every operation as long as nothing fails. -/
structure Tidy (e : Setup) (s : Store P) : Prop where
  sound : Sound e s
  slots : Slots s
  swept : Swept s

theorem tidy_init (e : Setup) : Tidy e ({} : Store P) where
  sound := sound_init e
  slots := by constructor <;> simp
  swept := by simp [SweptBut]

theorem Tidy.step (h : Tidy e s) (hcalm : a.2.all id = true) (hstep : s.step e a = some t) : Tidy e t := by
  have hdeeds := step_deeds hstep
  have hquiet : Quiet { s with faults := a.2 } :=
    ⟨h.sound.tables.congr rfl rfl rfl rfl, by simpa [Calm] using hcalm, h.swept⟩
  have hslots : Slots { s with faults := a.2 } := ⟨h.slots.nodup, h.slots.known⟩
  exact ⟨h.sound.step hstep, hslots.deeds hdeeds, (hquiet.deeds hdeeds).swept⟩

theorem Tidy.run (h : Tidy e s) (hrun : ((machine e).guarded spares).run s ops = some t) : Tidy e t := by
  refine ((machine e).guarded spares).run_invariant ?_ h hrun
  intro s a t hs hstep
  obtain ⟨hspares, hstep⟩ := (machine e).guarded_step.mp hstep
  exact hs.step (Bool.and_eq_true_iff.mp hspares).1 hstep

/-- A step that spares it leaves a released request released. -/
theorem Freed.step (h : Freed r q s) (hslots : Slots s) (hspares : s.spares a = true) (hstep : s.step e a = some t) :
    ∃ q', Freed r q' t := by
  have hfreed : Freed r q { s with faults := a.2 } := ⟨h.request, h.state, h.files, h.slot⟩
  refine hfreed.deeds ⟨hslots.nodup, hslots.known⟩ ?_ (step_deeds hstep)
  intro hmem hop
  have hall := (Bool.and_eq_true_iff.mp hspares).2
  rw [hop] at hall
  have hother := List.all_eq_true.mp hall r hmem
  simp [h.request, h.state] at hother

theorem Freed.run (h : Freed r q s) (htidy : Tidy e s) (hrun : ((machine e).guarded spares).run s ops = some t) :
    ∃ q', Freed r q' t := by
  have hkept := ((machine e).guarded spares).run_invariant (I := fun u => Tidy e u ∧ ∃ x, Freed r x u) ?_
    ⟨htidy, q, h⟩ hrun
  · exact hkept.2
  · rintro u a v ⟨htidy, x, hx⟩ hstep
    obtain ⟨hspares, hstep⟩ := (machine e).guarded_step.mp hstep
    exact ⟨htidy.step (Bool.and_eq_true_iff.mp hspares).1 hstep, hx.step htidy.slots hspares hstep⟩

/-- The request was released at some point of a run from the empty store. -/
def ReleasedIn (e : Setup) (ops : List (Op P × List Bool)) (r : ℕ) : Prop :=
  ∃ before a after s, ops = before ++ a :: after ∧ (machine e).run {} before = some s ∧ s.releases a.1 r = true

theorem ReleasedIn.freed (h : ReleasedIn e ops r) (hrun : ((machine e).guarded spares).run {} ops = some t) :
    ∃ q, Freed r q t := by
  obtain ⟨before, a, after, s, rfl, hbefore, hreleases⟩ := h
  obtain ⟨s', hs', hrun⟩ := ((machine e).guarded spares).run_append.mp hrun
  obtain rfl : s = s' := Option.some.inj (hbefore.symm.trans ((machine e).run_of_guarded hs'))
  obtain ⟨u, hu, hrun⟩ := ((machine e).guarded spares).run_cons.mp hrun
  obtain ⟨hspares, hstep⟩ := (machine e).guarded_step.mp hu
  have htidy := (tidy_init e).run hs'
  have htidy' := htidy.step (Bool.and_eq_true_iff.mp hspares).1 hstep
  have hexec : u = exec e { s with faults := a.2 } a.1 := by
    change s.step e a = some u at hstep
    unfold step at hstep
    split at hstep
    · exact (Option.some.inj hstep).symm
    · cases hstep
  obtain ⟨q, hq⟩ : ∃ q, Freed r q u := by
    rw [hexec]
    obtain ⟨htables, hleases, hshares, hledger⟩ := htidy.sound
    refine exec_freed ⟨htables.congr rfl rfl rfl rfl, hleases.congr rfl rfl, ⟨hshares.inputs, hshares.outputs⟩,
      hledger.congr rfl rfl rfl rfl rfl⟩ ⟨htidy.slots.nodup, htidy.slots.known⟩ ?_
    exact hreleases
  exact hq.run htidy' hrun

/-- Every reader on a file of the request has been closed. -/
def readersClosed (s : Store P) (r : ℕ) : Prop :=
  ∀ d rd st, s.readerAt d = some rd → s.stageAt rd.stage = some st → st.request = some r → rd.closed = true

theorem Freed.returned (h : Freed r q s) (htidy : Tidy e s) (hclosed : s.readersClosed r) :
    r ∉ s.requests ∧ ∀ id st, s.stageAt id = some st → st.request = some r → id ∉ s.stages := by
  have hgone : ∀ f ∈ q.files, f.2 ∉ s.stages := by
    intro f hf
    obtain ⟨st, hst, hrequest, hretired⟩ := h.files f hf
    refine htidy.swept f.2 st nofun hst hretired (List.eq_nil_iff_forall_not_mem.mpr fun d hd => ?_)
    obtain ⟨rd, hrd, hon, hopen⟩ := (htidy.sound.leases.open_iff f.2 st d hst).mp hd
    have hclosed := hclosed d rd st hrd (hon ▸ hst) hrequest
    simp [hopen] at hclosed
  refine ⟨fun hmem => ?_, fun id st hst hrequest => ?_⟩
  · obtain ⟨f, hf, hin⟩ := h.slot hmem
    exact hgone f hf hin
  · obtain ⟨x, hx, hid⟩ := htidy.sound.shares.inputs.tagged id st r hst hrequest
    obtain rfl := Option.some.inj (h.request.symm.trans hx)
    obtain ⟨f, hf, rfl⟩ := List.mem_map.mp hid
    exact hgone f hf

/-- `BeginInput` is refused as busy or in conflict only on account of requests in the table. -/
theorem beginInput_refused {o : Owner} {c : Capability P} {done : Bool} (hempty : s.requests = []) :
    (s.beginInput e r o c done).1 ≠ .error .busy ∧ (s.beginInput e r o c done).1 ≠ .error .conflict := by
  have hpending := e.pending_pos
  have havailable : s.available ≠ some .busy ∧ s.available ≠ some .conflict := by
    unfold available
    constructor <;> split_ifs <;> simp
  unfold beginInput
  split
  · rename_i code hcode
    rw [hcode] at havailable
    simpa using havailable
  · simp only [hempty, List.any_nil, Bool.false_eq_true, ↓reduceIte, List.length_nil]
    rw [if_neg (show ¬e.maxPending ≤ 0 by omega)]
    constructor <;> split_ifs <;> simp

/-- As long as nothing fails and no revocation hits a released request that is still in the table, a
request that was released stays released and gives its slot and its stages back when its readers are
closed; once this holds of all requests, none of them stands in the way of a new one. -/
theorem released_returned {ops : List (Op P × List Bool)} (hrun : ((machine e).guarded spares).run {} ops = some s) :
    (∀ r, ReleasedIn e ops r → (∃ q, s.requestAt r = some q ∧ q.state = .released) ∧
      (s.readersClosed r →
        r ∉ s.requests ∧ ∀ id st, s.stageAt id = some st → st.request = some r → id ∉ s.stages)) ∧
    ((∀ r ∈ s.requests, ReleasedIn e ops r) → (∀ d rd, s.readerAt d = some rd → rd.closed = true) →
      ∀ r o c done, (s.beginInput e r o c done).1 ≠ .error .busy ∧
        (s.beginInput e r o c done).1 ≠ .error .conflict) := by
  have htidy := (tidy_init e).run hrun
  refine ⟨fun r hr => ?_, fun hall hclosed r o c done => ?_⟩
  · obtain ⟨q, hq⟩ := hr.freed hrun
    exact ⟨⟨q, hq.request, hq.state⟩, hq.returned htidy⟩
  · refine beginInput_refused (List.eq_nil_iff_forall_not_mem.mpr fun k hk => ?_)
    obtain ⟨q, hq⟩ := (hall k hk).freed hrun
    exact (hq.returned htidy fun d rd _ hd _ _ => hclosed d rd hd).1 hk

/-- Whether the files of a request have no reader. -/
def filesUnread (s : Store P) (r : ℕ) : Bool :=
  (s.requestAt r).any fun q => q.files.all fun f => (s.stageAt f.2).all fun st => st.readers = []

theorem Sound.readersClosed (h : Sound e s) (hfiles : s.filesUnread r = true) : s.readersClosed r := by
  intro d rd st hd hst hrequest
  by_contra hopen
  have hmem := (h.leases.open_iff rd.stage st d hst).mpr ⟨rd, hd, rfl, by simpa using hopen⟩
  obtain ⟨q, hq, hid⟩ := h.shares.inputs.tagged rd.stage st r hst hrequest
  obtain ⟨f, hf, hf2⟩ := List.mem_map.mp hid
  simp only [filesUnread, hq, Option.any_some, List.all_eq_true] at hfiles
  have hnone := hfiles f hf
  simp only [hf2, hst, Option.all_some, decide_eq_true_eq] at hnone
  simp [hnone] at hmem

def caller : Owner := ⟨"request", "binding", "read", "hash", "generation"⟩

/-- A capability with one file of at most 8 bytes. -/
def oneFile : Capability Unit where
  name := "read"
  limits := ⟨8, 8, 1⟩
  hasFile := true
  fileAt := fun pointer => if pointer = "/file" then some ⟨8, fun _ => true⟩ else none
  validateInput := fun _ =>
    some ((), [⟨"/file", ⟨"/file", 0, "request", "a.txt", "text/plain", 2, ""⟩⟩])

/-- A request executes and opens its file; then it is released. -/
def releasedWhileRead : List (Op Unit × List Bool) :=
  [(.beginInput 0 caller oneFile false, []), (.newFile 0 caller "/file" "a.txt" "text/plain" 0, []),
    (.write 0 [1, 2] ⟨2, false, []⟩, []), (.closeStage 0, []), (.complete 0 caller 0 2 "", []),
    (.commit 0 caller (), []), (.start 0 caller false, []),
    (.openInput 0 caller ⟨"/file", 0, "request", "a.txt", "text/plain", 2, ""⟩ 0, []),
    (.releaseStopped 0 caller, [])]

theorem releasedIn_releasedWhileRead (after : List (Op Unit × List Bool)) :
    ReleasedIn smallSetup (releasedWhileRead ++ after) 0 :=
  ⟨releasedWhileRead.take 8, (.releaseStopped 0 caller, []), after, _, rfl, rfl, rfl⟩

theorem released_returned_readerClosed :
    ∃ s, ((machine smallSetup).guarded spares).run {} (releasedWhileRead ++ [(.closeReader 0, [])]) = some s ∧
      0 ∉ s.requests ∧ ∀ id st, s.stageAt id = some st → st.request = some 0 → id ∉ s.stages := by
  have hend : (((machine smallSetup).guarded spares).run {} (releasedWhileRead ++ [(.closeReader 0, [])])).map
      (·.filesUnread 0) = some true := rfl
  obtain ⟨s, hs, hunread⟩ := Option.map_eq_some_iff.mp hend
  refine ⟨s, hs, ((released_returned hs).1 0 (releasedIn_releasedWhileRead _)).2 ?_⟩
  exact ((tidy_init smallSetup).run hs).sound.readersClosed hunread

/-- The generation of the released request is revoked while its reader is open. -/
def releasedThenRevoked : List (Op Unit × List Bool) :=
  releasedWhileRead ++ [(.revokeGeneration "generation", []), (.closeReader 0, [])]

/-- The request keeps its slot after its last reader is closed, and new requests are refused for it. -/
theorem revoked_release_keeps_slot :
    (∀ a ∈ releasedThenRevoked, a.2 = []) ∧ ReleasedIn smallSetup releasedThenRevoked 0 ∧
    ∃ s, (machine smallSetup).run {} releasedThenRevoked = some s ∧ s.readersClosed 0 ∧
      (s.stages, s.requests, (s.requestAt 0).map (·.state)) = ([], [0], some .aborted) ∧
      (s.beginInput smallSetup 1 { caller with requestID := "next" } oneFile false).1 = .error .busy ∧
      (s.beginInput smallSetup 1 caller oneFile false).1 = .error .conflict := by
  have hend : ((machine smallSetup).run {} releasedThenRevoked).map (fun s => (s.filesUnread 0,
      (s.stages, s.requests, (s.requestAt 0).map (·.state)),
      (s.beginInput smallSetup 1 { caller with requestID := "next" } oneFile false).1,
      (s.beginInput smallSetup 1 caller oneFile false).1)) =
      some (true, ([], [0], some .aborted), .error .busy, .error .conflict) := rfl
  obtain ⟨s, hs, heq⟩ := Option.map_eq_some_iff.mp hend
  simp only [Prod.mk.injEq] at heq
  obtain ⟨hunread, hstate, hbusy, hconflict⟩ := heq
  refine ⟨by decide, releasedIn_releasedWhileRead _, s, hs,
    ((sound_init smallSetup).run hs).readersClosed hunread, ?_, hbusy, hconflict⟩
  simp only [Prod.mk.injEq]
  exact hstate

end Store
end Onprest.Artifacts
