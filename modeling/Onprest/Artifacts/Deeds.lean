import Onprest.Artifacts.Store
import Mathlib.Logic.Relation

/-! What an operation on the artifact store can do, said once: the small changes every operation is made
of. A retirement with its cleanup and the close of a reader are changes of their own, made of pieces. -/

namespace Onprest.Artifacts
open Relation
variable {P : Type}

/-- A change of a stage that leaves its bytes, its place and its retirement alone. -/
structure Stage.Keeps (st st' : Stage) : Prop where
  owner : st'.owner = st.owner
  kind : st'.kind = st.kind
  name : st'.name = st.name
  mime : st'.mime = st.mime
  hashed : st'.hashed = st.hashed
  size : st'.size = st.size
  reserved : st'.reserved = st.reserved
  sealed : st'.sealed = st.sealed
  writeErr : st'.writeErr = st.writeErr
  retired : st'.retired = st.retired
  readers : st'.readers = st.readers
  request : st'.request = st.request
  scope : st'.scope = st.scope
  onDisk : st'.onDisk = st.onDisk
  data : st'.data = st.data
  ready : st.ready = true → st'.ready = true
  completed : st'.ready = true → st.ready = true ∨ st.sealed = true ∧ st.writeErr = false

/-- How an operation moves a request on, with the requests that are in the table. -/
inductive Advance (op : Op P) (requests : List ℕ) (r : ℕ) (q q' : Request P) : Prop
  | keep (hstate : q'.state = q.state) (hstarted : q'.started = q.started)
  | abort (hq : q.state ≠ .released) (hstate : q'.state = .aborted) (hstarted : q'.started = q.started)
  | revoke (hop : op = .revokeGeneration q.owner.authGeneration) (hmem : r ∈ requests) (hstate : q'.state = .aborted)
      (hstarted : q'.started = q.started)
  | release (hstate : q'.state = .released) (hstarted : q'.started = q.started)
  | commit (o : Owner) (params : P) (hop : op = .commit r o params) (hq : q.state = .receiving)
      (hstate : q'.state = .ready) (hstarted : q'.started = q.started)
  | start (o : Owner) (done : Bool) (hop : op = .start r o done) (hq : q.state = .ready)
      (hstate : q'.state = .executing) (hstarted : q'.started = true)

/-- A change of a request that leaves its files and bytes alone. -/
structure Request.Keeps (q q' : Request P) : Prop where
  owner : q'.owner = q.owner
  capability : q'.capability = q.capability
  limits : q'.limits = q.limits
  files : q'.files = q.files
  bytes : q'.bytes = q.bytes

/-- A stage with nothing written to it. -/
structure Stage.Blank (st : Stage) : Prop where
  hashed : st.hashed = []
  size : st.size = 0
  data : st.data = []
  sealed : st.sealed = false
  ready : st.ready = false
  retired : st.retired = false
  writeErr : st.writeErr = false
  readers : st.readers = []
  onDisk : st.onDisk = true

namespace Store

/-- The pieces of a retirement and of the close of a reader. -/
inductive Piece (s : Store P) : Store P → Prop
  | pop : Piece s s.pop
  | poison : Piece s s.poison
  | flag {id : ℕ} {st : Stage} (h : s.stageAt id = some st) : Piece s (s.setStage id { st with retired := true })
  | fileClosed {id : ℕ} {st : Stage} (h : s.stageAt id = some st) :
      Piece s (s.setStage id { st with fileOpen := false })
  | removed {id : ℕ} {st : Stage} (h : s.stageAt id = some st) (hretired : st.retired = true)
      (hreaders : st.readers = []) (hmem : id ∈ s.stages) : Piece s (s.removeStage id st)
  | cancelled {d : ℕ} {rd : Reader} (h : s.readerAt d = some rd) :
      Piece s (s.setReader d { rd with cancelled := true })
  | readerGone {d : ℕ} {rd : Reader} {st : Stage} (h : s.readerAt d = some rd) (hopen : rd.closed = false)
      (hst : s.stageAt rd.stage = some st) :
      Piece s (Store.setStage
        { s.setReader d { rd with cancelled := true, closed := true } with readers := s.readers - 1 } rd.stage
        { st with readers := st.readers.erase d })
  | readerLost {d : ℕ} {rd : Reader} (h : s.readerAt d = some rd) (hopen : rd.closed = false)
      (hst : s.stageAt rd.stage = none) :
      Piece s { s.setReader d { rd with cancelled := true, closed := true } with readers := s.readers - 1 }

/-- The other changes an operation is made of. -/
inductive Move (e : Setup) (op : Op P) (s : Store P) : Store P → Prop
  | pop : Move e op s s.pop
  | poison (h : s.answer = false) : Move e op s s.pop.poison
  | closed : Move e op s { s with closed := true }
  | slot (r : ℕ) : Move e op s (s.releaseSlotLocked r)
  | stage {id : ℕ} {st st' : Stage} (h : s.stageAt id = some st) (hk : st.Keeps st') :
      Move e op s (s.setStage id st')
  | request {r : ℕ} {q q' : Request P} (h : s.requestAt r = some q) (hk : q.Keeps q')
      (ha : Advance op s.requests r q q') :
      Move e op s (s.setRequest r q')
  | publish {v : ℕ} {c : OutputScope} (h : s.scopeAt v = some c) :
      Move e op s (s.setScope v { c with published := true })
  | cancelReader {d : ℕ} {rd : Reader} (h : s.readerAt d = some rd) :
      Move e op s (s.setReader d { rd with cancelled := true })
  | reserve {v : ℕ} {n : ℤ} (h : s.reservationAt v = none) (hn : 1 ≤ n) (hq : s.used + n ≤ e.quotaBytes) :
      Move e op s { s with
        used := s.used + n
        reservations := v :: s.reservations
        reservationAt := Function.update s.reservationAt v (some { bytes := n }) }
  | release {v : ℕ} {r : Reservation} (h : s.reservationAt v = some r) (hr : r.released = false) :
      Move e op s { s with
        used := s.used - r.bytes
        reservations := s.reservations.erase v
        reservationAt := Function.update s.reservationAt v (some { r with released := true }) }
  | newScratch {id : ℕ} {st : Stage} (h : s.stageAt id = none) (hb : st.Blank) (hr : st.request = none)
      (hv : st.scope = none) (hq : s.used + st.reserved ≤ e.quotaBytes) :
      Move e op s { s.setStage id st with used := s.used + st.reserved, stages := id :: s.stages }
  | newInput {id r : ℕ} {st : Stage} {q : Request P} {pointer : String} (h : s.stageAt id = none) (hb : st.Blank)
      (hr : st.request = some r) (hv : st.scope = none) (hn : st.reserved = 0) (hq : s.requestAt r = some q)
      (hstate : q.state = .receiving) (hp : ∀ f ∈ q.files, f.1 ≠ pointer)
      (hsome : (q.capability.fileAt pointer).isSome) :
      Move e op s (Store.setRequest { s.setStage id st with stages := id :: s.stages } r
        { q with files := q.files ++ [(pointer, id)] })
  | newOutput {id v : ℕ} {st : Stage} {c : OutputScope} (h : s.stageAt id = none) (hb : st.Blank)
      (hr : st.request = none) (hv : st.scope = some v) (hn : st.reserved = 0) (hc : s.scopeAt v = some c) :
      Move e op s
        (Store.setScope { s.setStage id st with stages := id :: s.stages } v { c with stages := c.stages ++ [id] })
  | newRequest {r : ℕ} {q : Request P} (h : s.requestAt r = none) (hf : q.files = []) (hb : q.bytes = 0)
      (hs : q.state = .receiving) (hstart : q.started = false) (hl : 1 ≤ q.limits.maxTotalFileBytes) :
      Move e op s { s.setRequest r q with requests := r :: s.requests }
  | newScope {v : ℕ} {c : OutputScope} (h : s.scopeAt v = none) (hf : c.stages = []) (hb : c.bytes = 0)
      (hl : 1 ≤ c.limits.maxTotalBytes) : Move e op s (s.setScope v c)
  | write {id : ℕ} {st : Stage} {p : List UInt8} {w : DiskWrite} (h : s.stageAt id = some st)
      (hretired : st.retired = false) (hsealed : st.sealed = false) (herr : st.writeErr = false)
      (hreq : s.roomInRequest id st p.length = true) (hscope : s.roomInScope st p.length = true)
      (hq : s.used + (p.length - min p.length st.reserved : ℤ) ≤ e.quotaBytes) :
      Move e op s
        (Store.written { s with used := s.used + (p.length - min p.length st.reserved : ℤ) } id st p w)
  | sealStage {id : ℕ} {st : Stage} {bad : Bool} (h : s.stageAt id = some st) (hretired : st.retired = false)
      (hsealed : st.sealed = false) (hbad : st.writeErr = true → bad = true) :
      Move e op s { s.setStage id { st with sealed := true, reserved := 0, fileOpen := false, writeErr := bad } with
        used := s.used - st.reserved }
  | openReader {id d : ℕ} {st : Stage} (h : s.stageAt id = some st) (hready : st.ready = true)
      (hretired : st.retired = false) (hd : s.readerAt d = none) :
      Move e op s { (s.setStage id { st with readers := d :: st.readers }).setReader d { stage := id } with
        readers := s.readers + 1 }

/-- A change an operation is made of. -/
inductive Deed (e : Setup) (op : Op P) (s : Store P) : Store P → Prop
  | move {t : Store P} (h : Move e op s t) : Deed e op s t
  | retire (id : ℕ) : Deed e op s (s.retire id)
  | closeReader (d : ℕ) : Deed e op s (s.closeReader d)

abbrev Pieces : Store P → Store P → Prop := ReflTransGen Piece

abbrev Deeds (e : Setup) (op : Op P) : Store P → Store P → Prop := ReflTransGen (Deed e op)

/-! ### Retirement in pieces -/

@[simp] theorem stageAt_setStage (s : Store P) (id : ℕ) (st : Stage) : (s.setStage id st).stageAt id = some st := by
  simp [setStage]

theorem closeFile_stageAt {s : Store P} {id : ℕ} {st : Stage} (h : s.stageAt id = some st) :
    (s.closeFile id st).stageAt id = some { st with fileOpen := false } := by
  unfold closeFile
  split
  · simp
  · rename_i hopen
    rw [h, Option.some.injEq]
    cases st
    simpa using hopen

variable {s t : Store P} {id : ℕ} {st : Stage} {I : Store P → Prop} {e : Setup} {op : Op P}

theorem closeFile_pieces (h : s.stageAt id = some st) : Pieces s (s.closeFile id st) := by
  unfold closeFile
  split
  · exact (ReflTransGen.single .pop).tail (.fileClosed h)
  · exact .refl

theorem unlink_pieces (h : s.stageAt id = some st) (hretired : st.retired = true) (hreaders : st.readers = []) :
    Pieces s (s.unlink id st) := by
  unfold unlink
  split
  · exact .refl
  · rename_i hmem
    split
    · exact (ReflTransGen.single .pop).tail .poison
    · exact (ReflTransGen.single .pop).tail (.removed h hretired hreaders (not_not.mp hmem))

theorem cleanupLocked_pieces (s : Store P) (id : ℕ) : Pieces s (s.cleanupLocked id) := by
  unfold cleanupLocked
  split
  · exact .refl
  · rename_i st hst
    split
    · exact .refl
    · rename_i hkept
      obtain ⟨hretired, hreaders⟩ : st.retired = true ∧ st.readers = [] := by simpa using hkept
      split
      · exact (ReflTransGen.single .pop).tail .poison
      · exact (closeFile_pieces hst).trans (unlink_pieces (closeFile_stageAt hst) hretired hreaders)

theorem retire_pieces (s : Store P) (id : ℕ) : Pieces s (s.retire id) := by
  unfold retire
  split
  · rename_i st hst
    exact (ReflTransGen.single (.flag hst)).trans (cleanupLocked_pieces _ id)
  · exact .refl

theorem closeReader_pieces (s : Store P) (d : ℕ) : Pieces s (s.closeReader d) := by
  unfold closeReader
  split
  · exact .refl
  · rename_i rd hrd
    split
    · exact .refl
    · rename_i hclosed
      have hopen : rd.closed = false := by simpa using hclosed
      refine (ReflTransGen.single .pop).trans ?_
      split
      · exact (ReflTransGen.single (.cancelled hrd)).tail .poison
      · simp only
        split
        · rename_i st hst
          exact (ReflTransGen.single (.readerGone hrd hopen hst)).trans (cleanupLocked_pieces _ _)
        · rename_i hst
          exact .single (.readerLost hrd hopen hst)

theorem Pieces.invariant (hpiece : ∀ s t, I s → Piece s t → I t) (hs : I s) (h : Pieces s t) : I t := by
  induction h with
  | refl => exact hs
  | tail _ hstep ih => exact hpiece _ _ ih hstep

/-- What every move and every piece keeps, every deed keeps. -/
theorem Deeds.invariant (hmove : ∀ s t, I s → Move e op s t → I t) (hpiece : ∀ s t, I s → Piece s t → I t) (hs : I s)
    (h : Deeds e op s t) : I t := by
  induction h with
  | refl => exact hs
  | tail _ hstep ih =>
    cases hstep with
    | move h => exact hmove _ _ ih h
    | retire id => exact Pieces.invariant hpiece ih (retire_pieces _ id)
    | closeReader d => exact Pieces.invariant hpiece ih (closeReader_pieces _ d)

/-! ### Operations in deeds -/

section
variable {e : Setup} {op : Op P}

variable {s t : Store P} {n : ℤ} {r v id d : ℕ} {q : Request P} {name media : String} {done : Bool} {o : Owner}

theorem deeds_of_move (h : Move e op s t) : Deeds e op s t := .single (.move h)

theorem foldl_deeds {α : Type} {f : Store P → α → Store P} (hf : ∀ s a, Deeds e op s (f s a)) (l : List α)
    (s : Store P) : Deeds e op s (l.foldl f s) := by
  induction l generalizing s with
  | nil => exact .refl
  | cons a l ih => exact (hf s a).trans (ih (f s a))

theorem retireAll_deeds (s : Store P) (ids : List ℕ) : Deeds e op s (s.retireAll ids) :=
  foldl_deeds (fun _ id => .single (.retire id)) ids s

/-- A reservation that is granted fits into the quota. -/
theorem reserveLocked_ok (h : reserveLocked e s n = .ok t) :
    0 ≤ n ∧ s.used + n ≤ e.quotaBytes ∧ t = { s with used := s.used + n } := by
  unfold reserveLocked at h
  split at h
  · cases h
  · split at h
    · cases h
    · rename_i hn
      cases h
      exact ⟨by omega, by omega, rfl⟩

/-- A stage that is not created costs some answers and may poison the store. -/
inductive Refused (s : Store P) : Store P → Prop
  | same : Refused s s
  | notCreated : Refused s s.pop
  | notProtected : Refused s s.pop.pop.pop
  | notRemoved (h : s.pop.pop.answer = false) : Refused s s.pop.pop.pop.poison

theorem Refused.deeds (h : Refused s t) : Deeds e op s t := by
  cases h with
  | same => exact .refl
  | notCreated => exact deeds_of_move .pop
  | notProtected => exact ((deeds_of_move .pop).trans (deeds_of_move .pop)).trans (deeds_of_move .pop)
  | notRemoved h => exact ((deeds_of_move .pop).trans (deeds_of_move .pop)).trans (deeds_of_move (.poison h))

/-- Quota that was taken for the stage can be given back. -/
theorem Refused.giveBack (h : Refused { s with used := s.used + n } t) :
    Refused s { t with used := t.used - n } := by
  have hback : s.used + n - n = s.used := by omega
  cases h with
  | same => simpa [hback] using Refused.same (s := s)
  | notCreated => simpa [pop, hback] using Refused.notCreated (s := s)
  | notProtected => simpa [pop, hback] using Refused.notProtected (s := s)
  | notRemoved h => simpa [pop, poison, hback] using Refused.notRemoved (s := s) h

theorem newStage_cases (s : Store P) (id : ℕ) (st : Stage) (done : Bool) :
    (∃ c t, newStage e s id st done = (.error c, t) ∧ Refused s t) ∨
      newStage e s id st done = (.ok id, { s.pop.pop.setStage id st with stages := id :: s.stages }) := by
  unfold newStage
  split
  · exact .inl ⟨_, _, rfl, .same⟩
  · split
    · exact .inl ⟨_, _, rfl, .same⟩
    split
    · exact .inl ⟨_, _, rfl, .same⟩
    split
    · exact .inl ⟨_, _, rfl, .same⟩
    split
    · exact .inl ⟨_, _, rfl, .same⟩
    split
    · exact .inl ⟨_, _, rfl, .notCreated⟩
    split
    · refine .inl ⟨_, _, rfl, ?_⟩
      split
      · rename_i h
        exact .notRemoved h
      · exact .notProtected
    · exact .inr rfl

/-- A request is released and all its files are retired. -/
theorem releaseFiles_deeds {q' : Request P} (hq : s.requestAt r = some q) (hk : q.Keeps q')
    (hstate : q'.state = .released) (hstarted : q'.started = q.started) (ids : List ℕ) :
    Deeds e op s (((s.setRequest r q').retireAll ids).releaseSlotLocked r) :=
  ((deeds_of_move (.request hq hk (.release hstate hstarted))).trans (retireAll_deeds _ ids)).trans
    (deeds_of_move (.slot r))

theorem abortLocked_deeds (s : Store P) (r : ℕ) : Deeds e op s (s.abortLocked r) := by
  unfold abortLocked
  split
  · rename_i q hq
    split
    · exact .refl
    · rename_i hstate
      exact deeds_of_move (.request hq ⟨rfl, rfl, rfl, rfl, rfl⟩ (.abort hstate rfl rfl))
  · exact .refl

theorem releaseStoppedLocked_deeds (s : Store P) (r : ℕ) : Deeds e op s (s.releaseStoppedLocked r) := by
  unfold releaseStoppedLocked
  split
  · rename_i q hq
    refine releaseFiles_deeds hq ?_ ?_ ?_ _
    · exact ⟨rfl, rfl, rfl, rfl, rfl⟩
    · rfl
    · rfl
  · exact .refl

theorem abortStage_deeds (s : Store P) (id : ℕ) : Deeds e op s (s.abortStage id) := by
  unfold abortStage
  split
  · exact .refl
  · split
    · rename_i r _
      refine (abortLocked_deeds s r).trans ?_
      simp only
      split
      · split
        · exact .refl
        · exact releaseStoppedLocked_deeds _ r
      · exact .refl
    · split
      · exact .refl
      · exact .single (.retire id)

theorem sweepRequest_deeds (past : List ℕ) (s : Store P) (r : ℕ) : Deeds e op s (sweepRequest past s r) := by
  unfold sweepRequest
  split
  · rename_i q hq
    split
    · refine releaseFiles_deeds hq ?_ ?_ ?_ _
      · exact ⟨rfl, rfl, rfl, rfl, rfl⟩
      · rfl
      · rfl
    · exact .refl
  · exact .refl

theorem sweepStage_deeds (expired : List ℕ) (s : Store P) (id : ℕ) : Deeds e op s (sweepStage expired s id) := by
  unfold sweepStage
  split
  · split
    · exact .single (.retire id)
    · exact .refl
  · exact .refl

theorem sweep_deeds (s : Store P) (past expired : List ℕ) : Deeds e op s (s.sweep past expired) :=
  (foldl_deeds (sweepRequest_deeds past) s.requests s).trans (foldl_deeds (sweepStage_deeds expired) _ _)

theorem cancelReader_deeds (s : Store P) (d : ℕ) : Deeds e op s (s.cancelReader d) := by
  unfold cancelReader
  split
  · rename_i rd hrd
    exact deeds_of_move (.cancelReader hrd)
  · exact .refl

theorem revokeRequest_requests (generation : String) (s : Store P) (r : ℕ) :
    (revokeRequest generation s r).requests = s.requests := by
  unfold revokeRequest
  split
  · split <;> rfl
  · rfl

theorem revokeGeneration_deeds (s : Store P) (generation : String) :
    Deeds e (.revokeGeneration generation) s (s.revokeGeneration generation) := by
  have hrequest : ∀ (s : Store P) r, r ∈ s.requests →
      Deeds e (.revokeGeneration generation) s (revokeRequest generation s r) := by
    intro s r hmem
    unfold revokeRequest
    split
    · rename_i q hq
      split
      · rename_i hgen
        exact deeds_of_move (.request hq ⟨rfl, rfl, rfl, rfl, rfl⟩ (.revoke (by rw [hgen]) hmem rfl rfl))
      · exact .refl
    · exact .refl
  have hrequests : ∀ (l : List ℕ) (s : Store P), l ⊆ s.requests →
      Deeds e (.revokeGeneration generation) s (l.foldl (revokeRequest generation) s) := by
    intro l
    induction l with
    | nil => exact fun _ _ => .refl
    | cons r l ih =>
      intro s hl
      obtain ⟨hr, hl⟩ := List.cons_subset.mp hl
      exact (hrequest s r hr).trans (ih _ (by rwa [revokeRequest_requests]))
  have hstage : ∀ (s : Store P) id, Deeds e (.revokeGeneration generation) s (revokeStage generation s id) := by
    intro s id
    unfold revokeStage
    split
    · split
      · exact (foldl_deeds cancelReader_deeds _ s).trans (.single (.retire id))
      · exact .refl
    · exact .refl
  exact (hrequests s.requests s (List.Subset.refl _)).trans (foldl_deeds hstage _ _)

theorem close_deeds (s : Store P) : Deeds e op s s.close := by
  have hrequest : ∀ (s : Store P) r, Deeds e op s (closeRequest s r) := by
    intro s r
    unfold closeRequest
    split
    · rename_i q hq
      exact deeds_of_move (.request hq ⟨rfl, rfl, rfl, rfl, rfl⟩ (.release rfl rfl))
    · exact .refl
  have hstage : ∀ (s : Store P) id, Deeds e op s (closeStage s id) := by
    intro s id
    unfold closeStage
    split
    · exact (foldl_deeds (fun s d => .single (.closeReader d)) _ s).trans (.single (.retire id))
    · exact .refl
  unfold close
  split
  · exact .refl
  · exact ((deeds_of_move .closed).trans (foldl_deeds hrequest _ _)).trans (foldl_deeds hstage _ _)

theorem reserve_deeds (h : s.reservationAt v = none) : Deeds e op s (s.reserve e v n).2 := by
  unfold reserve
  split
  · exact .refl
  split
  · exact .refl
  rename_i hn _
  split
  · exact .refl
  · rename_i t ht
    obtain ⟨-, hquota, rfl⟩ := reserveLocked_ok ht
    exact deeds_of_move (.reserve h (by omega) hquota)

theorem release_deeds (s : Store P) (v : ℕ) : Deeds e op s (s.release v) := by
  unfold release
  split
  · rename_i r hr
    split
    · exact .refl
    · rename_i hreleased
      exact deeds_of_move (.release hr (by simpa using hreleased))
  · exact .refl

theorem newScratch_deeds {bytes : ℤ} (h : s.stageAt id = none) :
    Deeds e op s (s.newScratch e name media bytes done id).2 := by
  unfold newScratch
  split
  · exact .refl
  rename_i hbytes
  split
  · exact .refl
  rename_i t ht
  obtain ⟨-, hquota, rfl⟩ := reserveLocked_ok ht
  obtain ⟨c, u, hnew, hrefused⟩ | hnew := @newStage_cases P e { s with used := s.used + bytes } id
    { owner := scratchOwner, kind := .output, name := name, mime := media, reserved := bytes.toNat } done
  · rw [hnew]
    exact hrefused.giveBack.deeds
  · rw [hnew]
    have hnat : ((bytes.toNat : ℕ) : ℤ) = bytes := Int.toNat_of_nonneg (by omega)
    refine ((deeds_of_move .pop).trans (deeds_of_move .pop)).trans ?_
    have hmove := @Move.newScratch P e op s.pop.pop id
      { owner := scratchOwner, kind := .output, name := name, mime := media, reserved := bytes.toNat } h
      ⟨rfl, rfl, rfl, rfl, rfl, rfl, rfl, rfl, rfl⟩ rfl rfl (by simpa [hnat, pop] using hquota)
    simpa [hnat, pop, setStage] using deeds_of_move hmove

theorem output_deeds {l : OutputLimits} (h : s.scopeAt v = none) : Deeds e op s (s.output v o l).2 := by
  unfold output
  split
  · exact .refl
  split
  · exact .refl
  · rename_i hl
    refine deeds_of_move (.newScope h rfl rfl ?_)
    simp only [Bool.or_eq_true, Bool.not_eq_true', decide_eq_true_eq] at hl
    simp only
    omega

theorem beginOutput_deeds (h : s.stageAt id = none) : Deeds e op s (s.beginOutput e v name media done id).2 := by
  unfold beginOutput
  split
  · exact .refl
  rename_i c hc
  split
  · exact .refl
  split
  · exact .refl
  obtain ⟨code, u, hnew, hrefused⟩ | hnew := @newStage_cases P e s id
    { owner := c.owner, kind := .output, name := name, mime := media, scope := some v } done
  · rw [hnew]
    exact hrefused.deeds
  · rw [hnew]
    refine ((deeds_of_move .pop).trans (deeds_of_move .pop)).trans ?_
    exact deeds_of_move (@Move.newOutput P e op s.pop.pop id v _ c h ⟨rfl, rfl, rfl, rfl, rfl, rfl,
      rfl, rfl, rfl⟩ rfl rfl
      rfl hc)

theorem beginInput_deeds {c : Capability P} (h : s.requestAt r = none) :
    Deeds e op s (s.beginInput e r o c done).2 := by
  unfold beginInput
  split
  · exact .refl
  split
  · exact .refl
  split
  · exact .refl
  split
  · exact .refl
  split
  · exact .refl
  split
  · exact .refl
  · rename_i hl
    refine deeds_of_move (.newRequest h rfl rfl rfl rfl ?_)
    simp only [Bool.or_eq_true, decide_eq_true_eq] at hl
    simp only
    omega

/-- What an operation that passes `check` knows of the request. -/
theorem check_none {state : ReqState} (h : s.check q o state = none) :
    q.owner = o ∧ s.available = none ∧ q.state = state ∧ (state ≠ .executing → q.ctxDone = false) := by
  unfold check at h
  split at h
  · cases h
  rename_i howner
  split at h
  · cases h
  rename_i havailable
  split at h
  · cases h
  rename_i hstate
  split at h
  · cases h
  rename_i hdone
  exact ⟨not_not.mp howner, havailable, not_not.mp hstate, fun hne => by simpa [hne] using hdone⟩

theorem newFile_deeds {pointer : String} (h : s.stageAt id = none) :
    Deeds e op s (s.newFile e r o pointer name media id).2 := by
  unfold newFile
  split
  · exact .refl
  rename_i q hq
  split
  · exact .refl
  rename_i hcheck
  obtain ⟨-, -, hstate, -⟩ := check_none hcheck
  split
  · exact .refl
  rename_i hfile
  split
  · exact .refl
  rename_i hpointer
  split
  · exact .refl
  obtain ⟨code, u, hnew, hrefused⟩ | hnew := @newStage_cases P e s id
    { owner := o, kind := .input, name := name, mime := media, request := some r } q.ctxDone
  · rw [hnew]
    exact hrefused.deeds
  · rw [hnew]
    refine ((deeds_of_move .pop).trans (deeds_of_move .pop)).trans ?_
    refine deeds_of_move (@Move.newInput P e op s.pop.pop id r _ q pointer h ⟨rfl, rfl, rfl, rfl, rfl,
      rfl, rfl, rfl, rfl⟩
      rfl rfl rfl hq hstate ?_ ?_)
    · intro f hf hp
      exact hpointer (List.any_eq_true.mpr ⟨f, hf, by simpa using hp⟩)
    · simpa [Option.isNone_iff_eq_none, ← Option.isSome_iff_ne_none] using hfile

theorem write_deeds {p : List UInt8} {w : DiskWrite} : Deeds e op s (s.write e id p w).2 := by
  unfold write
  split
  · exact .refl
  rename_i st hst
  split
  · exact .refl
  rename_i hflags
  simp only [Bool.or_eq_true, not_or, Bool.not_eq_true] at hflags
  obtain ⟨⟨hretired, hsealed⟩, herr⟩ := hflags
  split
  · exact .refl
  split
  · exact .refl
  split
  · exact .refl
  rename_i hreq
  split
  · exact .refl
  rename_i hscope
  split
  · exact .refl
  · rename_i t ht
    obtain ⟨-, hquota, rfl⟩ := reserveLocked_ok ht
    exact deeds_of_move (.write hst hretired hsealed herr (by simpa using hreq) (by simpa using hscope) hquota)

theorem sealLocked_deeds (s : Store P) (id : ℕ) : Deeds e op s (s.sealLocked id).2 := by
  unfold sealLocked
  split
  · exact .refl
  rename_i st hst
  split
  · exact .refl
  rename_i hretired
  split
  · exact .refl
  rename_i hsealed
  refine ((deeds_of_move .pop).trans (deeds_of_move .pop)).trans ?_
  refine deeds_of_move (@Move.sealStage P e op s.pop.pop id st _ hst (by simpa using hretired)
    (by simpa using hsealed) ?_)
  intro herr
  simp [herr]

theorem openLocked_deeds (h : s.readerAt d = none) : Deeds e op s (s.openLocked e id done d).2 := by
  unfold openLocked
  split
  · exact .refl
  rename_i st hst
  split
  · exact .refl
  rename_i hready
  simp only [Bool.or_eq_true, Bool.not_eq_true', not_or, Bool.not_eq_false, Bool.not_eq_true] at hready
  split
  · exact .refl
  split
  · exact .refl
  split
  · exact deeds_of_move .pop
  · exact (deeds_of_move .pop).trans (deeds_of_move (@Move.openReader P e op s.pop id d st hst hready.1 hready.2 h))

theorem finish_deeds {m : ArtifactMetadata} (h : s.readerAt d = none) : Deeds e op s (s.finish e id m d).2 := by
  unfold finish
  split
  · exact .refl
  rename_i st hst
  split
  · exact .refl
  rename_i hflags
  simp only [Bool.or_eq_true, Bool.not_eq_true', decide_eq_true_eq, not_or, Bool.not_eq_false,
    Bool.not_eq_true] at hflags
  split
  · exact .refl
  · refine (deeds_of_move (.stage hst ?_)).trans (openLocked_deeds h)
    exact ⟨rfl, rfl, rfl, rfl, rfl, rfl, rfl, rfl, rfl, rfl, rfl, rfl, rfl, rfl, rfl, fun _ => rfl,
      fun _ => .inr (by tauto)⟩

theorem complete_deeds {size : ℤ} {digest : String} : Deeds e op s (s.complete e r o id size digest).2 := by
  unfold complete
  split
  · rename_i q st hq hst
    split
    · exact .refl
    split
    · exact .refl
    rename_i hflags
    simp only [Bool.or_eq_true, Bool.not_eq_true', decide_eq_true_eq, not_or, Bool.not_eq_false,
      Bool.not_eq_true] at hflags
    simp only
    split
    · exact .refl
    split
    · exact .refl
    · refine deeds_of_move (.stage hst ?_)
      exact ⟨rfl, rfl, rfl, rfl, rfl, rfl, rfl, rfl, rfl, rfl, rfl, rfl, rfl, rfl, rfl, fun _ => rfl,
        fun _ => .inr (by tauto)⟩
  · exact .refl

theorem commit_deeds {params : P} : Deeds e (.commit r o params) s (s.commit e r o params).2 := by
  unfold commit
  split
  · exact .refl
  rename_i q hq
  split
  · exact .refl
  rename_i hcheck
  split
  · exact .refl
  split
  · exact .refl
  split
  · exact .refl
  · exact deeds_of_move (.request hq ⟨rfl, rfl, rfl, rfl, rfl⟩
      (.commit o params rfl (check_none hcheck).2.2.1 rfl rfl))

theorem start_deeds : Deeds e (.start r o done) s (s.start r o done).2 := by
  unfold start
  split
  · exact .refl
  rename_i q hq
  split
  · exact .refl
  rename_i hcheck
  split
  · exact .refl
  · exact deeds_of_move (.request hq ⟨rfl, rfl, rfl, rfl, rfl⟩
      (.start o done rfl (check_none hcheck).2.2.1 rfl rfl))

theorem openInput_deeds {v : FileValue} (h : s.readerAt d = none) : Deeds e op s (s.openInput e r o v d).2 := by
  unfold openInput
  split
  · exact .refl
  split
  · exact .refl
  split
  · exact .refl
  split
  · exact .refl
  split
  · exact .refl
  split
  · exact .refl
  · exact openLocked_deeds h

theorem openOutput_deeds {expired : Bool} (h : s.readerAt d = none) :
    Deeds e op s (s.openOutput e o id expired done d).2 := by
  unfold openOutput
  split
  · exact .refl
  split
  · exact .refl
  split
  · exact .refl
  · exact openLocked_deeds h

theorem retain_deeds {files : List (ℕ × ArtifactMetadata)} : Deeds e op s (s.retain e v files).2 := by
  have hmark : ∀ (s : Store P) id, Deeds e op s (markRetained s id) := by
    intro s id
    unfold markRetained
    split
    · rename_i st hst
      exact deeds_of_move (.stage hst ⟨rfl, rfl, rfl, rfl, rfl, rfl, rfl, rfl, rfl, rfl, rfl, rfl, rfl, rfl, rfl,
        fun h => h, .inl⟩)
    · exact .refl
  have hscope : ∀ (ids : List ℕ) (s : Store P), (ids.foldl markRetained s).scopeAt = s.scopeAt := by
    intro ids
    induction ids with
    | nil => exact fun _ => rfl
    | cons id ids ih =>
      intro s
      rw [List.foldl_cons, ih]
      unfold markRetained
      split <;> rfl
  unfold retain
  split
  · exact .refl
  split
  · exact .refl
  rename_i c hc
  split
  · exact .refl
  split
  · exact .refl
  · exact (foldl_deeds hmark _ s).trans (deeds_of_move (.publish (by rw [hscope]; exact hc)))

end

/-- Every operation is made of deeds. -/
theorem exec_deeds (h : s.fresh op = true) : Deeds e op s (s.exec e op) := by
  cases op with
  | reserve v n => exact reserve_deeds (by simpa [fresh] using h)
  | release v => exact release_deeds s v
  | newScratch name media bytes done id => exact newScratch_deeds (by simpa [fresh] using h)
  | output v o l => exact output_deeds (by simpa [fresh] using h)
  | beginOutput v name media done id => exact beginOutput_deeds (by simpa [fresh] using h)
  | beginInput r o c done => exact beginInput_deeds (by simpa [fresh] using h)
  | newFile r o pointer name media id => exact newFile_deeds (by simpa [fresh] using h)
  | write id p w => exact write_deeds
  | closeStage id => exact sealLocked_deeds s id
  | finish id m d => exact finish_deeds (by simpa [fresh] using h)
  | complete r o id size digest => exact complete_deeds
  | commit r o params => exact commit_deeds
  | start r o done => exact start_deeds
  | openInput r o v d => exact openInput_deeds (by simpa [fresh] using h)
  | openOutput o id expired done d => exact openOutput_deeds (by simpa [fresh] using h)
  | closeReader d => exact .single (.closeReader d)
  | abortStage id => exact abortStage_deeds s id
  | abort r o =>
    simp only [exec]
    split
    · exact abortLocked_deeds s r
    · exact .refl
  | releaseStopped r o =>
    simp only [exec]
    split
    · exact releaseStoppedLocked_deeds s r
    · exact .refl
  | retain v files => exact retain_deeds
  | sweep past expired => exact sweep_deeds s past expired
  | revokeGeneration generation => exact revokeGeneration_deeds s generation
  | close => exact close_deeds s
  | endStageContext id =>
    simp only [exec]
    split
    · rename_i st hst
      exact deeds_of_move (.stage hst ⟨rfl, rfl, rfl, rfl, rfl, rfl, rfl, rfl, rfl, rfl, rfl, rfl, rfl,
        rfl, rfl, fun h => h, .inl⟩)
    · exact .refl
  | endInputContext r | endExecution r =>
    simp only [exec]
    split
    · rename_i q hq
      exact deeds_of_move (.request hq ⟨rfl, rfl, rfl, rfl, rfl⟩ (.keep rfl rfl))
    · exact .refl

theorem step_deeds {a : Op P × List Bool} (h : s.step e a = some t) : Deeds e a.1 { s with faults := a.2 } t := by
  unfold step at h
  split at h
  · rename_i hfresh
    cases h
    refine exec_deeds ?_
    revert hfresh
    cases a.1 <;> simp [fresh]
  · cases h

end Store
end Onprest.Artifacts
