import Onprest.Artifacts.Slots
import Mathlib.Data.List.Induction

/-! What an execution reads: the bytes a stage holds are the bytes that were hashed and counted, a complete
stage never changes again, and a request executes only between its start and its end. -/

namespace Onprest.Artifacts
open Lib Relation
variable {P : Type}

/-! ### What can happen to a stage -/

/-- What a change makes of a stage. -/
inductive Stage.Next (st : Stage) : Stage → Prop
  | same : Next st st
  | keeps {st' : Stage} (hk : st.Keeps st') : Next st st'
  | retired : Next st { st with retired := true }
  | fileClosed : Next st { st with fileOpen := false }
  | removed : Next st { st with reserved := 0, onDisk := false }
  | readers (l : List ℕ) : Next st { st with readers := l }
  | written (p : List UInt8) (w : Store.DiskWrite) (hsealed : st.sealed = false) (herr : st.writeErr = false) :
      Next st (Store.Stage.after st p w)
  | closed (bad : Bool) (hsealed : st.sealed = false) (hbad : st.writeErr = true → bad = true) :
      Next st { st with sealed := true, reserved := 0, fileOpen := false, writeErr := bad }

/-- What a change makes of a handle of a stage. -/
inductive Stage.Becomes : Option Stage → Option Stage → Prop
  | unused : Becomes none none
  | new {st : Stage} (hb : st.Blank) : Becomes none (some st)
  | next {st st' : Stage} (h : st.Next st') : Becomes (some st) (some st')

theorem Stage.Becomes.refl (x : Option Stage) : Stage.Becomes x x := by
  cases x with
  | none => exact .unused
  | some st => exact .next .same

namespace Store
variable {e : Setup} {op : Op P} {s t : Store P}

variable {id : ℕ} {st : Stage}

theorem becomes_setStage {st' : Stage} (hst : s.stageAt id = some st) (hn : st.Next st') (i : ℕ) :
    Stage.Becomes (s.stageAt i) ((s.setStage id st').stageAt i) := by
  rw [stageAt_setStage_apply]
  split
  · rename_i heq
    subst heq
    rw [hst]
    exact .next hn
  · exact .refl _

theorem becomes_addStage (hst : s.stageAt id = none) (hb : st.Blank) (i : ℕ) :
    Stage.Becomes (s.stageAt i) ((s.setStage id st).stageAt i) := by
  rw [stageAt_setStage_apply]
  split
  · rename_i heq
    subst heq
    rw [hst]
    exact .new hb
  · exact .refl _

theorem Piece.becomes (hp : Piece s t) (i : ℕ) : Stage.Becomes (s.stageAt i) (t.stageAt i) := by
  cases hp with
  | flag hst => exact becomes_setStage hst .retired i
  | fileClosed hst => exact becomes_setStage hst .fileClosed i
  | @removed id st hst _ _ _ =>
    obtain ⟨l, -, heq⟩ := removeStage_eq s id st
    rw [heq]
    exact becomes_setStage hst .removed i
  | readerGone _ _ hst => exact becomes_setStage hst (.readers _) i
  | _ => exact .refl _

theorem Move.becomes (hm : Move e op s t) (i : ℕ) : Stage.Becomes (s.stageAt i) (t.stageAt i) := by
  cases hm with
  | slot r =>
    obtain ⟨l, -, heq⟩ := releaseSlotLocked_eq s r
    rw [heq]
    exact .refl _
  | stage hst hk => exact becomes_setStage hst (.keeps hk) i
  | newScratch hst hb _ _ _ | newInput hst hb _ _ _ _ _ _ _ | newOutput hst hb _ _ _ _ =>
    exact becomes_addStage hst hb i
  | @write id st p w hst _ hsealed herr _ _ _ =>
    rw [written_eq]
    exact becomes_setStage hst (.written p w hsealed herr) i
  | @sealStage id st bad hst _ hsealed hbad => exact becomes_setStage hst (.closed bad hsealed hbad) i
  | openReader hst _ _ _ => exact becomes_setStage hst (.readers _) i
  | _ => exact .refl _

end Store

/-! ### The bytes of a stage -/

/-- The size and the digest of a stage are those of the bytes in its file, as long as no write has
failed; a stage is ready only if it was closed without an error. -/
structure Stage.Content (st : Stage) : Prop where
  size : st.size = st.hashed.length
  data : st.writeErr = false → st.data = st.hashed
  ready : st.ready = true → st.sealed = true ∧ st.writeErr = false

theorem Stage.Blank.content {st : Stage} (h : st.Blank) : st.Content where
  size := by simp [h.size, h.hashed]
  data := by simp [h.data, h.hashed]
  ready := by simp [h.ready]

namespace Store

theorem DiskWrite.count_of_good {w : DiskWrite} {p : List UInt8} (h : w.bad p = false) : w.count p = p.length := by
  simp only [bad, Bool.or_eq_false_iff, decide_eq_false_iff_not, ne_eq, not_not] at h
  exact h.2

end Store

variable {st st' : Stage}

theorem Stage.Next.content (hn : st.Next st') (h : st.Content) : st'.Content := by
  cases hn with
  | same => exact h
  | keeps hk =>
    refine ⟨?_, ?_, ?_⟩
    · rw [hk.size, hk.hashed]
      exact h.size
    · rw [hk.writeErr, hk.data, hk.hashed]
      exact h.data
    · rw [hk.sealed, hk.writeErr]
      intro hready
      exact (hk.completed hready).elim h.ready id
  | retired | fileClosed | removed | readers l => exact ⟨h.size, h.data, h.ready⟩
  | written p w hsealed herr =>
    have hcount := Store.DiskWrite.count_le w p
    refine ⟨?_, ?_, ?_⟩
    · simp only [Store.Stage.after, List.length_append, List.length_take, h.size]
      omega
    · intro hgood
      have hall : w.count p = p.length := Store.DiskWrite.count_of_good hgood
      simp only [Store.Stage.after] at hgood ⊢
      simp [hgood, hall, h.data herr]
    · intro hready
      have hclosed := (h.ready hready).1
      simp [hsealed] at hclosed
  | closed bad hsealed hbad =>
    refine ⟨h.size, ?_, ?_⟩
    · intro hgood
      refine h.data ?_
      by_contra herr
      simp [hbad (by simpa using herr)] at hgood
    · intro hready
      have hclosed := (h.ready hready).1
      simp [hsealed] at hclosed

theorem Stage.Becomes.content {x y : Option Stage} (hb : Stage.Becomes x y) (h : ∀ st, x = some st → st.Content)
    (hst : y = some st) : st.Content := by
  cases hb with
  | unused => cases hst
  | new hb =>
    cases hst
    exact hb.content
  | next hn =>
    cases hst
    exact hn.content (h _ rfl)

/-- The stage is complete and holds the same bytes under the same description. -/
structure Stage.Frozen (st st' : Stage) : Prop where
  ready : st'.ready = true
  sealed : st'.sealed = true
  name : st'.name = st.name
  mime : st'.mime = st.mime
  size : st'.size = st.size
  hashed : st'.hashed = st.hashed
  data : st'.data = st.data

theorem Stage.Frozen.next {st'' : Stage} (h : st.Frozen st') (hn : st'.Next st'') : st.Frozen st'' := by
  cases hn with
  | same => exact h
  | keeps hk =>
    exact ⟨hk.ready h.ready, hk.sealed.trans h.sealed, hk.name.trans h.name, hk.mime.trans h.mime,
      hk.size.trans h.size, hk.hashed.trans h.hashed, hk.data.trans h.data⟩
  | written p w hsealed herr | closed bad hsealed hbad => simp [h.sealed] at hsealed
  | _ => exact ⟨h.ready, h.sealed, h.name, h.mime, h.size, h.hashed, h.data⟩

namespace Store
variable {e : Setup} {op : Op P} {s t : Store P}

/-- Every stage holds what it was given, and the stages in the table are on disk. -/
structure Contents (s : Store P) : Prop where
  content : ∀ id st, s.stageAt id = some st → st.Content
  onDisk : ∀ id st, s.stageAt id = some st → id ∈ s.stages → st.onDisk = true
  pointers : ∀ r q, s.requestAt r = some q → (q.files.map (·.1)).Nodup

namespace Contents

theorem setStage_onDisk {id : ℕ} {st st' : Stage} (h : ∀ i x, s.stageAt i = some x → i ∈ s.stages → x.onDisk = true)
    (hst : s.stageAt id = some st) (hkept : st'.onDisk = st.onDisk) (i : ℕ) (x : Stage)
    (hx : (s.setStage id st').stageAt i = some x) (hi : i ∈ s.stages) : x.onDisk = true := by
  rw [stageAt_setStage_apply] at hx
  split at hx
  · rename_i heq
    cases hx
    exact hkept.trans (h id st hst (heq ▸ hi))
  · exact h i x hx hi

theorem addStage_onDisk {id : ℕ} (h : ∀ i x, s.stageAt i = some x → i ∈ s.stages → x.onDisk = true)
    (hb : st.Blank) (i : ℕ) (x : Stage) (hx : (s.setStage id st).stageAt i = some x) (hi : i ∈ id :: s.stages) :
    x.onDisk = true := by
  rw [stageAt_setStage_apply] at hx
  split at hx
  · cases hx
    exact hb.onDisk
  · rename_i hne
    exact h i x hx ((List.mem_cons.mp hi).resolve_left hne)

theorem piece_onDisk (h : ∀ i x, s.stageAt i = some x → i ∈ s.stages → x.onDisk = true) (ht : Tables s)
    (hp : Piece s t) : ∀ i x, t.stageAt i = some x → i ∈ t.stages → x.onDisk = true := by
  cases hp with
  | flag hst | fileClosed hst => exact setStage_onDisk h hst rfl
  | @removed id st hst _ _ _ =>
    obtain ⟨l, -, heq⟩ := removeStage_eq s id st
    rw [heq]
    intro i x hx hi
    have hne : i ≠ id := by
      rintro rfl
      exact ht.stages.not_mem_erase hi
    simp only [stageAt_setStage_apply, hne, ↓reduceIte] at hx
    exact h i x hx (List.mem_of_mem_erase hi)
  | @readerGone d rd st _ _ hst =>
    exact @setStage_onDisk P s rd.stage st { st with readers := st.readers.erase d } h hst rfl
  | _ => exact h

theorem move_onDisk (h : ∀ i x, s.stageAt i = some x → i ∈ s.stages → x.onDisk = true) (hm : Move e op s t) :
    ∀ i x, t.stageAt i = some x → i ∈ t.stages → x.onDisk = true := by
  cases hm with
  | slot r =>
    obtain ⟨l, -, heq⟩ := releaseSlotLocked_eq s r
    rw [heq]
    exact h
  | stage hst hk => exact setStage_onDisk h hst hk.onDisk
  | newScratch _ hb _ _ _ | newInput _ hb _ _ _ _ _ _ _ | newOutput _ hb _ _ _ _ => exact addStage_onDisk h hb
  | @write id st p w hst _ _ _ _ _ _ =>
    rw [written_eq]
    exact @setStage_onDisk P s id st (Stage.after st p w) h hst rfl
  | @sealStage id st bad hst _ _ _ =>
    exact @setStage_onDisk P s id st { st with
      sealed := true, reserved := 0, fileOpen := false, writeErr := bad } h hst
      rfl
  | @openReader id d st hst _ _ _ =>
    exact @setStage_onDisk P s id st { st with readers := d :: st.readers } h hst rfl
  | _ => exact h

theorem move_pointers (h : ∀ r q, s.requestAt r = some q → (q.files.map (·.1)).Nodup) (hm : Move e op s t) :
    ∀ r q, t.requestAt r = some q → (q.files.map (·.1)).Nodup := by
  have hset : ∀ {i : ℕ} {x : Request P}, (x.files.map (·.1)).Nodup → ∀ r q,
      (s.setRequest i x).requestAt r = some q → (q.files.map (·.1)).Nodup := by
    intro i x hx r q hq
    rw [requestAt_setRequest_apply] at hq
    split at hq
    · cases hq
      exact hx
    · exact h r q hq
  cases hm with
  | slot r =>
    obtain ⟨l, -, heq⟩ := releaseSlotLocked_eq s r
    rw [heq]
    exact h
  | request hq hk _ => exact hset (by rw [hk.files]; exact h _ _ hq)
  | @newInput id r st q pointer _ _ _ _ _ hq _ hp _ =>
    refine @hset r { q with files := q.files ++ [(pointer, id)] } ?_
    rw [List.map_append, List.map_singleton]
    refine (h r q hq).append (List.nodup_singleton _) ?_
    simp only [List.disjoint_singleton, List.mem_map, not_exists, not_and]
    exact hp
  | newRequest _ hf _ _ _ _ => exact hset (by simp [hf])
  | write _ _ _ _ _ _ _ =>
    rw [written_eq]
    intro r q hq
    obtain ⟨x, hx, rfl⟩ := Option.map_eq_some_iff.mp hq
    split
    · exact h r x hx
    · exact h r x hx
  | _ => exact h

theorem piece (h : Contents s) (ht : Tables s) (hp : Piece s t) : Contents t where
  content := fun id _ hst => (hp.becomes id).content (fun st hst => h.content id st hst) hst
  onDisk := piece_onDisk h.onDisk ht hp
  pointers := by
    rw [Piece.requestAt hp]
    exact h.pointers

theorem move (h : Contents s) (hm : Move e op s t) : Contents t where
  content := fun id _ hst => (hm.becomes id).content (fun st hst => h.content id st hst) hst
  onDisk := move_onDisk h.onDisk hm
  pointers := move_pointers h.pointers hm

end Contents

/-! ### Commit -/

variable {q q' : Request P} {o : Owner} {seen : List ℕ} {id r d k : ℕ} {leaves : List FileLeaf} {params n : P}
  {st : Stage} {done : Bool} {ops : List (Op P × List Bool)} {s₀ : Store P} {a : Op P × List Bool} {c : Code}

/-- A file leaf that passes the check of `Commit`. -/
theorem leafMatches_some {leaf : FileLeaf} (h : s.leafMatches e q o seen leaf = some id) :
    leaf.value.id = id ∧ id ∉ seen ∧ (leaf.pointer, id) ∈ q.files ∧ leaf.value.pointer = leaf.pointer ∧
      leaf.value.requestID = o.requestID ∧
      ∃ st, s.stageAt id = some st ∧ st.ready = true ∧ st.retired = false ∧ leaf.value.metadata = st.metadata e := by
  unfold leafMatches at h
  split at h
  · cases h
  rename_i f hf
  split at h
  · cases h
  rename_i st hst
  split at h
  · cases h
  rename_i hflags
  split at h
  · cases h
  rename_i hmeta
  cases h
  simp only [Bool.or_eq_true, Bool.not_eq_eq_eq_not, Bool.not_true, List.contains_iff_mem, decide_eq_true_eq, not_or,
    Bool.not_eq_false, Bool.not_eq_true, ne_eq, not_not] at hflags
  obtain ⟨⟨⟨⟨⟨hready, hretired⟩, hseen⟩, hid⟩, hrequest⟩, hpointer⟩ := hflags
  have hfound : f.1 = leaf.pointer := by simpa using List.find?_some hf
  refine ⟨hid, hseen, ?_, hpointer, hrequest, st, hst, hready, hretired, not_not.mp hmeta⟩
  rw [← hfound]
  exact List.mem_of_find?_eq_some hf

/-- The leaves that pass have different stages, none of them seen before. -/
theorem leavesMatch_distinct (h : s.leavesMatch e q o seen leaves = true) :
    (leaves.map (·.value.id)).Nodup ∧ (∀ leaf ∈ leaves, leaf.value.id ∉ seen) ∧
      ∀ leaf ∈ leaves, ∃ seen', s.leafMatches e q o seen' leaf = some leaf.value.id := by
  induction leaves generalizing seen with
  | nil => simp
  | cons leaf leaves ih =>
    unfold leavesMatch at h
    split at h
    · rename_i id hid
      obtain ⟨rfl, hseen, -⟩ := leafMatches_some hid
      obtain ⟨hnodup, hfresh, hall⟩ := ih h
      refine ⟨?_, ?_, ?_⟩
      · rw [List.map_cons, List.nodup_cons]
        refine ⟨fun hmem => ?_, hnodup⟩
        obtain ⟨other, hother, heq⟩ := List.mem_map.mp hmem
        exact hfresh other hother (heq ▸ List.mem_cons_self)
      · intro other hother
        obtain rfl | hother := List.mem_cons.mp hother
        · exact hseen
        · exact fun hmem => hfresh other hother (List.mem_cons_of_mem _ hmem)
      · intro other hother
        obtain rfl | hother := List.mem_cons.mp hother
        · exact ⟨seen, hid⟩
        · exact hall other hother
    · cases h

theorem commit_ok (h : (s.commit e r o params).1 = .ok n) :
    ∃ q leaves, s.requestAt r = some q ∧ q.owner = o ∧ q.state = .receiving ∧
      q.capability.validateInput params = some (n, leaves) ∧ leaves.length = q.files.length ∧
      s.leavesMatch e q o [] leaves = true ∧
      (s.commit e r o params).2 = s.setRequest r { q with state := .ready } := by
  unfold commit at h ⊢
  split at h
  · cases h
  rename_i q hq
  split at h
  · cases h
  rename_i hcheck
  split at h
  · cases h
  rename_i normalized leaves hvalid
  split at h
  · cases h
  rename_i hlength
  split at h
  · cases h
  rename_i hmatch
  cases h
  obtain ⟨howner, -, hstate, -⟩ := check_none hcheck
  simp only [hq, hlength, hmatch, ↓reduceIte]
  exact ⟨q, leaves, rfl, howner, hstate, hvalid, not_not.mp hlength, by simpa using hmatch, rfl⟩

/-- The metadata of a complete stage describes the bytes in its file. -/
theorem Contents.metadata (h : Contents s) (hst : s.stageAt id = some st) (hready : st.ready = true) :
    st.metadata e =
      { name := st.name, mimeType := st.mime, sizeBytes := st.data.length, sha256 := e.sha256 st.data } := by
  have hcontent := h.content id st hst
  have hdata := hcontent.data (hcontent.ready hready).2
  simp [Stage.metadata, hdata, hcontent.size]

/-- The leaves that were committed are the files of the request. -/
theorem leavesMatch_perm (h : s.leavesMatch e q o [] leaves = true) (hlength : leaves.length = q.files.length) :
    (leaves.map fun leaf => (leaf.pointer, leaf.value.id)).Perm q.files := by
  obtain ⟨hnodup, -, hall⟩ := leavesMatch_distinct h
  have hpairs : (leaves.map fun leaf => (leaf.pointer, leaf.value.id)).Nodup := by
    refine List.Nodup.of_map (·.2) ?_
    rw [List.map_map]
    exact hnodup
  have hsub : (leaves.map fun leaf => (leaf.pointer, leaf.value.id)) ⊆ q.files := by
    intro f hf
    obtain ⟨leaf, hleaf, rfl⟩ := List.mem_map.mp hf
    obtain ⟨seen, hseen⟩ := hall leaf hleaf
    exact (leafMatches_some hseen).2.2.1
  exact (List.subperm_of_subset hpairs hsub).perm_of_length_le (by simp [hlength])

/-! ### Open -/

theorem openLocked_ok (h : (s.openLocked e id done d).1 = .ok k) :
    ∃ st, s.stageAt id = some st ∧ st.ready = true ∧ st.retired = false ∧ done = false ∧ k = d ∧
      (s.openLocked e id done d).2.readerAt d = some { stage := id } := by
  unfold openLocked at h ⊢
  split at h
  · cases h
  rename_i st hst
  split at h
  · cases h
  rename_i hflags
  split at h
  · cases h
  rename_i hdone
  split at h
  · cases h
  rename_i hbusy
  split at h
  · cases h
  rename_i hanswer
  cases h
  simp only [hst, hflags, hdone, hbusy, hanswer, ↓reduceIte]
  simp only [Bool.or_eq_true, Bool.not_eq_eq_eq_not, Bool.not_true, not_or, Bool.not_eq_false,
    Bool.not_eq_true] at hflags
  exact ⟨st, rfl, hflags.1, hflags.2, by simp, trivial, by simp [setReader]⟩

theorem openInput_ok {v : FileValue} (h : (s.openInput e r o v d).1 = .ok k) :
    ∃ q st, s.requestAt r = some q ∧ q.owner = o ∧ q.state = .executing ∧ q.execution = some false ∧
      (v.pointer, v.id) ∈ q.files ∧ v.requestID = o.requestID ∧
      s.stageAt v.id = some st ∧ st.ready = true ∧ st.retired = false ∧ v.metadata = st.metadata e ∧ k = d ∧
      (s.openInput e r o v d).2.readerAt d = some { stage := v.id } := by
  unfold openInput at h ⊢
  split at h
  · cases h
  rename_i q hq
  split at h
  · cases h
  rename_i hcheck
  split at h
  · cases h
  rename_i f hf
  split at h
  · cases h
  rename_i st hst
  split at h
  · cases h
  rename_i hid
  split at h
  · cases h
  rename_i hmeta
  obtain ⟨howner, -, hstate, -⟩ := check_none hcheck
  obtain ⟨st', hst', hready, hretired, hdone, hk, hreader⟩ := openLocked_ok h
  obtain rfl := Option.some.inj (hst.symm.trans hst')
  have hfound : f.1 = v.pointer := by simpa using List.find?_some hf
  have hmem := List.mem_of_find?_eq_some hf
  simp only [hq, hid, hmeta, ↓reduceIte, Bool.false_eq_true]
  simp only [Bool.or_eq_true, decide_eq_true_eq, not_or, ne_eq, not_not] at hid
  obtain ⟨hid, hrequest⟩ := hid
  have hexecution : q.execution = some false := by
    cases hx : q.execution with
    | none => simp [hx] at hdone
    | some b => simpa [hx] using hdone
  refine ⟨q, st, rfl, howner, hstate, hexecution, ?_, hrequest, hid ▸ hst, hready, hretired,
    not_not.mp hmeta, hk, ?_⟩
  · rw [← hfound, ← hid]
    exact hmem
  · rw [← hid]
    exact hreader

/-! ### The life of a request -/

/-- A request keeps its owner and its files once it is committed, and it comes to be ready or executing
only by `Commit` and `Start`. -/
structure Request.From (op : Op P) (r : ℕ) (q q' : Request P) : Prop where
  owner : q'.owner = q.owner
  files : q.state ≠ .receiving → q'.files = q.files
  receiving : q'.state = .receiving → q.state = .receiving
  ready : q'.state = .ready → q.state = .ready ∨ ∃ o params, op = .commit r o params
  executing : q'.state = .executing → q.state = .executing ∨ ∃ o done, op = .start r o done

theorem Request.From.refl (op : Op P) (r : ℕ) (q : Request P) : Request.From op r q q :=
  ⟨rfl, fun _ => rfl, fun h => h, .inl, .inl⟩

theorem Request.From.trans {q₁ q₂ q₃ : Request P} (h : Request.From op r q₁ q₂) (h' : Request.From op r q₂ q₃) :
    Request.From op r q₁ q₃ where
  owner := h'.owner.trans h.owner
  files := fun hne => (h'.files fun heq => hne (h.receiving heq)).trans (h.files hne)
  receiving := fun heq => h.receiving (h'.receiving heq)
  ready := fun heq => (h'.ready heq).elim h.ready .inr
  executing := fun heq => (h'.executing heq).elim h.executing .inr

theorem Request.From.of_advance {l : List ℕ} (hk : q.Keeps q') (ha : Advance op l r q q') :
    Request.From op r q q' := by
  have hfiles : q.state ≠ .receiving → q'.files = q.files := fun _ => hk.files
  cases ha with
  | keep hstate _ =>
    exact ⟨hk.owner, hfiles, by simp [hstate], by simp +contextual [hstate], by simp +contextual [hstate]⟩
  | abort _ hstate _ | revoke _ _ hstate _ | release hstate _ =>
    exact ⟨hk.owner, hfiles, by simp [hstate], by simp [hstate], by simp [hstate]⟩
  | commit o params hop _ hstate _ =>
    exact ⟨hk.owner, hfiles, by simp [hstate], fun _ => .inr ⟨o, params, hop⟩, by simp [hstate]⟩
  | start o done hop _ hstate _ =>
    exact ⟨hk.owner, hfiles, by simp [hstate], by simp [hstate], fun _ => .inr ⟨o, done, hop⟩⟩

theorem from_setRequest {i : ℕ} {x x' : Request P} (hq : s.requestAt r = some q) (hx : s.requestAt i = some x)
    (h : Request.From op i x x') : ∃ q', (s.setRequest i x').requestAt r = some q' ∧ Request.From op r q q' := by
  rw [requestAt_setRequest_apply]
  split
  · rename_i heq
    subst heq
    obtain rfl := Option.some.inj (hq.symm.trans hx)
    exact ⟨x', rfl, h⟩
  · exact ⟨q, hq, .refl op r q⟩

theorem Move.request_from (hm : Move e op s t) (hq : s.requestAt r = some q) :
    ∃ q', t.requestAt r = some q' ∧ Request.From op r q q' := by
  cases hm with
  | slot k =>
    obtain ⟨l, -, heq⟩ := releaseSlotLocked_eq s k
    rw [heq]
    exact ⟨q, hq, .refl op r q⟩
  | request hx hk ha => exact from_setRequest hq hx (.of_advance hk ha)
  | @newInput id i st x pointer _ _ _ _ _ hx hstate _ _ =>
    have hfrom : Request.From op i x { x with files := x.files ++ [(pointer, id)] } :=
      ⟨rfl, fun hne => absurd hstate hne, fun h => h, .inl, .inl⟩
    exact from_setRequest hq hx hfrom
  | @newRequest i x hx _ _ _ _ _ =>
    have hne : r ≠ i := by
      rintro rfl
      simp [hq] at hx
    exact ⟨q, by simpa [requestAt_setRequest_apply, hne] using hq, .refl op r q⟩
  | write _ _ _ _ _ _ _ =>
    rw [written_eq]
    refine ⟨_, congrArg (Option.map _) hq, ?_⟩
    split
    · exact ⟨rfl, fun _ => rfl, fun h => h, .inl, .inl⟩
    · exact .refl op r q
  | _ => exact ⟨q, hq, .refl op r q⟩

theorem request_from (hd : Deeds e op s t) (hq : s.requestAt r = some q) :
    ∃ q', t.requestAt r = some q' ∧ Request.From op r q q' := by
  refine Deeds.invariant (I := fun u => ∃ q', u.requestAt r = some q' ∧ Request.From op r q q') ?_ ?_
    ⟨q, hq, .refl op r q⟩ hd
  · rintro u v ⟨x, hx, hfrom⟩ hm
    obtain ⟨x', hx', hfrom'⟩ := hm.request_from hx
    exact ⟨x', hx', hfrom.trans hfrom'⟩
  · rintro u v ⟨x, hx, hfrom⟩ hp
    exact ⟨x, by rwa [Piece.requestAt hp], hfrom⟩

/-- A request that was not there is receiving. -/
theorem Move.request_new (hm : Move e op s t) (hq : s.requestAt r = none) (hq' : t.requestAt r = some q') :
    q'.state = .receiving := by
  have hset : ∀ {i : ℕ} {x x' : Request P}, s.requestAt i = some x → (s.setRequest i x').requestAt r ≠ some q' := by
    intro i x x' hx
    rw [requestAt_setRequest_apply]
    split
    · rename_i heq
      subst heq
      simp [hq] at hx
    · simp [hq]
  cases hm with
  | slot k =>
    obtain ⟨l, -, heq⟩ := releaseSlotLocked_eq s k
    rw [heq] at hq'
    simp [hq] at hq'
  | request hx _ _ | newInput _ _ _ _ _ hx _ _ _ => exact absurd hq' (hset hx)
  | @newRequest i x hx _ _ hstate _ _ =>
    simp only [requestAt_setRequest_apply] at hq'
    split at hq'
    · cases hq'
      exact hstate
    · simp [hq] at hq'
  | write _ _ _ _ _ _ _ =>
    rw [written_eq] at hq'
    simp [hq] at hq'
  | _ =>
    have hsame : s.requestAt r = some q' := hq'
    simp [hq] at hsame

/-- A request is ready or executing because it was before, or by `Commit` and `Start`. -/
theorem request_back (hd : Deeds e op s t) (hq' : t.requestAt r = some q') :
    (∃ q, s.requestAt r = some q ∧ Request.From op r q q') ∨
      (q'.state = .ready → ∃ o params, op = .commit r o params) ∧
      (q'.state = .executing → ∃ o done, op = .start r o done) := by
  cases hq : s.requestAt r with
  | some q =>
    obtain ⟨x, hx, hfrom⟩ := request_from hd hq
    obtain rfl := Option.some.inj (hq'.symm.trans hx)
    exact .inl ⟨q, rfl, hfrom⟩
  | none =>
    refine .inr (Deeds.invariant (I := fun u => ∀ q', u.requestAt r = some q' →
      (q'.state = .ready → ∃ o params, op = .commit r o params) ∧
      (q'.state = .executing → ∃ o done, op = .start r o done)) ?_ ?_ (by simp [hq]) hd q' hq')
    · intro u v hu hm x' hx'
      cases hx : u.requestAt r with
      | none => simp [hm.request_new hx hx']
      | some x =>
        obtain ⟨y, hy, hfrom⟩ := hm.request_from hx
        obtain rfl := Option.some.inj (hx'.symm.trans hy)
        exact ⟨fun h => (hfrom.ready h).elim (hu x hx).1 id, fun h => (hfrom.executing h).elim (hu x hx).2 id⟩
    · intro u v hu hp x' hx'
      exact hu x' (by rwa [Piece.requestAt hp] at hx')

/-! ### Runs -/

theorem Contents.run (h : Contents s) (hsound : Sound e s) (hrun : (machine e).run s ops = some t) : Contents t := by
  have hkept := (machine e).run_invariant (I := fun u => Sound e u ∧ Contents u) ?_ ⟨hsound, h⟩ hrun
  · exact hkept.2
  · rintro u a v ⟨hsound, h⟩ hstep
    refine ⟨hsound.step hstep, ?_⟩
    have htables : Tables { u with faults := a.2 } := hsound.tables.congr rfl rfl rfl rfl
    have hcontents : Contents { u with faults := a.2 } := ⟨h.content, h.onDisk, h.pointers⟩
    exact (Deeds.invariant (I := fun u => Tables u ∧ Contents u) (fun _ _ h hm => ⟨h.1.move hm, h.2.move hm⟩)
      (fun _ _ h hp => ⟨h.1.piece hp, h.2.piece h.1 hp⟩) ⟨htables, hcontents⟩ (step_deeds hstep)).2

theorem contents_init : Contents ({} : Store P) := by constructor <;> simp

/-- A complete stage keeps its bytes for the rest of a run. -/
theorem frozen_run (hst : s.stageAt id = some st) (hready : st.ready = true) (hsealed : st.sealed = true)
    (hrun : (machine e).run s ops = some t) : ∃ st', t.stageAt id = some st' ∧ st.Frozen st' := by
  have hbecomes : ∀ {u v : Store P}, (∃ x, u.stageAt id = some x ∧ st.Frozen x) →
      Stage.Becomes (u.stageAt id) (v.stageAt id) → ∃ x, v.stageAt id = some x ∧ st.Frozen x := by
    rintro u v ⟨x, hx, hfrozen⟩ hb
    rw [hx] at hb
    cases hv : v.stageAt id with
    | none =>
      rw [hv] at hb
      cases hb
    | some y =>
      rw [hv] at hb
      cases hb with
      | next hn => exact ⟨y, rfl, hfrozen.next hn⟩
  refine (machine e).run_invariant (I := fun u => ∃ x, u.stageAt id = some x ∧ st.Frozen x) ?_
    ⟨st, hst, hready, hsealed, rfl, rfl, rfl, rfl, rfl⟩ hrun
  intro u a v hu hstep
  have hu : ∃ x, Store.stageAt { u with faults := a.2 } id = some x ∧ st.Frozen x := hu
  exact Deeds.invariant (I := fun u => ∃ x, u.stageAt id = some x ∧ st.Frozen x)
    (fun _ _ h hm => hbecomes h (hm.becomes id)) (fun _ _ h hp => hbecomes h (hp.becomes id)) hu (step_deeds hstep)

/-- A reader stays on its stage. -/
theorem reader_run {rd : Reader} (hd : s.readerAt d = some rd) (hrun : (machine e).run s ops = some t) :
    ∃ rd', t.readerAt d = some rd' ∧ rd'.stage = rd.stage := by
  have hset : ∀ {u : Store P} {k : ℕ} {x x' : Reader}, u.readerAt k = some x → x'.stage = x.stage →
      (∃ y, u.readerAt d = some y ∧ y.stage = rd.stage) →
      ∃ y, (u.setReader k x').readerAt d = some y ∧ y.stage = rd.stage := by
    rintro u k x x' hx hstage ⟨y, hy, hyd⟩
    rw [readerAt_setReader_apply]
    split
    · rename_i heq
      subst heq
      obtain rfl := Option.some.inj (hy.symm.trans hx)
      exact ⟨x', rfl, hstage.trans hyd⟩
    · exact ⟨y, hy, hyd⟩
  have hmove : ∀ {op : Op P} (u v : Store P), (∃ y, u.readerAt d = some y ∧ y.stage = rd.stage) → Move e op u v →
      ∃ y, v.readerAt d = some y ∧ y.stage = rd.stage := by
    intro op u v hu hm
    cases hm with
    | slot k =>
      obtain ⟨l, -, heq⟩ := releaseSlotLocked_eq u k
      rw [heq]
      exact hu
    | cancelReader hx => exact hset hx rfl hu
    | write _ _ _ _ _ _ _ =>
      rw [written_eq]
      exact hu
    | @openReader id k st _ _ _ hk =>
      obtain ⟨y, hy, hyd⟩ := hu
      have hne : d ≠ k := by
        rintro rfl
        simp [hk] at hy
      exact ⟨y, by simpa [readerAt_setReader_apply, hne, setStage] using hy, hyd⟩
    | _ => exact hu
  have hpiece : ∀ (u v : Store P), (∃ y, u.readerAt d = some y ∧ y.stage = rd.stage) → Piece u v →
      ∃ y, v.readerAt d = some y ∧ y.stage = rd.stage := by
    intro u v hu hp
    cases hp with
    | @removed id st _ _ _ _ =>
      obtain ⟨l, -, heq⟩ := removeStage_eq u id st
      rw [heq]
      exact hu
    | cancelled hx => exact hset hx rfl hu
    | @readerGone k x st hx _ _ | @readerLost k x hx _ _ =>
      exact @hset u k x { x with cancelled := true, closed := true } hx rfl hu
    | _ => exact hu
  refine (machine e).run_invariant (I := fun u => ∃ y, u.readerAt d = some y ∧
    y.stage = rd.stage) ?_ ⟨rd, hd, rfl⟩ hrun
  intro u a v hu hstep
  have hu : ∃ y, Store.readerAt { u with faults := a.2 } d = some y ∧ y.stage = rd.stage := hu
  exact Deeds.invariant hmove hpiece hu (step_deeds hstep)

/-! ### The history of a request -/

/-- The request was committed in the state `s₀` of the run. -/
def CommittedIn (e : Setup) (ops : List (Op P × List Bool)) (r : ℕ) (o : Owner) (s₀ : Store P) : Prop :=
  ∃ before params answers after n, ops = before ++ (.commit r o params, answers) :: after ∧
    (machine e).run {} before = some s₀ ∧ (s₀.commit e r o params).1 = .ok n

/-- The request was started after that, and has been executing ever since. -/
def StartedIn (e : Setup) (ops : List (Op P × List Bool)) (r : ℕ) (o : Owner) (s₀ : Store P) : Prop :=
  ∃ before done answers after s₁, ops = before ++ (.start r o done, answers) :: after ∧ CommittedIn e before r o s₀ ∧
    (machine e).run {} before = some s₁ ∧ (s₁.start r o done).1 = .ok () ∧
    ∀ mid rest t, after = mid ++ rest → (machine e).run {} (before ++ (.start r o done, answers) :: mid) = some t →
      ∃ q, t.requestAt r = some q ∧ q.state = .executing

theorem CommittedIn.append (h : CommittedIn e ops r o s₀) (more : List (Op P × List Bool)) :
    CommittedIn e (ops ++ more) r o s₀ := by
  obtain ⟨before, params, answers, after, n, rfl, hrun, hok⟩ := h
  exact ⟨before, params, answers, after ++ more, n, by simp, hrun, hok⟩

theorem StartedIn.snoc (h : StartedIn e ops r o s₀) (hrun : (machine e).run {} (ops ++ [a]) = some s)
    (hq : s.requestAt r = some q) (hstate : q.state = .executing) : StartedIn e (ops ++ [a]) r o s₀ := by
  obtain ⟨before, done, answers, after, s₁, rfl, hcommitted, hbefore, hok, hsince⟩ := h
  refine ⟨before, done, answers, after ++ [a], s₁, by simp, hcommitted, hbefore, hok, ?_⟩
  intro mid rest t heq hmid
  obtain rfl | ⟨rest', b, rfl⟩ := List.eq_nil_or_concat rest
  · -- the end of the run
    rw [List.append_nil] at heq
    subst heq
    obtain rfl : t = s := by
      have hsame : (machine e).run {} (before ++ (.start r o done, answers) :: (after ++ [a])) = some s := by
        simpa using hrun
      exact Option.some.inj (hmid.symm.trans hsame)
    exact ⟨q, hq, hstate⟩
  · rw [List.concat_eq_append, ← List.append_assoc] at heq
    exact hsince mid rest' t (List.append_inj' heq rfl).1 hmid

theorem leavesMatch_faults (l : List Bool) (q : Request P) (o : Owner) (seen : List ℕ) (leaves : List FileLeaf) :
    leavesMatch e { s with faults := l } q o seen leaves = leavesMatch e s q o seen leaves := by
  induction leaves generalizing seen with
  | nil => rfl
  | cons leaf leaves ih =>
    have hleaf : leafMatches e { s with faults := l } q o seen leaf = leafMatches e s q o seen leaf := rfl
    rw [leavesMatch, leavesMatch, hleaf]
    split
    · exact ih _
    · rfl

theorem commit_faults (l : List Bool) (r : ℕ) (o : Owner) (params : P) :
    (commit e { s with faults := l } r o params).1 = (commit e s r o params).1 := by
  have hcheck : ∀ q : Request P, check { s with faults := l } q o .receiving = check s q o .receiving := fun _ => rfl
  unfold commit
  simp only [hcheck, leavesMatch_faults]
  split
  · rfl
  split
  · rfl
  split
  · rfl
  split
  · rfl
  split <;> rfl

theorem commit_error (h : (s.commit e r o params).1 = .error c) : (s.commit e r o params).2 = s := by
  unfold commit at h ⊢
  split
  · rfl
  split
  · rfl
  split
  · rfl
  split
  · rfl
  split
  · rfl
  · simp_all

theorem start_faults (l : List Bool) (r : ℕ) (o : Owner) (done : Bool) :
    (start { s with faults := l } r o done).1 = (start s r o done).1 := by
  have hcheck : ∀ q : Request P, check { s with faults := l } q o .ready = check s q o .ready := fun _ => rfl
  unfold start
  simp only [hcheck]
  split
  · rfl
  split
  · rfl
  split <;> rfl

theorem start_error (h : (s.start r o done).1 = .error c) : (s.start r o done).2 = s := by
  unfold start at h ⊢
  split
  · rfl
  split
  · rfl
  split
  · rfl
  · simp_all

theorem start_ok (h : (s.start r o done).1 = .ok ()) :
    ∃ q, s.requestAt r = some q ∧ q.owner = o ∧ q.state = .ready := by
  unfold start at h
  split at h
  · cases h
  rename_i q hq
  split at h
  · cases h
  rename_i hcheck
  obtain ⟨howner, -, hstate, -⟩ := check_none hcheck
  exact ⟨q, hq, howner, hstate⟩

theorem step_exec (h : (machine e).step s a = some t) : t = exec e { s with faults := a.2 } a.1 := by
  change s.step e a = some t at h
  unfold step at h
  split at h
  · exact (Option.some.inj h).symm
  · cases h

/-- A request that is ready was committed, with the files it has. -/
theorem ready_committed (hrun : (machine e).run {} ops = some s) (hq : s.requestAt r = some q)
    (hstate : q.state = .ready) :
    ∃ s₀ q₀, CommittedIn e ops r q.owner s₀ ∧ s₀.requestAt r = some q₀ ∧ q₀.files = q.files := by
  induction ops using List.reverseRecOn generalizing s q with
  | nil =>
    cases hrun
    cases hq
  | append_singleton ops a ih =>
    obtain ⟨u, hu, hlast⟩ := (machine e).run_append.mp hrun
    obtain ⟨v, hstep, hv⟩ := (machine e).run_cons.mp hlast
    obtain rfl := Option.some.inj hv
    have hexec := step_exec hstep
    have hbefore : ∀ x, u.requestAt r = some x → x.owner = q.owner → x.files = q.files → x.state = .ready →
        ∃ s₀ q₀, CommittedIn e (ops ++ [a]) r q.owner s₀ ∧ s₀.requestAt r = some q₀ ∧ q₀.files = q.files := by
      intro x hx howner hfiles hready
      obtain ⟨s₀, q₀, hcommitted, hq₀, heq⟩ := ih hu hx hready
      exact ⟨s₀, q₀, howner ▸ hcommitted.append [a], hq₀, heq.trans hfiles⟩
    have hcommit : (∃ o params, a.1 = .commit r o params) →
        ∃ s₀ q₀, CommittedIn e (ops ++ [a]) r q.owner s₀ ∧ s₀.requestAt r = some q₀ ∧ q₀.files = q.files := by
      rintro ⟨o, params, hop⟩
      rw [hop] at hexec
      change v = (commit e { u with faults := a.2 } r o params).2 at hexec
      cases hresult : (commit e { u with faults := a.2 } r o params).1 with
      | error c =>
        rw [commit_error hresult] at hexec
        subst hexec
        exact hbefore q hq rfl rfl hstate
      | ok n =>
        obtain ⟨x, leaves, hx, rfl, -, -, -, -, hafter⟩ := commit_ok hresult
        rw [hafter] at hexec
        subst hexec
        obtain rfl : { x with state := .ready } = q := by simpa [requestAt_setRequest_apply] using hq
        refine ⟨u, x, ⟨ops, params, a.2, [], n, ?_, hu, ?_⟩, hx, rfl⟩
        · rw [← hop]
        · rw [← commit_faults a.2]
          exact hresult
    obtain ⟨x, hx, hfrom⟩ | hnew := request_back (step_deeds hstep) hq
    · obtain hready | hop := hfrom.ready hstate
      · exact hbefore x hx hfrom.owner.symm (hfrom.files (by simp [hready])).symm hready
      · exact hcommit hop
    · exact hcommit (hnew.1 hstate)

/-- A request that executes was committed and then started, with the files it has. -/
theorem executing_started (hrun : (machine e).run {} ops = some s) (hq : s.requestAt r = some q)
    (hstate : q.state = .executing) :
    ∃ s₀ q₀, StartedIn e ops r q.owner s₀ ∧ s₀.requestAt r = some q₀ ∧ q₀.files = q.files := by
  induction ops using List.reverseRecOn generalizing s q with
  | nil =>
    cases hrun
    cases hq
  | append_singleton ops a ih =>
    obtain ⟨u, hu, hlast⟩ := (machine e).run_append.mp hrun
    obtain ⟨v, hstep, hv⟩ := (machine e).run_cons.mp hlast
    obtain rfl := Option.some.inj hv
    have hexec := step_exec hstep
    have hbefore : ∀ x, u.requestAt r = some x → x.owner = q.owner → x.files = q.files → x.state = .executing →
        ∃ s₀ q₀, StartedIn e (ops ++ [a]) r q.owner s₀ ∧ s₀.requestAt r = some q₀ ∧ q₀.files = q.files := by
      intro x hx howner hfiles hexecuting
      obtain ⟨s₀, q₀, hstarted, hq₀, heq⟩ := ih hu hx hexecuting
      exact ⟨s₀, q₀, (howner ▸ hstarted).snoc hrun hq hstate, hq₀, heq.trans hfiles⟩
    have hstart : (∃ o done, a.1 = .start r o done) →
        ∃ s₀ q₀, StartedIn e (ops ++ [a]) r q.owner s₀ ∧ s₀.requestAt r = some q₀ ∧ q₀.files = q.files := by
      rintro ⟨o, done, hop⟩
      rw [hop] at hexec
      change v = (start { u with faults := a.2 } r o done).2 at hexec
      cases hresult : (start { u with faults := a.2 } r o done).1 with
      | error c =>
        rw [start_error hresult] at hexec
        subst hexec
        exact hbefore q hq rfl rfl hstate
      | ok _ =>
        obtain ⟨x, hx, rfl, hready⟩ := start_ok hresult
        obtain ⟨s₀, q₀, hcommitted, hq₀, hfiles⟩ := ready_committed hu hx hready
        obtain ⟨y, hy, hfrom⟩ := request_from (step_deeds hstep) hx
        obtain rfl := Option.some.inj (hq.symm.trans hy)
        refine ⟨s₀, q₀, ⟨ops, done, a.2, [], u, ?_, ?_, hu, ?_, ?_⟩, hq₀, ?_⟩
        · rw [hfrom.owner, ← hop]
        · rw [hfrom.owner]
          exact hcommitted
        · rw [hfrom.owner, ← start_faults a.2]
          exact hresult
        · intro mid rest t hnil hmid
          obtain ⟨rfl, -⟩ := List.append_eq_nil_iff.mp hnil.symm
          have hsame : (machine e).run {} (ops ++ [a]) = some t := by
            rw [← hmid, hfrom.owner, ← hop]
          obtain rfl := Option.some.inj (hrun.symm.trans hsame)
          exact ⟨q, hq, hstate⟩
        · exact hfiles.trans (hfrom.files (by simp [hready])).symm
    obtain ⟨x, hx, hfrom⟩ | hnew := request_back (step_deeds hstep) hq
    · obtain hexecuting | hop := hfrom.executing hstate
      · exact hbefore x hx hfrom.owner.symm (hfrom.files (by simp [hexecuting])).symm hexecuting
      · exact hstart hop
    · exact hstart (hnew.2 hstate)

theorem StartedIn.committed (h : StartedIn e ops r o s₀) (hrun : (machine e).run {} ops = some s) :
    ∃ params n since, (s₀.commit e r o params).1 = .ok n ∧ Contents s₀ ∧ (machine e).run s₀ since = some s := by
  obtain ⟨before, done, answers, after, s₁, rfl, hcommitted, -⟩ := h
  obtain ⟨first, params, answers', rest, n, rfl, hfirst, hok⟩ := hcommitted
  rw [List.append_assoc] at hrun
  obtain ⟨u, hu, hsince⟩ := (machine e).run_append.mp hrun
  obtain rfl := Option.some.inj (hfirst.symm.trans hu)
  exact ⟨params, n, _, hok, contents_init.run (sound_init e) hfirst, hsince⟩

/-- The stages of a committed request hold, at any later time, the bytes they were committed with. -/
theorem committed_frozen {f : String × ℕ} {more : List (Op P × List Bool)} (hcontents : Contents s)
    (hok : (s.commit e r o params).1 = .ok n) (hq : s.requestAt r = some q) (hf : f ∈ q.files)
    (hrun : (machine e).run s more = some t) :
    ∃ st st', s.stageAt f.2 = some st ∧ st.ready = true ∧ t.stageAt f.2 = some st' ∧ st.Frozen st' := by
  obtain ⟨x, leaves, hx, -, -, -, hlength, hmatch, -⟩ := commit_ok hok
  obtain rfl := Option.some.inj (hq.symm.trans hx)
  obtain ⟨leaf, hleaf, rfl⟩ := List.mem_map.mp ((leavesMatch_perm hmatch hlength).mem_iff.mpr hf)
  obtain ⟨seen, hseen⟩ := (leavesMatch_distinct hmatch).2.2 leaf hleaf
  obtain ⟨-, -, -, -, -, st, hst, hready, -, -⟩ := leafMatches_some hseen
  obtain ⟨st', hst', hfrozen⟩ := frozen_run hst hready ((hcontents.content _ st hst).ready hready).1 hrun
  exact ⟨st, st', hst, hready, hst', hfrozen⟩

/-- `Commit` succeeds only if the file leaves are the staged files, each complete and described by the
bytes written to it, and none of these bytes changes afterwards. `Open` succeeds only for the owner of a
request that was committed and started and has been executing since, for a value that describes the
stage, and its reader is on the bytes that were committed as long as it is open. -/
theorem committed_bytes_read {ops : List (Op P × List Bool)} (hrun : (machine e).run {} ops = some s) :
    (∀ r o params n, (s.commit e r o params).1 = .ok n →
      ∃ q leaves, s.requestAt r = some q ∧ q.owner = o ∧ q.capability.validateInput params = some (n, leaves) ∧
        (leaves.map fun leaf => (leaf.pointer, leaf.value.id)).Perm q.files ∧
        (q.files.map (·.1)).Nodup ∧ (q.files.map (·.2)).Nodup ∧
        ∀ leaf ∈ leaves, ∃ st, s.stageAt leaf.value.id = some st ∧ st.ready = true ∧
          leaf.value.metadata = ⟨st.name, st.mime, st.data.length, e.sha256 st.data⟩ ∧
          ∀ answers more t, (machine e).run s ((.commit r o params, answers) :: more) = some t →
            ∃ st', t.stageAt leaf.value.id = some st' ∧ st'.data = st.data ∧ st'.name = st.name ∧
              st'.mime = st.mime) ∧
    (∀ r o v d k answers, (openInput e { s with faults := answers } r o v d).1 = .ok k →
      ∃ q st s₀ st₀, s.requestAt r = some q ∧ q.owner = o ∧ StartedIn e ops r o s₀ ∧ (v.pointer, v.id) ∈ q.files ∧
        s.stageAt v.id = some st ∧ v.metadata = ⟨st.name, st.mime, st.data.length, e.sha256 st.data⟩ ∧
        s₀.stageAt v.id = some st₀ ∧ st.data = st₀.data ∧
        k = d ∧ (openInput e { s with faults := answers } r o v d).2.readerAt d = some { stage := v.id } ∧
        ∀ more t rd, (machine e).run s ((.openInput r o v d, answers) :: more) = some t → t.readerAt d = some rd →
          rd.closed = false →
          rd.stage = v.id ∧ ∃ st', t.stageAt v.id = some st' ∧ st'.onDisk = true ∧ st'.data = st₀.data) := by
  have hsound := (sound_init e).run hrun
  have hcontents := contents_init.run (sound_init e) hrun
  refine ⟨?_, ?_⟩
  · intro r o params n hok
    obtain ⟨q, leaves, hq, howner, -, hvalid, hlength, hmatch, -⟩ := commit_ok hok
    have hperm := leavesMatch_perm hmatch hlength
    refine ⟨q, leaves, hq, howner, hvalid, hperm, hcontents.pointers r q hq, hsound.shares.inputs.nodup r q hq, ?_⟩
    intro leaf hleaf
    obtain ⟨seen, hseen⟩ := (leavesMatch_distinct hmatch).2.2 leaf hleaf
    obtain ⟨-, -, hfile, -, -, st, hst, hready, -, hmeta⟩ := leafMatches_some hseen
    refine ⟨st, hst, hready, hmeta.trans (hcontents.metadata hst hready), fun answers more t hmore => ?_⟩
    obtain ⟨x, st', hx, -, hst', hfrozen⟩ := committed_frozen hcontents hok hq hfile hmore
    obtain rfl := Option.some.inj (hst.symm.trans hx)
    exact ⟨st', hst', hfrozen.data, hfrozen.name, hfrozen.mime⟩
  · intro r o v d k answers hok
    obtain ⟨q, st, hq, rfl, hstate, -, hfile, -, hst, hready, -, hmeta, hk, hreader⟩ := openInput_ok hok
    obtain ⟨s₀, q₀, hstarted, hq₀, hfiles⟩ := executing_started hrun hq hstate
    obtain ⟨params, n, since, hcommit, hcontents₀, hsince⟩ := hstarted.committed hrun
    have hfile₀ : (v.pointer, v.id) ∈ q₀.files := hfiles ▸ hfile
    obtain ⟨st₀, x, hst₀, -, hx, hfrozen⟩ := committed_frozen hcontents₀ hcommit hq₀ hfile₀ hsince
    obtain rfl := Option.some.inj (hst.symm.trans hx)
    refine ⟨q, st, s₀, st₀, hq, rfl, hstarted, hfile, hst, hmeta.trans (hcontents.metadata hst hready), hst₀,
      hfrozen.data, hk, hreader, ?_⟩
    intro more t rd hmore hrd hopen
    obtain ⟨u, hstep, htail⟩ := (machine e).run_cons.mp hmore
    -- the reader has been on this stage since it was opened
    have hu : u.readerAt d = some { stage := v.id } := by
      rw [step_exec hstep]
      exact hreader
    obtain ⟨rd', hrd', hstage⟩ := reader_run hu htail
    obtain rfl := Option.some.inj (hrd.symm.trans hrd')
    -- and the stage is in the table and on disk while the reader is open
    have hend : (machine e).run s₀ (since ++ (.openInput r q.owner v d, answers) :: more) = some t :=
      (machine e).run_append.mpr ⟨s, hsince, hmore⟩
    obtain ⟨y, st', hy, -, hst', hfrozen'⟩ := committed_frozen hcontents₀ hcommit hq₀ hfile₀ hend
    obtain rfl := Option.some.inj (hst₀.symm.trans hy)
    have hsound' := hsound.run hmore
    have hreads := (hsound'.leases.open_iff v.id st' d hst').mpr ⟨rd, hrd, hstage, hopen⟩
    have htable := hsound'.tables.held v.id st' hst' (.inl (List.ne_nil_of_mem hreads))
    exact ⟨hstage, st', hst', (hcontents.run hsound hmore).onDisk v.id st' hst' htable, hfrozen'.data⟩

theorem committed_bytes_read_oneFile :
    ∃ s, (machine smallSetup).run {} (releasedWhileRead.take 7) = some s ∧
      (openInput smallSetup { s with faults := [] } 0 caller
        ⟨"/file", 0, "request", "a.txt", "text/plain", 2, ""⟩ 0).1 = .ok 0 ∧
      ∃ s₀ st₀ st, StartedIn smallSetup (releasedWhileRead.take 7) 0 caller s₀ ∧ s₀.stageAt 0 = some st₀ ∧
        s.stageAt 0 = some st ∧ st.data = st₀.data := by
  have hend : ((machine smallSetup).run {} (releasedWhileRead.take 7)).map (fun s =>
      (openInput smallSetup { s with faults := [] } 0 caller
        ⟨"/file", 0, "request", "a.txt", "text/plain", 2, ""⟩ 0).1) = some (.ok 0) := rfl
  obtain ⟨s, hs, hopen⟩ := Option.map_eq_some_iff.mp hend
  obtain ⟨q, st, s₀, st₀, -, -, hstarted, -, hst, -, hst₀, hdata, -⟩ := (committed_bytes_read hs).2 _ _ _ _ _ _ hopen
  exact ⟨s, hs, hopen, s₀, st₀, st, hstarted, hst₀, hst, hdata⟩

end Store
end Onprest.Artifacts
