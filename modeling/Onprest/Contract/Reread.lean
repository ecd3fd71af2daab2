import Onprest.Contract.Reading

/-! A value that a schema has read is read again as it is, unless rounding made a number text a whole number at a
position that takes integers and other numbers alike. -/

namespace Onprest.Contract
open Lib

/-! ### Numbers -/

/-- A number text that is no integer, read as a float that is one. -/
def Slips (r : Rules) (n : Number) : Prop :=
  .integer ∈ r.types ∧ .number ∈ r.types ∧ n.exactInteger = none ∧
    ∃ t : JSONNumber, n = .text t ∧ ∃ z : ℤ, |z| ≤ 2 ^ 53 ∧ Binary64.round t.value = z

variable {n k : Number} {f : Float64} {r : Rules} {t : JType} {o : Option Schema} {ps : List (String × Schema)}
  {m : Mode} {pointer : String} {fs : List (String × Value)}

theorem toRat_finiteNumber (h : n.finiteNumber = some f) : f.toRat.isSome := by
  cases n with
  | int64 i | int i | text t => exact Option.isSome_iff_exists.mpr ⟨_, Float64.toRat_ofRat h⟩
  | float x =>
    rw [Number.finiteNumber] at h
    split at h
    · rename_i hx
      cases h
      exact hx
    · cases h

/-- What a number that is not taken as an integer becomes. -/
theorem normalizeFloat_eq_ok (h : normalizeFloat r n = .ok k) :
    (∃ i, k = .int64 i ∧ (r.types = [] ∨ r.output = true ∧ n.exactInteger = some i)) ∨
      ∃ f, n.finiteNumber = some f ∧ k = .float f := by
  unfold normalizeFloat at h
  cases hf : n.finiteNumber with
  | none =>
    rw [hf] at h
    cases h
  | some f =>
    rw [hf] at h
    dsimp only at h
    split at h
    · rename_i ht
      cases n with
      | int64 i | int i => exact .inl ⟨i, (Except.ok.inj h).symm, .inl ht⟩
      | float x => exact .inr ⟨f, rfl, (Except.ok.inj h).symm⟩
      | text t =>
        dsimp only at h
        split at h
        · split at h
          · cases h
          · exact .inl ⟨_, (Except.ok.inj h).symm, .inl ht⟩
        · exact .inr ⟨f, rfl, (Except.ok.inj h).symm⟩
    · split at h
      · rename_i ho
        cases n with
        | int64 i | int i => exact .inl ⟨i, (Except.ok.inj h).symm, .inr ⟨ho, rfl⟩⟩
        | float x | text t => exact .inr ⟨f, rfl, (Except.ok.inj h).symm⟩
      · exact .inr ⟨f, rfl, (Except.ok.inj h).symm⟩

theorem normalizeFloat_int64 {i : Int64} (h : r.types = [] ∨ r.output = true) :
    normalizeFloat r (.int64 i) = .ok (.int64 i) := by
  obtain ⟨x, hx⟩ := Number.exists_ofInt i
  unfold normalizeFloat
  rw [Number.finiteNumber, hx]
  rcases h with h | h <;> simp [h]

theorem normalizeFloat_float (h : f.toRat.isSome) : normalizeFloat r (.float f) = .ok (.float f) := by
  unfold normalizeFloat
  rw [Number.finiteNumber, if_pos h]
  simp

theorem normalizeFloat_idem (h : normalizeFloat r n = .ok k) : normalizeFloat r k = .ok k := by
  rcases normalizeFloat_eq_ok h with ⟨i, rfl, hi⟩ | ⟨f, hf, rfl⟩
  · exact normalizeFloat_int64 (hi.imp_right And.left)
  · exact normalizeFloat_float (toRat_finiteNumber hf)

/-- A number counts as an integer where integers are declared and it is one, and as a number elsewhere. -/
theorem normalizeNumber_eq_ok :
    normalizeNumber r n = .ok (t, k) ↔
      (.integer ∈ r.types ∧ ∃ i, n.exactInteger = some i ∧ t = .integer ∧ k = .int64 i) ∨
      ((.integer ∈ r.types → n.exactInteger = none ∧ .number ∈ r.types) ∧ t = .number ∧
        normalizeFloat r n = .ok k) := by
  have hmap : (normalizeFloat r n).map (JType.number, ·) = .ok (t, k) ↔ t = .number ∧
      normalizeFloat r n = .ok k := by
    cases normalizeFloat r n with
    | error e => simp [Except.map]
    | ok j =>
      simp only [Except.map, Except.ok.injEq, Prod.mk.injEq]
      exact and_congr_left' eq_comm
  unfold normalizeNumber
  by_cases hint : .integer ∈ r.types
  · rw [if_pos (List.contains_iff_mem.mpr hint)]
    cases he : n.exactInteger with
    | some i =>
      simp only [hint, true_and, Except.ok.injEq, Prod.mk.injEq, Option.some.injEq, exists_eq_left', reduceCtorEq,
        false_and, forall_const, or_false]
      exact and_congr eq_comm eq_comm
    | none =>
      by_cases hnum : .number ∈ r.types
      · simp [hint, hnum, hmap]
      · simp [hint, hnum]
  · rw [if_neg (by simpa using hint), hmap]
    simp [hint]

theorem normalizeNumber_idem (h : normalizeNumber r n = .ok (t, k)) (hslip : ¬ Slips r n) :
    normalizeNumber r k = .ok (t, k) := by
  rcases normalizeNumber_eq_ok.mp h with ⟨hint, i, -, rfl, rfl⟩ | ⟨hnot, rfl, hf⟩
  · exact normalizeNumber_eq_ok.mpr (.inl ⟨hint, i, rfl, rfl, rfl⟩)
  · refine normalizeNumber_eq_ok.mpr (.inr ⟨fun hint => ?_, rfl, normalizeFloat_idem hf⟩)
    obtain ⟨hexact, hnum⟩ := hnot hint
    refine ⟨?_, hnum⟩
    rcases normalizeFloat_eq_ok hf with ⟨i, rfl, htypes | ⟨-, hi⟩⟩ | ⟨f, hfin, rfl⟩
    · rw [htypes] at hint
      cases hint
    · rw [hexact] at hi
      cases hi
    · by_contra hne
      obtain ⟨i, hi⟩ := Option.ne_none_iff_exists'.mp hne
      cases n with
      | int64 j => cases hexact
      | int j => cases hexact
      | float x =>
        rw [Number.finiteNumber] at hfin
        split at hfin
        · cases hfin
          exact hne hexact
        · cases hfin
      | text t =>
        obtain ⟨hvalue, habs⟩ := Number.exactInteger_float.mp hi
        have hround := Float64.toRat_ofRat hfin
        rw [hvalue] at hround
        exact hslip ⟨hint, hnum, hexact, t, rfl, i.toInt, habs, (Option.some.inj hround).symm⟩

/-- The second reading of a number that slips makes it an integer. -/
theorem normalizeNumber_slip (h : normalizeNumber r n = .ok (t, k)) (hslip : Slips r n) :
    ∃ i, normalizeNumber r k = .ok (.integer, .int64 i) ∧ k ≠ .int64 i := by
  obtain ⟨hint, hnum, hexact, text, rfl, z, hz, hround⟩ := hslip
  rcases normalizeNumber_eq_ok.mp h with ⟨-, i, hi, -⟩ | ⟨-, -, hf⟩
  · rw [hexact] at hi
    cases hi
  · rcases normalizeFloat_eq_ok hf with ⟨i, -, htypes | ⟨-, hi⟩⟩ | ⟨f, hfin, rfl⟩
    · rw [htypes] at hint
      cases hint
    · rw [hexact] at hi
      cases hi
    · have hvalue : (Number.float f).value = some (z : ℚ) := by
        rw [Number.value, Float64.toRat_ofRat hfin, hround]
      refine ⟨Int64.ofInt z, normalizeNumber_eq_ok.mpr (.inl ⟨hint, _, ?_, rfl, rfl⟩), nofun⟩
      exact Number.exactInteger_of_value hvalue hz

/-! ### Values -/

/-- A number of the value slips at its position. -/
inductive HasSlip : Schema → Value → Prop
  | here {r : Rules} {ps : List (String × Schema)} {i a : Option Schema} {n : Number} (h : Slips r n) :
    HasSlip (.mk r ps i a) (.num n)
  | property {r : Rules} {ps : List (String × Schema)} {i a : Option Schema} {fs : List (String × Value)}
    {k : String} {s : Schema} {x : Value} (hs : (k, s) ∈ ps) (hx : Fields.get k fs = some x) (h : HasSlip s x) :
    HasSlip (.mk r ps i a) (.obj fs)
  | other {r : Rules} {ps : List (String × Schema)} {i a : Option Schema} {fs : List (String × Value)}
    {k : String} {x : Value} (hk : k ∉ ps.map Prod.fst) (hx : Fields.get k fs = some x) (h : HasSlip (below a) x) :
    HasSlip (.mk r ps i a) (.obj fs)
  | item {r : Rules} {ps : List (String × Schema)} {i a : Option Schema} {xs : List Value} {x : Value}
    (hx : x ∈ xs) (h : HasSlip (below i) x) : HasSlip (.mk r ps i a) (.arr xs)

/-- A default is kept as it is wherever it is filled in. -/
def Steady (lib : Library) (s : Schema) (d : Value) : Prop :=
  read true s d = d ∧ ∀ (m : Mode) (pointer : String), m.defaults = true → Accepts lib m s pointer d

/-- What reading twice needs of a node. -/
structure Regular (lib : Library) (s : Schema) : Prop where
  distinct : (s.properties.map Prod.fst).Nodup
  defaults : ∀ q ∈ s.properties, ∀ d ∈ q.2.rules.default, q.2.hasFiles = false ∧ Steady lib q.2 d
  others : (below s.additional).hasFiles = false

theorem regular_free (lib : Library) : Regular lib .free := ⟨List.nodup_nil, nofun, rfl⟩

theorem everywhere_below {P : Schema → Prop} (hfree : P .free) (h : ∀ s ∈ o, Schema.Everywhere P s) :
    Schema.Everywhere P (below o) := by
  cases o with
  | none => exact .mk hfree nofun nofun nofun
  | some s => exact h s rfl

/-! ### Members of a value that was read -/

theorem readProperties_eq (defaults : Bool) (fs : List (String × Value)) (ps : List (String × Schema)) :
    readProperties defaults fs ps =
      ps.filterMap fun q => ((propertyValue defaults fs q.1 q.2).map (read defaults q.2)).map (q.1, ·) := by
  induction ps with
  | nil => rfl
  | cons q ps ih =>
    rw [readProperties, List.filterMap_cons, ih]
    cases propertyValue defaults fs q.1 q.2 <;> rfl

theorem get_otherMembers (names : List String) (fs : List (String × Value)) (k : String) :
    Fields.get k (otherMembers names fs) = if k ∈ names then none else Fields.get k fs := by
  induction fs with
  | nil => simp [otherMembers]
  | cons f fs ih =>
    obtain ⟨l, x⟩ := f
    unfold otherMembers at ih ⊢
    by_cases hl : l ∈ names
    · rw [List.filter_cons_of_neg (by simpa using hl), ih]
      by_cases hk : k = l
      · subst hk
        simp [hl]
      · rw [Fields.get_cons_ne hk]
    · rw [List.filter_cons_of_pos (by simpa using hl)]
      by_cases hk : k = l
      · subst hk
        simp [hl]
      · rw [Fields.get_cons_ne hk, Fields.get_cons_ne hk, ih]

/-- `gs` are the members of an object that `f` makes of its declared properties and `g` of its other members `fs`. -/
structure Members (ps : List (String × Schema)) (f : String → Schema → Option Value) (g : Value → Value)
    (fs gs : List (String × Value)) : Prop where
  sorted : Fields.Sorted gs
  property : ∀ q ∈ ps, Fields.get q.1 gs = f q.1 q.2
  other : ∀ k, k ∉ ps.map Prod.fst → Fields.get k gs = (Fields.get k fs).map g

theorem members (hps : (ps.map Prod.fst).Nodup) (f : String → Schema → Option Value) (g : Value → Value)
    (fs : List (String × Value)) :
    Members ps f g fs (Fields.ofList ((ps.filterMap fun q => (f q.1 q.2).map (q.1, ·)) ++
      (otherMembers (ps.map Prod.fst) fs).map fun x => (x.1, g x.2))) := by
  refine ⟨Fields.sorted_ofList _, ?_, ?_⟩
  · rintro ⟨k, s⟩ hs
    have hk : k ∈ ps.map Prod.fst := List.mem_map_of_mem hs
    rw [Fields.get_ofList, Fields.get_append, Fields.get_filterMap f hps, Fields.get_of_mem hps hs, Fields.get_map,
      get_otherMembers, if_pos hk]
    exact Option.or_none
  · intro k hk
    rw [Fields.get_ofList, Fields.get_append, Fields.get_filterMap f hps, Fields.get_eq_none.mpr hk, Fields.get_map,
      get_otherMembers, if_neg hk]
    rfl

/-- `gs` are the members of an object as it is read. -/
abbrev MembersRead (defaults : Bool) (ps : List (String × Schema)) (a : Option Schema)
    (fs gs : List (String × Value)) :
    Prop :=
  Members ps (fun k s => (propertyValue defaults fs k s).map (read defaults s)) (read defaults (below a)) fs gs

theorem membersRead (defaults : Bool) (ps : List (String × Schema)) (hps : (ps.map Prod.fst).Nodup) (r : Rules)
    (i a : Option Schema) (fs : List (String × Value)) :
    ∃ gs, read defaults (.mk r ps i a) (.obj fs) = .obj gs ∧ MembersRead defaults ps a fs gs :=
  ⟨_, by rw [read_obj, readProperties_eq], members hps _ _ fs⟩

namespace MembersRead
variable {defaults : Bool} {ps : List (String × Schema)} {a : Option Schema} {fs gs : List (String × Value)}

/-- A declared property of a value that was read has been read. -/
theorem propertyValue (h : MembersRead defaults ps a fs gs) {q : String × Schema} (hq : q ∈ ps) :
    propertyValue defaults gs q.1 q.2 = (propertyValue defaults fs q.1 q.2).map (read defaults q.2) := by
  have hget := h.property q hq
  rw [Contract.propertyValue, hget]
  cases hp : Contract.propertyValue defaults fs q.1 q.2 with
  | some x => rfl
  | none =>
    rw [Contract.propertyValue, Option.or_eq_none_iff] at hp
    rw [hp.2]
    rfl

/-- Another member of a value that was read has been read. -/
theorem of_mem (h : MembersRead defaults ps a fs gs) {g : String × Value} (hg : g ∈ gs)
    (hk : g.1 ∉ ps.map Prod.fst) : ∃ x, Fields.get g.1 fs = some x ∧ g.2 = read defaults (below a) x := by
  have hget := Fields.get_of_mem h.sorted.nodup hg
  rw [h.other g.1 hk, Option.map_eq_some_iff] at hget
  obtain ⟨x, hx, hg⟩ := hget
  exact ⟨x, hx, hg.symm⟩

/-- Where no member changes, the object does not change. -/
theorem read_eq (h : MembersRead defaults ps a fs gs) (hps : (ps.map Prod.fst).Nodup)
    (hproperty : ∀ q ∈ ps, ∀ x ∈ Contract.propertyValue defaults fs q.1 q.2,
      read defaults q.2 (read defaults q.2 x) = read defaults q.2 x)
    (hother : ∀ k x, k ∉ ps.map Prod.fst → Fields.get k fs = some x →
      read defaults (below a) (read defaults (below a) x) = read defaults (below a) x) (r : Rules)
        (i : Option Schema) :
    read defaults (.mk r ps i a) (.obj gs) = .obj gs := by
  obtain ⟨gs', hread, h'⟩ := membersRead defaults ps hps r i a gs
  rw [hread]
  refine congrArg Json.obj (h'.sorted.ext h.sorted fun k => ?_)
  by_cases hk : k ∈ ps.map Prod.fst
  · obtain ⟨q, hq, rfl⟩ := List.mem_map.mp hk
    rw [h'.property q hq, h.property q hq, h.propertyValue hq, Option.map_map]
    exact Option.map_congr (hproperty q hq)
  · rw [h'.other k hk, h.other k hk, Option.map_map]
    exact Option.map_congr fun x hx => hother k x hk hx

theorem unknownProperty (h : MembersRead defaults ps a fs gs)
    (hu : unknownProperty r (ps.map Prod.fst) fs = false) : unknownProperty r (ps.map Prod.fst) gs = false := by
  unfold Contract.unknownProperty at hu ⊢
  rw [Bool.and_assoc, Bool.and_eq_false_iff] at hu ⊢
  refine hu.imp_left fun hall => ?_
  rw [List.any_eq_false] at hall ⊢
  intro g hg
  by_contra hk
  have hk : g.1 ∉ ps.map Prod.fst := by simpa using hk
  obtain ⟨x, hx, -⟩ := h.of_mem hg hk
  exact hall _ (Fields.mem_of_get hx) (by simpa using hk)

end MembersRead

/-! ### Files -/

theorem leavesProperties_eq_nil (h : ∀ q ∈ ps, ∀ p v, leaves m q.2 p v = []) :
    leavesProperties m pointer fs ps = [] := by
  induction ps with
  | nil => rfl
  | cons q ps ih =>
    obtain ⟨k, s⟩ := q
    rw [List.forall_mem_cons] at h
    rw [leavesProperties]
    cases propertyValue m.defaults fs k s with
    | none => exact ih h.2
    | some x => exact List.append_eq_nil_iff.mpr ⟨h.1 _ _, ih h.2⟩

theorem hasFiles_of_mem (h : Schema.hasFilesAny ps = false) : ∀ q ∈ ps, q.2.hasFiles = false := by
  induction ps with
  | nil => exact nofun
  | cons q ps ih =>
    rw [Schema.hasFilesAny, Bool.or_eq_false_iff] at h
    exact List.forall_mem_cons.mpr ⟨h.1, ih h.2⟩

theorem hasFiles_below (h : Schema.hasFilesIn o = false) : (below o).hasFiles = false := by
  cases o with
  | none => rfl
  | some s => exact h

/-- A schema without file positions has no leaves. -/
theorem leaves_of_hasFiles {s : Schema} (h : s.hasFiles = false) (pointer : String) (v : Value) :
    leaves m s pointer v = [] := by
  induction s, v using Schema.induct_below generalizing pointer with
  | step r ps i a v hps hi ha =>
    rw [Schema.hasFiles] at h
    simp only [Bool.or_eq_false_iff] at h
    obtain ⟨⟨⟨hfile, hfi⟩, hfa⟩, hfps⟩ := h
    have hf : r.file = none := by simpa using hfile
    cases v with
    | arr xs =>
      rw [leaves_arr m hf, List.flatMap_eq_nil_iff]
      intro x hx
      exact hi x.1 (List.fst_mem_of_mem_zipIdx hx) (hasFiles_below hfi) _
    | obj fs =>
      rw [leaves_obj m hf, List.append_eq_nil_iff, List.flatMap_eq_nil_iff]
      refine ⟨leavesProperties_eq_nil fun q hq p x => hps q hq x (hasFiles_of_mem hfps q hq) p, ?_⟩
      intro f hf
      exact ha f.2 (List.mem_map_of_mem (List.mem_of_mem_filter hf)) (hasFiles_below hfa) _
    | leaf l =>
      rw [leaves.eq_def]
      dsimp only
      rw [hf]
    | _ => exact leaves_of_isScalar m _ pointer rfl

theorem leavesProperties_congr {gs : List (String × Value)}
    (hvalue : ∀ q ∈ ps, propertyValue m.defaults gs q.1 q.2 =
      (propertyValue m.defaults fs q.1 q.2).map (read m.defaults q.2))
    (hleaves : ∀ q ∈ ps, ∀ x ∈ propertyValue m.defaults fs q.1 q.2,
      leaves m q.2 (memberPointer pointer q.1) (read m.defaults q.2 x) =
        leaves m q.2 (memberPointer pointer q.1) x) :
    leavesProperties m pointer gs ps = leavesProperties m pointer fs ps := by
  induction ps with
  | nil => rfl
  | cons q ps ih =>
    obtain ⟨k, s⟩ := q
    rw [List.forall_mem_cons] at hvalue hleaves
    have ih := ih hvalue.2 hleaves.2
    rw [leavesProperties, leavesProperties, hvalue.1]
    cases hx : propertyValue m.defaults fs k s with
    | none => exact ih
    | some x =>
      dsimp only [Option.map_some]
      rw [hleaves.1 x hx, ih]

/-! ### Reading twice -/

section
variable {lib : Library} {m : Mode}

/-- What holds of a value that was read. -/
structure Reread (lib : Library) (m : Mode) (s : Schema) (pointer : String) (v : Value) : Prop where
  accepts : Accepts lib m s pointer (read m.defaults s v)
  read_read : read m.defaults s (read m.defaults s v) = read m.defaults s v
  leaves_read : leaves m s pointer (read m.defaults s v) = leaves m s pointer v

variable {s : Schema} {pointer : String} {v : Value} {r : Rules} {ps : List (String × Schema)} {i a : Option Schema}
  {xs : List Value} {fs : List (String × Value)}

theorem reread_of_read_eq (h : read m.defaults s v = v) (ha : Accepts lib m s pointer v) :
    Reread lib m s pointer v :=
  ⟨by rwa [h], by rw [h, h], by rw [h]⟩

theorem reread_num (hf : r.file = none) (hslip : ¬ Slips r n)
    (ha : Accepts lib m (.mk r ps i a) pointer (.num n)) : Reread lib m (.mk r ps i a) pointer (.num n) := by
  obtain ⟨t, k, hn, ht, hb, he⟩ := (accepts_num hf).mp ha
  have hk := normalizeNumber_idem hn hslip
  have hread : read m.defaults (.mk r ps i a) (.num n) = .num k := by
    rw [read, readNumber, hn]
  have hreadk : read m.defaults (.mk r ps i a) (.num k) = .num k := by
    rw [read, readNumber, hk]
  refine ⟨?_, by rw [hread, hreadk], ?_⟩
  · rw [hread]
    exact (accepts_num hf).mpr ⟨t, k, hk, ht, hb, he⟩
  · rw [hread, leaves_of_isScalar m _ pointer rfl, leaves_of_isScalar m _ pointer rfl]

/-- The elements of an array as it was read are accepted, and so is the array if it is among the declared values. -/
theorem accepts_read_arr (hf : r.file = none)
    (hitems : ∀ x ∈ xs.zipIdx, Accepts lib m (below i) (itemPointer pointer x.2) (read m.defaults (below i) x.1))
    (he : validateEnumConst r (read m.defaults (.mk r ps i a) (read m.defaults (.mk r ps i a) (.arr xs))) = none)
    (ha : Accepts lib m (.mk r ps i a) pointer (.arr xs)) :
    Accepts lib m (.mk r ps i a) pointer (read m.defaults (.mk r ps i a) (.arr xs)) := by
  obtain ⟨ht, hl, -⟩ := (accepts_arr hf).mp ha
  have hzip : (xs.map (read m.defaults (below i))).zipIdx =
      xs.zipIdx.map fun x => (read m.defaults (below i) x.1, x.2) := List.zipIdx_map ..
  rw [read_arr] at he
  rw [read_arr, accepts_arr hf, List.length_map, hzip]
  refine ⟨ht, hl, ?_, he⟩
  intro y hy
  obtain ⟨x, hx, rfl⟩ := List.mem_map.mp hy
  exact hitems x hx

theorem reread_arr (hf : r.file = none) (hi : ∀ x ∈ xs, ∀ q, Accepts lib m (below i) q x →
      Reread lib m (below i) q x)
    (ha : Accepts lib m (.mk r ps i a) pointer (.arr xs)) : Reread lib m (.mk r ps i a) pointer (.arr xs) := by
  obtain ⟨-, -, hitems, he⟩ := (accepts_arr hf).mp ha
  have hitem : ∀ x ∈ xs.zipIdx, Reread lib m (below i) (itemPointer pointer x.2) x.1 :=
    fun x hx => hi x.1 (List.fst_mem_of_mem_zipIdx hx) _ (hitems x hx)
  have hread : read m.defaults (.mk r ps i a) (.arr (xs.map (read m.defaults (below i)))) =
      .arr (xs.map (read m.defaults (below i))) := by
    rw [read_arr, List.map_map]
    refine congrArg Json.arr (List.map_congr_left fun x hx => ?_)
    rw [← List.zipIdx_map_fst 0 xs] at hx
    obtain ⟨y, hy, rfl⟩ := List.mem_map.mp hx
    exact (hitem y hy).read_read
  refine ⟨?_, ?_, ?_⟩
  · refine accepts_read_arr hf (fun x hx => (hitem x hx).accepts) ?_ ha
    rw [read_arr, hread, ← read_arr]
    exact he
  · rw [read_arr, hread]
  · have hzip : (xs.map (read m.defaults (below i))).zipIdx =
        xs.zipIdx.map fun x => (read m.defaults (below i) x.1, x.2) := List.zipIdx_map ..
    rw [read_arr, leaves_arr m hf, leaves_arr m hf, hzip, List.flatMap_map]
    refine List.flatMap_congr fun x hx => (hitem x hx).leaves_read

/-- The members of an object as it was read are accepted, and so is the object if it is among the declared values. -/
theorem accepts_read_obj (hf : r.file = none) (hdistinct : (ps.map Prod.fst).Nodup)
    (hproperty : ∀ q ∈ ps, ∀ x ∈ propertyValue m.defaults fs q.1 q.2,
      Accepts lib m q.2 (memberPointer pointer q.1) (read m.defaults q.2 x))
    (hother : ∀ k x, k ∉ ps.map Prod.fst → Fields.get k fs = some x →
      Accepts lib m (below a) (memberPointer pointer k) (read m.defaults (below a) x))
    (he : validateEnumConst r (read m.defaults (.mk r ps i a) (read m.defaults (.mk r ps i a) (.obj fs))) = none)
    (ha : Accepts lib m (.mk r ps i a) pointer (.obj fs)) :
    Accepts lib m (.mk r ps i a) pointer (read m.defaults (.mk r ps i a) (.obj fs)) := by
  obtain ⟨ht, hu, hreq, -⟩ := (accepts_obj hf).mp ha
  obtain ⟨gs, hread, hgs⟩ := membersRead m.defaults ps hdistinct r i a fs
  rw [hread] at he ⊢
  refine (accepts_obj hf).mpr ⟨ht, hgs.unknownProperty hu, ?_, ?_, ?_, he⟩
  · intro q hq hnone
    rw [hgs.propertyValue hq, Option.map_eq_none_iff] at hnone
    exact hreq q hq hnone
  · intro q hq y hy
    rw [hgs.propertyValue hq, Option.mem_map] at hy
    obtain ⟨x, hx, rfl⟩ := hy
    exact hproperty q hq x hx
  · intro g hg
    obtain ⟨hg, hk⟩ := List.mem_filter.mp hg
    have hk : g.1 ∉ ps.map Prod.fst := by simpa using hk
    obtain ⟨x, hx, hgx⟩ := hgs.of_mem hg hk
    rw [hgx]
    exact hother _ x hk hx

/-- The value of a property is a member of the object or a default, which reading leaves alone and which has no
files. -/
theorem propertyValue_cases (hregular : Regular lib (.mk r ps i a)) {q : String × Schema} (hq : q ∈ ps) {x : Value}
    (hx : x ∈ propertyValue m.defaults fs q.1 q.2) :
    Fields.get q.1 fs = some x ∨ q.2.hasFiles = false ∧ read m.defaults q.2 x = x := by
  cases hget : Fields.get q.1 fs with
  | some y =>
    rw [Option.mem_def, propertyValue, hget, Option.some_or] at hx
    exact .inl hx
  | none =>
    rw [Option.mem_def, propertyValue, hget, Option.none_or] at hx
    split at hx
    · rename_i hd
      rw [hd]
      obtain ⟨hfiles, hsteady⟩ := hregular.defaults q hq x hx
      exact .inr ⟨hfiles, hsteady.1⟩
    · cases hx

theorem reread_obj (hf : r.file = none) (hregular : Regular lib (.mk r ps i a))
    (hps : ∀ q ∈ ps, ∀ x, Fields.get q.1 fs = some x → ∀ p, Accepts lib m q.2 p x → Reread lib m q.2 p x)
    (hother : ∀ k x, k ∉ ps.map Prod.fst → Fields.get k fs = some x → ∀ p, Accepts lib m (below a) p x →
      Reread lib m (below a) p x)
    (ha : Accepts lib m (.mk r ps i a) pointer (.obj fs)) : Reread lib m (.mk r ps i a) pointer (.obj fs) := by
  have hdistinct : (ps.map Prod.fst).Nodup := hregular.distinct
  obtain ⟨-, -, -, hacc, -, he⟩ := (accepts_obj hf).mp ha
  obtain ⟨gs, hread, hgs⟩ := membersRead m.defaults ps hdistinct r i a fs
  have hproperty : ∀ q ∈ ps, ∀ x ∈ propertyValue m.defaults fs q.1 q.2,
      Reread lib m q.2 (memberPointer pointer q.1) x := by
    intro q hq x hx
    rcases propertyValue_cases hregular hq hx with hget | ⟨-, hkept⟩
    · exact hps q hq x hget _ (hacc q hq x hx)
    · exact reread_of_read_eq hkept (hacc q hq x hx)
  have hothers : ∀ k x, k ∉ ps.map Prod.fst → Fields.get k fs = some x →
      Reread lib m (below a) (memberPointer pointer k) x := by
    intro k x hk hx
    exact hother k x hk hx _ (accepts_other hf ha hk hx)
  have hrr := hgs.read_eq hdistinct (fun q hq x hx => (hproperty q hq x hx).read_read)
    (fun k x hk hx => (hothers k x hk hx).read_read) r i
  refine ⟨?_, by rw [hread, hrr], ?_⟩
  · refine accepts_read_obj hf hdistinct (fun q hq x hx => (hproperty q hq x hx).accepts)
      (fun k x hk hx => (hothers k x hk hx).accepts) ?_ ha
    rw [hread, hrr, ← hread]
    exact he
  · have hnil (hs : List (String × Value)) : ((otherMembers (ps.map Prod.fst) hs).flatMap fun f =>
        leaves m (below a) (memberPointer pointer f.1) f.2) = [] :=
      List.flatMap_eq_nil_iff.mpr fun f _ => leaves_of_hasFiles hregular.others _ _
    rw [hread, leaves_obj m hf, leaves_obj m hf, hnil, hnil, leavesProperties_congr fun q hq => hgs.propertyValue hq]
    exact fun q hq x hx => (hproperty q hq x hx).leaves_read

/-- A value without slips is read again as it was read. -/
theorem reread (hs : s.Everywhere (Regular lib)) (hv : ¬ HasSlip s v) (ha : Accepts lib m s pointer v) :
    Reread lib m s pointer v := by
  induction s, v using Schema.induct_below generalizing pointer with
  | step r ps i a v hps hi hadd =>
    cases hs with
    | mk hregular hps' hi' ha' =>
      by_cases hnull : v = .null
      · subst hnull
        exact reread_of_read_eq rfl ha
      cases hf : r.file with
      | some f =>
        obtain ⟨x, rfl, -⟩ := (accepts_of_file hf hnull).mp ha
        exact reread_of_read_eq rfl ha
      | none =>
        cases v with
        | null => exact absurd rfl hnull
        | bool b | str x => exact reread_of_read_eq rfl ha
        | leaf l =>
          cases l with
          | file x => exact absurd ha (not_accepts_file hf)
          | num n => exact reread_num hf (fun h => hv (.here h)) ha
        | arr xs =>
          refine reread_arr hf (fun x hx p hax => ?_) ha
          exact hi x hx (everywhere_below (regular_free lib) hi') (fun h => hv (.item hx h)) hax
        | obj fs =>
          refine reread_obj hf hregular (fun q hq x hx p hax => ?_) (fun k x hk hx p hax => ?_) ha
          · exact hps q hq x (hps' q hq) (fun h => hv (.property hq hx h)) hax
          · have hmem : x ∈ (Json.obj fs).parts := List.mem_map_of_mem (f := Prod.snd) (Fields.mem_of_get hx)
            exact hadd x hmem (everywhere_below (regular_free lib) ha') (fun h => hv (.other hk hx h)) hax

/-- A value with a slip is read differently the second time. -/
theorem read_read_ne (hs : s.Everywhere (Regular lib)) (hv : HasSlip s v) (ha : Accepts lib m s pointer v) :
    read m.defaults s (read m.defaults s v) ≠ read m.defaults s v := by
  induction hv generalizing pointer with
  | @here r ps i a n h =>
    have hf := file_eq_none ha (by simp) (by simp)
    obtain ⟨t, k, hn, -⟩ := (accepts_num hf).mp ha
    obtain ⟨j, hj, hne⟩ := normalizeNumber_slip hn h
    rw [read, read, readNumber, readNumber, hn]
    dsimp only
    rw [hj]
    intro heq
    injection heq with heq
    injection heq with heq
    exact hne heq.symm
  | @property r ps i a fs k s x hq hx h ih =>
    have hf := file_eq_none ha (by simp) (by simp)
    cases hs with
    | mk hregular hps hi hadd =>
      obtain ⟨gs, hread, hgs⟩ := membersRead m.defaults ps hregular.distinct r i a fs
      obtain ⟨gs', hread', hgs'⟩ := membersRead m.defaults ps hregular.distinct r i a gs
      have hvalue : propertyValue m.defaults fs k s = some x := by rw [propertyValue, hx, Option.some_or]
      intro heq
      rw [hread, hread'] at heq
      have hget := hgs'.property _ hq
      rw [Json.obj.inj heq, hgs.property _ hq, hgs.propertyValue hq, hvalue] at hget
      exact ih (hps _ hq) (accepts_property hf ha hq hx) (Option.some.inj hget).symm
  | @other r ps i a fs k x hk hx h ih =>
    have hf := file_eq_none ha (by simp) (by simp)
    cases hs with
    | mk hregular hps hi hadd =>
      obtain ⟨gs, hread, hgs⟩ := membersRead m.defaults ps hregular.distinct r i a fs
      obtain ⟨gs', hread', hgs'⟩ := membersRead m.defaults ps hregular.distinct r i a gs
      intro heq
      rw [hread, hread'] at heq
      have hget := hgs'.other k hk
      rw [Json.obj.inj heq, hgs.other k hk, hx] at hget
      exact ih (everywhere_below (regular_free lib) hadd) (accepts_other hf ha hk hx) (Option.some.inj hget).symm
  | @item r ps i a xs x hx h ih =>
    have hf := file_eq_none ha (by simp) (by simp)
    cases hs with
    | mk hregular hps hi hadd =>
      intro heq
      rw [read_arr, read_arr, List.map_map] at heq
      obtain ⟨n, hn⟩ := accepts_item hf ha hx
      exact ih (everywhere_below (regular_free lib) hi) hn (List.map_inj_left.mp (Json.arr.inj heq) x hx)

end

/-! ### The schema of a member -/

/-- The schema of a member of an object. -/
def member (ps : List (String × Schema)) (a : Option Schema) (k : String) : Schema :=
  (Fields.get k ps).getD (below a)

section Member
variable {ps : List (String × Schema)} {a : Option Schema}

theorem member_of_mem (hps : (ps.map Prod.fst).Nodup) {q : String × Schema} (hq : q ∈ ps) :
    member ps a q.1 = q.2 := by
  rw [member, Fields.get_of_mem hps hq]
  rfl

variable {k : String}

theorem member_of_not_mem (hk : k ∉ ps.map Prod.fst) : member ps a k = below a := by
  rw [member, Fields.get_eq_none.mpr hk]
  rfl

/-- The schema of a member is that of a property or the one of other members. -/
theorem member_cases (ps : List (String × Schema)) (a : Option Schema) (k : String) :
    (k, member ps a k) ∈ ps ∨ k ∉ ps.map Prod.fst ∧ member ps a k = below a := by
  cases hk : Fields.get k ps with
  | some s =>
    rw [member, hk]
    exact .inl (Fields.mem_of_get hk)
  | none =>
    have hnot := Fields.get_eq_none.mp hk
    exact .inr ⟨hnot, member_of_not_mem hnot⟩

theorem everywhere_member {P : Schema → Prop} (hfree : P .free) (hps : ∀ q ∈ ps, q.2.Everywhere P)
    (ha : ∀ t ∈ a, t.Everywhere P) (k : String) : (member ps a k).Everywhere P := by
  rcases member_cases ps a k with hmem | ⟨-, heq⟩
  · exact hps _ hmem
  · rw [heq]
    exact everywhere_below hfree ha

/-- Induction over a schema and a value, with one hypothesis for all members of an object. -/
theorem Schema.induct_member {motive : Schema → Value → Prop}
    (step : ∀ r ps i a v, (∀ xs, v = .arr xs → ∀ x ∈ xs, motive (below i) x) →
      (∀ fs, v = .obj fs → ∀ k x, (k, x) ∈ fs → motive (member ps a k) x) → motive (.mk r ps i a) v)
    (s : Schema) (v : Value) : motive s v := by
  induction s, v using Schema.induct_below with
  | step r ps i a v hps hi ha =>
    refine step r ps i a v ?_ ?_
    · rintro xs rfl x hx
      exact hi x hx
    · rintro fs rfl k x hx
      rcases member_cases ps a k with hmem | ⟨-, heq⟩
      · exact hps _ hmem x
      · rw [heq]
        exact ha x (List.mem_map_of_mem (f := Prod.snd) hx)

theorem accepts_member {lib : Library} {i : Option Schema} {p : String}
    (h : Accepts lib m (.mk r ps i a) p (.obj fs)) {x : Value}
    (hx : Fields.get k fs = some x) : Accepts lib m (member ps a k) (memberPointer p k) x := by
  have hf := file_eq_none h nofun nofun
  rcases member_cases ps a k with hmem | ⟨hk, heq⟩
  · exact accepts_property hf h hmem hx
  · rw [heq]
    exact accepts_other hf h hk hx

end Member

end Onprest.Contract
