import Onprest.Contract.Compiled

/-! Values as configuration leaves them, and what follows for the defaults of a compiled schema: each is kept as it
is wherever it is filled in. -/

namespace Onprest.Contract
open Lib

/-! ### Settled values -/

/-- A value with settled numbers: `int64` or finite `float64` without a negative zero, and no files. -/
inductive Settled : Value → Prop
  | null : Settled .null
  | bool (b : Bool) : Settled (.bool b)
  | str (s : String) : Settled (.str s)
  | int64 (n : Int64) : Settled (.num (.int64 n))
  | float {q : ℚ} (h : Binary64.Finite q) : Settled (.num (.float (.finite q h)))
  | arr {xs : List Value} (h : ∀ x ∈ xs, Settled x) : Settled (.arr xs)
  | obj {fs : List (String × Value)} (hs : Fields.Sorted fs) (h : ∀ f ∈ fs, Settled f.2) : Settled (.obj fs)

theorem plainItems_eq (xs : List Raw) : plainItems xs = xs.map plain := by
  induction xs with
  | nil => rfl
  | cons x xs ih => rw [plainItems, ih, List.map_cons]

theorem plainFields_eq (fs : List (String × Raw)) : plainFields fs = fs.map fun f => (f.1, plain f.2) := by
  induction fs with
  | nil => rfl
  | cons f fs ih => rw [plainFields, ih, List.map_cons]

theorem settled_plain (v : Raw) : Settled (plain v) := by
  induction v using Json.induct with
  | null => exact .null
  | bool b => exact .bool b
  | str s => exact .str s
  | leaf a =>
    cases a with
    | int n => exact .int64 n
    | float q h => exact .float h
  | arr xs ih =>
    rw [plain, plainItems_eq]
    refine .arr fun y hy => ?_
    obtain ⟨x, hx, rfl⟩ := List.mem_map.mp hy
    exact ih x hx
  | obj fs ih =>
    rw [plain, plainFields_eq]
    refine .obj (Fields.sorted_ofList _) fun g hg => ?_
    obtain ⟨f, hf, rfl⟩ := List.mem_map.mp (Fields.mem_of_mem_ofList hg)
    exact ih f hf

theorem Settled.of_get {fs : List (String × Value)} (h : Settled (.obj fs)) {k : String} {x : Value}
    (hx : Fields.get k fs = some x) : Settled x := by
  cases h with
  | obj hs hall => exact hall _ (Fields.mem_of_get hx)

/-- A settled value holds no number text, so none that slips. -/
theorem Settled.not_hasSlip {s : Schema} {v : Value} (hv : Settled v) : ¬ HasSlip s v := by
  intro h
  induction h with
  | here h =>
    obtain ⟨-, -, -, t, rfl, -⟩ := h
    cases hv
  | property hs hx h ih | other hk hx h ih => exact ih (hv.of_get hx)
  | item hx h ih =>
    cases hv with
    | arr hall => exact ih (hall _ hx)

theorem finite_of_ofInt {n : ℤ} {x : Float64} (h : Float64.ofInt n = some x) : ∃ q hq, x = .finite q hq := by
  unfold Float64.ofInt Float64.ofRat at h
  simp only [Bool.false_eq_true, false_and, if_false] at h
  split at h
  · exact ⟨_, _, (Option.some.inj h).symm⟩
  · cases h

/-! ### What acceptance and reading depend on -/

/-- Declared values play no part in reading. -/
theorem read_congr (r r' : Rules) (htypes : r.types = r'.types) (hout : r.output = r'.output) (defaults : Bool)
    (ps : List (String × Schema)) (i a : Option Schema) (v : Value) :
    read defaults (.mk r ps i a) v = read defaults (.mk r' ps i a) v := by
  have hnum (n : Number) : readNumber r n = readNumber r' n := by
    unfold readNumber normalizeNumber normalizeFloat
    rw [htypes, hout]
  cases v with
  | leaf l =>
    cases l with
    | num n => rw [read, read, hnum]
    | file x => rfl
  | arr xs => rw [read_arr, read_arr]
  | obj fs => rw [read_obj, read_obj]
  | _ => rfl

section
variable {lib : Library}

theorem validateEnumConst_congr (r r' : Rules) (henum : r.enum = r'.enum) (hconst : r.const = r'.const) (v : Value) :
    validateEnumConst r v = validateEnumConst r' v := by
  unfold validateEnumConst
  rw [henum, hconst]

variable {r : Rules} {m : Mode} {ps : List (String × Schema)} {i a : Option Schema} {pointer : String} {v : Value}

theorem validateEnumConst_of_none (henum : r.enum = none) (hconst : r.const = none) (v : Value) :
    validateEnumConst r v = none := by
  unfold validateEnumConst
  rw [henum, hconst]
  rfl

/-- The declared values of a node are one more check on top of the others, which a null let through does not meet. -/
theorem accepts_declared (hf : r.file = none) (henum : r.enum = none) (hconst : r.const = none)
    (enum : Option (List Value)) (const default : Option Value) :
    Accepts lib m (.mk { r with enum, const, default } ps i a) pointer v ↔
      Accepts lib m (.mk r ps i a) pointer v ∧ (v = .null ∧ r.nullable = true ∨
        validateEnumConst { r with enum, const } (read m.defaults (.mk r ps i a) v) = none) := by
  have hread := read_congr { r with enum, const, default } r rfl rfl m.defaults ps i a v
  have hcheck := validateEnumConst_congr { r with enum, const, default } { r with enum, const } rfl rfl
  have hbase := validateEnumConst_of_none henum hconst
  have hf' : ({ r with enum, const, default } : Rules).file = none := hf
  cases v with
  | null =>
    have hnull : read m.defaults (.mk r ps i a) .null = .null := rfl
    rw [accepts_null, accepts_null, hcheck, hbase, hnull]
    dsimp only
    tauto
  | bool b =>
    have hbool : read m.defaults (.mk r ps i a) (.bool b) = .bool b := rfl
    rw [accepts_bool hf', accepts_bool hf, hcheck, hbase, hbool]
    simp only [reduceCtorEq, false_and, false_or, and_true]
    rfl
  | str x =>
    have hstr : read m.defaults (.mk r ps i a) (.str x) = .str x := rfl
    rw [accepts_str hf', accepts_str hf, hcheck, hbase, hstr]
    simp only [reduceCtorEq, false_and, false_or, and_true, and_assoc]
    rfl
  | leaf l =>
    cases l with
    | file x => exact iff_of_false (not_accepts_file hf') fun h => not_accepts_file hf h.1
    | num n =>
      rw [accepts_num hf', accepts_num hf]
      simp only [reduceCtorEq, false_and, false_or, hbase, and_true, hcheck]
      constructor
      · rintro ⟨t, k, hn, ht, hb, he⟩
        have hnum : read m.defaults (.mk r ps i a) (.num n) = .num k := by
          rw [← hread, read, readNumber, hn]
        exact ⟨⟨t, k, hn, ht, hb⟩, by rw [hnum]; exact he⟩
      · rintro ⟨⟨t, k, hn, ht, hb⟩, he⟩
        have hnum : read m.defaults (.mk r ps i a) (.num n) = .num k := by
          rw [read, readNumber, hn]
        rw [hnum] at he
        exact ⟨t, k, hn, ht, hb, he⟩
  | arr xs =>
    rw [accepts_arr hf', accepts_arr hf, hread, hcheck, hbase]
    simp only [reduceCtorEq, false_and, false_or, and_true, and_assoc]
    rfl
  | obj fs =>
    rw [accepts_obj hf', accepts_obj hf, hread, hcheck, hbase]
    simp only [reduceCtorEq, false_and, false_or, and_true, and_assoc]
    rfl

theorem accepts_default (hf : r.file = none) (henum : r.enum = none) (hconst : r.const = none)
    (enum : Option (List Value)) (const default : Option Value) :
    Accepts lib m (.mk { r with enum, const, default } ps i a) pointer v ↔
      Accepts lib m (.mk { r with enum, const } ps i a) pointer v := by
  rw [accepts_declared hf henum hconst, ← accepts_declared hf henum hconst enum const r.default]

/-- Without file positions, neither the position nor the file limit matters. -/
theorem accepts_of_hasFiles {m' : Mode} (hm : m.defaults = m'.defaults) {s : Schema} (hs : s.hasFiles = false)
    {p p' : String} (h : Accepts lib m s p v) : Accepts lib m' s p' v := by
  induction s, v using Schema.induct_below generalizing p p' with
  | step r ps i a v hps hi ha =>
    rw [Schema.hasFiles] at hs
    simp only [Bool.or_eq_false_iff] at hs
    obtain ⟨⟨⟨hfile, hfi⟩, hfa⟩, hfps⟩ := hs
    have hf : r.file = none := by simpa using hfile
    cases v with
    | null => exact accepts_null.mpr (accepts_null.mp h)
    | bool b => exact (accepts_bool hf).mpr ((accepts_bool hf).mp h)
    | str x => exact (accepts_str hf).mpr ((accepts_str hf).mp h)
    | leaf l =>
      cases l with
      | file x => exact absurd h (not_accepts_file hf)
      | num n => exact (accepts_num hf).mpr ((accepts_num hf).mp h)
    | arr xs =>
      obtain ⟨ht, hl, hitems, he⟩ := (accepts_arr hf).mp h
      rw [hm] at he
      refine (accepts_arr hf).mpr ⟨ht, hl, fun x hx => ?_, he⟩
      exact hi x.1 (List.fst_mem_of_mem_zipIdx hx) (hasFiles_below hfi) (hitems x hx)
    | obj fs =>
      obtain ⟨ht, hu, hreq, hacc, hoth, he⟩ := (accepts_obj hf).mp h
      rw [hm] at hreq hacc he
      refine (accepts_obj hf).mpr ⟨ht, hu, hreq, fun q hq x hx => ?_, fun f hmem => ?_, he⟩
      · exact hps q hq x (hasFiles_of_mem hfps q hq) (hacc q hq x hx)
      · exact ha f.2 (List.mem_map_of_mem (List.mem_of_mem_filter hmem)) (hasFiles_below hfa) (hoth f hmem)

end

/-! ### Compiled schemas -/

section
variable {lib : Library} {input : Bool}

variable {s s' : Schema} {ps ps' : List (String × Schema)} {max : Int64}

theorem CompiledNode.distinct (h : CompiledNode lib input s) : (s.properties.map Prod.fst).Nodup := by
  cases h with
  | file h => exact List.nodup_nil
  | node base declared => exact base.distinct

theorem hasFilesAny_eq_false (h : ∀ q ∈ ps, q.2.hasFiles = false) : Schema.hasFilesAny ps = false := by
  induction ps with
  | nil => rfl
  | cons q ps ih =>
    rw [List.forall_mem_cons] at h
    rw [Schema.hasFilesAny, h.1, ih h.2]
    rfl

/-- An output schema has no file positions. -/
theorem hasFiles_output (h : s.Everywhere (CompiledNode lib false)) : s.hasFiles = false := by
  induction s with
  | mk r ps i a hps hi ha =>
    cases h with
    | mk node properties items additional =>
      have hfile : r.file = none := by
        cases node with
        | file h => cases h
        | node base declared => exact base.noFile
      have hbelow (o : Option Schema) (ho : ∀ s ∈ o, s.hasFiles = false) : Schema.hasFilesIn o = false := by
        cases o with
        | none => rfl
        | some s => exact ho s rfl
      rw [Schema.hasFiles, hfile, hbelow i fun s hs => hi s hs (items s hs),
        hbelow a fun s hs => ha s hs (additional s hs),
        hasFilesAny_eq_false fun q hq => hps q hq (properties q hq)]
      rfl

theorem noFilesOther (h : s.Everywhere (CompiledNode lib input)) : (below s.additional).hasFiles = false := by
  cases h with
  | @mk r ps i a node properties items additional =>
    cases input with
    | false =>
      cases a with
      | none => rfl
      | some t => exact hasFiles_output (additional t rfl)
    | true =>
      cases node with
      | file h => rfl
      | node base declared => exact base.noFilesOther rfl

/-- A default is kept as it is, given that the schemas below the node are regular. -/
theorem steady_default (hnode : CompiledNode lib input s) (hregular : s.Everywhere (Regular lib)) {d : Value}
    (hd : s.rules.default = some d) : s.hasFiles = false ∧ Steady lib s d := by
  cases hnode with
  | file h => cases hd
  | @node r ps i a enum const default base declared =>
    obtain ⟨⟨v, ha, hdv⟩, hfiles⟩ := declared.filled d hd
    rw [read_congr { r with enum, const } { r with enum, const, default } rfl rfl] at hdv
    have ha := (accepts_default base.noFile base.noEnum base.noConst enum const default).mpr ha
    have hre := reread hregular (settled_plain v).not_hasSlip ha
    subst hdv
    have hfiles : (Schema.mk { r with enum, const, default } ps i a).hasFiles = false := hfiles
    exact ⟨hfiles, hre.read_read, fun m p hm => accepts_of_hasFiles (m := { defaults := true }) hm.symm
      hfiles hre.accepts⟩

/-- The schemas of a compiled one are regular. -/
theorem regular (h : s.Everywhere (CompiledNode lib input)) : s.Everywhere (Regular lib) := by
  induction s with
  | mk r ps i a hps hi ha =>
    have hother := noFilesOther h
    cases h with
    | mk node properties items additional =>
      refine .mk ⟨node.distinct, fun q hq d hd => ?_, hother⟩ (fun q hq => hps q hq (properties q hq))
        (fun s hs => hi s hs (items s hs)) fun s hs => ha s hs (additional s hs)
      exact steady_default (properties q hq).here (hps q hq (properties q hq)) hd

/-! ### File limits -/

theorem isSome_resolveFile {file file' : Option FileConstraints} (h : resolveFile max file = .ok file') :
    file'.isSome = file.isSome := by
  cases file with
  | none => rw [← Except.ok.inj h]
  | some f =>
    rw [resolveFile] at h
    split_ifs at h <;> rw [← Except.ok.inj h]
    rfl

theorem resolveProperties_eq_ok (h : resolveProperties max ps = .ok ps') :
    ps'.map Prod.fst = ps.map Prod.fst ∧
      ∀ q' ∈ ps', ∃ s, (q'.1, s) ∈ ps ∧ resolveFileLimits max s = .ok q'.2 := by
  induction ps generalizing ps' with
  | nil =>
    cases h
    exact ⟨rfl, nofun⟩
  | cons q ps ih =>
    obtain ⟨k, s⟩ := q
    rw [resolveProperties, except_bind_eq_ok] at h
    obtain ⟨s', hs, h⟩ := h
    rw [except_bind_eq_ok] at h
    obtain ⟨ps'', hps, h⟩ := h
    cases h
    obtain ⟨hnames, hall⟩ := ih hps
    refine ⟨by rw [List.map_cons, List.map_cons, hnames], List.forall_mem_cons.mpr ⟨⟨s, List.mem_cons_self, hs⟩, ?_⟩⟩
    intro q' hq'
    obtain ⟨t, ht, hq'⟩ := hall q' hq'
    exact ⟨t, List.mem_cons_of_mem _ ht, hq'⟩

theorem resolveFileLimits_eq_ok {r : Rules} {i a : Option Schema}
    (h : resolveFileLimits max (.mk r ps i a) = .ok s) :
    ∃ file ps' i', s = .mk { r with file } ps' i' a ∧ resolveFile max r.file = .ok file ∧
      resolveProperties max ps = .ok ps' ∧ resolveItems max i = .ok i' := by
  rw [resolveFileLimits, except_bind_eq_ok] at h
  obtain ⟨file, hfile, h⟩ := h
  rw [except_bind_eq_ok] at h
  obtain ⟨ps', hps, h⟩ := h
  rw [except_bind_eq_ok] at h
  obtain ⟨i', hi, h⟩ := h
  exact ⟨file, ps', i', (Except.ok.inj h).symm, hfile, hps, hi⟩

theorem resolveProperties_eq (hps : ∀ q ∈ ps, ∀ s, resolveFileLimits max q.2 = .ok s → s = q.2)
    (h : resolveProperties max ps = .ok ps') : ps' = ps := by
  induction ps generalizing ps' with
  | nil => exact (Except.ok.inj h).symm
  | cons q ps ih =>
    rw [List.forall_mem_cons] at hps
    rw [resolveProperties, except_bind_eq_ok] at h
    obtain ⟨s, hs, h⟩ := h
    rw [except_bind_eq_ok] at h
    obtain ⟨ps'', hps'', h⟩ := h
    cases h
    rw [hps.1 s hs, ih hps.2 hps'']

/-- Only schemas with files change. -/
theorem resolve_of_hasFiles (hs : s.hasFiles = false) (h : resolveFileLimits max s = .ok s') : s' = s := by
  induction s generalizing s' with
  | mk r ps i a hps hi ha =>
    rw [Schema.hasFiles] at hs
    simp only [Bool.or_eq_false_iff] at hs
    obtain ⟨⟨⟨hfile, hfi⟩, hfa⟩, hfps⟩ := hs
    have hf : r.file = none := by simpa using hfile
    obtain ⟨file, ps', i', rfl, hfile', hps', hi'⟩ := resolveFileLimits_eq_ok h
    rw [hf] at hfile'
    cases hfile'
    obtain rfl := resolveProperties_eq (fun q hq t ht => hps q hq (hasFiles_of_mem hfps q hq) ht) hps'
    cases i with
    | none =>
      cases hi'
      rw [← hf]
    | some t =>
      rw [resolveItems, except_bind_eq_ok] at hi'
      obtain ⟨t', ht, hi'⟩ := hi'
      cases hi'
      rw [hi t rfl hfi ht, ← hf]

theorem hasFiles_resolve (h : resolveFileLimits max s = .ok s') : s'.hasFiles = s.hasFiles := by
  induction s generalizing s' with
  | mk r ps i a hps hi ha =>
    obtain ⟨file, ps', i', rfl, hfile, hps', hi'⟩ := resolveFileLimits_eq_ok h
    have hsome : file.isSome = r.file.isSome := isSome_resolveFile hfile
    have hitems : Schema.hasFilesIn i' = Schema.hasFilesIn i := by
      cases i with
      | none =>
        cases hi'
        rfl
      | some t =>
        rw [resolveItems, except_bind_eq_ok] at hi'
        obtain ⟨t', ht, hi'⟩ := hi'
        cases hi'
        exact hi t rfl ht
    have hany : Schema.hasFilesAny ps' = Schema.hasFilesAny ps := by
      clear h hfile hi ha
      induction ps generalizing ps' with
      | nil =>
        cases hps'
        rfl
      | cons q ps ih =>
        rw [List.forall_mem_cons] at hps
        rw [resolveProperties, except_bind_eq_ok] at hps'
        obtain ⟨t, ht, hps'⟩ := hps'
        rw [except_bind_eq_ok] at hps'
        obtain ⟨ps'', hps'', hps'⟩ := hps'
        cases hps'
        rw [Schema.hasFilesAny, Schema.hasFilesAny, hps.1 ht, ih hps.2 ps'' hps'']
    rw [Schema.hasFiles, Schema.hasFiles, hsome, hitems, hany]

theorem regular_resolve (hs : s.Everywhere (Regular lib)) (h : resolveFileLimits max s = .ok s') :
    s'.Everywhere (Regular lib) := by
  induction s generalizing s' with
  | mk r ps i a hps hi ha =>
    obtain ⟨file, ps', i', rfl, -, hps', hi'⟩ := resolveFileLimits_eq_ok h
    obtain ⟨hnames, hall⟩ := resolveProperties_eq_ok hps'
    cases hs with
    | mk node properties items additional =>
      refine .mk ⟨?_, ?_, node.others⟩ ?_ ?_ additional
      · rw [Schema.properties_mk, hnames]
        exact node.distinct
      · intro q' hq' d hd
        obtain ⟨t, ht, hq⟩ := hall q' hq'
        -- a schema with a default has no files, so it is the one that was compiled
        cases t with
        | mk r' ps'' i'' a' =>
          obtain ⟨_, _, _, heq, -⟩ := resolveFileLimits_eq_ok hq
          rw [heq] at hd
          have hdefault := node.defaults _ ht d hd
          rw [resolve_of_hasFiles hdefault.1 hq]
          exact hdefault
      · intro q' hq'
        obtain ⟨t, ht, hq⟩ := hall q' hq'
        exact hps _ ht (properties _ ht) hq
      · intro t ht
        cases i with
        | none =>
          cases hi'
          cases ht
        | some u =>
          rw [resolveItems, except_bind_eq_ok] at hi'
          obtain ⟨u', hu, hi'⟩ := hi'
          cases hi'
          cases ht
          exact hi u rfl (items u rfl) hu

theorem InputSchema.regular (h : InputSchema lib s) : s.Everywhere (Regular lib) := by
  obtain ⟨m, t, ht, rfl | ⟨max, hmax⟩⟩ := h
  · exact Contract.regular (compileSchema_eq_ok ht)
  · exact regular_resolve (Contract.regular (compileSchema_eq_ok ht)) hmax

end

end Onprest.Contract
