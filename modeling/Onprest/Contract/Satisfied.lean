import Onprest.Contract.Position
import Onprest.Contract.Spelling

/-! What validation returns satisfies the schema that returned it, also where a second validation would keep a number
in another kind: a number that changes its kind equals the same declared values as before. -/

namespace Onprest.Contract
open Lib

/-! ### Declared values are kept as they are -/

section
variable {lib : Library}

variable {s s' : Schema} {v : Value} {n : Number} {ps : List (String × Schema)} {i a : Option Schema} {max : Int64}
  {r : Rules} {p : String}

/-- The numbers of a value that stays are kept as they are. -/
theorem everyNumber_stays (hs : s.Everywhere (InputNode lib)) (h : Stays lib s v) : EveryNumber Fixed s v := by
  induction s, v using Schema.induct_member with
  | step r ps i a v hitem hmember =>
    cases hs with
    | mk node properties items additional =>
      cases v with
      | leaf l =>
        cases l with
        | num n =>
          obtain ⟨p, ha⟩ := h.accepts
          obtain ⟨t, k, hn, ht, -⟩ := (accepts_num (file_eq_none ha (by simp) (by simp))).mp ha
          have hread := h.read
          rw [read, readNumber, hn] at hread
          obtain rfl : k = n := by simpa using hread
          exact everyNumber_num.mpr ⟨node.input, t, hn, ht⟩
        | file x => rintro ⟨⟩
      | arr xs =>
        refine everyNumber_arr.mpr fun x hx => ?_
        exact hitem xs rfl x hx (everywhere_below (inputNode_free lib) items) (h.item hx)
      | obj fs =>
        refine everyNumber_obj.mpr fun f hf => ?_
        have hdistinct : (ps.map Prod.fst).Nodup := node.regular.distinct
        have hstays := h.member hdistinct (Fields.get_of_mem (h.nodup hdistinct) hf)
        have hf' := hmember fs rfl f.1 f.2 hf (everywhere_member (inputNode_free lib) properties additional f.1)
        constructor
        · intro q hq hqk
          rw [← hqk, member_of_mem hdistinct hq] at hf'
          exact hf' (hstays.1 q.2 (hqk ▸ hq))
        · intro hk
          rw [member_of_not_mem hk] at hf'
          exact hf' (hstays.2 hk)
      | _ => rintro ⟨⟩

theorem fixed_congr (r r' : Rules) (htypes : r.types = r'.types) (hout : r.output = r'.output) (h : Fixed r n) :
    Fixed r' n := by
  unfold Fixed normalizeNumber normalizeFloat wrongType at h ⊢
  rw [← htypes, ← hout]
  exact h

theorem Keeps.fixed (r r' : Rules) (htypes : r.types = r'.types) (hout : r.output = r'.output)
    (hs : (Schema.mk r ps i a).Everywhere (InputNode lib)) {w : Value} (h : Keeps lib false (.mk r ps i a) w) :
    EveryNumber Fixed (.mk r' ps i a) w := by
  have hregular : (Schema.mk r ps i a).Everywhere (Regular lib) := hs.imp fun t ht => ht.regular
  have hstays := h.stays hregular
  refine everyNumber_congr r r' (fun n hn => ?_) (everyNumber_stays hs hstays)
  exact fixed_congr r r' htypes hout hn

theorem InputNode.congr (r r' : Rules) (hout : r.output = r'.output)
    (h : (Schema.mk r ps i a).Everywhere (InputNode lib)) : (Schema.mk r' ps i a).Everywhere (InputNode lib) := by
  cases h with
  | mk node properties items additional =>
    have hregular := node.regular
    exact .mk ⟨⟨hregular.distinct, hregular.defaults, hregular.others⟩, hout.symm.trans node.input⟩ properties items
      additional

/-- The declared values of a node have numbers that it keeps as they are. -/
structure Owned (s : Schema) : Prop where
  member : ∀ vs ∈ s.rules.enum, ∀ e ∈ vs, EveryNumber Fixed s e
  constant : ∀ c ∈ s.rules.const, EveryNumber Fixed s c

theorem owned_free : Owned .free := ⟨nofun, nofun⟩

theorem CompiledNode.owned {input : Bool} (h : CompiledNode lib input s) (hs : s.Everywhere (InputNode lib)) :
    Owned s := by
  cases h with
  | file h => exact ⟨nofun, nofun⟩
  | @node r ps i a enum const default base declared =>
    constructor
    · intro vs hvs e he
      have hbase := InputNode.congr { r with enum, const, default } r rfl hs
      exact (declared.member vs hvs e he).fixed r { r with enum, const, default } rfl rfl hbase
    · intro c hc
      have hbase := InputNode.congr { r with enum, const, default } { r with enum } rfl hs
      exact (declared.constant c hc).fixed { r with enum } { r with enum, const, default } rfl rfl hbase

/-- The limits of a policy change no position of a number. -/
theorem hasNumber_resolve {P : Rules → Number → Prop} (hfile : ∀ {r n} file, P { r with file } n → P r n)
    (h : resolveFileLimits max s = .ok s') (hv : HasNumber P s' v) : HasNumber P s v := by
  induction s generalizing s' v with
  | mk r ps i a hps hi ha =>
    obtain ⟨file, ps', i', rfl, -, hps', hi'⟩ := resolveFileLimits_eq_ok h
    obtain ⟨hnames, hall⟩ := resolveProperties_eq_ok hps'
    cases hv with
    | here hn => exact .here (hfile file hn)
    | @property _ _ _ _ fs k t x ht hx hn =>
      obtain ⟨u, hu, hut⟩ := hall _ ht
      exact .property hu hx (hps _ hu hut hn)
    | other hk hx hn =>
      rw [hnames] at hk
      exact .other hk hx hn
    | item hx hn =>
      refine .item hx ?_
      cases i with
      | none =>
        cases hi'
        exact hn
      | some u =>
        rw [resolveItems, except_bind_eq_ok] at hi'
        obtain ⟨u', hu, hi'⟩ := hi'
        cases hi'
        exact hi u rfl hu hn

theorem owned_resolve (hs : s.Everywhere Owned) (h : resolveFileLimits max s = .ok s') : s'.Everywhere Owned := by
  induction s generalizing s' with
  | mk r ps i a hps hi ha =>
    have hnumbers {e : Value} (he : EveryNumber Fixed (.mk r ps i a) e) : EveryNumber Fixed s' e := by
      refine fun hn => he (hasNumber_resolve ?_ h hn)
      intro r n file hn hfixed
      exact hn (fixed_congr r { r with file } rfl rfl hfixed)
    obtain ⟨file, ps', i', rfl, -, hps', hi'⟩ := resolveFileLimits_eq_ok h
    obtain ⟨-, hall⟩ := resolveProperties_eq_ok hps'
    cases hs with
    | mk node properties items additional =>
      refine .mk ⟨fun vs hvs e he => hnumbers (node.member vs hvs e he), fun c hc => hnumbers (node.constant c hc)⟩
        (fun q' hq' => ?_) (fun t ht => ?_) additional
      · obtain ⟨t, ht, hq⟩ := hall q' hq'
        exact hps _ ht (properties _ ht) hq
      · cases i with
        | none =>
          cases hi'
          cases ht
        | some u =>
          rw [resolveItems, except_bind_eq_ok] at hi'
          obtain ⟨u', hu, hi'⟩ := hi'
          cases hi'
          cases ht
          exact hi u rfl (items u rfl) hu

theorem InputSchema.inputNode (h : InputSchema lib s) : s.Everywhere (InputNode lib) :=
  (everywhere_and h.regular h.input).imp fun _ ht => ⟨ht.1, ht.2.1⟩

theorem InputSchema.owned (h : InputSchema lib s) : s.Everywhere Owned := by
  obtain ⟨m, t, ht, hst⟩ := h
  have hinput : InputSchema lib t := ⟨m, t, ht, .inl rfl⟩
  have howned : t.Everywhere Owned :=
    (everywhere_and (compileSchema_eq_ok ht) hinput.inputNode).imp fun u hu => hu.1.owned hu.2.2
  rcases hst with rfl | ⟨max, hmax⟩
  · exact howned
  · exact owned_resolve howned hmax

/-! ### A value read twice equals the declared values it equals when read once -/

/-- A number that becomes an `int64` when it is read again is below a million if it equals a declared one, and prints
the same way then. -/
theorem alike_readNumber_again {k e : Number} {t : JType} (hn : normalizeNumber r n = .ok (t, k))
    (ht : wrongType r t = false) (he : Fixed r e) (h : Alike (.num k) (.num e)) :
    Alike (.num (readNumber r k)) (.num e) := by
  by_cases hslip : Slips r n
  · obtain ⟨i, hi, hne⟩ := normalizeNumber_slip hn hslip
    have hkept := kept_of_normalizeNumber hn ht
    rcases normalizeNumber_eq_ok.mp hi with ⟨hint, j, hj, -, hij⟩ | ⟨-, hc, -⟩
    swap
    · cases hc
    obtain rfl := Number.int64.inj hij
    have hvalue : Leaf.data (.num k) = some (i.toInt : ℚ) := Number.value_exactInteger hj
    obtain ⟨hsame, hlarge⟩ := (alike_num_iff hkept he.kept).mp h
    rw [readNumber, hi]
    refine (alike_num_iff (.inl ⟨i, rfl, .inr (.inl hint)⟩) he.kept).mpr ⟨?_, ?_⟩
    · have hik : SameData (.num (.int64 i)) (.num k) := (Json.same_leaf_of_some (data_int64 i) hvalue).mpr rfl
      exact hik.trans hsame
    · rintro ⟨hl, hplain⟩
      rcases he.kept with ⟨j, rfl, -⟩ | ⟨y, q, rfl, hq, -⟩
      · exact hplain rfl
      · -- a declared float of this value would have been kept as an integer
        have hbound : |i.toInt| ≤ 2 ^ 53 := by
          rcases hkept with ⟨j, rfl, -⟩ | ⟨x, _, rfl, -, -⟩
          · exact absurd (congrArg Number.int64 (Option.some.inj hj)) hne
          · exact (Number.exactInteger_float.mp hj).2
        have hqi : (i.toInt : ℚ) = q := (Json.same_leaf_of_some (f := Leaf.data) hvalue (data_float hq)).mp hsame
        have hexact := Number.exactInteger_float.mpr ⟨hqi.symm ▸ hq, hbound⟩
        obtain ⟨-, t', hfixed, -⟩ := he
        rcases normalizeNumber_eq_ok.mp hfixed with ⟨-, j, -, -, hc⟩ | ⟨hnot, -⟩
        · cases hc
        · rw [(hnot hint).1] at hexact
          cases hexact
  · rw [readNumber, normalizeNumber_idem hn hslip]
    exact h

variable {m : Mode}

/-- Reading an accepted value again leaves it equal to the declared values of which it equals one. -/
theorem alike_read {e : Value} (hs : s.Everywhere (Regular lib)) (ha : Accepts lib m s p v)
    (he : EveryNumber Fixed s e)
    (h : Alike (read m.defaults s v) e) : Alike (read m.defaults s (read m.defaults s v)) e := by
  induction s, v using Schema.induct_below generalizing p e with
  | step r ps i a v hps hi hother =>
    cases hs with
    | mk node properties items additional =>
      cases v with
      | leaf l =>
        cases l with
        | num n =>
          have hf := file_eq_none ha (by simp) (by simp)
          obtain ⟨t, k, hn, ht, -⟩ := (accepts_num hf).mp ha
          have hread : read m.defaults (.mk r ps i a) (.num n) = .num k := by rw [read, readNumber, hn]
          rw [hread] at h ⊢
          rw [read]
          cases e with
          | leaf l =>
            cases l with
            | num e => exact alike_readNumber_again hn ht (everyNumber_num.mp he) h
            | file x =>
              obtain ⟨u, -, hu⟩ := h
              cases hu
          | _ => cases h.shape_eq
        | file x => exact h
      | arr xs =>
        have hf := file_eq_none ha (by simp) (by simp)
        rw [read_arr] at h ⊢
        obtain ⟨ys, rfl, hys⟩ := h.arr_left
        rw [read_arr, Alike, Json.same_arr, List.forall₂_map_left_iff]
        rw [List.forall₂_map_left_iff] at hys ⊢
        refine Json.forall₂_congr_mem (fun x hx y hy hxy => ?_) hys
        obtain ⟨n, hax⟩ := accepts_item hf ha hx
        exact hi x hx (everywhere_below (regular_free lib) items) hax (everyNumber_arr.mp he y hy) hxy
      | obj fs =>
        have hf := file_eq_none ha (by simp) (by simp)
        obtain ⟨-, -, -, hacc, -⟩ := (accepts_obj hf).mp ha
        obtain ⟨gs, hread, hgs⟩ := membersRead m.defaults ps node.distinct r i a fs
        obtain ⟨gs', hread', hgs'⟩ := membersRead m.defaults ps node.distinct r i a gs
        rw [hread] at h ⊢
        rw [hread']
        obtain ⟨es, rfl, hrel⟩ := h.obj_left
        have hrel' (k : String) : Option.Rel Alike (Fields.get k gs') (Fields.get k es) := by
          have hk := hrel k
          by_cases hmem : k ∈ ps.map Prod.fst
          · obtain ⟨q, hq, rfl⟩ := List.mem_map.mp hmem
            rw [hgs.property q hq, Json.rel_map_left] at hk
            rw [hgs'.property q hq, hgs.propertyValue hq, Json.rel_map_left, Json.rel_map_left]
            refine Json.rel_congr_mem (fun x hx y hy hxy => ?_) hk
            have hey := (everyNumber_obj.mp he _ (Fields.mem_of_get hy)).1 q hq rfl
            exact hps q hq x (properties q hq) (hacc q hq x hx) hey hxy
          · rw [hgs.other k hmem, Json.rel_map_left] at hk
            rw [hgs'.other k hmem, hgs.other k hmem, Json.rel_map_left, Json.rel_map_left]
            refine Json.rel_congr_mem (fun x hx y hy hxy => ?_) hk
            have hey := (everyNumber_obj.mp he _ (Fields.mem_of_get hy)).2 hmem
            exact hother x (List.mem_map_of_mem (f := Prod.snd) (Fields.mem_of_get hx))
              (everywhere_below (regular_free lib) additional) (accepts_other hf ha hmem hx) hey hxy
        have hself : ∀ x ∈ gs', Alike x.2 x.2 := by
          intro x hx
          obtain ⟨y, -, hy⟩ := Json.rel_some_left (hrel' x.1) (Fields.get_of_mem hgs'.sorted.nodup hx)
          exact hy.left
        exact Json.same_obj.mpr ⟨hself, (Json.same_obj.mp h).2.1, hrel'⟩
      | _ => exact h

/-- What an accepted value equals when it is read, it equals when it is read again. -/
theorem validateEnumConst_read (hs : s.Everywhere (Regular lib)) (howned : Owned s) (ha : Accepts lib m s p v)
    (h : validateEnumConst s.rules (read m.defaults s v) = none) :
    validateEnumConst s.rules (read m.defaults s (read m.defaults s v)) = none := by
  obtain ⟨hmember, hconstant⟩ := validateEnumConst_eq_none.mp h
  refine validateEnumConst_eq_none.mpr ⟨fun vs hvs => ?_, fun c hc => ?_⟩
  · obtain ⟨e, he, heq⟩ := hmember vs hvs
    refine ⟨e, he, equalJSON_iff_alike.mpr ?_⟩
    exact alike_read hs ha (howned.member vs hvs e he) (equalJSON_iff_alike.mp heq)
  · apply equalJSON_iff_alike.mpr
    exact alike_read hs ha (howned.constant c hc) (equalJSON_iff_alike.mp (hconstant c hc))

/-- A slipped number is accepted again: it is an integer of the same value. -/
theorem accepts_read_num (hf : r.file = none) (hs : (Schema.mk r ps i a).Everywhere (Regular lib))
    (howned : Owned (.mk r ps i a)) (ha : Accepts lib m (.mk r ps i a) p (.num n)) :
    Accepts lib m (.mk r ps i a) p (read m.defaults (.mk r ps i a) (.num n)) := by
  by_cases hslip : Slips r n
  · obtain ⟨t, k, hn, ht, hb, he⟩ := (accepts_num hf).mp ha
    have hread : read m.defaults (.mk r ps i a) (.num n) = .num k := by rw [read, readNumber, hn]
    obtain ⟨j, hj, -⟩ := normalizeNumber_slip hn hslip
    have hread' : read m.defaults (.mk r ps i a) (.num k) = .num (.int64 j) := by rw [read, readNumber, hj]
    have he' := validateEnumConst_read hs howned ha (by rw [hread]; exact he)
    rw [hread, hread'] at he'
    rw [hread]
    refine (accepts_num hf).mpr ⟨.integer, .int64 j, hj, ?_, ?_, he'⟩
    · simp [wrongType, hslip.1]
    · rcases normalizeNumber_eq_ok.mp hj with ⟨-, i', hi', -, hij⟩ | ⟨-, hc, -⟩
      · obtain rfl := Number.int64.inj hij
        have hvalue : numberRat (.int64 j) = numberRat k := by
          rw [numberRat, numberRat, Number.value_exactInteger hi']
          rfl
        unfold outsideBounds at hb ⊢
        rw [hvalue]
        exact hb
      · cases hc
  · exact (reread_num hf hslip ha).accepts

/-- The value that validation returns is accepted by the schema. -/
theorem accepts_read (hs : s.Everywhere (Regular lib)) (howned : s.Everywhere Owned) (ha : Accepts lib m s p v) :
    Accepts lib m s p (read m.defaults s v) := by
  induction s, v using Schema.induct_below generalizing p with
  | step r ps i a v hps hi hother =>
    cases hs with
    | mk node properties items additional =>
      have hs' : (Schema.mk r ps i a).Everywhere (Regular lib) := .mk node properties items additional
      cases howned with
      | mk own properties' items' additional' =>
        by_cases hnull : v = .null
        · subst hnull
          exact ha
        cases hf : r.file with
        | some f =>
          obtain ⟨x, rfl, -⟩ := (accepts_of_file hf hnull).mp ha
          exact ha
        | none =>
          cases v with
          | null => exact absurd rfl hnull
          | bool b => exact ha
          | str x => exact ha
          | leaf l =>
            cases l with
            | file x => exact ha
            | num n => exact accepts_read_num hf hs' own ha
          | arr xs =>
            obtain ⟨-, -, hitems, he⟩ := (accepts_arr hf).mp ha
            refine accepts_read_arr hf (fun x hx => ?_) (validateEnumConst_read hs' own ha he) ha
            exact hi x.1 (List.fst_mem_of_mem_zipIdx hx) (everywhere_below (regular_free lib) items)
              (everywhere_below owned_free items') (hitems x hx)
          | obj fs =>
            obtain ⟨-, -, -, hacc, -, he⟩ := (accepts_obj hf).mp ha
            refine accepts_read_obj hf node.distinct (fun q hq x hx => ?_) (fun k x hk hx => ?_)
              (validateEnumConst_read hs' own ha he) ha
            · exact hps q hq x (properties q hq) (properties' q hq) (hacc q hq x hx)
            · exact hother x (List.mem_map_of_mem (f := Prod.snd) (Fields.mem_of_get hx))
                (everywhere_below (regular_free lib) additional) (everywhere_below owned_free additional')
                (accepts_other hf ha hk hx)

end

end Onprest.Contract
