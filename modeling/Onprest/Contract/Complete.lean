import Onprest.Lib.JsonSame
import Onprest.Contract.Settled

/-! Declared values completed with defaults: when a compiled constant or enum member is accepted again with defaults
enabled. -/

namespace Onprest.Contract
open Lib

/-! ### Completion -/

mutual
/-- A value with the declared defaults filled in and nothing else changed. -/
def complete : Schema → Value → Value
  | .mk _ ps i a, v =>
    match v with
    | .arr xs => .arr (xs.map fun x => completeBelow i x)
    | .obj fs => .obj (Fields.ofList (completeProperties fs ps ++
        (otherMembers (ps.map Prod.fst) fs).map fun f => (f.1, completeBelow a f.2)))
    | v => v
def completeProperties (fs : List (String × Value)) : List (String × Schema) → List (String × Value)
  | [] => []
  | (k, s) :: ps =>
    match Fields.get k fs, s.rules.default with
    | some x, _ => (k, complete s x) :: completeProperties fs ps
    | none, some d => (k, d) :: completeProperties fs ps
    | none, none => completeProperties fs ps
def completeBelow : Option Schema → Value → Value
  | some s, v => complete s v
  | none, v => v
end

theorem propertyValue_false (fs : List (String × Value)) (k : String) (s : Schema) :
    propertyValue false fs k s = Fields.get k fs := Option.or_none

theorem completeProperties_eq (fs : List (String × Value)) (ps : List (String × Schema)) :
    completeProperties fs ps =
      ps.filterMap fun q => (((Fields.get q.1 fs).map (complete q.2)).or q.2.rules.default).map (q.1, ·) := by
  induction ps with
  | nil => rfl
  | cons q ps ih =>
    rw [completeProperties, List.filterMap_cons, ih]
    cases Fields.get q.1 fs with
    | some x => rfl
    | none => cases q.2.rules.default <;> rfl

/-- `gs` are the members of a completed object. -/
abbrev MembersComplete (ps : List (String × Schema)) (a : Option Schema) (fs gs : List (String × Value)) : Prop :=
  Members ps (fun k s => ((Fields.get k fs).map (complete s)).or s.rules.default) (completeBelow a) fs gs

theorem membersComplete (ps : List (String × Schema)) (hps : (ps.map Prod.fst).Nodup) (r : Rules)
    (i a : Option Schema) (fs : List (String × Value)) :
    ∃ gs, complete (.mk r ps i a) (.obj fs) = .obj gs ∧ MembersComplete ps a fs gs :=
  ⟨_, by rw [complete, completeProperties_eq], members hps _ _ fs⟩

section
variable {lib : Library}

variable {ps : List (String × Schema)} {a : Option Schema} {x : Value}

theorem MembersRead.read_of_get {fs : List (String × Value)} (h : MembersRead false ps a fs fs) {k : String}
    (hx : Fields.get k fs = some x) :
    (∀ s, (k, s) ∈ ps → read false s x = x) ∧ (k ∉ ps.map Prod.fst → read false (below a) x = x) := by
  constructor
  · intro s hs
    have hget := h.property _ hs
    rw [Contract.propertyValue, hx] at hget
    exact (Option.some.inj hget).symm
  · intro hk
    have hget := h.other k hk
    rw [hx] at hget
    exact (Option.some.inj hget).symm

theorem read_item {r : Rules} {i : Option Schema} {xs : List Value}
    (h : read false (.mk r ps i a) (.arr xs) = .arr xs) (hx : x ∈ xs) : read false (below i) x = x := by
  rw [read_arr] at h
  have hmap : xs.map (read false (below i)) = xs.map id := by
    rw [List.map_id]
    exact Json.arr.inj h
  exact List.map_inj_left.mp hmap x hx

/-- Reading with defaults only completes a value that reading without them leaves alone. -/
theorem read_eq_complete {s : Schema} {v : Value} (hs : s.Everywhere (Regular lib)) (hv : read false s v = v) :
    read true s v = complete s v := by
  induction s generalizing v with
  | mk r ps i a hps hi ha =>
    cases hs with
    | mk node properties items additional =>
      have hbelow (o : Option Schema) (ho : ∀ s ∈ o, ∀ x, read false s x = x →
        read true s x = complete s x) {x : Value}
          (hx : read false (below o) x = x) : read true (below o) x = completeBelow o x := by
        cases o with
        | none =>
          rw [below, Option.getD_none, read_free] at hx ⊢
          exact hx
        | some s => exact ho s rfl x hx
      cases v with
      | leaf l =>
        cases l with
        | num n =>
          rw [read] at hv ⊢
          exact hv
        | file x => rfl
      | arr xs =>
        rw [read_arr, complete]
        refine congrArg Json.arr (List.map_congr_left fun x hx => ?_)
        exact hbelow i (fun s hs x hx => hi s hs (items s hs) hx) (read_item hv hx)
      | obj fs =>
        obtain ⟨gs, hread, hgs⟩ := membersRead true ps node.distinct r i a fs
        obtain ⟨gs', hcomplete, hgs'⟩ := membersComplete ps node.distinct r i a fs
        obtain ⟨fs', hread', hfs⟩ := membersRead false ps node.distinct r i a fs
        obtain rfl := Json.obj.inj (hread'.symm.trans hv)
        rw [hread, hcomplete]
        refine congrArg Json.obj (hgs.sorted.ext hgs'.sorted fun k => ?_)
        by_cases hk : k ∈ ps.map Prod.fst
        · obtain ⟨q, hq, rfl⟩ := List.mem_map.mp hk
          rw [hgs.property q hq, hgs'.property q hq, propertyValue]
          cases hget : Fields.get q.1 fs' with
          | some x => exact congrArg some (hps q hq (properties q hq) ((hfs.read_of_get hget).1 q.2 hq))
          | none =>
            cases hd : q.2.rules.default with
            | none => rfl
            | some d => exact congrArg some (node.defaults q hq d hd).2.1
        · rw [hgs.other k hk, hgs'.other k hk]
          refine Option.map_congr fun x hx => ?_
          exact hbelow a (fun s hs x hx => ha s hs (additional s hs) hx) ((hfs.read_of_get hx).2 hk)
      | _ => rfl

end

/-! ### Completion and canonical text -/

/-- Two values print alike. -/
abbrev Alike (v w : Value) : Prop := Json.Same Leaf.canonical v w

variable {v w : Value}

theorem equalJSON_iff_alike : equalJSON v w = true ↔ Alike v w := equalJSON_iff

theorem Alike.equalJSON_eq (h : Alike v w) (x : Value) : equalJSON v x = equalJSON w x := by
  rw [Bool.eq_iff_iff, equalJSON_iff_alike, equalJSON_iff_alike]
  exact ⟨h.symm.trans, h.trans⟩

/-- Values that print alike equal the same declared values. -/
theorem Alike.validateEnumConst_eq (h : Alike v w) (r : Rules) : validateEnumConst r v = validateEnumConst r w := by
  have heq : equalJSON v = equalJSON w := funext h.equalJSON_eq
  unfold validateEnumConst
  simp only [heq]

/-- A settled value has a canonical text. -/
theorem Settled.alike (h : Settled v) : Alike v v := by
  induction h with
  | null | bool b | str s | int64 n | float h => exact ⟨_, rfl, rfl⟩
  | arr h ih => exact Json.same_arr.mpr (List.forall₂_same.mpr ih)
  | obj hs h ih =>
    refine Json.same_obj.mpr ⟨ih, ih, fun k => ?_⟩
    cases hget : Fields.get k _ with
    | none => exact .none
    | some x => exact .some (ih _ (Fields.mem_of_get hget))

theorem settled_readNumber (r : Rules) {n : Number} (h : Settled (.num n)) : Settled (.num (readNumber r n)) := by
  unfold readNumber
  split
  · rename_i t k hk
    have hfloat {f : Float64} (hf : n.finiteNumber = some f) : Settled (.num (.float f)) := by
      cases h with
      | int64 i =>
        obtain ⟨q, hq, rfl⟩ := finite_of_ofInt hf
        exact .float hq
      | float h =>
        change some _ = some f at hf
        cases hf
        exact .float h
    rcases normalizeNumber_eq_ok.mp hk with ⟨-, i, -, -, rfl⟩ | ⟨-, -, hk⟩
    · exact .int64 i
    · rcases normalizeFloat_eq_ok hk with ⟨i, rfl, -⟩ | ⟨f, hf, rfl⟩
      · exact .int64 i
      · exact hfloat hf
  · exact h

section
variable {lib : Library}

variable {s : Schema} {v w : Value} {m : Mode} {p : String} {r : Rules}

/-- Reading without defaults keeps a value settled. -/
theorem settled_read (hs : s.Everywhere (Regular lib)) (hv : Settled v) : Settled (read false s v) := by
  induction s, v using Schema.induct_below with
  | step r ps i a v hps hi ha =>
    cases hs with
    | mk node properties items additional =>
      cases hv with
      | null => exact .null
      | bool b => exact .bool b
      | str s => exact .str s
      | int64 n => exact settled_readNumber r (.int64 n)
      | float h => exact settled_readNumber r (.float h)
      | arr h =>
        rw [read_arr]
        refine .arr fun y hy => ?_
        obtain ⟨x, hx, rfl⟩ := List.mem_map.mp hy
        exact hi x hx (everywhere_below (regular_free lib) items) (h x hx)
      | @obj fs hsorted h =>
        obtain ⟨gs, hread, hgs⟩ := membersRead false ps node.distinct r i a fs
        rw [hread]
        refine .obj hgs.sorted fun g hg => ?_
        have hget := Fields.get_of_mem hgs.sorted.nodup hg
        by_cases hk : g.1 ∈ ps.map Prod.fst
        · obtain ⟨q, hq, hqk⟩ := List.mem_map.mp hk
          rw [← hqk, hgs.property q hq] at hget
          obtain ⟨x, hx, hxg⟩ := Option.map_eq_some_iff.mp hget
          rw [propertyValue_false] at hx
          rw [← hxg]
          exact hps q hq x (properties q hq) (h _ (Fields.mem_of_get hx))
        · obtain ⟨x, hx, hxg⟩ := hgs.of_mem hg hk
          rw [hxg]
          exact ha x (List.mem_map_of_mem (Fields.mem_of_get hx)) (everywhere_below (regular_free lib) additional)
            (h _ (Fields.mem_of_get hx))

/-- The value is accepted without defaults, and returned as it is. -/
structure Stays (lib : Library) (s : Schema) (v : Value) : Prop where
  accepts : ∃ p, Accepts lib { defaults := false } s p v
  read : read false s v = v

section Stays
variable {r : Rules} {ps : List (String × Schema)} {i a : Option Schema}

theorem Stays.item {xs : List Value} (h : Stays lib (.mk r ps i a) (.arr xs)) {x : Value} (hx : x ∈ xs) :
    Stays lib (below i) x := by
  obtain ⟨⟨p, ha⟩, hread⟩ := h
  obtain ⟨n, hax⟩ := accepts_item (file_eq_none ha nofun nofun) ha hx
  exact ⟨⟨_, hax⟩, read_item hread hx⟩

variable {fs : List (String × Value)}

theorem Stays.member (hps : (ps.map Prod.fst).Nodup) (h : Stays lib (.mk r ps i a) (.obj fs))
    {k : String} {x : Value} (hx : Fields.get k fs = some x) :
    (∀ s, (k, s) ∈ ps → Stays lib s x) ∧ (k ∉ ps.map Prod.fst → Stays lib (below a) x) := by
  obtain ⟨⟨p, ha⟩, hread⟩ := h
  have hf := file_eq_none ha nofun nofun
  obtain ⟨gs, hgs, hmembers⟩ := membersRead false ps hps r i a fs
  obtain rfl := Json.obj.inj (hgs.symm.trans hread)
  have hreads := hmembers.read_of_get hx
  constructor
  · intro s hs
    exact ⟨⟨_, accepts_property hf ha hs hx⟩, hreads.1 s hs⟩
  · intro hk
    exact ⟨⟨_, accepts_other hf ha hk hx⟩, hreads.2 hk⟩

theorem Stays.nodup (hps : (ps.map Prod.fst).Nodup) (h : Stays lib (.mk r ps i a) (.obj fs)) :
    (fs.map Prod.fst).Nodup := by
  obtain ⟨gs, hgs, hmembers⟩ := membersRead false ps hps r i a fs
  obtain rfl := Json.obj.inj (hgs.symm.trans h.read)
  exact hmembers.sorted.nodup

end Stays

/-- Where nothing is declared, a value without files is accepted in one mode if it is in another. -/
theorem accepts_free {m' : Mode} {p' : String} (h : Accepts lib m .free p v) : Accepts lib m' .free p' v := by
  have hlimit : Accepts lib { m with fileLimit := m'.fileLimit } .free p' v := accepts_of_hasFiles (by rfl) rfl h
  obtain ⟨w, ls, hlimit⟩ := hlimit
  rw [validate_free, ← validate_free lib m'] at hlimit
  exact ⟨w, ls, hlimit⟩

/-- A value whose completion prints like another one is accepted with defaults, if both stay as they are without. -/
theorem accepts_completed {x y : Value} (hs : s.Everywhere (Regular lib)) (hx : Stays lib s x) (hy : Stays lib s y)
    (hxy : Alike (complete s x) y) (hm : m.defaults = true) : Accepts lib m s p x := by
  induction s generalizing x y p with
  | mk r ps i a hps hi ha =>
    have hread := read_eq_complete hs hx.read
    have hcheck := hxy.validateEnumConst_eq r
    obtain ⟨p₀, hax⟩ := hx.accepts
    obtain ⟨p₁, hay⟩ := hy.accepts
    cases hs with
    | mk node properties items additional =>
      have hbelow (o : Option Schema) (ho : ∀ s ∈ o, ∀ x y p, Stays lib s x → Stays lib s y →
        Alike (complete s x) y →
          Accepts lib m s p x) {x y : Value} {p : String} (hx : Stays lib (below o) x) (hy : Stays lib (below o) y)
          (hxy : Alike (completeBelow o x) y) : Accepts lib m (below o) p x := by
        cases o with
        | some s => exact ho s rfl x y p hx hy hxy
        | none =>
          obtain ⟨_, hax⟩ := hx.accepts
          exact accepts_free hax
      cases x with
      | null => exact accepts_null.mpr (accepts_null.mp hax)
      | leaf l =>
        cases l with
        | file f =>
          obtain ⟨u, hu, -⟩ := hxy
          cases hu
        | num n =>
          have hf := file_eq_none hax nofun nofun
          exact (accepts_num hf).mpr ((accepts_num hf).mp hax)
      | bool b =>
        have hf := file_eq_none hax nofun nofun
        exact (accepts_bool hf).mpr ((accepts_bool hf).mp hax)
      | str t =>
        have hf := file_eq_none hax nofun nofun
        exact (accepts_str hf).mpr ((accepts_str hf).mp hax)
      | arr xs =>
        have hf := file_eq_none hax nofun nofun
        obtain ⟨ht, hl, -, -⟩ := (accepts_arr hf).mp hax
        obtain ⟨ys, rfl, hall⟩ := hxy.arr_left
        refine (accepts_arr hf).mpr ⟨ht, hl, fun z hz => ?_, ?_⟩
        · rw [List.forall₂_map_left_iff] at hall
          have hmem := List.fst_mem_of_mem_zipIdx hz
          obtain ⟨w, hw, hzw⟩ := Json.forall₂_exists_right hall hmem
          exact hbelow i (fun s hs x y p hx hy hxy => hi s hs (items s hs) hx hy hxy) (hx.item hmem) (hy.item hw) hzw
        · rw [hm, hread, hcheck, ← hy.read]
          exact ((accepts_arr hf).mp hay).2.2.2
      | obj fs =>
        have hf := file_eq_none hax nofun nofun
        obtain ⟨ht, hu, hreq, -⟩ := (accepts_obj hf).mp hax
        obtain ⟨cs, hcomplete, hcs⟩ := membersComplete ps node.distinct r i a fs
        have hxy' := hxy
        rw [hcomplete] at hxy'
        obtain ⟨gs, rfl, hall⟩ := hxy'.obj_left
        refine (accepts_obj hf).mpr ⟨ht, hu, fun q hq hnone => ?_, fun q hq x hqx => ?_, fun f hmem => ?_, ?_⟩
        · refine hreq q hq ?_
          rw [propertyValue, Option.or_eq_none_iff] at hnone
          rw [propertyValue_false]
          exact hnone.1
        · rw [hm, Option.mem_def, propertyValue] at hqx
          cases hget : Fields.get q.1 fs with
          | none =>
            rw [hget, Option.none_or] at hqx
            exact (node.defaults q hq x hqx).2.2 m _ hm
          | some z =>
            rw [hget, Option.some_or] at hqx
            obtain rfl := Option.some.inj hqx
            have hcget : Fields.get q.1 cs = some (complete q.2 z) := by
              rw [hcs.property q hq, hget, Option.map_some, Option.some_or]
            obtain ⟨w, hw, hzw⟩ := Json.rel_some_left (hall q.1) hcget
            exact hps q hq (properties q hq) ((hx.member node.distinct hget).1 q.2 hq)
              ((hy.member node.distinct hw).1 q.2 hq) hzw
        · obtain ⟨hmem, hk⟩ := List.mem_filter.mp hmem
          have hk : f.1 ∉ ps.map Prod.fst := by simpa using hk
          have hget : Fields.get f.1 fs = some f.2 := Fields.get_of_mem (hx.nodup node.distinct) hmem
          have hcget : Fields.get f.1 cs = some (completeBelow a f.2) := by
            rw [hcs.other f.1 hk, hget, Option.map_some]
          obtain ⟨w, hw, hzw⟩ := Json.rel_some_left (hall f.1) hcget
          exact hbelow a (fun s hs x y p hx hy hxy => ha s hs (additional s hs) hx hy hxy)
            ((hx.member node.distinct hget).2 hk) ((hy.member node.distinct hw).2 hk) hzw
        · rw [hm, hread, hcheck, ← hy.read]
          exact ((accepts_obj hf).mp hay).2.2.2.2.2

/-! ### Declared values -/

/-- The declared values of a schema are accepted at its position: the constant, or else every member of the enum. -/
def Usable (lib : Library) (s : Schema) : Prop :=
  ∀ m p, m.defaults = true → (∀ c ∈ s.rules.const, Accepts lib m s p c) ∧
    (s.rules.const = none → ∀ vs ∈ s.rules.enum, ∀ e ∈ vs, Accepts lib m s p e)

/-- The declared values of a schema are closed under completion: the constant is complete, or else every member of
the enum completes to a member. -/
def Closed (s : Schema) : Prop :=
  (∀ c ∈ s.rules.const, equalJSON (complete s c) c = true) ∧
    (s.rules.const = none → ∀ vs ∈ s.rules.enum, ∀ e ∈ vs, ∃ e' ∈ vs, equalJSON (complete s e) e' = true)

instance (s : Schema) : Decidable (Closed s) := inferInstanceAs (Decidable (_ ∧ _))

theorem Regular.congr {r' : Rules} {ps : List (String × Schema)} {i a : Option Schema}
    (h : (Schema.mk r ps i a).Everywhere (Regular lib)) : (Schema.mk r' ps i a).Everywhere (Regular lib) := by
  cases h with
  | mk node properties items additional =>
    exact .mk ⟨node.distinct, node.defaults, node.others⟩ properties items additional

/-- What is kept of a configuration value stays. -/
theorem Keeps.stays (hs : s.Everywhere (Regular lib)) (hw : Keeps lib false s w) : Stays lib s w := by
  obtain ⟨v, ha, rfl⟩ := hw
  have hre := reread hs (settled_plain v).not_hasSlip ha
  exact ⟨⟨"", hre.accepts⟩, hre.read_read⟩

theorem Keeps.alike (hs : s.Everywhere (Regular lib)) (hw : Keeps lib false s w) : Alike w w := by
  obtain ⟨v, -, rfl⟩ := hw
  exact (settled_read hs (settled_plain v)).alike

theorem validateEnumConst_eq_none : validateEnumConst r v = none ↔
    (∀ vs ∈ r.enum, ∃ e ∈ vs, equalJSON v e = true) ∧ ∀ c ∈ r.const, equalJSON v c = true := by
  have henum : (r.enum.any fun vs => !vs.any (equalJSON v)) = false ↔ ∀ vs ∈ r.enum, ∃ e ∈ vs,
      equalJSON v e = true := by
    cases r.enum <;> simp
  have hconst : (r.const.any fun c => !equalJSON v c) = false ↔ ∀ c ∈ r.const, equalJSON v c = true := by
    cases r.const <;> simp
  unfold validateEnumConst
  rw [← henum, ← hconst]
  cases r.enum.any fun vs => !vs.any (equalJSON v) <;> cases r.const.any fun c => !equalJSON v c <;> simp

section Declared
variable {r : Rules} {ps : List (String × Schema)} {i a : Option Schema} {enum : Option (List Value)}
  {const default : Option Value}

theorem Base.not_letThrough {input : Bool} (base : Base input r ps i a) (hinput : input = true) :
    ¬ (v = .null ∧ r.nullable = true) := by
  rw [base.notNullable hinput]
  simp

variable {w : Value}

theorem stays_declared (base : Base true r ps i a) (enum : Option (List Value)) (const default : Option Value) :
    Stays lib (.mk { r with enum, const, default } ps i a) w ↔
      Stays lib (.mk r ps i a) w ∧ validateEnumConst { r with enum, const } w = none := by
  have haccepts (p : String) :
      Accepts lib { defaults := false } (.mk { r with enum, const, default } ps i a) p w ↔ _ :=
    accepts_declared base.noFile base.noEnum base.noConst enum const default
  have hread := read_congr { r with enum, const, default } r rfl rfl false ps i a w
  simp only [or_iff_right (base.not_letThrough rfl)] at haccepts
  constructor
  · rintro ⟨⟨p, ha⟩, hr⟩
    obtain ⟨hbase, hcheck⟩ := (haccepts p).mp ha
    rw [hread] at hr
    rw [hr] at hcheck
    exact ⟨⟨⟨p, hbase⟩, hr⟩, hcheck⟩
  · rintro ⟨⟨⟨p, ha⟩, hr⟩, hcheck⟩
    refine ⟨⟨p, (haccepts p).mpr ⟨ha, ?_⟩⟩, hread.trans hr⟩
    rw [hr]
    exact hcheck

/-- The constant of a node stays, and so does a member of its enum without a constant. -/
theorem Declared.stays (base : Base true r ps i a) (declared : Declared lib r ps i a enum const default)
    (hs : (Schema.mk { r with enum, const, default } ps i a).Everywhere (Regular lib)) :
    (∀ c ∈ const, Stays lib (.mk { r with enum, const, default } ps i a) c) ∧
      (const = none → ∀ vs ∈ enum, ∀ e ∈ vs, Stays lib (.mk { r with enum, const, default } ps i a) e) := by
  constructor
  · intro c hc
    have hkeeps := declared.constant c hc
    have halike := hkeeps.alike (Regular.congr hs)
    obtain ⟨hstays, hcheck⟩ := (stays_declared base enum r.const r.default).mp (hkeeps.stays (Regular.congr hs))
    refine (stays_declared base enum const default).mpr ⟨hstays, validateEnumConst_eq_none.mpr ⟨?_, ?_⟩⟩
    · exact (validateEnumConst_eq_none.mp hcheck).1
    · intro c' hc'
      obtain rfl := Option.mem_unique hc hc'
      exact equalJSON_iff_alike.mpr halike
  · rintro rfl vs hvs e he
    have hkeeps := declared.member vs hvs e he
    have halike := hkeeps.alike (Regular.congr hs)
    have hstays := hkeeps.stays (Regular.congr hs)
    refine (stays_declared base enum none default).mpr ⟨hstays, validateEnumConst_eq_none.mpr ⟨?_, nofun⟩⟩
    intro vs' hvs'
    obtain rfl := Option.mem_unique hvs hvs'
    exact ⟨e, he, equalJSON_iff_alike.mpr halike⟩

/-- A value that stays is accepted with defaults only if its completion is among the declared values. -/
theorem check_of_accepts (base : Base true r ps i a)
    (hs : (Schema.mk { r with enum, const, default } ps i a).Everywhere (Regular lib))
    (hw : Stays lib (.mk { r with enum, const, default } ps i a) w) (hm : m.defaults = true)
    (ha : Accepts lib m (.mk { r with enum, const, default } ps i a) p w) :
    validateEnumConst { r with enum, const } (complete (.mk { r with enum, const, default } ps i a) w) = none := by
  obtain ⟨-, hcheck⟩ := (accepts_declared base.noFile base.noEnum base.noConst enum const default).mp ha
  rw [read_congr r { r with enum, const, default } rfl rfl, hm, read_eq_complete hs hw.read] at hcheck
  exact hcheck.resolve_left (base.not_letThrough rfl)

theorem usable_iff_closed (hnode : CompiledNode lib true s) (hs : s.Everywhere (Regular lib)) :
    Usable lib s ↔ Closed s := by
  cases hnode with
  | file h => exact iff_of_true (fun m p hm => ⟨nofun, nofun⟩) ⟨nofun, nofun⟩
  | @node r ps i a enum const default base declared =>
    obtain ⟨hconst, hmember⟩ := declared.stays base hs
    constructor
    · intro h
      obtain ⟨husable, husable'⟩ := h { defaults := true } "" rfl
      constructor
      · intro c hc
        have hcheck := check_of_accepts base hs (hconst c hc) rfl (husable c hc)
        exact (validateEnumConst_eq_none.mp hcheck).2 c hc
      · intro hnone vs hvs e he
        have hcheck := check_of_accepts base hs (hmember hnone vs hvs e he) rfl (husable' hnone vs hvs e he)
        exact (validateEnumConst_eq_none.mp hcheck).1 vs hvs
    · rintro ⟨hclosed, hclosed'⟩ m p hm
      constructor
      · intro c hc
        exact accepts_completed hs (hconst c hc) (hconst c hc) (equalJSON_iff_alike.mp (hclosed c hc)) hm
      · intro hnone vs hvs e he
        obtain ⟨e', he', heq⟩ := hclosed' hnone vs hvs e he
        exact accepts_completed hs (hmember hnone vs hvs e he) (hmember hnone vs hvs e' he')
          (equalJSON_iff_alike.mp heq) hm

end Declared

theorem everywhere_and {P Q : Schema → Prop} (hp : s.Everywhere P) (hq : s.Everywhere Q) :
    s.Everywhere fun t => P t ∧ Q t ∧ t.Everywhere Q := by
  induction s with
  | mk r ps i a hps hi ha =>
    have hq' := hq
    cases hp with
    | mk node properties items additional =>
      cases hq' with
      | mk node' properties' items' additional' =>
        exact .mk ⟨node, node', hq⟩ (fun q hq => hps q hq (properties q hq) (properties' q hq))
          (fun s hs => hi s hs (items s hs) (items' s hs)) fun s hs => ha s hs (additional s hs) (additional' s hs)

/-- At every position of a compiled input schema, the declared values are accepted with defaults enabled exactly when
completing them leads to declared values. -/
theorem declared_usable_iff {m : RawMap} {s : Schema} {root passthrough : Bool}
    (h : compileSchema lib m true root passthrough = .ok s) :
    s.Everywhere fun t => Usable lib t ↔ Closed t := by
  have hcompiled := compileSchema_eq_ok h
  exact (everywhere_and hcompiled (regular hcompiled)).imp fun t ht => usable_iff_closed ht.1 ht.2.2

end

/-- The configuration of a position with an object constant and a property that has a default. -/
def constantRule (c : Raw) : Raw :=
  .obj [("type", .str "object"), ("const", c),
    ("properties", .obj [("b", .obj [("type", .str "integer"), ("default", .leaf (.int 1))])])]

/-- A constant that leaves the property to its default, and one that has it. -/
def constantRaw : RawMap where
  fields := [("properties", .obj [("a", constantRule (.obj [])),
    ("c", constantRule (.obj [("b", .leaf (.int 1))]))])]
  distinct := by decide

def constantProperty (c : Value) : Schema :=
  .mk { types := [.object], propertiesSet := true, const := some c }
    [("b", .mk { types := [.integer], default := some (.num (.int64 1)) } [] none none)] none none

def constantSchema : Schema :=
  .mk { types := [.object], propertiesSet := true }
    [("a", constantProperty (.obj [])), ("c", constantProperty (.obj [("b", .leaf (.num (.int64 1)))]))] none none

theorem constantSchema_compiled : compileSchema .bare constantRaw true true false = .ok constantSchema := rfl

/-- The constant that is complete is accepted at its position. -/
theorem declared_usable_iff_constant :
    compileSchema .bare constantRaw true true false = .ok constantSchema ∧
      Closed (constantProperty (.obj [("b", .leaf (.num (.int64 1)))])) ∧
      Usable .bare (constantProperty (.obj [("b", .leaf (.num (.int64 1)))])) := by
  have hclosed : Closed (constantProperty (.obj [("b", .leaf (.num (.int64 1)))])) := by decide +kernel
  have husable := declared_usable_iff constantSchema_compiled
  cases husable with
  | mk node properties items additional =>
    exact ⟨constantSchema_compiled, hclosed, ((properties _ (.tail _ (.head _))).here).mpr hclosed⟩

/-- The constant `{}` is rejected: the default makes it `{"b":1}` before it is compared. -/
theorem constant_not_usable :
    compileSchema .bare constantRaw true true false = .ok constantSchema ∧
      (constantProperty (.obj [])).rules.const = some (.obj []) ∧
      ¬ Accepts .bare { defaults := true } (constantProperty (.obj [])) "/a" (.obj []) ∧
      ¬ constantSchema.Everywhere (Usable .bare) := by
  have hrejected : ¬ Accepts .bare { defaults := true } (constantProperty (.obj [])) "/a" (.obj []) := by
    decide +kernel
  refine ⟨constantSchema_compiled, rfl, hrejected, fun h => ?_⟩
  cases h with
  | mk node properties items additional =>
    exact hrejected (((properties _ List.mem_cons_self).here { defaults := true } "/a" rfl).1 _ rfl)

end Onprest.Contract
