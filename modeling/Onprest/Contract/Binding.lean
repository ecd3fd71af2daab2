import Onprest.Contract.JsonInteger
import Onprest.Contract.Position
import Onprest.Contract.Satisfied

/-! JSON Pointers into the input of a request. A pointer is resolved against the schema when a capability is
compiled, against the value when a request runs, and against the schema again where a file of the request is stored;
validation builds the pointers of the files it finds. -/

namespace Onprest.Contract
open Lib

/-! ### The pointers of a binding -/

/-- `unescapePointer`. -/
def unescapePointer : List Char → Except String (List Char)
  | [] => .ok []
  | c :: cs =>
    if c ≠ '~' then (unescapePointer cs).map (c :: ·)
    else
      match cs with
      | '0' :: cs => (unescapePointer cs).map ('~' :: ·)
      | '1' :: cs => (unescapePointer cs).map ('/' :: ·)
      | _ => .error "invalid JSON Pointer escape"

/-- The parts of a pointer behind its first slash. -/
def pointerTokens (pointer : String) : List (List Char) := pointer.toList.tail.splitOn '/'

/-- The part of a pointer into an array: decimal digits without a leading zero. -/
def canonicalIndex (token : List Char) : Bool :=
  !(token = [] || token.length > 1 && token.head? = some '0') && token.all fun c => '0' ≤ c && c ≤ '9'

/-- The loop of `ResolvePointer`. -/
def resolveTokens (cur : Schema) (guaranteed : Bool) : List (List Char) → Except String (Schema × Bool)
  | [] => .ok (cur, guaranteed)
  | raw :: raws => do
    let token ← unescapePointer raw
    let guaranteed := guaranteed && !cur.rules.types.contains .null
    if cur.rules.types.contains .object then
      match Fields.get (String.ofList token) cur.properties with
      | none => .error "binding must reference a declared property"
      | some child =>
        resolveTokens child
          (guaranteed && (cur.rules.required.contains (String.ofList token) || child.rules.default.isSome)) raws
    else if cur.rules.types.contains .array then
      if !canonicalIndex token then .error "invalid binding array index"
      else
        match JsonInteger.parseInt token, cur.items with
        | some i, some items => resolveTokens items (guaranteed && cur.rules.minItems.getD 0 > i) raws
        | _, _ => .error "binding index has no declared item schema"
    else .error "binding traverses a scalar or unconstrained schema"

/-- `ResolvePointer`: the node of a position, and whether every accepted input has a value there. -/
def resolvePointer (s : Schema) (pointer : String) : Except String (Schema × Bool) :=
  if pointer = "" then .ok (s, true)
  else if pointer.toList.head? ≠ some '/' then .error "binding must be an RFC6901 JSON Pointer"
  else resolveTokens s true (pointerTokens pointer)

/-! ### The pointers of a selector -/

/-- `strings.ReplaceAll` of two characters by one. -/
def replaceAll (a b c : Char) : List Char → List Char
  | x :: y :: cs => if x = a ∧ y = b then c :: replaceAll a b c cs else x :: replaceAll a b c (y :: cs)
  | cs => cs

/-- The text of a part, as `pointerValue` reads it. -/
def plainToken (raw : List Char) : List Char := replaceAll '~' '0' '~' (replaceAll '~' '1' '/' raw)

/-- The loop of `pointerValue`; its only error is `none`. -/
def walkTokens (v : Value) : List (List Char) → Option Value
  | [] => some v
  | raw :: raws =>
    match v with
    | .obj fs =>
      match Fields.get (String.ofList (plainToken raw)) fs with
      | none => none
      | some x => walkTokens x raws
    | .arr xs =>
      match JsonInteger.parseInt (plainToken raw) with
      | none => none
      | some i =>
        if i < 0 then none
        else
          match xs[i.toInt.toNat]? with
          | none => none
          | some x => walkTokens x raws
    | _ => none

/-- `pointerValue`. -/
def pointerValue (v : Value) (p : String) : Option Value :=
  if p = "" then some v else walkTokens v (pointerTokens p)

/-! ### The pointers of stored files -/

/-- `strconv.ParseUint(v, 10, 63)`. -/
def parseUint63 (token : List Char) : Option ℕ :=
  match token.mapM digitOf with
  | none => none
  | some ds => if ds = [] then none else if digitsValue ds < 2 ^ 63 then some (digitsValue ds) else none

/-- The text of a part, as `schemaAt` reads it. -/
def storeToken : List Char → Option (List Char)
  | [] => some []
  | '~' :: '0' :: cs => (storeToken cs).map ('~' :: ·)
  | '~' :: '1' :: cs => (storeToken cs).map ('/' :: ·)
  | c :: cs => if c = '~' then none else (storeToken cs).map (c :: ·)

/-- The loop of `schemaAt`. -/
def schemaTokens (s : Schema) : List (List Char) → Option Schema
  | [] => some s
  | raw :: raws =>
    match storeToken raw with
    | none => none
    | some token =>
      match s.items with
      | some items =>
        match parseUint63 token with
        | none => none
        | some index =>
          if (decimal index).map digitChar ≠ token then none
          else if s.rules.maxItems.any fun maximum => index ≥ maximum.toUInt64.toNat then none
          else schemaTokens items raws
      | none =>
        match Fields.get (String.ofList token) s.properties with
        | none => none
        | some child => schemaTokens child raws

/-- `schemaAt`. -/
def schemaAt (s : Schema) (pointer : String) : Option Schema :=
  if pointer = "" then some s
  else if pointer.toList.head? ≠ some '/' then none
  else schemaTokens s (pointerTokens pointer)

/-! ### Escapes -/

/-- A part of a pointer and the text it stands for. -/
inductive Escaped : List Char → List Char → Prop
  | nil : Escaped [] []
  | plain {c : Char} {raw token : List Char} (hc : c ≠ '~') (h : Escaped raw token) : Escaped (c :: raw) (c :: token)
  | tilde {raw token : List Char} (h : Escaped raw token) : Escaped ('~' :: '0' :: raw) ('~' :: token)
  | slash {raw token : List Char} (h : Escaped raw token) : Escaped ('~' :: '1' :: raw) ('/' :: token)

variable {c : Char} {raw token : List Char} {raws : List (List Char)} {lib : Library} {s : Schema} {n d : ℕ}
  {l : Limits} {u u' : Usage} {xs : List Value} {fs : List (String × Value)} {pointer : String} {res : Schema × Bool}

theorem unescapePointer_cons (h : c ≠ '~') (cs : List Char) :
    unescapePointer (c :: cs) = (unescapePointer cs).map (c :: ·) := by
  rw [unescapePointer.eq_def]
  simp [h]

theorem Escaped.unescape (h : Escaped raw token) : unescapePointer raw = .ok token := by
  induction h with
  | nil => rfl
  | plain hc h ih =>
    rw [unescapePointer_cons hc, ih]
    rfl
  | tilde h ih | slash h ih =>
    rw [unescapePointer.eq_def]
    simp [ih, Except.map]

theorem escaped_of_unescape (h : unescapePointer raw = .ok token) : Escaped raw token := by
  induction hn : raw.length using Nat.strong_induction_on generalizing raw token with
  | h n ih =>
    subst hn
    cases raw with
    | nil =>
      cases h
      exact .nil
    | cons c cs =>
      by_cases hc : c = '~'
      · subst hc
        rw [unescapePointer.eq_def] at h
        simp only [ne_eq, not_true_eq_false, if_false] at h
        split at h
        · obtain ⟨ds, hds, rfl⟩ := except_map_eq_ok.mp h
          exact .tilde (ih _ (by simp) hds rfl)
        · obtain ⟨ds, hds, rfl⟩ := except_map_eq_ok.mp h
          exact .slash (ih _ (by simp) hds rfl)
        · cases h
      · rw [unescapePointer_cons hc, except_map_eq_ok] at h
        obtain ⟨ds, hds, rfl⟩ := h
        exact .plain hc (ih _ (by simp) hds rfl)

theorem Escaped.storeToken (h : Escaped raw token) : storeToken raw = some token := by
  induction h with
  | nil => rfl
  | plain hc h ih =>
    rw [Contract.storeToken.eq_def]
    simp [hc, ih]
  | tilde h ih | slash h ih =>
    rw [Contract.storeToken, ih]
    rfl

theorem replaceAll_cons {a x : Char} (h : x ≠ a) (b c : Char) (cs : List Char) :
    replaceAll a b c (x :: cs) = x :: replaceAll a b c cs := by
  cases cs with
  | nil => rfl
  | cons y cs => rw [replaceAll, if_neg fun hc => h hc.1]

theorem replaceAll_pair (a b c : Char) (cs : List Char) :
    replaceAll a b c (a :: b :: cs) = c :: replaceAll a b c cs := by
  rw [replaceAll, if_pos ⟨rfl, rfl⟩]

theorem replaceAll_other {b y : Char} (h : y ≠ b) (a c : Char) (cs : List Char) :
    replaceAll a b c (a :: y :: cs) = a :: replaceAll a b c (y :: cs) := by
  rw [replaceAll, if_neg fun hc => h hc.2]

theorem Escaped.plainToken (h : Escaped raw token) : plainToken raw = token := by
  unfold Contract.plainToken
  induction h with
  | nil => rfl
  | plain hc h ih => rw [replaceAll_cons hc, replaceAll_cons hc, ih]
  | tilde h ih => rw [replaceAll_other (by decide), replaceAll_cons (x := '0') (by decide), replaceAll_pair, ih]
  | slash h ih => rw [replaceAll_pair, replaceAll_cons (by decide), ih]

/-- The text of a member's name in a pointer. -/
def escapeToken (token : List Char) : List Char :=
  token.flatMap fun c => if c = '~' then ['~', '0'] else if c = '/' then ['~', '1'] else [c]

theorem escaped_escapeToken (token : List Char) : Escaped (escapeToken token) token := by
  induction token with
  | nil => exact .nil
  | cons c token ih =>
    rw [escapeToken, List.flatMap_cons, ← escapeToken]
    split_ifs with tilde slash
    · rw [tilde]
      exact .tilde ih
    · rw [slash]
      exact .slash ih
    · exact .plain tilde ih

theorem slash_not_mem_escapeToken (token : List Char) : '/' ∉ escapeToken token := by
  intro h
  obtain ⟨c, -, hc⟩ := List.mem_flatMap.mp h
  split_ifs at hc with tilde slash
  · simp at hc
  · simp at hc
  · exact slash (List.mem_singleton.mp hc).symm

/-- A part without a slash is the only one for its text. -/
theorem Escaped.escapeToken_eq (h : Escaped raw token) (hraw : '/' ∉ raw) : escapeToken token = raw := by
  induction h with
  | nil => rfl
  | plain hc h ih =>
    rw [List.mem_cons, not_or] at hraw
    rw [escapeToken, List.flatMap_cons, if_neg hc, if_neg (Ne.symm hraw.1), ← escapeToken, ih hraw.2]
    rfl
  | tilde h ih | slash h ih =>
    simp only [List.mem_cons, not_or] at hraw
    rw [escapeToken, List.flatMap_cons, ← escapeToken, ih hraw.2.2]
    rfl

/-! ### The parts of a pointer -/

/-- The text of a pointer with these parts. -/
def render (raws : List (List Char)) : List Char := raws.flatMap ('/' :: ·)

theorem render_eq_intercalate (h : raws ≠ []) : render raws = '/' :: ['/'].intercalate raws := by
  induction raws with
  | nil => exact absurd rfl h
  | cons raw raws ih =>
    cases raws with
    | nil => simp [render]
    | cons raw' raws =>
      rw [render, List.flatMap_cons, ← render, ih (by simp)]
      simp [List.intercalate]

theorem splitOn_render (hraws : ∀ raw ∈ raws, '/' ∉ raw) (h : raws ≠ []) :
    (render raws).tail.splitOn '/' = raws := by
  rw [render_eq_intercalate h, List.tail_cons, List.splitOn_intercalate '/' hraws h]

theorem render_splitOn (cs : List Char) : render (cs.splitOn '/') = '/' :: cs := by
  rw [render_eq_intercalate (List.splitOn_ne_nil '/' cs), List.intercalate_splitOn]

theorem slash_not_mem_splitOn (cs : List Char) : ∀ raw ∈ cs.splitOn '/', '/' ∉ raw := by
  induction cs with
  | nil => simp
  | cons c cs ih =>
    intro raw hraw
    rw [List.splitOn_cons_eq_if_modifyHead] at hraw
    split_ifs at hraw with hc
    · rcases List.mem_cons.mp hraw with rfl | hraw
      · exact List.not_mem_nil
      · exact ih raw hraw
    · cases hsplit : cs.splitOn '/' with
      | nil =>
        rw [hsplit] at hraw
        cases hraw
      | cons first rest =>
        rw [hsplit] at hraw ih
        rcases List.mem_cons.mp hraw with rfl | hraw
        · have hne : c ≠ '/' := by simpa using hc
          exact List.not_mem_cons_of_ne_of_not_mem hne.symm (ih first List.mem_cons_self)
        · exact ih raw (List.mem_cons_of_mem _ hraw)

/-! ### The nodes of an input schema -/

/-- What the rules of a node say about its shape: a node with properties takes objects, one with elements takes
arrays, and a file is no other value. -/
structure Shaped (r : Rules) (names : List String) (items : Bool) : Prop where
  nullable : r.nullable = false
  file : r.file.isSome → r.types = [.file]
  object : names ≠ [] → items = false ∧ ∀ t ∈ r.types, t = .object ∨ t = .null
  array : items = true → ∀ t ∈ r.types, t = .array ∨ t = .null

theorem CompiledNode.shaped (h : CompiledNode lib true s) :
    Shaped s.rules (s.properties.map Prod.fst) s.items.isSome := by
  cases h with
  | file h => exact ⟨rfl, fun _ => rfl, fun h => absurd rfl h, nofun⟩
  | @node r ps i a enum const default base declared =>
    refine ⟨base.notNullable rfl, fun h => ?_, fun h => ?_, base.array_only⟩
    · rw [Schema.rules_mk, base.noFile] at h
      cases h
    · have hps : ps ≠ [] := fun hnil => h (by rw [Schema.properties_mk, hnil, List.map_nil])
      refine ⟨?_, base.object_only hps⟩
      -- elements would make it an array as well
      by_contra hitems
      rw [Bool.not_eq_false] at hitems
      have hobject := base.object_of_set (base.set_of_properties hps)
      rcases base.array_only hitems _ hobject with hc | hc <;> cases hc

theorem InputSchema.shaped (h : InputSchema lib s) :
    s.Everywhere fun t => Shaped t.rules (t.properties.map Prod.fst) t.items.isSome := by
  obtain ⟨m, t, ht, hst⟩ := h
  have compiled := (compileSchema_eq_ok ht).imp fun t node => node.shaped
  rcases hst with rfl | ⟨max, hmax⟩
  · exact compiled
  · refine everywhere_resolve (P := fun r names items _ => Shaped r names items)
      (fun file hfile h => ?_) compiled hmax
    exact ⟨h.nullable, fun hf => h.file (hfile ▸ hf), h.object, h.array⟩

section
variable {lib : Library} {m : Mode}

variable {r : Rules} {t : JType}

/-- Where objects or arrays are the only values besides null, no other type fits. -/
theorem eq_of_wrongType {u : JType} (hkind : t = .object ∨ t = .array) (ht : t ∈ r.types) (hnull : .null ∉ r.types)
    (only : ∀ u ∈ r.types, u = t ∨ u = .null) (hu : wrongType r u = false) : u = t := by
  have hne : r.types ≠ [] := List.ne_nil_of_mem ht
  have hmem : u ∈ r.types ∨ .number ∈ r.types := by
    simp only [wrongType, hne, ne_eq, not_false_eq_true, decide_true, Bool.true_and, Bool.and_eq_false_iff,
      Bool.not_eq_false', Bool.and_eq_true, List.contains_iff_mem] at hu
    exact hu.imp_right And.right
  rcases hmem with hmem | hmem
  · rcases only u hmem with rfl | rfl
    · rfl
    · exact absurd hmem hnull
  · rcases only _ hmem with rfl | hc
    · rcases hkind with hc | hc <;> cases hc
    · cases hc

/-- A value accepted where objects or arrays are the only values. -/
theorem shape_of_accepts {ps : List (String × Schema)} {i a : Option Schema} {names : List String} {items : Bool}
    {v : Value} (h : Accepts lib m (.mk r ps i a) pointer v) (shaped : Shaped r names items)
    (hkind : t = .object ∨ t = .array) (ht : t ∈ r.types) (hnull : .null ∉ r.types)
    (only : ∀ u ∈ r.types, u = t ∨ u = .null) :
    r.file = none ∧ (t = .object → ∃ fs, v = .obj fs) ∧ (t = .array → ∃ xs, v = .arr xs) := by
  have hf : r.file = none := by
    by_contra hne
    have htypes := shaped.file (Option.isSome_iff_ne_none.mpr hne)
    rw [htypes, List.mem_singleton] at ht
    subst ht
    rcases hkind with hc | hc <;> cases hc
  have fits {u : JType} (hu : wrongType r u = false) : u = t := eq_of_wrongType hkind ht hnull only hu
  refine ⟨hf, ?_⟩
  cases v with
  | null =>
    rcases accepts_null.mp h with hc | ⟨-, hc | hc, -⟩
    · rw [shaped.nullable] at hc
      cases hc
    · rw [hc] at ht
      cases ht
    · exact absurd hc hnull
  | bool b =>
    have := fits ((accepts_bool hf).mp h).1
    subst this
    exact ⟨nofun, nofun⟩
  | str x =>
    have := fits ((accepts_str hf).mp h).1
    subst this
    exact ⟨nofun, nofun⟩
  | leaf l =>
    cases l with
    | file x => exact absurd h (not_accepts_file hf)
    | num n =>
      obtain ⟨u, k, hn, hu, -⟩ := (accepts_num hf).mp h
      have := fits hu
      subst this
      rcases normalizeNumber_eq_ok.mp hn with ⟨-, _, -, rfl, -⟩ | ⟨-, rfl, -⟩
      · exact ⟨nofun, nofun⟩
      · exact ⟨nofun, nofun⟩
  | arr xs =>
    have := fits ((accepts_arr hf).mp h).1
    subst this
    exact ⟨nofun, fun _ => ⟨xs, rfl⟩⟩
  | obj fs =>
    have := fits ((accepts_obj hf).mp h).1
    subst this
    exact ⟨fun _ => ⟨fs, rfl⟩, nofun⟩

end

/-! ### Array indices -/

/-- The text of an index. -/
def indexText (n : ℕ) : List Char := (decimal n).map digitChar

theorem digitChar_of_le (hlo : '0' ≤ c) (hhi : c ≤ '9') : ∃ d, digitChar d = c := by
  have hlo : 48 ≤ c.toNat := hlo
  have hhi : c.toNat ≤ 57 := hhi
  refine ⟨⟨c.toNat - 48, by omega⟩, ?_⟩
  rw [digitChar]
  have : 48 + (c.toNat - 48) = c.toNat := by omega
  rw [this, Char.ofNat_toNat]

/-- A canonical index is the text of its number. -/
theorem exists_indexText (h : canonicalIndex token = true) : ∃ n, token = indexText n := by
  rw [canonicalIndex, Bool.and_eq_true, Bool.not_eq_true', List.all_eq_true] at h
  obtain ⟨hform, hdigits⟩ := h
  have hmap : ∃ ds : List (Fin 10), ds.map digitChar = token := by
    clear hform
    induction token with
    | nil => exact ⟨[], rfl⟩
    | cons c token ih =>
      rw [List.forall_mem_cons] at hdigits
      obtain ⟨ds, rfl⟩ := ih hdigits.2
      have hc : '0' ≤ c ∧ c ≤ '9' := by simpa using hdigits.1
      obtain ⟨d, rfl⟩ := digitChar_of_le hc.1 hc.2
      exact ⟨d :: ds, rfl⟩
  obtain ⟨ds, rfl⟩ := hmap
  refine ⟨digitsValue ds, ?_⟩
  rw [indexText, decimal_digitsValue]
  cases ds with
  | nil => simp at hform
  | cons d ds =>
    by_cases hd : d = 0
    · subst hd
      have : ds = [] := by
        by_contra hne
        have := List.length_pos_iff.mpr hne
        simp [digitChar, this] at hform
      exact .inl (by rw [this]; rfl)
    · exact .inr ⟨d, ds, rfl, hd⟩

theorem parseInt_indexText (n : ℕ) : JsonInteger.parseInt (indexText n) = parseInt64 false n := by
  have := JsonInteger.parseInt_digits false (decimal_ne_nil n)
  rw [digitsValue_decimal] at this
  exact this

theorem parseUint63_indexText (h : n < 2 ^ 63) : parseUint63 (indexText n) = some n := by
  rw [parseUint63, indexText, JsonInteger.mapM_digitOf]
  simp only [decimal_ne_nil, if_false, digitsValue_decimal, h, if_true]

/-- The text of an index has nothing to escape. -/
theorem escaped_indexText (n : ℕ) : Escaped (indexText n) (indexText n) := by
  rw [indexText]
  induction decimal n with
  | nil => exact .nil
  | cons d ds ih =>
    refine .plain ?_ ih
    revert d
    decide

theorem slash_not_mem_indexText (n : ℕ) : '/' ∉ indexText n := by
  rw [indexText, List.mem_map]
  rintro ⟨d, -, hd⟩
  revert d
  decide

/-! ### Pointers built by validation -/

theorem toList_memberPointer (pointer k : String) :
    (memberPointer pointer k).toList = pointer.toList ++ render [escapeToken k.toList] := by
  rw [memberPointer, escapePointer]
  simp [render, escapeToken]

theorem toList_itemPointer (pointer : String) (n : ℕ) :
    (itemPointer pointer n).toList = pointer.toList ++ render [indexText n] := by
  rw [itemPointer]
  simp [render, indexText]

theorem render_cons (raw : List Char) (raws : List (List Char)) :
    render (raw :: raws) = render [raw] ++ render raws := by
  simp [render]

/-! ### Guaranteed positions -/

/-- A node of an input schema. -/
structure InputPosition (lib : Library) (s : Schema) : Prop where
  regular : Regular lib s
  owned : Owned s
  shaped : Shaped s.rules (s.properties.map Prod.fst) s.items.isSome

theorem InputSchema.positions (h : InputSchema lib s) : s.Everywhere (InputPosition lib) :=
  (everywhere_and h.regular (everywhere_and h.owned h.shaped)).imp fun _ ht => ⟨ht.1, ht.2.1.1, ht.2.1.2.1⟩

section
variable {lib : Library} {m : Mode}

variable {r : Rules} {ps : List (String × Schema)} {i a : Option Schema} {pointer : String} {cur child : Schema}
  {g : Bool} {raw : List Char} {raws : List (List Char)} {v : Value}

/-- The value of a property that is required or has a default. -/
theorem exists_propertyValue (hf : r.file = none)
    (h : Accepts lib m (.mk r ps i a) pointer (.obj fs)) (hm : m.defaults = true) {q : String × Schema} (hq : q ∈ ps)
    (hpresent : q.1 ∈ r.required ∨ q.2.rules.default.isSome) :
    ∃ x ∈ propertyValue m.defaults fs q.1 q.2, Accepts lib m q.2 (memberPointer pointer q.1) x := by
  obtain ⟨-, -, hreq, hacc, -⟩ := (accepts_obj hf).mp h
  cases hx : propertyValue m.defaults fs q.1 q.2 with
  | some x => exact ⟨x, rfl, hacc q hq x hx⟩
  | none =>
    rcases hpresent with hr | hd
    · exact absurd hr (hreq q hq hx)
    · rw [propertyValue, hm, if_pos rfl, Option.or_eq_none_iff] at hx
      rw [hx.2] at hd
      cases hd

/-- A step of `ResolvePointer` goes to a property or to the elements. -/
theorem resolveTokens_cons_eq_ok (h : resolveTokens cur g (raw :: raws) = .ok res) :
    ∃ token, Escaped raw token ∧
      ((∃ child, .object ∈ cur.rules.types ∧ Fields.get (String.ofList token) cur.properties = some child ∧
          resolveTokens child (g && !cur.rules.types.contains .null &&
            (cur.rules.required.contains (String.ofList token) || child.rules.default.isSome)) raws = .ok res) ∨
        ∃ (n : ℕ) (index : Int64) (child : Schema), .array ∈ cur.rules.types ∧ token = indexText n ∧
          index.toInt = n ∧ cur.items = some child ∧
          resolveTokens child (g && !cur.rules.types.contains .null && cur.rules.minItems.getD 0 > index) raws =
            .ok res) := by
  rw [resolveTokens, except_bind_eq_ok] at h
  obtain ⟨token, htoken, h⟩ := h
  refine ⟨token, escaped_of_unescape htoken, ?_⟩
  dsimp only at h
  by_cases hobject : cur.rules.types.contains .object = true
  · rw [if_pos hobject] at h
    cases hchild : Fields.get (String.ofList token) cur.properties with
    | none =>
      rw [hchild] at h
      cases h
    | some child =>
      rw [hchild] at h
      exact .inl ⟨child, List.contains_iff_mem.mp hobject, rfl, h⟩
  · rw [if_neg hobject] at h
    by_cases harray : cur.rules.types.contains .array = true
    · rw [if_pos harray] at h
      by_cases hcanonical : canonicalIndex token = true
      · obtain ⟨n, rfl⟩ := exists_indexText hcanonical
        rw [if_neg (by rw [hcanonical]; decide)] at h
        split at h
        · rename_i index child hindex hitems
          rw [parseInt_indexText, parseInt64_eq_some] at hindex
          exact .inr ⟨n, index, child, List.contains_iff_mem.mp harray, rfl, hindex, hitems, h⟩
        · cases h
      · rw [if_pos (by simpa using hcanonical)] at h
        cases h
    · rw [if_neg harray] at h
      cases h

/-- One step of the walk through a value that an object schema accepts. -/
theorem walk_property (position : InputPosition lib (.mk r ps i a)) (hobject : .object ∈ r.types)
    (hnull : .null ∉ r.types) {k : String} (hchild : Fields.get k ps = some child)
    (hpresent : k ∈ r.required ∨ child.rules.default.isSome) (hm : m.defaults = true)
    (ha : Accepts lib m (.mk r ps i a) pointer v) (hraw : Escaped raw k.toList) (raws : List (List Char)) :
    ∃ x, Accepts lib m child (memberPointer pointer k) x ∧
      walkTokens (read m.defaults (.mk r ps i a) v) (raw :: raws) = walkTokens (read m.defaults child x) raws := by
  have shaped : Shaped r (ps.map Prod.fst) i.isSome := position.shaped
  have hmem := Fields.mem_of_get hchild
  have hnames : ps.map Prod.fst ≠ [] := List.ne_nil_of_mem (List.mem_map_of_mem hmem)
  obtain ⟨hf, hobj, -⟩ := shape_of_accepts ha shaped (.inl rfl) hobject hnull (shaped.object hnames).2
  obtain ⟨fs, rfl⟩ := hobj rfl
  obtain ⟨x, hx, hax⟩ := exists_propertyValue hf ha hm hmem hpresent
  obtain ⟨gs, hread, hgs⟩ := membersRead m.defaults ps position.regular.distinct r i a fs
  have hget := hgs.property _ hmem
  rw [hx] at hget
  refine ⟨x, hax, ?_⟩
  rw [hread, walkTokens, hraw.plainToken, String.ofList_toList, hget]
  rfl

/-- One step of the walk through a value that an array schema accepts. -/
theorem walk_item (position : InputPosition lib (.mk r ps (some child) a)) (harray : .array ∈ r.types)
    (hnull : .null ∉ r.types) {index : Int64} (hindex : index.toInt = n) (hmin : r.minItems.getD 0 > index)
    (ha : Accepts lib m (.mk r ps (some child) a) pointer v) (raws : List (List Char)) :
    ∃ x, Accepts lib m child (itemPointer pointer n) x ∧
      walkTokens (read m.defaults (.mk r ps (some child) a) v) (indexText n :: raws) =
        walkTokens (read m.defaults child x) raws := by
  have shaped : Shaped r (ps.map Prod.fst) true := position.shaped
  obtain ⟨hf, -, harr⟩ := shape_of_accepts ha shaped (.inr rfl) harray hnull (shaped.array rfl)
  obtain ⟨xs, rfl⟩ := harr rfl
  obtain ⟨-, hlength, hacc, -⟩ := (accepts_arr hf).mp ha
  have hn : n < xs.length := by
    rw [gt_iff_lt, Int64.lt_iff_toInt_lt, hindex] at hmin
    cases hlo : r.minItems with
    | none =>
      rw [hlo] at hmin
      exact absurd hmin (not_lt.mpr (Int.natCast_nonneg n))
    | some lo =>
      rw [hlo, Option.getD_some] at hmin
      have := (lengthReason_eq_none.mp hlength).1 lo hlo
      omega
  refine ⟨xs[n], hacc (xs[n], n) ?_, ?_⟩
  · rw [List.mem_zipIdx_iff_getElem?, List.getElem?_eq_getElem hn]
  · have hparse : JsonInteger.parseInt (indexText n) = some index := by
      rw [parseInt_indexText, parseInt64_eq_some]
      exact hindex
    have hnonneg : ¬ index < 0 := by
      rw [Int64.lt_iff_toInt_lt, hindex]
      exact not_lt.mpr (Int.natCast_nonneg n)
    rw [read_arr, walkTokens, (escaped_indexText n).plainToken, hparse]
    simp only [hnonneg, if_false, hindex, Int.toNat_natCast, List.getElem?_map, List.getElem?_eq_getElem hn]
    rfl

/-- Every accepted value has, as it is read, a value at a guaranteed position, which satisfies the node there. -/
theorem walk_guaranteed {node : Schema} (hcur : cur.Everywhere (InputPosition lib)) (hraws : ∀ raw ∈ raws, '/' ∉ raw)
    (h : resolveTokens cur g raws = .ok (node, true)) (hm : m.defaults = true) :
    g = true ∧ ∀ pointer v, Accepts lib m cur pointer v → ∃ w q, walkTokens (read m.defaults cur v) raws = some w ∧
      q.toList = pointer.toList ++ render raws ∧ Accepts lib m node q w := by
  induction raws generalizing cur g with
  | nil =>
    cases h
    refine ⟨rfl, fun pointer v ha => ⟨_, pointer, rfl, ?_, ?_⟩⟩
    · rw [render, List.flatMap_nil, List.append_nil]
    · exact accepts_read (hcur.imp fun t ht => ht.regular) (hcur.imp fun t ht => ht.owned) ha
  | cons raw raws ih =>
    rw [List.forall_mem_cons] at hraws
    obtain ⟨r, ps, i, a⟩ := cur
    cases hcur with
    | mk position properties items additional =>
      obtain ⟨token, hraw, hstep⟩ := resolveTokens_cons_eq_ok h
      rcases hstep with ⟨child, hobject, hchild, h⟩ | ⟨n, index, child, harray, rfl, hindex, rfl, h⟩
      · obtain ⟨hg, hwalk⟩ := ih (properties _ (Fields.mem_of_get hchild)) hraws.2 h
        simp only [Bool.and_eq_true, Bool.or_eq_true, Bool.not_eq_true', List.contains_iff_mem] at hg
        obtain ⟨⟨hg, hnull⟩, hpresent⟩ := hg
        refine ⟨hg, fun pointer v ha => ?_⟩
        have hnull : .null ∉ r.types := by simpa using hnull
        obtain ⟨x, hax, hx⟩ := walk_property position hobject hnull hchild hpresent hm ha
          (by rw [String.toList_ofList]; exact hraw) raws
        obtain ⟨w, q, hw, hq, haw⟩ := hwalk _ x hax
        refine ⟨w, q, hx.trans hw, ?_, haw⟩
        rw [hq, toList_memberPointer, String.toList_ofList, hraw.escapeToken_eq hraws.1,
          List.append_assoc, ← render_cons]
      · obtain ⟨hg, hwalk⟩ := ih (items child rfl) hraws.2 h
        simp only [Bool.and_eq_true, Bool.not_eq_true', decide_eq_true_eq] at hg
        obtain ⟨⟨hg, hnull⟩, hmin⟩ := hg
        refine ⟨hg, fun pointer v ha => ?_⟩
        have hnull : .null ∉ r.types := by simpa using hnull
        obtain rfl : indexText n = raw := by
          rw [← hraw.escapeToken_eq hraws.1, (escaped_indexText n).escapeToken_eq (slash_not_mem_indexText n)]
        obtain ⟨x, hax, hx⟩ := walk_item position harray hnull hindex hmin ha raws
        obtain ⟨w, q, hw, hq, haw⟩ := hwalk _ x hax
        refine ⟨w, q, hx.trans hw, ?_, haw⟩
        rw [hq, toList_itemPointer, List.append_assoc, ← render_cons]

end

/-! ### File leaves -/

/-- The value was within the limits when it was visited. -/
def Visited (l : Limits) (v : Value) : Prop := ∃ d u u', checkValue l d v u = .ok u'

theorem visited_of_checkJSONLimits {v : Value} (h : checkJSONLimits l v = .ok ()) : Visited l v := by
  unfold checkJSONLimits at h
  split at h
  · cases h
  · obtain ⟨u, hu, -⟩ := except_map_eq_ok.mp h
    exact ⟨1, {}, u, hu⟩

theorem addBytes_eq_ok (h : u.addBytes l n = .ok u') :
    (u.bytes + n : ℤ) ≤ l.maxBytes.toInt ∧ u' = { u with bytes := u.bytes + n } := by
  unfold Usage.addBytes at h
  split at h
  · cases h
  · rename_i hle
    exact ⟨not_lt.mp hle, (Except.ok.inj h).symm⟩

theorem visited_of_mem_items (h : checkItems l d xs u = .ok u') : ∀ x ∈ xs, Visited l x := by
  induction xs generalizing u with
  | nil => exact nofun
  | cons x xs ih =>
    obtain ⟨u₁, hx, hxs⟩ := except_bind_eq_ok.mp h
    exact List.forall_mem_cons.mpr ⟨⟨d, u, u₁, hx⟩, ih hxs⟩

theorem visited_of_mem_fields (h : checkFields l d fs u = .ok u') : ∀ f ∈ fs, Visited l f.2 := by
  induction fs generalizing u with
  | nil => exact nofun
  | cons f fs ih =>
    obtain ⟨u₁, hf, hfs⟩ := except_bind_eq_ok.mp h
    obtain ⟨u₂, -, hf⟩ := except_bind_eq_ok.mp hf
    exact List.forall_mem_cons.mpr ⟨⟨d, u₂, u₁, hf⟩, ih hfs⟩

/-- An array within the limits is shorter than `2 ^ 63`: each of its commas is a byte. -/
theorem Visited.arr (h : Visited l (.arr xs)) : xs.length < 2 ^ 63 ∧ ∀ x ∈ xs, Visited l x := by
  obtain ⟨d, u, u', h⟩ := h
  rw [checkValue] at h
  obtain ⟨u₁, h, hitems⟩ := except_bind_eq_ok.mp h
  obtain ⟨u₀, -, hbytes⟩ := except_bind_eq_ok.mp h
  refine ⟨?_, visited_of_mem_items hitems⟩
  have := (addBytes_eq_ok hbytes).1
  have := l.maxBytes.toInt_lt
  omega

theorem Visited.obj (h : Visited l (.obj fs)) : ∀ f ∈ fs, Visited l f.2 := by
  obtain ⟨d, u, u', h⟩ := h
  rw [checkValue] at h
  obtain ⟨u₁, -, hfields⟩ := except_bind_eq_ok.mp h
  exact visited_of_mem_fields hfields

theorem mem_leavesProperties {m : Mode} {ps : List (String × Schema)} {leaf : FileLeaf}
    (h : leaf ∈ leavesProperties m pointer fs ps) :
    ∃ q ∈ ps, ∃ x ∈ propertyValue m.defaults fs q.1 q.2, leaf ∈ leaves m q.2 (memberPointer pointer q.1) x := by
  induction ps with
  | nil => cases h
  | cons q ps ih =>
    rw [leavesProperties] at h
    cases hx : propertyValue m.defaults fs q.1 q.2 with
    | none =>
      rw [hx] at h
      obtain ⟨q', hq', hleaf⟩ := ih h
      exact ⟨q', List.mem_cons_of_mem _ hq', hleaf⟩
    | some x =>
      rw [hx] at h
      rcases List.mem_append.mp h with h | h
      · exact ⟨q, List.mem_cons_self, x, hx, h⟩
      · obtain ⟨q', hq', hleaf⟩ := ih h
        exact ⟨q', List.mem_cons_of_mem _ hq', hleaf⟩

/-- The node of a file in one request, which may lower its limit. -/
def Schema.limited (limit : Int64) (s : Schema) : Schema :=
  .mk { s.rules with file := s.rules.file.map fun f => f.effective limit } s.properties s.items s.additional

section
variable {lib : Library} {m : Mode}

variable {r : Rules} {ps : List (String × Schema)} {a : Option Schema}

/-- A step of `schemaAt` to a property. -/
theorem schemaTokens_property {i : Option Schema} (position : InputPosition lib (.mk r ps i a)) {q : String × Schema}
    (hq : q ∈ ps) (raws : List (List Char)) :
    schemaTokens (.mk r ps i a) (escapeToken q.1.toList :: raws) = schemaTokens q.2 raws := by
  have hnames : ps.map Prod.fst ≠ [] := List.ne_nil_of_mem (List.mem_map_of_mem hq)
  have hitems : i = none := by
    have := (position.shaped.object hnames).1
    simpa using this
  have hdistinct : (ps.map Prod.fst).Nodup := position.regular.distinct
  rw [schemaTokens, (escaped_escapeToken q.1.toList).storeToken]
  simp only [Schema.items_mk, hitems, Schema.properties_mk, String.ofList_toList, Fields.get_of_mem hdistinct hq]

/-- A step of `schemaAt` to an element of an accepted array. -/
theorem schemaTokens_item {child : Schema} {n length : ℕ} (hn : n < length) (hlength : length < 2 ^ 63)
    (hbounds : lengthReason r length = none) (raws : List (List Char)) :
    schemaTokens (.mk r ps (some child) a) (indexText n :: raws) = schemaTokens child raws := by
  have hmax : (r.maxItems.any fun maximum => decide (n ≥ maximum.toUInt64.toNat)) = false := by
    cases hhi : r.maxItems with
    | none => rfl
    | some hi =>
      have hle := (lengthReason_eq_none.mp hbounds).2 hi hhi
      have hcast : hi.toUInt64.toNat = hi.toInt.toNat := by
        refine Int64.toNat_toUInt64_of_le ?_
        rw [Int64.le_iff_toInt_le]
        exact (Int.natCast_nonneg length).trans hle
      have : ¬ n ≥ hi.toUInt64.toNat := by omega
      simpa using this
  rw [schemaTokens, (escaped_indexText n).storeToken]
  simp only [Schema.items_mk, parseUint63_indexText (hn.trans hlength), Schema.rules_mk, hmax,
    Bool.false_eq_true, if_false]
  rw [indexText, if_neg (not_not.mpr rfl)]

/-- The leaves of an accepted value are where `schemaAt` finds their nodes. -/
theorem schemaTokens_of_mem_leaves {v : Value} {leaf : FileLeaf}
    (hs : s.Everywhere (InputPosition lib)) (ha : Accepts lib m s pointer v) (hv : Visited l v)
    (h : leaf ∈ leaves m s pointer v) :
    ∃ raws node, leaf.pointer.toList = pointer.toList ++ render raws ∧ (∀ raw ∈ raws, '/' ∉ raw) ∧
      schemaTokens s raws = some node ∧ node.rules.file.isSome ∧ leaf.schema = node.limited m.fileLimit := by
  induction s, v using Schema.induct_below generalizing pointer with
  | step r ps i a v hps hi hother =>
    cases hs with
    | mk position properties items additional =>
      cases hf : r.file with
      | some f =>
        rw [leaves.eq_def] at h
        dsimp only at h
        rw [hf] at h
        dsimp only at h
        split at h
        · rw [List.mem_singleton] at h
          subst h
          refine ⟨[], .mk r ps i a, by simp [render], nofun, rfl, by simp [hf], ?_⟩
          simp [Schema.limited, hf]
        · cases h
      | none =>
        cases v with
        | arr xs =>
          rw [leaves_arr m hf, List.mem_flatMap] at h
          obtain ⟨⟨x, n⟩, hx, h⟩ := h
          obtain ⟨-, hbounds, hacc, -⟩ := (accepts_arr hf).mp ha
          obtain ⟨hlength, hitems⟩ := hv.arr
          cases i with
          | none =>
            rw [below, Option.getD_none, leaves_free] at h
            cases h
          | some child =>
            have hmem := List.fst_mem_of_mem_zipIdx hx
            obtain ⟨raws, node, hpointer, hraws, hnode, hleaf⟩ :=
              hi x hmem (items child rfl) (hacc _ hx) (hitems x hmem) h
            have hn : n < xs.length := by
              have := List.snd_lt_of_mem_zipIdx hx
              omega
            refine ⟨indexText n :: raws, node, ?_, ?_, ?_, hleaf⟩
            · rw [hpointer, toList_itemPointer, List.append_assoc, ← render_cons]
            · exact List.forall_mem_cons.mpr ⟨slash_not_mem_indexText n, hraws⟩
            · rw [schemaTokens_item hn hlength hbounds]
              exact hnode
        | obj fs =>
          rw [leaves_obj m hf, List.mem_append] at h
          obtain ⟨-, -, -, hacc, -⟩ := (accepts_obj hf).mp ha
          rcases h with h | h
          · obtain ⟨q, hq, x, hx, h⟩ := mem_leavesProperties h
            rcases propertyValue_cases position.regular hq hx with hget | ⟨hfiles, -⟩
            · have hvisited := hv.obj _ (Fields.mem_of_get hget)
              obtain ⟨raws, node, hpointer, hraws, hnode, hleaf⟩ :=
                hps q hq x (properties q hq) (hacc q hq x hx) hvisited h
              refine ⟨escapeToken q.1.toList :: raws, node, ?_, ?_, ?_, hleaf⟩
              · rw [hpointer, toList_memberPointer, List.append_assoc, ← render_cons]
              · exact List.forall_mem_cons.mpr ⟨slash_not_mem_escapeToken _, hraws⟩
              · rw [schemaTokens_property position hq]
                exact hnode
            · rw [leaves_of_hasFiles hfiles] at h
              cases h
          · obtain ⟨f, -, h⟩ := List.mem_flatMap.mp h
            have hfiles : (below a).hasFiles = false := position.regular.others
            rw [leaves_of_hasFiles hfiles] at h
            cases h
        | null | bool b | str x | leaf x =>
          rw [leaves.eq_def] at h
          dsimp only at h
          rw [hf] at h
          cases h

end

/-! ### The resolvers of a request -/

theorem toList_eq_render (hne : pointer ≠ "") (hslash : pointer.toList.head? = some '/') :
    pointer.toList = render (pointerTokens pointer) := by
  rw [pointerTokens, render_splitOn]
  cases hp : pointer.toList with
  | nil => exact absurd (String.toList_eq_nil_iff.mp hp) hne
  | cons c cs =>
    rw [hp] at hslash
    cases hslash
    rfl

theorem resolvePointer_eq_ok (h : resolvePointer s pointer = .ok res) :
    pointer = "" ∧ res = (s, true) ∨ pointer ≠ "" ∧ pointer.toList = render (pointerTokens pointer) ∧
      resolveTokens s true (pointerTokens pointer) = .ok res := by
  unfold resolvePointer at h
  split_ifs at h with hempty hslash
  · exact .inl ⟨hempty, (Except.ok.inj h).symm⟩
  · exact .inr ⟨hempty, toList_eq_render hempty (not_not.mp hslash), h⟩

/-- Every part of a pointer that resolves is escaped in the one way that both resolvers undo. -/
theorem escaped_of_resolveTokens {cur : Schema} {g : Bool} (h : resolveTokens cur g raws = .ok res) :
    ∀ raw ∈ raws, ∃ token, Escaped raw token := by
  induction raws generalizing cur g with
  | nil => exact nofun
  | cons raw raws ih =>
    obtain ⟨token, hraw, hstep⟩ := resolveTokens_cons_eq_ok h
    refine List.forall_mem_cons.mpr ⟨⟨token, hraw⟩, ?_⟩
    rcases hstep with ⟨child, -, -, h⟩ | ⟨n, index, child, -, -, -, -, h⟩
    · exact ih h
    · exact ih h

theorem schemaAt_of_render (hraws : ∀ raw ∈ raws, '/' ∉ raw) (h : pointer.toList = render raws) :
    schemaAt s pointer = schemaTokens s raws := by
  cases raws with
  | nil =>
    have : pointer = "" := String.toList_eq_nil_iff.mp h
    rw [schemaAt, if_pos this, schemaTokens]
  | cons raw raws =>
    have hne : pointer ≠ "" := by
      rintro rfl
      cases h
    have hhead : pointer.toList.head? = some '/' := by
      rw [h]
      rfl
    rw [schemaAt, if_neg hne, if_neg (not_not.mpr hhead), pointerTokens, h,
      splitOn_render hraws (List.cons_ne_nil _ _)]

/-- A guaranteed binding finds a value that satisfies its node in every accepted input as it is returned; both
resolvers read the parts of a pointer alike; and a file leaf carries the node that is stored for its pointer, a copy
of it whose `max_bytes` the limit of the request bounds where it has one. -/
theorem bindings_hold {lib : Library} {s : Schema} (hs : InputSchema lib s) :
    (∀ pointer node, resolvePointer s pointer = .ok (node, true) →
      ∀ l x v ls, validateInput lib s l x = .ok (v, ls) →
        ∃ w, pointerValue v pointer = some w ∧ Accepts lib l.mode node pointer w) ∧
    (∀ pointer res, resolvePointer s pointer = .ok res →
      ∀ raw ∈ pointerTokens pointer, unescapePointer raw = .ok (plainToken raw)) ∧
    ∀ l x v ls, validateInput lib s l x = .ok (v, ls) → ∀ leaf ∈ ls, ∃ node, schemaAt s leaf.pointer = some node ∧
      node.rules.file.isSome ∧ leaf.schema = node.limited l.maxFileBytes := by
  refine ⟨?_, ?_, ?_⟩
  · intro pointer node h l x v ls hvalid
    obtain ⟨-, ha, rfl, -⟩ := validateInput_eq_ok.mp hvalid
    rcases resolvePointer_eq_ok h with ⟨rfl, hres⟩ | ⟨hne, hrender, h⟩
    · obtain ⟨rfl, -⟩ := Prod.mk.inj hres
      exact ⟨_, rfl, accepts_read hs.regular hs.owned ha⟩
    · obtain ⟨-, hwalk⟩ := walk_guaranteed (m := l.mode) hs.positions (slash_not_mem_splitOn _) h rfl
      obtain ⟨w, q, hw, hq, haw⟩ := hwalk "" _ ha
      have : q = pointer := by
        apply String.toList_injective
        exact hq.trans hrender.symm
      subst this
      refine ⟨w, ?_, haw⟩
      rw [pointerValue, if_neg hne]
      exact hw
  · intro pointer res h raw hraw
    rcases resolvePointer_eq_ok h with ⟨rfl, -⟩ | ⟨-, -, h⟩
    · obtain rfl : raw = [] := by simpa [pointerTokens] using hraw
      rfl
    · obtain ⟨token, htoken⟩ := escaped_of_resolveTokens h raw hraw
      rw [htoken.plainToken]
      exact htoken.unescape
  · intro l x v ls hvalid leaf hleaf
    obtain ⟨hlimits, ha, -, rfl, -⟩ := validateInput_eq_ok.mp hvalid
    obtain ⟨raws, node, hpointer, hraws, hnode, hfile, hschema⟩ :=
      schemaTokens_of_mem_leaves hs.positions ha (visited_of_checkJSONLimits hlimits) hleaf
    refine ⟨node, ?_, hfile, hschema⟩
    rw [schemaAt_of_render hraws hpointer]
    exact hnode

/-- An array with an element and a file, both required; the name of the array needs an escape. -/
def bindingRaw : RawMap where
  fields := [("properties", .obj [
    ("a/b", .obj [("type", .str "array"), ("items", .obj [("type", .str "integer")]), ("minItems", .leaf (.int 1))]),
    ("f", .obj [("type", .str "file"), ("max_bytes", .leaf (.int 10))])]),
    ("required", .arr [.str "a/b", .str "f"])]
  distinct := by decide

def bindingSchema : Schema :=
  .mk { types := [.object], propertiesSet := true, required := ["a/b", "f"] }
    [("a/b", .mk { types := [.array], minItems := some 1 } []
      (some (.mk { types := [.integer] } [] none none)) none),
        ("f", .mk { types := [.file], file := some { maxBytes := 10 } } [] none none)] none none

theorem bindingSchema_compiled : InputSchema .bare bindingSchema := ⟨bindingRaw, bindingSchema, rfl, .inl rfl⟩

def boundFile : FileValue where
  pointer := "/f"
  id := "1"
  name := "a.txt"
  mimeType := "text/plain"
  sha256 := String.ofList (List.replicate 64 '0')
  requestID := "r"
  sizeBytes := 3

def boundInput : List (String × Value) := [("a/b", .arr [Value.num (.int64 7)]), ("f", Value.file boundFile)]

def boundLimits : Limits := { smallLimits with maxFileBytes := 5, maxFiles := 1 }

def boundLeaf : FileLeaf :=
  ⟨"/f", boundFile, .mk { types := [.file], file := some { maxBytes := 5 } } [] none none⟩

theorem validateInput_bound :
    validateInput .bare bindingSchema boundLimits boundInput = .ok (.obj boundInput, [boundLeaf]) := by
  refine validateInput_eq_ok.mpr ⟨?_, ?_, ?_, ?_, ?_, ?_⟩
  · decide +kernel
  · decide +kernel
  · decide +kernel
  · rfl
  · decide +kernel
  · decide +kernel

theorem resolvePointer_bound :
    resolvePointer bindingSchema "/a~1b/0" = .ok (.mk { types := [.integer] } [] none none, true) := by
  have htokens : pointerTokens "/a~1b/0" = [['a', '~', '1', 'b'], ['0']] := by decide +kernel
  rw [resolvePointer, if_neg (by decide), if_neg (by decide), htokens]
  rfl

theorem bindings_hold_nested :
    InputSchema .bare bindingSchema ∧
      validateInput .bare bindingSchema boundLimits boundInput = .ok (.obj boundInput, [boundLeaf]) ∧
      (∃ w, pointerValue (.obj boundInput) "/a~1b/0" = some w ∧
        Accepts .bare boundLimits.mode (.mk { types := [.integer] } [] none none) "/a~1b/0" w) ∧
      ∃ node, schemaAt bindingSchema boundLeaf.pointer = some node ∧ node.rules.file.isSome ∧
        boundLeaf.schema = node.limited boundLimits.maxFileBytes := by
  obtain ⟨guaranteed, -, files⟩ := bindings_hold bindingSchema_compiled
  refine ⟨bindingSchema_compiled, validateInput_bound, ?_, ?_⟩
  · exact guaranteed _ _ resolvePointer_bound _ _ _ _ validateInput_bound
  · exact files _ _ _ _ validateInput_bound boundLeaf (List.mem_singleton_self boundLeaf)

end Onprest.Contract
